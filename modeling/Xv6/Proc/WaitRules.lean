import Xv6.Proc.FilesRules

/-!
# `wait` obeys the discipline

While a process holds `wait_lock`, nobody exits and nobody gives or takes a
parent, so its exited children stay what they are.  Between the moment at
which it collects one and the end of `freeproc`, `wait_lock` protects all
exited processes but that one; `Collecting` says so.
-/

namespace Xv6

open Conc Conc.Machine

variable {K : Known} {t : Tid} {n : Nat} {S S' : List Lock} {F G : Table → Prop} {l : Lock}
variable {p q pp : Slot} {α β γ : Type}

/-! ## Children, while `wait_lock` is held -/

/-- Under `wait_lock` the parent of a process changes only in its own thread. -/
theorem parent_iff {s : Kernel} {w : Write} (hwait : .wait ∈ S) (hr : Rely K (.proc p) S s w) :
    (w.table s.proc q).parent = some p ↔ (s.proc q).parent = some p := by
  obtain ⟨c, hc, hl, ha, hw, -⟩ := hr
  have hlw := hl _ hwait
  obtain hp | ⟨v, rfl, hp⟩ := w.table_parent s.proc q
  · rw [hp]
  · rw [hp]
    simp only [writeOK, parentOK] at hw
    grind

/-- Under `wait_lock` nobody else becomes a zombie, and no zombie is freed. -/
theorem zombie_iff {s : Kernel} {w : Write} (hinv : Inv K s) (hwait : .wait ∈ S)
    (hr : Rely K (.proc p) S s w) :
    Table.ZombieChild (w.table s.proc) p q ↔ Table.ZombieChild s.proc p q := by
  have hparent := parent_iff (q := q) hwait hr
  have horphan := hinv.forest.orphan q
  obtain ⟨c, hc, hl, ha, hw, -⟩ := hr
  have hlw := hl _ hwait
  unfold Table.ZombieChild
  rw [hparent]
  refine and_congr_right fun hq => ?_
  obtain hs | ⟨v, rfl, hs⟩ := w.table_state s.proc q
  · rw [hs]
  · cases v <;> (simp only [Write.table, writeOK, stateOK, Freeing, Table.Owned] at hw ⊢; grind)

theorem childOf_stab (hwait : .wait ∈ S) : Stab K (.proc p) S fun T => (T q).parent = some p :=
  fun _ _ _ hr h => (parent_iff hwait hr).2 h

theorem zombieChild_stab (hwait : .wait ∈ S) :
    Stab K (.proc p) S fun T => Table.ZombieChild T p q :=
  fun _ _ hinv hr h => (zombie_iff hinv hwait hr).2 h

/-- How a zombie ended is settled. -/
theorem zombie_fields_stab (hwait : .wait ∈ S)
    (P : Option Termination → I32 → Option (List Byte) → Prop) :
    Stab K (.proc p) S fun T =>
      Table.ZombieChild T p q ∧ P (T q).ended (T q).xstatus (T q).message := by
  intro s w hinv hr h
  refine ⟨zombieChild_stab hwait s w hinv hr h.1, ?_⟩
  obtain ⟨⟨-, hz⟩, hP⟩ := h
  obtain ⟨c, hc, hl, ha, hw, -⟩ := hr
  have hended : (w.table s.proc q).ended = (s.proc q).ended := by
    obtain he | ⟨v, rfl, -⟩ := w.table_ended s.proc q
    · exact he
    · simp only [writeOK] at hw
      grind
  have hxstatus : (w.table s.proc q).xstatus = (s.proc q).xstatus := by
    obtain he | ⟨v, rfl, -⟩ := w.table_xstatus s.proc q
    · exact he
    · simp only [writeOK] at hw
      grind
  have hmessage : (w.table s.proc q).message = (s.proc q).message := by
    obtain he | ⟨v, rfl, -⟩ := w.table_message s.proc q
    · exact he
    · simp only [writeOK] at hw
      grind
  rwa [hended, hxstatus, hmessage]

/-! ## Collecting a child -/

/-- A process itself counts the children that it collects. -/
theorem reaped_frame {v : Nat} : Frame K (.proc p) S fun T => (T p).reaped = v where
  stab := by
    intro s w hinv hr h
    obtain ⟨c, hc, hl, ha, hw, -⟩ := hr
    have hne : s.current c ≠ some p := fun h => hc (Kernel.running_eq_proc.2 h)
    obtain hp | ⟨v', rfl, -⟩ | ⟨pp, rfl, -⟩ := w.table_reaped s.proc p
    · exact hp.trans h
    · exact absurd hw hne
    · exact absurd hw.1 hne
  mild T w hw h := by
    obtain hp | ⟨v', rfl, -⟩ | ⟨pp, rfl, -⟩ := w.table_reaped T p
    · exact hp.trans h
    · exact hw.elim
    · exact hw.elim

/-- What `wait_lock` protects while `pp` is being collected. -/
def Collecting (K : Known) (pp : Slot) (T : Table) : Prop :=
  Quiet none T ∧ Settled K (some pp) T ∧ ((T pp).state = .zombie → (T pp).reaps = 1)

namespace Collecting

variable {T : Table}

theorem stab (hwait : .wait ∈ S) : Stab K t S (Collecting K pp) := by
  intro s w hinv hr h
  obtain ⟨c, hc, hl, ha, hw, -⟩ := hr
  have hlw := hl _ hwait
  obtain ⟨hquiet, hsettled, hreaps⟩ := h
  refine ⟨hquiet.kept hw hlw, hsettled.kept hw hlw, fun hz => ?_⟩
  obtain hz' | ⟨-, hok⟩ := Inv.zombie_cases hw hz
  · obtain hr | ⟨v, rfl, -⟩ | ⟨q, rfl, -⟩ := w.table_reaps s.proc pp
    · rw [hr]
      exact hreaps hz'
    · exact absurd (hw.2.1.symm.trans hz') (by simp)
    · exact absurd hw.2.1 hlw
  · exact absurd hok.2.1 hlw

/-- A child is collected while `wait_lock` is held. -/
theorem of_reap (h : LockInv K .wait T) (hz : T.ZombieChild p pp) :
    Collecting K pp ((Write.reap p pp).table T) := by
  obtain ⟨hquiet, hsettled⟩ := h
  refine ⟨fun r q hr hd hzr => hquiet r q hr hd hzr, fun q hq hzq => ?_, fun _ => ?_⟩
  · have hqp : q ≠ pp := fun h => hq (congrArg some h)
    obtain ⟨hparent, hreaps, hpid⟩ := hsettled q (by simp) hzq
    refine ⟨hparent, ?_, hpid⟩
    simp only [Write.table, if_neg hqp]
    exact hreaps
  · have := (hsettled pp (by simp) hz.2).2.1
    simp only [Write.table, if_pos, this]

/-- `freeproc` keeps it. -/
theorem frees {w : Write} (hw : Frees pp w) (h : Collecting K pp T) :
    Collecting K pp (w.table T) := by
  obtain ⟨hquiet, hsettled, hreaps⟩ := h
  refine ⟨fun r q hr hd hz => ?_, fun q hq hz => ?_, fun hz => ?_⟩
  · have hd' : (T r).dozing = true := by
      obtain hd' | ⟨v, rfl, -⟩ := w.table_dozing T r
      · rwa [← hd']
      · exact hw.elim
    refine hquiet r q hr hd' ?_
    obtain ⟨hparent, hstate⟩ := hz
    constructor
    · obtain hp | ⟨v, rfl, hp⟩ := w.table_parent T q
      · rwa [← hp]
      · rw [hparent] at hp
        cases hp.trans hw.2
    · obtain hs | ⟨v, rfl, hs⟩ := w.table_state T q
      · rwa [← hs]
      · rw [hstate] at hs
        cases hs.trans hw.2
  · have hqp : q ≠ pp := fun h => hq (congrArg some h)
    have hT : w.table T q = T q := by
      cases w <;> first
        | exact hw.elim
        | exact if_neg (hw.1 ▸ hqp)
    rw [hT] at hz ⊢
    exact hsettled q hq hz
  · have hz' : (T pp).state = .zombie := by
      obtain hs | ⟨v, rfl, hs⟩ := w.table_state T pp
      · rwa [← hs]
      · rw [hz] at hs
        cases hs.trans hw.2
    obtain hr | ⟨v, rfl, -⟩ | ⟨r, rfl, -⟩ := w.table_reaps T pp
    · rw [hr]
      exact hreaps hz'
    · exact hw.elim
    · exact hw.elim

/-- Once the slot is free, `wait_lock` protects everything again. -/
theorem done (h : Collecting K pp T) (hunused : (T pp).state = .unused) :
    LockInv K .wait T := by
  refine ⟨h.1, fun q _ hz => h.2.1 q (fun hq => ?_) hz⟩
  rw [Option.some.inj hq, hunused] at hz
  cases hz

end Collecting

/-! ## `wait` -/

/-- What `wait_lock` protects, while the process has collected nobody. -/
def Waiting (K : Known) (p : Slot) (T : Table) : Prop := (T p).reaped = 0 ∧ LockInv K .wait T

theorem Waiting.stab (hwait : .wait ∈ S) : Stab K (.proc p) S (Waiting K p) :=
  reaped_frame.stab.and (lockInv_stab hwait)

/-- `wait` that returns -1 has collected nobody, if no child has that id. -/
def Ends (K : Known) (p : Slot) (r : I32) (T : Table) : Prop :=
  K .found → r = -1 → (T p).reaped = 0

theorem ends_frame {r : I32} : Frame K (.proc p) S (Ends K p r) :=
  .imp fun _ => .imp fun _ => reaped_frame

/-- Give up `wait_lock`, with nobody collected. -/
theorem release_wait_spec :
    (discipline K).Triple (.proc p) (On (.proc p) [.wait] (Waiting K p)) (release .wait)
      fun _ => On (.proc p) [] (Ends K p (-1)) := by
  refine (release_other (l := .wait) (by simp) reaped_frame.stab fun _ =>
    kerneltrap_moves _ reaped_frame).post fun _ s hs => ?_
  exact hs.imp fun T hT _ _ => hT

/-- An exited child, with both locks held, before it is collected. -/
structure Found (K : Known) (p pp : Slot) (T : Table) : Prop where
  child : T.ZombieChild p pp
  waiting : Waiting K p T
  dozing : (T pp).dozing = false

theorem Found.stab (hwait : .wait ∈ S) (hpp : .proc pp ∈ S) :
    Stab K (.proc p) S (Found K p pp) := by
  intro s w hinv hr h
  exact ⟨zombieChild_stab hwait s w hinv hr h.child, Waiting.stab hwait s w hinv hr h.waiting,
    dozing_stab hpp s w hinv hr h.dozing⟩

/-- The lock of an exited child can be released at any time. -/
theorem Found.guarded {T : Table} (h : Found K p pp T) (hne : pp ≠ p) :
    Guarded K (.proc p) pp T := by
  have hz := h.child.2
  refine ⟨⟨fun _ hs => ?_, fun hd => ?_, fun _ hu => ?_, fun _ _ hn => absurd hz hn⟩,
    fun ht => absurd (Tid.proc.inj ht).symm hne⟩
  · rw [hz] at hs
    cases hs
  · rw [h.dozing] at hd
    cases hd
  · rw [hz] at hu
    cases hu

/-- Give up the lock of an exited child, and `wait_lock`. -/
theorem release_both_spec (hne : pp ≠ p) :
    (discipline K).Triple (.proc p) (On (.proc p) [.proc pp, .wait] (Found K p pp)) (do
      release (.proc pp)
      release .wait
      return (-1 : I32)) fun r => On (.proc p) [] (Ends K p r) := by
  refine Logic.Triple.bind (Logic.Triple.pre (release_proc (S := [.wait])
    (Waiting.stab List.mem_cons_self) fun h => nomatch h) fun s hs =>
    hs.imp fun T hT => ⟨hT.waiting, hT.guarded hne⟩) fun _ => ?_
  exact release_wait_spec.bind fun _ s hs => hs

theorem storeStatus_spec {addr : U64} {v : I32} (hF : Stab K t S F) :
    (discipline K).Triple t (At t n S F) (storeStatus p addr v) fun _ => At t n S F := by
  unfold storeStatus
  by_cases haddr : addr ≠ 0
  · rw [if_pos haddr]
    exact copyoutTo_spec hF
  · rw [if_neg haddr]
    exact fun s hs => hs

/-- The end of a `wait` that has found a child: it is collected, its slot is
freed, and both locks are given up. -/
theorem collect_spec {addr : U64} {pid xstate : I32} {ended : Option Termination} (hne : pp ≠ p)
    (hret : xstate = 0 ∧ ended ≠ none) (hpid : K .found → pid ≠ -1) :
    (discipline K).Triple (.proc p) (On (.proc p) [.proc pp, .wait] (Found K p pp)) (do
      write (.reap p pp)
      freeproc pp
      release (.proc pp)
      release .wait
      if addr ≠ 0 then
        note (.waitReturns pid xstate ended)
      return pid) fun r => On (.proc p) [] (Ends K p r) := by
  have hwait : Lock.wait ∈ [Lock.proc pp, Lock.wait] := List.mem_cons_of_mem _ List.mem_cons_self
  have hpp : Lock.proc pp ∈ [Lock.proc pp, Lock.wait] := List.mem_cons_self
  have hC : Stab K (.proc p) [.proc pp, .wait] fun T =>
      Collecting K pp T ∧ (T pp).dozing = false := (Collecting.stab hwait).and (dozing_stab hpp)
  refine Logic.Triple.bind (triple_write (G := fun T =>
    (Collecting K pp T ∧ (T pp).dozing = false) ∧ Freeable K (.proc p) [.proc pp, .wait] pp T)
    (Found.stab hwait hpp) id ?_) fun _ => ?_
  · intro s c hinv hc h ha
    obtain ⟨hchild, ⟨-, hli⟩, hdozing⟩ := h
    have hreaps : (s.proc pp).reaps = 0 := (hli.2 pp (by simp) hchild.2).2.1
    refine ⟨⟨hc.current, (hc.held _).2 hwait, hchild, hreaps⟩, ⟨.of_reap hli hchild, hdozing⟩, ?_⟩
    exact ⟨.inl ⟨hwait, hchild.2, .inl hpp⟩, .inr ⟨hwait, hchild.2, hchild.1, by simp⟩⟩
  refine Logic.Triple.bind (freeproc_spec hC ?_ fun T h => h.1.2.2) fun _ => ?_
  · intro T w hw h
    refine ⟨h.1.frees hw, ?_⟩
    obtain hd | ⟨v, rfl, -⟩ := w.table_dozing T pp
    · exact hd.trans h.2
    · exact hw.elim
  refine Logic.Triple.bind (Logic.Triple.pre (release_proc (S := [.wait]) (F := LockInv K .wait)
    (lockInv_stab List.mem_cons_self) fun h => nomatch h) fun s hs => hs.imp fun T hT =>
    ⟨hT.1.1.done hT.2.1, hT.2.guarded hT.1.2 hne⟩) fun _ => ?_
  have hF : Frame K (.proc p) [] (Ends K p pid) := ends_frame
  refine Logic.Triple.bind (Logic.Triple.pre (release_other (l := .wait) (F := Ends K p pid)
    (by simp) hF.stab fun _ => kerneltrap_moves _ hF) fun s hs => hs.imp fun T hT =>
    ⟨fun hK h => absurd h (hpid hK), hT⟩) fun _ => ?_
  by_cases haddr : addr ≠ 0
  · rw [if_pos haddr]
    exact Logic.Triple.bind (triple_note hF.stab fun s c _ _ h _ => ⟨hret, h⟩) fun _ s hs => hs
  · rw [if_neg haddr]
    exact fun s hs => hs

/-- What `wait` reports of an exited child. -/
theorem waitFound_spec {addr msgAddr : U64} (hne : pp ≠ p) :
    (discipline K).Triple (.proc p) (On (.proc p) [.proc pp, .wait] (Found K p pp))
      (waitFound p pp addr msgAddr) fun r => On (.proc p) [] (Ends K p r) := by
  have hwait : Lock.wait ∈ [Lock.proc pp, Lock.wait] := List.mem_cons_of_mem _ List.mem_cons_self
  have hZ : Stab K (.proc p) [.proc pp, .wait] (Found K p pp) :=
    Found.stab hwait List.mem_cons_self
  -- what has been read of the child is right as long as `wait_lock` is held
  have hread : ∀ (φ : Prop) (P : Option Termination → I32 → Option (List Byte) → Prop),
      Stab K (.proc p) [.proc pp, .wait] fun T => φ ∧ Found K p pp T ∧
        T.ZombieChild p pp ∧ P (T pp).ended (T pp).xstatus (T pp).message :=
    fun φ P => (Stab.const φ).and (hZ.and (zombie_fields_stab hwait P))
  refine (read_spec hZ).bind fun pid => ?_
  refine Logic.Triple.bind (triple_read (G := fun v T => v = 0 ∧ Found K p pp T) hZ ?_)
    fun xstate => ?_
  · exact fun s c hinv _ h => ⟨hinv.xstate pp, h⟩
  refine Logic.Triple.bind (triple_read (G := fun e T => (xstate = 0 ∧ e ≠ none) ∧
    Found K p pp T ∧ T.ZombieChild p pp ∧ (T pp).ended = e) ((Stab.const _).and hZ) ?_)
    fun ended => ?_
  · exact fun s c hinv _ h => ⟨⟨h.1, hinv.ended pp h.2.child.2⟩, h.2, h.2.child, rfl⟩
  refine Logic.Triple.bind (triple_read (G := fun m T => (xstate = 0 ∧ ended ≠ none) ∧
    Found K p pp T ∧ T.ZombieChild p pp ∧ (T pp).ended = ended ∧ (T pp).message = m)
    (hread _ fun e _ _ => e = ended) ?_) fun message => ?_
  · exact fun s c _ _ h => ⟨h.1, h.2.1, h.2.2.1, h.2.2.2, rfl⟩
  have hfields := hread ((xstate = 0 ∧ ended ≠ none) ∧ (K .found → pid ≠ -1))
    fun e _ m => e = ended ∧ m = message
  refine Logic.Triple.bind (triple_note (G := fun T =>
    ((xstate = 0 ∧ ended ≠ none) ∧ (K .found → pid ≠ -1)) ∧ Found K p pp T ∧
      T.ZombieChild p pp ∧ (T pp).ended = ended ∧ (T pp).message = message)
    (hread _ fun e _ m => e = ended ∧ m = message) ?_) fun _ => ?_
  · exact fun s c _ _ h ha => ⟨trivial, ⟨h.1, fun hK => ha .found hK⟩, h.2⟩
  have hfail : (discipline K).Triple (.proc p) (On (.proc p) [.proc pp, .wait] fun T =>
      ((xstate = 0 ∧ ended ≠ none) ∧ (K .found → pid ≠ -1)) ∧ Found K p pp T ∧
        T.ZombieChild p pp ∧ (T pp).ended = ended ∧ (T pp).message = message) (do
      release (.proc pp)
      release .wait
      return (-1 : I32)) fun r => On (.proc p) [] (Ends K p r) :=
    Logic.Triple.pre (release_both_spec hne) fun s hs => hs.imp fun T hT => hT.2.1
  refine (storeStatus_spec hfields).bind fun stored => ?_
  cases stored with
  | none => exact hfail
  | some _ =>
  -- the exit message is the one that `exit` leaves
  have hmsg : ∀ msg, Stab K (.proc p) [.proc pp, .wait] fun T =>
      (ended = some .msg → message ≠ none ∧ msg = exitMsgOf (literal "Goodbye World xv6")) ∧
        ((xstate = 0 ∧ ended ≠ none) ∧ (K .found → pid ≠ -1)) ∧ Found K p pp T ∧
          T.ZombieChild p pp ∧ (T pp).ended = ended ∧ (T pp).message = message :=
    fun msg => (Stab.const _).and hfields
  refine Logic.Triple.bind (triple_read (G := fun msg T =>
    (ended = some .msg → message ≠ none ∧ msg = exitMsgOf (literal "Goodbye World xv6")) ∧
      ((xstate = 0 ∧ ended ≠ none) ∧ (K .found → pid ≠ -1)) ∧ Found K p pp T ∧
        T.ZombieChild p pp ∧ (T pp).ended = ended ∧ (T pp).message = message) hfields ?_)
    fun msg => ?_
  · intro s c hinv _ h
    refine ⟨fun he => ?_, h⟩
    rw [← h.2.2.2.2]
    exact hinv.message pp h.2.2.1.2 (h.2.2.2.1.trans he)
  refine (copyoutTo_spec (hmsg msg)).bind fun r => ?_
  cases r with
  | none => exact Logic.Triple.pre hfail fun s hs => hs.imp fun T hT => hT.2
  | some _ =>
  have hcollect : (discipline K).Triple (.proc p) (On (.proc p) [.proc pp, .wait] fun T =>
      (ended = some .msg → message ≠ none ∧ msg = exitMsgOf (literal "Goodbye World xv6")) ∧
        ((xstate = 0 ∧ ended ≠ none) ∧ (K .found → pid ≠ -1)) ∧ Found K p pp T ∧
          T.ZombieChild p pp ∧ (T pp).ended = ended ∧ (T pp).message = message) (do
      write (.reap p pp)
      freeproc pp
      release (.proc pp)
      release .wait
      if addr ≠ 0 then
        note (.waitReturns pid xstate ended)
      return pid) fun r => On (.proc p) [] (Ends K p r) := by
    intro s hs
    obtain ⟨c, hc, -, ⟨hret, hpid⟩, hfound, -⟩ := hs
    exact collect_spec hne hret hpid s ⟨c, hc, hfound⟩
  by_cases haddr : msgAddr ≠ 0
  · rw [if_pos haddr]
    refine (copyoutTo_spec (hmsg msg)).bind fun r => ?_
    cases r with
    | none => exact hcollect
    | some _ =>
      exact Logic.Triple.bind (triple_note (hmsg msg) fun s c _ _ h _ => ⟨h.1, h⟩) fun _ => hcollect
  · rw [if_neg haddr]
    exact hcollect

/-- The scan of `wait` gives up `wait_lock` only if it finds an exited child;
else there is none. -/
theorem waitScan_spec {addr msgAddr : U64} (is : List Slot) (havekids : Bool) :
    (discipline K).Triple (.proc p) (On (.proc p) [.wait] fun T =>
        Waiting K p T ∧ ∀ q, q ∉ is → ¬ T.ZombieChild p q)
      (waitScan p addr msgAddr havekids is)
      (Sum.elim (fun r => On (.proc p) [] (Ends K p r))
        fun _ => On (.proc p) [.wait] fun T => Waiting K p T ∧ ∀ q, ¬ T.ZombieChild p q) := by
  induction is generalizing havekids with
  | nil =>
    intro s hs
    show On (.proc p) [.wait] (fun T => Waiting K p T ∧ ∀ q, ¬ T.ZombieChild p q) s
    exact hs.imp fun T hT => ⟨hT.1, fun q => hT.2 q List.not_mem_nil⟩
  | cons pp rest ih =>
  have hmem : Lock.wait ∈ [Lock.wait] := List.mem_cons_self
  -- the slots that have been visited stay without an exited child
  have hseen : ∀ is : List Slot, Stab K (.proc p) [.wait] fun T =>
      Waiting K p T ∧ ∀ q, q ∉ is → ¬ T.ZombieChild p q := by
    refine fun is => (Waiting.stab hmem).and fun s w hinv hr h q hq => ?_
    rw [zombie_iff hinv hmem hr]
    exact h q hq
  have hskip : ∀ T : Table, (∀ q, q ∉ pp :: rest → ¬ T.ZombieChild p q) →
      ¬ T.ZombieChild p pp → ∀ q, q ∉ rest → ¬ T.ZombieChild p q := by
    intro T h hpp q hq
    by_cases hqp : q = pp
    · exact hqp ▸ hpp
    · exact h q (by simp [hqp, hq])
  rw [waitScan]
  refine Logic.Triple.bind (triple_read (G := fun v T =>
    (Waiting K p T ∧ ∀ q, q ∉ pp :: rest → ¬ T.ZombieChild p q) ∧
      ((T pp).parent = some p ↔ v = some p)) (hseen _) fun s c _ _ h => ⟨h, Iff.rfl⟩) fun v => ?_
  have hchild : Stab K (.proc p) [.wait] fun T =>
      (Waiting K p T ∧ ∀ q, q ∉ pp :: rest → ¬ T.ZombieChild p q) ∧
        ((T pp).parent = some p ↔ v = some p) := by
    refine (hseen _).and fun s w hinv hr h => ?_
    rw [parent_iff hmem hr]
    exact h
  by_cases hv : v = some p
  · rw [if_pos hv]
    refine (acquire_proc hchild NoProc.wait).bind fun _ => ?_
    have hG : Stab K (.proc p) [.proc pp, .wait] fun T =>
        ((Waiting K p T ∧ ∀ q, q ∉ pp :: rest → ¬ T.ZombieChild p q) ∧
          ((T pp).parent = some p ↔ v = some p)) ∧ Guarded K (.proc p) pp T :=
      (hchild.cons _).and (Guarded.stab List.mem_cons_self)
    refine Logic.Triple.bind (triple_read (G := fun v' T =>
      (((Waiting K p T ∧ ∀ q, q ∉ pp :: rest → ¬ T.ZombieChild p q) ∧
        ((T pp).parent = some p ↔ v = some p)) ∧ Guarded K (.proc p) pp T) ∧
        ((T pp).state = .zombie ↔ v' = .zombie)) hG fun s c _ _ h => ⟨h, Iff.rfl⟩) fun v' => ?_
    by_cases hz : v' = .zombie
    · rw [if_pos hz]
      have hfound : pp ≠ p → (discipline K).Triple (.proc p)
          (On (.proc p) [.proc pp, .wait] (Found K p pp)) (do
          return (Sum.inl (← waitFound p pp addr msgAddr) : I32 ⊕ Bool))
          (Sum.elim (fun r => On (.proc p) [] (Ends K p r))
            fun _ => On (.proc p) [.wait] fun T => Waiting K p T ∧ ∀ q, ¬ T.ZombieChild p q) :=
        fun hne => (waitFound_spec hne).bind fun _ s hs => hs
      intro s hs
      obtain ⟨c, hc, ⟨⟨⟨hw, -⟩, hpar⟩, hpi, hrun⟩, hstate⟩ := hs
      have hstate := hstate.2 hz
      refine hfound (fun h => ?_) s ⟨c, hc, ⟨hpar.2 hv, hstate⟩, hw,
        hpi.not_dozing (by simp [hstate])⟩
      have := hrun (congrArg Tid.proc h.symm)
      rw [hstate] at this
      cases this
    · rw [if_neg hz]
      refine Logic.Triple.bind (Logic.Triple.pre (release_proc (S := [.wait]) (hseen rest)
        fun h => nomatch h) fun s hs => hs.imp fun T hT => ?_) fun _ => ih true
      obtain ⟨⟨⟨⟨hw, hvisited⟩, -⟩, hg⟩, hstate⟩ := hT
      exact ⟨⟨hw, hskip T hvisited fun hzc => hz (hstate.1 hzc.2)⟩, hg⟩
  · rw [if_neg hv]
    refine (ih havekids).pre fun s hs => hs.imp fun T hT => ⟨hT.1.1, ?_⟩
    exact hskip T hT.1.2 fun hzc => hv (hT.2.1 hzc.1)

/-- `wait` that returns -1 has collected nobody. -/
theorem wait_spec {addr msgAddr : U64} :
    (discipline K).Triple (.proc p) (On (.proc p) [] fun _ => True) (wait addr msgAddr)
      fun r => On (.proc p) [] (Ends K p r) := by
  have hW : Stab K (.proc p) [.wait] (Waiting K p) := Waiting.stab List.mem_cons_self
  have hR : Frame K (.proc p) [] fun T => (T p).reaped = 0 := reaped_frame
  refine (myproc_spec stab_true).bind fun p' => ?_
  intro s hs
  obtain ⟨hp', hs⟩ := hs
  obtain rfl : p = p' := Tid.proc.inj hp'
  refine Logic.Triple.bind (triple_write (G := fun T => (T p).reaped = 0) stab_true id ?_)
    (fun _ => ?_) s hs
  · intro s c hinv hc _ ha
    refine ⟨hc.current, ?_⟩
    simp only [Write.table, if_pos]
  refine (acquire_first hR.stab (by simp)).bind fun _ => ?_
  refine Logic.Triple.loop (fun _ => On (.proc p) [.wait] (Waiting K p)) (fun _ => hW.stable)
    fun _ => ?_
  refine Logic.Triple.bind (Logic.Triple.pre (waitScan_spec slots false) ?_) fun r => ?_
  · refine fun s hs => hs.imp fun T hT => ⟨hT, fun q hq => absurd ?_ hq⟩
    unfold slots
    exact List.mem_finRange q
  cases r with
  | inl r => exact fun s hs => hs
  | inr havekids =>
    have hN : Stab K (.proc p) [.wait] fun T => Waiting K p T ∧ ∀ q, ¬ T.ZombieChild p q :=
      hW.and (noZombie_stab List.mem_cons_self)
    have hrelease : (discipline K).Triple (.proc p)
        (On (.proc p) [.wait] fun T => Waiting K p T ∧ ∀ q, ¬ T.ZombieChild p q)
        (release .wait) fun _ => On (.proc p) [] (Ends K p (-1)) :=
      release_wait_spec.pre fun s hs => hs.imp fun T hT => hT.1
    cases havekids with
    | false => exact hrelease.bind fun _ s hs => hs
    | true =>
      refine Logic.Triple.bind (killed_spec hN NoProc.wait (by simp)) fun k => ?_
      cases k with
      | true => exact hrelease.bind fun _ s hs => hs
      | false =>
        refine Logic.Triple.bind (Logic.Triple.pre (sleep_spec hR (by simp)
          (fun _ => ⟨rfl, rfl⟩) (by simp)) fun s hs => ?_) fun _ s hs => hs
        exact hs.imp fun T hT => ⟨hT.1, fun _ => hT.2⟩

end Xv6
