import Xv6.Proc.SleepRules

/-!
# Creating and freeing processes obeys the discipline

`allocproc`, `freeproc`, `fork`, `forkn` and `kill`.
-/

namespace Xv6

open Conc Conc.Machine

variable {K : Known} {t : Tid} {n : Nat} {S S' : List Lock} {F G : Table → Prop} {l : Lock}
variable {p q np : Slot} {α β γ : Type}

/-! ## Code that only reads the table -/

theorem deref_spec {x : Option α} (hF : Stab K t S F) :
    (discipline K).Triple t (At t n S F) (deref x) fun _ => At t n S F := by
  cases x with
  | none => exact triple_panic hF
  | some a => exact fun s hs => hs

theorem read_spec {f : Kernel → β} (hF : Stab K t S F) :
    (discipline K).Triple t (At t n S F) (read f) fun _ => At t n S F :=
  triple_read (G := fun _ => F) hF fun _ _ _ _ h => h

theorem copyoutTo_spec {dstva : U64} {src : List Byte} (hF : Stab K t S F) :
    (discipline K).Triple t (At t n S F) (copyoutTo p dstva src) fun _ => At t n S F := by
  refine (read_spec hF).bind fun _ => ?_
  exact (deref_spec hF).bind fun _ => triple_vm hF

theorem copyoutTo_moves {dstva : U64} {src : List Byte} :
    Moves K t S (copyoutTo p dstva src) fun _ => S :=
  fun _ hF => copyoutTo_spec hF.mono.stab

theorem copyMemory_moves : Moves K t S (copyMemory p np) fun _ => S :=
  read_moves.bind fun _ => deref_moves.bind fun _ => read_moves.bind fun _ =>
    deref_moves.bind fun _ => read_moves.bind fun _ => vm_moves

theorem copyRegisters_moves {a0 : U64} : Moves K t S (copyRegisters p np a0) fun _ => S :=
  read_moves.bind fun _ => deref_moves.bind fun _ => read_moves.bind fun _ =>
    deref_moves.bind fun _ => vm_moves

theorem filedup_moves {f : FileId} : Moves K t S (filedup f) fun _ => S := by
  refine (acquire_moves Lock.plain_ftable).bind fun _ => read_moves.bind fun r => ?_
  have hrest : ∀ g, Moves K t (.ftable :: S) (write (.data g) >>= fun _ => release .ftable)
      fun _ => S :=
    fun g => (write_moves (w := .data g) trivial).bind fun _ => release_moves Lock.plain_ftable
  exact .ite (panic_moves.bind fun _ => hrest _) (hrest _)

theorem idup_moves {ip : InodeId} : Moves K t S (idup ip) fun _ => S :=
  (acquire_moves Lock.plain_itable).bind fun _ =>
    (write_moves (w := .data _) trivial).bind fun _ => release_moves Lock.plain_itable

theorem dupPrivate_moves : Moves K t S (dupPrivate p np) fun _ => S := by
  refine Moves.bind (Moves.foldM fun _ fd => ?_) fun _ => ?_
  · refine read_moves.bind fun f => ?_
    cases f with
    | none => exact .ret rfl
    | some f => exact filedup_moves.bind fun _ => write_moves fun _ => rfl
  · refine read_moves.bind fun _ => deref_moves.bind fun _ => idup_moves.bind fun _ => ?_
    refine Moves.bind (R := fun _ => S) (write_moves ?_) fun _ => read_moves.bind fun _ => ?_
    · exact fun _ => rfl
    · exact write_moves fun _ => rfl

/-! ## Freeing a slot -/

/-- The slot may be freed: it is a child that has exited, and `wait_lock` is
held, or a process of one's own that was never started, with its lock held. -/
def Dying (K : Known) (t : Tid) (S : List Lock) (p : Slot) (T : Table) : Prop :=
  .wait ∈ S ∧ (T p).state = .zombie ∧ (.proc p ∈ S ∨ ¬ K .locked) ∨
    .proc p ∈ S ∧ Table.Owned T t.slot p

/-- `freeproc` may take the slot from its parent. -/
def Freeable (K : Known) (t : Tid) (S : List Lock) (p : Slot) (T : Table) : Prop :=
  Dying K t S p T ∧ ((T p).parent = none ∨
    .wait ∈ S ∧ (T p).state = .zombie ∧ (T p).parent = t.slot ∧ t.slot ≠ none)

/-- Two threads of processes are of different processes. -/
theorem Rely.slot_ne {s : Kernel} {c : Cpu} (hc : s.running c ≠ t) (ht : t.slot ≠ none) :
    s.current c ≠ t.slot := by
  intro h
  cases t with
  | cpu d => exact ht rfl
  | proc p => exact hc (Kernel.running_eq_proc.2 h)

/-- Only its creator touches a new process. -/
theorem Owned.stab : Stab K t S fun T => Table.Owned T t.slot p := by
  intro s w hinv hr hs
  obtain ⟨c, hc, hl, ha, hw, -⟩ := hr
  obtain ⟨hused, hcreator, hslot⟩ := hs
  have hne := Rely.slot_ne hc hslot
  unfold Table.Owned
  cases w with
  | state q v =>
    cases v <;> (simp only [Write.table, writeOK, stateOK, Freeing, Table.Owned] at hw ⊢; grind)
  | _ =>
    simp only [Write.table, writeOK] at hw ⊢
    grind

/-- What `freeproc` checks the right to. -/
theorem Dying.ok {s : Kernel} {c : Cpu} (h : Dying K t S p s.proc) (hc : Here t n S s c) :
    Freeing c s p ∧ MayStore K c s p := by
  obtain ⟨hwait, hz, hlock⟩ | ⟨hp, howned⟩ := h
  · have hw := (hc.held _).2 hwait
    refine ⟨.inr ⟨hw, hz⟩, hlock.imp (hc.held _).2 fun hK => ⟨hK, hw, hz⟩⟩
  · have hl := (hc.held _).2 hp
    exact ⟨.inl ⟨hl, hc.current ▸ howned⟩, .inl hl⟩

/-- It depends on the state and the creator only. -/
theorem Dying.congr {T T' : Table} (h : Dying K t S p T) (hstate : (T' p).state = (T p).state)
    (hcreator : (T' p).creator = (T p).creator) : Dying K t S p T' := by
  unfold Dying Table.Owned at h ⊢
  rwa [hstate, hcreator]

theorem Dying.stab : Stab K t S (Dying K t S p) := by
  intro s w hinv hr hs
  obtain ⟨hwait, hz, hlock⟩ | ⟨hp, howned⟩ := hs
  · obtain ⟨c, hc, hl, ha, hw, -⟩ := hr
    have hlw := hl _ hwait
    refine .inl ⟨hwait, ?_, hlock⟩
    obtain hs | ⟨v, rfl, -⟩ := w.table_state s.proc p
    · exact hs.trans hz
    · cases v <;> (simp only [writeOK, stateOK, Freeing, Table.Owned] at hw; grind)
  · exact .inr ⟨hp, Owned.stab s w hinv hr howned⟩

/-- Nobody else gives a dying process a parent. -/
theorem Dying.parent_stab : Stab K t S fun T => Dying K t S p T ∧ (T p).parent = none := by
  intro s w hinv hr hs
  refine ⟨Dying.stab s w hinv hr hs.1, ?_⟩
  obtain ⟨c, hc, hl, ha, hw, -⟩ := hr
  obtain ⟨hdying, hparent⟩ := hs
  obtain hp | ⟨v, rfl, hp⟩ := w.table_parent s.proc p
  · exact hp.trans hparent
  rw [hp]
  obtain ⟨hv, -⟩ | ⟨hwait, ⟨-, howned, -⟩ | ⟨hpar, hcur, -⟩⟩ := hw
  · exact hv
  · obtain ⟨hmem, -⟩ | ⟨-, howned'⟩ := hdying
    · exact absurd hwait (hl _ hmem)
    · exact absurd (howned.2.1.symm.trans howned'.2.1) (Rely.slot_ne hc howned'.2.2)
  · rw [hparent] at hpar
    exact absurd hpar.symm hcur

/-- Nobody else gives a dying process an id. -/
theorem Dying.pid_stab : Stab K t S fun T => Dying K t S p T ∧ (T p).pid = 0 := by
  intro s w hinv hr hs
  refine ⟨Dying.stab s w hinv hr hs.1, ?_⟩
  obtain ⟨c, hc, hl, ha, hw, -⟩ := hr
  obtain ⟨hdying, hpid⟩ := hs
  obtain hp | ⟨v, rfl, hp⟩ := w.table_pid s.proc p
  · exact hp.trans hpid
  rw [hp]
  obtain ⟨hv, -⟩ | ⟨-, hunused, -⟩ := hw
  · exact hv
  · obtain ⟨-, hz, -⟩ | ⟨-, hused, -⟩ := hdying
    · exact absurd (hunused.symm.trans hz) (by simp)
    · exact absurd (hunused.symm.trans hused) (by simp)

/-- Without an id it is not killed. -/
theorem Dying.killed_stab : Stab K t S fun T =>
    (Dying K t S p T ∧ (T p).pid = 0) ∧ (K .apart → (T p).killed = false) := by
  intro s w hinv hr hs
  refine ⟨Dying.pid_stab s w hinv hr hs.1, fun hK => ?_⟩
  obtain ⟨c, hc, hl, ha, hw, -⟩ := hr
  obtain ⟨⟨hdying, hpid⟩, hkilled⟩ := hs
  obtain hk | ⟨v, rfl, hk⟩ := w.table_killed s.proc p
  · exact hk.trans (hkilled hK)
  rw [hk]
  cases v with
  | false => rfl
  | true =>
    obtain ⟨q, -, ⟨-, -, hrun⟩ | ⟨-, hne, -⟩⟩ := hw.2 hK
    · obtain ⟨-, hz, -⟩ | ⟨-, hused, -⟩ := hdying
      · exact absurd (hrun.symm.trans hz) (by simp)
      · exact absurd (hrun.symm.trans hused) (by simp)
    · exact absurd hpid hne

theorem Freeable.stab : Stab K t S (Freeable K t S p) := by
  intro s w hinv hr hs
  obtain ⟨hdying, hparent | ⟨hwait, hz, hparent, hslot⟩⟩ := hs
  · obtain ⟨h₁, h₂⟩ := Dying.parent_stab s w hinv hr ⟨hdying, hparent⟩
    exact ⟨h₁, .inl h₂⟩
  · refine ⟨Dying.stab s w hinv hr hdying, .inr ⟨hwait, ?_, ?_, hslot⟩⟩
    · obtain ⟨c, hc, hl, ha, hw, -⟩ := hr
      have hlw := hl _ hwait
      obtain hs | ⟨v, rfl, -⟩ := w.table_state s.proc p
      · exact hs.trans hz
      · cases v <;> (simp only [writeOK, stateOK, Freeing, Table.Owned] at hw; grind)
    · obtain ⟨c, hc, hl, ha, hw, -⟩ := hr
      obtain hp | ⟨v, rfl, -⟩ := w.table_parent s.proc p
      · exact hp.trans hparent
      · obtain ⟨-, hnone⟩ | ⟨hw, -⟩ := hw
        · exact absurd (hparent.symm.trans hnone) hslot
        · exact absurd hw (hl _ hwait)

/-- The stores of `freeproc` into the fields that other processes look at. -/
def Frees (p : Slot) : Write → Prop
  | .pid q v => q = p ∧ v = 0
  | .parent q v => q = p ∧ v = none
  | .chan q v => q = p ∧ v = none
  | .killed q v => q = p ∧ v = false
  | .xstate q v => q = p ∧ v = 0
  | .state q v => q = p ∧ v = .unused
  | _ => False

/-- Nothing is left in the slot. -/
def Blank (K : Known) (p : Slot) (T : Table) : Prop :=
  (T p).state = .unused ∧ (K .apart → (T p).pid = 0 ∧ (T p).killed = false)

/-- The part of `freeproc` after the slot has lost its id. -/
theorem freeproc_rest (hF : Stab K t S F) (hfree : ∀ T w, Frees p w → F T → F (w.table T)) :
    (discipline K).Triple t
      (On t S fun T => (F T ∧ Freeable K t S p T) ∧ Dying K t S p T ∧ (T p).pid = 0) (do
        write (.parent p none)
        write (.priv p fun x => { x with name := x.name.set 0 0 })
        write (.chan p none)
        write (.killed p false)
        write (.xstate p 0)
        write (.state p .unused)) fun _ => On t S fun T => F T ∧ Blank K p T := by
  have hparent : Stab K t S fun T =>
      (F T ∧ Dying K t S p T ∧ (T p).parent = none) ∧ Dying K t S p T ∧ (T p).pid = 0 :=
    (hF.and Dying.parent_stab).and Dying.pid_stab
  have hkilled : Stab K t S fun T => (F T ∧ Dying K t S p T ∧ (T p).parent = none) ∧
      (Dying K t S p T ∧ (T p).pid = 0) ∧ (K .apart → (T p).killed = false) :=
    (hF.and Dying.parent_stab).and Dying.killed_stab
  refine Logic.Triple.bind (triple_write (G := fun T =>
    (F T ∧ Dying K t S p T ∧ (T p).parent = none) ∧ Dying K t S p T ∧ (T p).pid = 0)
    ((hF.and Freeable.stab).and Dying.pid_stab) id ?_) fun _ => ?_
  · intro s c hinv hc h ha
    obtain ⟨⟨hFs, hdying, hpar⟩, -, hpid⟩ := h
    have hd : Dying K t S p ((Write.parent p none).table s.proc) :=
      hdying.congr (by simp [Write.table]) (by simp [Write.table])
    refine ⟨?_, ⟨hfree _ _ ⟨rfl, rfl⟩ hFs, hd, by simp [Write.table]⟩, hd,
      by simpa [Write.table] using hpid⟩
    obtain hpar | ⟨hwait, hz, hpar, hslot⟩ := hpar
    · exact .inl ⟨rfl, hpar⟩
    · refine .inr ⟨(hc.held _).2 hwait, .inr ⟨?_, ?_, .inr ⟨rfl, hz⟩⟩⟩
      · rw [hc.current, hpar]
      · rw [hc.current]
        exact hslot
  refine Logic.Triple.bind (triple_write_free hparent fun _ => rfl) fun _ => ?_
  refine Logic.Triple.bind (triple_write (G := fun T =>
    (F T ∧ Dying K t S p T ∧ (T p).parent = none) ∧ Dying K t S p T ∧ (T p).pid = 0)
    hparent id ?_) fun _ => ?_
  · intro s c hinv hc h ha
    obtain ⟨⟨hFs, hdying, hpar⟩, -, hpid⟩ := h
    have hd : Dying K t S p ((Write.chan p none).table s.proc) :=
      hdying.congr (by simp [Write.table]) (by simp [Write.table])
    exact ⟨(hdying.ok hc).2, ⟨hfree _ _ ⟨rfl, rfl⟩ hFs, hd, by simpa [Write.table] using hpar⟩, hd,
      by simpa [Write.table] using hpid⟩
  refine Logic.Triple.bind (triple_write (G := fun T =>
    (F T ∧ Dying K t S p T ∧ (T p).parent = none) ∧
      (Dying K t S p T ∧ (T p).pid = 0) ∧ (K .apart → (T p).killed = false))
    hparent id ?_) fun _ => ?_
  · intro s c hinv hc h ha
    obtain ⟨⟨hFs, hdying, hpar⟩, -, hpid⟩ := h
    have hd : Dying K t S p ((Write.killed p false).table s.proc) :=
      hdying.congr (by simp [Write.table]) (by simp [Write.table])
    exact ⟨(hdying.ok hc).2, ⟨hfree _ _ ⟨rfl, rfl⟩ hFs, hd, by simpa [Write.table] using hpar⟩,
      ⟨hd, by simpa [Write.table] using hpid⟩, fun _ => by simp [Write.table]⟩
  refine Logic.Triple.bind (triple_write (G := fun T =>
    (F T ∧ Dying K t S p T ∧ (T p).parent = none) ∧
      (Dying K t S p T ∧ (T p).pid = 0) ∧ (K .apart → (T p).killed = false))
    hkilled id ?_) fun _ => ?_
  · intro s c hinv hc h ha
    obtain ⟨⟨hFs, hdying, hpar⟩, ⟨-, hpid⟩, hkill⟩ := h
    have hd : Dying K t S p ((Write.xstate p 0).table s.proc) :=
      hdying.congr (by simp [Write.table]) (by simp [Write.table])
    exact ⟨⟨rfl, (hdying.ok hc).2⟩,
      ⟨hfree _ _ ⟨rfl, rfl⟩ hFs, hd, by simpa [Write.table] using hpar⟩,
      ⟨hd, by simpa [Write.table] using hpid⟩, by simpa [Write.table] using hkill⟩
  refine triple_write hkilled id fun s c hinv hc h ha => ?_
  obtain ⟨⟨hFs, hdying, hpar⟩, ⟨-, hpid⟩, hkill⟩ := h
  refine ⟨⟨hpar, (hdying.ok hc).1, (hdying.ok hc).2, fun hK => ⟨hpid, hkill hK⟩⟩,
    hfree _ _ ⟨rfl, rfl⟩ hFs, by simp [Write.table], fun hK => ?_⟩
  simpa [Write.table] using ⟨hpid, hkill hK⟩

/-- `freeproc` gives the slot back; it keeps what survives its stores. -/
theorem freeproc_spec (hF : Stab K t S F) (hfree : ∀ T w, Frees p w → F T → F (w.table T))
    (hreaps : ∀ T, F T → (T p).state = .zombie → (T p).reaps = 1) :
    (discipline K).Triple t (On t S fun T => F T ∧ Freeable K t S p T) (freeproc p)
      fun _ => On t S fun T => F T ∧ Blank K p T := by
  have hG : Stab K t S fun T => F T ∧ Freeable K t S p T := hF.and Freeable.stab
  refine Logic.Triple.bind (triple_note (G := fun T => F T ∧ Freeable K t S p T) hG ?_)
    fun _ => ?_
  · intro s c hinv hc h ha
    obtain ⟨hFs, hdying, hpar⟩ := h
    refine ⟨⟨fun hK => ?_, fun hz => ⟨?_, hreaps _ hFs hz⟩⟩, hFs, hdying, hpar⟩
    · obtain hl | ⟨hn, -⟩ := (hdying.ok hc).2
      · exact hl
      · exact absurd hK hn
    · obtain ⟨hwait, -⟩ | ⟨-, hused, -⟩ := hdying
      · exact (hc.held _).2 hwait
      · exact absurd (hused.symm.trans hz) (by simp)
  refine (read_spec hG).bind fun trapframe => ?_
  have hrest : (discipline K).Triple t (On t S fun T => F T ∧ Freeable K t S p T) (do
      write (.priv p fun x => { x with pagetable := none })
      write (.priv p fun x => { x with sz := 0 })
      write (.pid p 0)
      write (.parent p none)
      write (.priv p fun x => { x with name := x.name.set 0 0 })
      write (.chan p none)
      write (.killed p false)
      write (.xstate p 0)
      write (.state p .unused)) fun _ => On t S fun T => F T ∧ Blank K p T := by
    refine Logic.Triple.bind (triple_write_free hG fun _ => rfl) fun _ => ?_
    refine Logic.Triple.bind (triple_write_free hG fun _ => rfl) fun _ => ?_
    refine Logic.Triple.bind (triple_write (G := fun T =>
      (F T ∧ Freeable K t S p T) ∧ Dying K t S p T ∧ (T p).pid = 0) hG id ?_)
      fun _ => freeproc_rest hF hfree
    intro s c hinv hc h ha
    obtain ⟨hFs, hdying, hpar⟩ := h
    have hd : Dying K t S p ((Write.pid p 0).table s.proc) :=
      hdying.congr (by simp [Write.table]) (by simp [Write.table])
    refine ⟨.inl ⟨rfl, hdying.ok hc⟩, ⟨hfree _ _ ⟨rfl, rfl⟩ hFs, hd, ?_⟩, hd,
      by simp [Write.table]⟩
    simpa [Write.table] using hpar
  -- with or without a trapframe, the rest is the same
  refine (fun htail => by
    cases trapframe with
    | none => exact htail
    | some trapframe => exact (triple_vm hG).bind fun _ => htail) ?_
  refine Logic.Triple.bind (triple_write_free hG fun _ => rfl) fun _ => ?_
  refine (read_spec hG).bind fun pagetable => ?_
  cases pagetable with
  | none => exact hrest
  | some pagetable =>
    exact (read_spec hG).bind fun _ => (triple_vm hG).bind fun _ => hrest

end Xv6
