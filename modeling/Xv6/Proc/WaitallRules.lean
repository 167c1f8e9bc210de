import Xv6.Proc.WaitRules

/-!
# `waitall` obeys the discipline

The scan goes over the table with `wait_lock` held.  `Scanning` is its
invariant: what it has collected, together with the exited children that are
still ahead, is all that had exited when the round began.
-/

namespace Xv6

open Conc Conc.Machine

variable {K : Known} {t : Tid} {S S' : List Lock} {F G : Table → Prop} {l : Lock}
variable {p q pp : Slot} {α β γ : Type}

/-! ## Children come and go -/

/-- Only the process itself gives away or reaps its children. -/
theorem hasChild_frame : Frame K (.proc p) [] fun T => Table.HasChild T p where
  stab := by
    intro s w hinv hr h
    obtain ⟨c, hc, -, ha, hw, -⟩ := hr
    obtain ⟨q, hq⟩ := h
    have hne : s.current c ≠ some p := fun h => hc (Kernel.running_eq_proc.2 h)
    refine ⟨q, ?_⟩
    obtain hp | ⟨v, rfl, -⟩ := w.table_parent s.proc q
    · exact hp.trans hq
    · simp only [writeOK, parentOK] at hw
      grind
  mild T w hw h := by
    obtain ⟨q, hq⟩ := h
    refine ⟨q, ?_⟩
    obtain hp | ⟨v, rfl, -⟩ := w.table_parent T q
    · exact hp.trans hq
    · exact hw.elim

/-- Only the process itself says that it leaves `waitall`. -/
theorem leaving_frame {v : Bool} : Frame K (.proc p) S fun T => (T p).leaving = v where
  stab := by
    intro s w hinv hr h
    obtain ⟨c, hc, -, ha, hw, -⟩ := hr
    obtain hp | ⟨v', rfl, -⟩ := w.table_leaving s.proc p
    · exact hp.trans h
    · exact absurd (Kernel.running_eq_proc.2 hw) hc
  mild T w hw h := by
    obtain hp | ⟨v', rfl, -⟩ := w.table_leaving T p
    · exact hp.trans h
    · exact hw.elim

/-- On its way out of `waitall`, a process has no child and gets none. -/
def Left (p : Slot) (T : Table) : Prop := ¬ T.HasChild p ∧ (T p).leaving = true

theorem left_frame (hK : K .complete) : Frame K (.proc p) [] (Left p) where
  stab := by
    intro s w hinv hr h
    refine ⟨fun hchild => h.1 ?_, leaving_frame.stab s w hinv hr h.2⟩
    obtain ⟨c, hc, -, ha, hw, -⟩ := hr
    obtain ⟨q, hq⟩ := hchild
    have hne : s.current c ≠ some p := fun h => hc (Kernel.running_eq_proc.2 h)
    have hassume : completeScans Unit c (.write w) s := ha .complete hK
    refine ⟨q, ?_⟩
    obtain hp | ⟨v, rfl, hp⟩ := w.table_parent s.proc q
    · rwa [← hp]
    · obtain rfl : v = some p := hp.symm.trans hq
      simp only [writeOK, parentOK, completeScans] at hw hassume
      have := h.2
      grind
  mild T w hw h := by
    refine ⟨fun hchild => h.1 ?_, (leaving_frame (K := K)).mild T w hw h.2⟩
    obtain ⟨q, hq⟩ := hchild
    refine ⟨q, ?_⟩
    obtain hp | ⟨v, rfl, -⟩ := w.table_parent T q
    · rwa [← hp]
    · exact hw.elim

/-! ## One round of `waitall` -/

/-- What `waitall` collects is right about how the child ended. -/
def Collected (K : Known) (r : Report) : Prop :=
  (∃ e, r.ended = some e ∧ ∀ v, e = .status v → r.status = v) ∧ (K .own → r.Own)

/-- The exited children of `p` among some slots. -/
def Table.zombies (T : Table) (p : Slot) (is : List Slot) : Nat :=
  is.countP fun q => T.ZombieChild p q

/-- `p` has a child, other than `pp`, that has not exited. -/
def Table.HasLive (T : Table) (p : Slot) (pp : Option Slot) : Prop :=
  ∃ q, some q ≠ pp ∧ (T q).parent = some p ∧ (T q).state ≠ .zombie

/-- What a round finds is wanted, and there is place for it. -/
def Fits (K : Known) (n : I32) (m : Nat) : Prop := K .bounded → (m : Int) ≤ n.toInt ∧ m ≤ NPROC

/-- The scan has found `m` statuses and has still to visit `is`. -/
structure Scanning (K : Known) (p : Slot) (n : I32) (is : List Slot) (found : Bool) (m : Nat)
    (T : Table) : Prop where
  live : K .live → n.toInt ≤ ((m + T.zombies p is : Nat) : Int) ∨ T.HasLive p none ∨
    (found = false ∧ T.zombies p is = 0)
  complete : K .complete → n.toInt ≤ 0 ∨ found = true ∨ 0 < T.zombies p is ∨ ¬ T.HasChild p
  fits : Fits K n (m + T.zombies p is)
  seen : ∀ q, q ∉ is → ¬ T.ZombieChild p q

/-- Under `wait_lock` the exited children ahead of the scan stay. -/
theorem zombies_eq {s : Kernel} {w : Write} (hinv : Inv K s) (hwait : .wait ∈ S)
    (hr : Rely K (.proc p) S s w) (is : List Slot) :
    Table.zombies (w.table s.proc) p is = Table.zombies s.proc p is := by
  refine List.countP_congr fun q _ => ?_
  rw [decide_eq_true_iff, decide_eq_true_iff]
  exact zombie_iff hinv hwait hr

theorem hasLive_stab {pp : Option Slot} (hwait : .wait ∈ S) :
    Stab K (.proc p) S fun T => Table.HasLive T p pp := by
  intro s w hinv hr h
  obtain ⟨q, hne, hparent, hlive⟩ := h
  refine ⟨q, hne, (parent_iff hwait hr).2 hparent, fun hz => hlive ?_⟩
  have hzc := (zombie_iff (q := q) hinv hwait hr).1 ⟨(parent_iff hwait hr).2 hparent, hz⟩
  exact hzc.2

theorem zombies_stab (hwait : .wait ∈ S) (is : List Slot) (P : Nat → Prop) :
    Stab K (.proc p) S fun T => P (T.zombies p is) := by
  intro s w hinv hr h
  rwa [zombies_eq hinv hwait hr]

theorem noChild_stab (hwait : .wait ∈ S) : Stab K (.proc p) S fun T => ¬ Table.HasChild T p := by
  intro s w hinv hr h hchild
  obtain ⟨q, hq⟩ := hchild
  exact h ⟨q, (parent_iff hwait hr).1 hq⟩

/-- The slots of a set stay without an exited child. -/
theorem seen_stab (hwait : .wait ∈ S) (P : Slot → Prop) :
    Stab K (.proc p) S fun T => ∀ q, P q → ¬ Table.ZombieChild T p q := by
  intro s w hinv hr h q hq
  rw [zombie_iff hinv hwait hr]
  exact h q hq

theorem Scanning.stab {n : I32} {is : List Slot} {found : Bool} {m : Nat} (hwait : .wait ∈ S) :
    Stab K (.proc p) S (Scanning K p n is found m) := by
  intro s w hinv hr h
  have hz := zombies_eq hinv hwait hr is
  refine ⟨fun hK => ?_, fun hK => ?_, ?_, seen_stab hwait _ s w hinv hr h.seen⟩
  · rw [hz]
    exact (h.live hK).imp id fun h => h.imp (hasLive_stab hwait s w hinv hr) id
  · rw [hz]
    exact (h.complete hK).imp id fun h => h.imp id fun h => h.imp id fun h =>
      noChild_stab hwait s w hinv hr h
  · rw [hz]
    exact h.fits

/-- The scan passes a slot that is not an exited child. -/
theorem Scanning.skip {n : I32} {is : List Slot} {found : Bool} {m : Nat} {T : Table}
    (h : Scanning K p n (pp :: is) found m T) (hpp : ¬ T.ZombieChild p pp) :
    Scanning K p n is found m T := by
  have hz : T.zombies p (pp :: is) = T.zombies p is := by
    unfold Table.zombies
    exact List.countP_cons_of_neg (by simpa using hpp)
  refine ⟨hz ▸ h.live, hz ▸ h.complete, hz ▸ h.fits, fun q hq => ?_⟩
  by_cases hqp : q = pp
  · exact hqp ▸ hpp
  · exact h.seen q (by simp [hqp, hq])

/-- What is left of the invariant once the exited child `pp` is collected. -/
structure Reaping (K : Known) (p pp : Slot) (n : I32) (is : List Slot) (m : Nat) (T : Table) :
    Prop where
  live : K .live → n.toInt ≤ ((m + 1 + T.zombies p is : Nat) : Int) ∨ T.HasLive p (some pp)
  fits : Fits K n (m + 1 + T.zombies p is)
  seen : ∀ q, q ∉ pp :: is → ¬ T.ZombieChild p q

theorem Reaping.stab {n : I32} {is : List Slot} {m : Nat} (hwait : .wait ∈ S) :
    Stab K (.proc p) S (Reaping K p pp n is m) := by
  intro s w hinv hr h
  have hz := zombies_eq hinv hwait hr is
  refine ⟨fun hK => ?_, ?_, seen_stab hwait _ s w hinv hr h.seen⟩
  · rw [hz]
    exact (h.live hK).imp id (hasLive_stab hwait s w hinv hr)
  · rw [hz]
    exact h.fits

theorem Scanning.reap {n : I32} {is : List Slot} {found : Bool} {m : Nat} {T : Table}
    (h : Scanning K p n (pp :: is) found m T) (hpp : T.ZombieChild p pp) :
    Reaping K p pp n is m T := by
  have hz : T.zombies p (pp :: is) = T.zombies p is + 1 := by
    unfold Table.zombies
    exact List.countP_cons_of_pos (by simpa using hpp)
  refine ⟨fun hK => ?_, ?_, h.seen⟩
  · obtain hle | ⟨q, -, hq, hlive⟩ | ⟨-, hzero⟩ := h.live hK
    · left
      rw [hz] at hle
      omega
    · right
      refine ⟨q, fun hqp => hlive ?_, hq, hlive⟩
      rw [Option.some.inj hqp]
      exact hpp.2
    · rw [hz] at hzero
      omega
  · have hfits := h.fits
    rwa [hz, show m + (T.zombies p is + 1) = m + 1 + T.zombies p is by omega] at hfits

theorem Reaping.scanning {n : I32} {is : List Slot} {m : Nat} {T : Table}
    (h : Reaping K p pp n is m T) (hpp : ¬ T.ZombieChild p pp) :
    Scanning K p n is true (m + 1) T := by
  refine ⟨fun hK => ?_, fun _ => .inr (.inl rfl), h.fits, fun q hq => ?_⟩
  · obtain hle | ⟨q, -, hq, hlive⟩ := h.live hK
    · exact .inl hle
    · exact .inr (.inl ⟨q, by simp, hq, hlive⟩)
  · by_cases hqp : q = pp
    · exact hqp ▸ hpp
    · exact h.seen q (by simp [hqp, hq])

/-- A store to `pp` that leaves the other slots alone keeps `Reaping`. -/
theorem Reaping.of_other {n : I32} {is : List Slot} {m : Nat} {T T' : Table}
    (h : Reaping K p pp n is m T) (hmem : pp ∉ is) (hT : ∀ q, q ≠ pp → T' q = T q) :
    Reaping K p pp n is m T' := by
  have hz : T'.zombies p is = T.zombies p is := by
    refine List.countP_congr fun q hq => ?_
    have hne : q ≠ pp := fun h => hmem (h ▸ hq)
    rw [decide_eq_true_iff, decide_eq_true_iff]
    simp only [Table.ZombieChild, hT q hne]
  refine ⟨fun hK => ?_, hz ▸ h.fits, fun q hq => ?_⟩
  · obtain hle | ⟨q, hne, hq, hlive⟩ := h.live hK
    · left
      rwa [hz]
    · right
      have hqp : q ≠ pp := fun h => hne (congrArg some h)
      refine ⟨q, hne, ?_, ?_⟩
      · rw [hT q hqp]
        exact hq
      · rw [hT q hqp]
        exact hlive
  · have := h.seen q hq
    simp only [Table.ZombieChild, hT q fun h => hq (h ▸ List.mem_cons_self)] at this ⊢
    exact this

/-- What `waitall` knows while it collects `pp`, once that is counted. -/
def Counted (K : Known) (p pp : Slot) (n : I32) (is : List Slot) (m : Nat) (T : Table) : Prop :=
  Reaping K p pp n is m T ∧ Collecting K pp T ∧ (T p).reaped = m + 1

theorem Counted.stab {n : I32} {is : List Slot} {m : Nat} (hwait : .wait ∈ S) :
    Stab K (.proc p) S (Counted K p pp n is m) :=
  (Reaping.stab hwait).and ((Collecting.stab hwait).and reaped_frame.stab)

theorem Counted.frees {n : I32} {is : List Slot} {m : Nat} {T : Table} {w : Write}
    (hmem : pp ∉ is) (hw : Frees pp w) (h : Counted K p pp n is m T) :
    Counted K p pp n is m (w.table T) := by
  obtain ⟨hreap, hcollect, hreaped⟩ := h
  refine ⟨hreap.of_other hmem fun q hq => ?_, hcollect.frees hw, ?_⟩
  · cases w <;> first
      | exact hw.elim
      | exact if_neg (hw.1 ▸ hq)
  · obtain hr | ⟨v, rfl, -⟩ | ⟨q, rfl, -⟩ := w.table_reaped T p
    · exact hr.trans hreaped
    · exact hw.elim
    · exact hw.elim

/-- The scan, with what `wait_lock` protects, and the count of the collected. -/
def Round (K : Known) (p : Slot) (n : I32) (is : List Slot) (found : Bool) (m : Nat)
    (T : Table) : Prop :=
  Scanning K p n is found m T ∧ (T p).reaped = m ∧ LockInv K .wait T

theorem Round.stab {n : I32} {is : List Slot} {found : Bool} {m : Nat} (hwait : .wait ∈ S) :
    Stab K (.proc p) S (Round K p n is found m) :=
  (Scanning.stab hwait).and (reaped_frame.stab.and (lockInv_stab hwait))

/-- Collect one exited child: its status, and its slot. -/
theorem reap_spec {n pid status : I32} {is : List Slot} {collected : List Report}
    {ended : Option Termination} (hmem : pp ∉ is) (hK : ¬ K .locked)
    (hcollected : ∀ r ∈ collected ++ [⟨pid, status, ended⟩], Collected K r) :
    (discipline K).Triple (.proc p)
      (On (.proc p) [.proc pp, .wait] fun T => (T.ZombieChild p pp ∧
        Reaping K p pp n is collected.length T) ∧
          ((T p).reaped = collected.length ∧ LockInv K .wait T) ∧ Guarded K (.proc p) pp T) (do
        release (.proc pp)
        write (.reap p pp)
        freeproc pp
        return (true, collected ++ [⟨pid, status, ended⟩])) fun x s =>
      (∀ r ∈ x.2, Collected K r) ∧
        On (.proc p) [.wait] (Round K p n is x.1 x.2.length) s := by
  have hwait : Lock.wait ∈ [Lock.wait] := List.mem_cons_self
  have hZ : Stab K (.proc p) [.wait] fun T => (Table.ZombieChild T p pp ∧
      Reaping K p pp n is collected.length T) ∧
        (T p).reaped = collected.length ∧ LockInv K .wait T :=
    ((zombieChild_stab hwait).and (Reaping.stab hwait)).and
      (reaped_frame.stab.and (lockInv_stab hwait))
  refine Logic.Triple.bind (Logic.Triple.pre (release_proc hZ fun h => nomatch h)
    fun s hs => hs.imp fun T hT => ⟨⟨hT.1, hT.2.1⟩, hT.2.2⟩) fun _ => ?_
  -- the slot is freed without its lock, under `wait_lock` alone
  have hC : Stab K (.proc p) [.wait] (Counted K p pp n is collected.length) := Counted.stab hwait
  refine Logic.Triple.bind (triple_write (G := fun T => Counted K p pp n is collected.length T ∧
    Freeable K (.proc p) [.wait] pp T) hZ id ?_) fun _ => ?_
  · intro s c hinv hc h ha
    obtain ⟨⟨hchild, hreap⟩, hreaped, hli⟩ := h
    have hreaps : (s.proc pp).reaps = 0 := (hli.2 pp (by simp) hchild.2).2.1
    refine ⟨⟨hc.current, (hc.held _).2 hwait, hchild, hreaps⟩,
      ⟨⟨hreap.live, hreap.fits, hreap.seen⟩, .of_reap hli hchild, ?_⟩, ?_⟩
    · simp only [Write.table, if_pos, hreaped]
    · exact ⟨.inl ⟨hwait, hchild.2, .inr hK⟩, .inr ⟨hwait, hchild.2, hchild.1, by simp⟩⟩
  refine Logic.Triple.bind (freeproc_spec hC (fun T w hw h => h.frees hmem hw)
    fun T h => h.2.1.2.2) fun _ s hs => ⟨hcollected, hs.imp fun T hT => ?_⟩
  obtain ⟨⟨hreap, hcollect, hreaped⟩, hunused, -⟩ := hT
  rw [List.length_append, List.length_singleton]
  exact ⟨hreap.scanning fun hz => absurd (hunused.symm.trans hz.2) (by simp), hreaped,
    hcollect.done hunused⟩

/-- One step of the scan. -/
theorem waitallStep_spec {n : I32} {is : List Slot} {found : Bool} {collected : List Report}
    (hmem : pp ∉ is) (hcollected : ∀ r ∈ collected, Collected K r) :
    (discipline K).Triple (.proc p)
      (On (.proc p) [.wait] (Round K p n (pp :: is) found collected.length))
      (waitallStep p (found, collected) pp) fun x s =>
      (∀ r ∈ x.2, Collected K r) ∧
        On (.proc p) [.wait] (Round K p n is x.1 x.2.length) s := by
  have hS : Stab K (.proc p) [.wait] (Round K p n (pp :: is) found collected.length) :=
    Round.stab List.mem_cons_self
  have hwait : Lock.wait ∈ [Lock.proc pp, Lock.wait] :=
    List.mem_cons_of_mem _ List.mem_cons_self
  have hpp : Lock.proc pp ∈ [Lock.proc pp, Lock.wait] := List.mem_cons_self
  refine (acquire_proc hS NoProc.wait).bind fun _ => ?_
  have hG : Stab K (.proc p) [.proc pp, .wait] fun T =>
      Round K p n (pp :: is) found collected.length T ∧ Guarded K (.proc p) pp T :=
    (hS.cons _).and (Guarded.stab hpp)
  refine Logic.Triple.bind (triple_read (G := fun v T =>
    (Round K p n (pp :: is) found collected.length T ∧ Guarded K (.proc p) pp T) ∧
      ((T pp).parent = some p ↔ v = some p)) hG fun s c _ _ h => ⟨h, Iff.rfl⟩) fun parent => ?_
  have hparent : Stab K (.proc p) [.proc pp, .wait] fun T =>
      (Round K p n (pp :: is) found collected.length T ∧ Guarded K (.proc p) pp T) ∧
        ((T pp).parent = some p ↔ parent = some p) := by
    refine hG.and fun s w hinv hr h => ?_
    rw [parent_iff hwait hr]
    exact h
  refine Logic.Triple.bind (triple_read (G := fun v T =>
    (Round K p n (pp :: is) found collected.length T ∧ Guarded K (.proc p) pp T) ∧
      (T.ZombieChild p pp ↔ parent = some p ∧ v = .zombie)) hparent ?_) fun state => ?_
  · exact fun s c _ _ h => ⟨h.1, and_congr_left fun _ => h.2⟩
  by_cases hz : parent = some p ∧ state = .zombie
  · rw [if_pos hz]
    have hpre : ∀ s, On (.proc p) [.proc pp, .wait] (fun T =>
        (Round K p n (pp :: is) found collected.length T ∧ Guarded K (.proc p) pp T) ∧
          (T.ZombieChild p pp ↔ parent = some p ∧ state = .zombie)) s →
        On (.proc p) [.proc pp, .wait] (fun T =>
          (T.ZombieChild p pp ∧ Reaping K p pp n is collected.length T) ∧
            ((T p).reaped = collected.length ∧ LockInv K .wait T) ∧ Guarded K (.proc p) pp T) s := by
      intro s hs
      obtain ⟨c, hc, ⟨⟨hscan, hround⟩, hg⟩, hiff⟩ := hs
      have hzombie := hiff.2 hz
      exact ⟨c, hc, ⟨hzombie, hscan.reap hzombie⟩, hround, hg⟩
    intro s hs
    have hs := hpre s hs
    have hR : Stab K (.proc p) [.proc pp, .wait] fun T =>
        Reaping K p pp n is collected.length T ∧
          ((T p).reaped = collected.length ∧ LockInv K .wait T) ∧ Guarded K (.proc p) pp T :=
      (Reaping.stab hwait).and ((reaped_frame.stab.and (lockInv_stab hwait)).and (Guarded.stab hpp))
    have hZR : Stab K (.proc p) [.proc pp, .wait] fun T =>
        (T.ZombieChild p pp ∧ Reaping K p pp n is collected.length T) ∧
          ((T p).reaped = collected.length ∧ LockInv K .wait T) ∧ Guarded K (.proc p) pp T :=
      ((zombieChild_stab hwait).and (Reaping.stab hwait)).and
        ((reaped_frame.stab.and (lockInv_stab hwait)).and (Guarded.stab hpp))
    let known : Option Termination → I32 → Prop := fun e x =>
      K .own → (∃ v, e = some (.status v)) ∨ (e = some .killed ∧ x = -1)
    refine Logic.Triple.bind (triple_note (G := fun T => ¬ K .locked ∧
      (T.ZombieChild p pp ∧ known (T pp).ended (T pp).xstatus) ∧
        Reaping K p pp n is collected.length T ∧
          ((T p).reaped = collected.length ∧ LockInv K .wait T) ∧ Guarded K (.proc p) pp T)
      hZR ?_) (fun _ => ?_) s hs
    · intro s c _ _ h ha
      refine ⟨fun hK => ?_, fun hK => ha .locked hK, ⟨h.1.1, fun hK => ha .own hK⟩, h.1.2, h.2⟩
      have := (h.1.2.fits hK).2
      omega
    refine Logic.Triple.bind (triple_read (G := fun v T => ¬ K .locked ∧
      (T.ZombieChild p pp ∧ (known (T pp).ended (T pp).xstatus ∧ (T pp).xstatus = v)) ∧
        Reaping K p pp n is collected.length T ∧
          ((T p).reaped = collected.length ∧ LockInv K .wait T) ∧ Guarded K (.proc p) pp T)
      ((Stab.const _).and ((zombie_fields_stab hwait fun e x _ => known e x).and hR)) ?_)
      fun status => ?_
    · exact fun s c _ _ h => ⟨h.1, ⟨h.2.1.1, h.2.1.2, rfl⟩, h.2.2⟩
    have hfields : Stab K (.proc p) [.proc pp, .wait] fun T => ¬ K .locked ∧
        (T.ZombieChild p pp ∧ (known (T pp).ended (T pp).xstatus ∧ (T pp).xstatus = status)) ∧
          Reaping K p pp n is collected.length T ∧
            ((T p).reaped = collected.length ∧ LockInv K .wait T) ∧ Guarded K (.proc p) pp T :=
      (Stab.const _).and ((zombie_fields_stab hwait fun e x _ => known e x ∧ x = status).and hR)
    refine (read_spec hfields).bind fun pid => ?_
    refine Logic.Triple.bind (triple_read (G := fun e T =>
      (Collected K ⟨pid, status, e⟩ ∧ ¬ K .locked) ∧
        (T.ZombieChild p pp ∧ Reaping K p pp n is collected.length T) ∧
          ((T p).reaped = collected.length ∧ LockInv K .wait T) ∧ Guarded K (.proc p) pp T)
      hfields ?_) fun ended => ?_
    · intro s c hinv hc h
      obtain ⟨hK, ⟨hzombie, hknown, rfl⟩, hreap, hrest⟩ := h
      refine ⟨⟨⟨?_, fun hK => ?_⟩, hK⟩, ⟨hzombie, hreap⟩, hrest⟩
      · obtain ⟨e, he⟩ := Option.ne_none_iff_exists'.1 (hinv.ended pp hzombie.2)
        refine ⟨e, he, fun v hv => hinv.status pp v hzombie.2 ?_⟩
        rw [he, hv]
      · obtain ⟨v, hv⟩ | ⟨hkilled, hx⟩ := hknown hK
        · exact ⟨.status v, hv, by rw [Termination.own, hinv.status pp v hzombie.2 hv]⟩
        · exact ⟨.killed, hkilled, by rw [Termination.own, hx]⟩
    intro s hs
    obtain ⟨c, hc, ⟨hnew, hK⟩, h⟩ := hs
    refine reap_spec hmem hK ?_ s ⟨c, hc, h⟩
    intro r hr
    obtain hr | hr := List.mem_append.1 hr
    · exact hcollected r hr
    · exact List.mem_singleton.1 hr ▸ hnew
  · rw [if_neg hz]
    have hS' : Stab K (.proc p) [.wait] (Round K p n is found collected.length) :=
      Round.stab List.mem_cons_self
    refine Logic.Triple.bind (Logic.Triple.pre (release_proc hS' fun h => nomatch h)
      fun s hs => hs.imp fun T hT => ?_) fun _ s hs => ⟨hcollected, hs⟩
    obtain ⟨⟨⟨hscan, hround⟩, hg⟩, hiff⟩ := hT
    exact ⟨⟨hscan.skip fun h => hz (hiff.1 h), hround⟩, hg⟩

theorem waitallScan_spec {n : I32} {collected : List Report}
    (hcollected : ∀ r ∈ collected, Collected K r) :
    (discipline K).Triple (.proc p)
      (On (.proc p) [.wait] (Round K p n slots false collected.length))
      (waitallScan p collected) fun x s =>
      (∀ r ∈ x.2, Collected K r) ∧
        On (.proc p) [.wait] (Round K p n [] x.1 x.2.length) s := by
  refine Logic.Triple.conseq (Logic.Triple.foldM (fun is (x : Bool × List Report) s =>
    is.Nodup ∧ (∀ r ∈ x.2, Collected K r) ∧
      On (.proc p) [.wait] (Round K p n is x.1 x.2.length) s) ?_) ?_ ?_
  · intro pp is r s hs
    obtain ⟨hnodup, hr, hs⟩ := hs
    obtain ⟨hmem, hnodup⟩ := List.nodup_cons.1 hnodup
    refine Logic.wp_mono (fun r' s h => ⟨hnodup, h⟩) (waitallStep_spec hmem hr s hs)
  · intro s hs
    refine ⟨?_, hcollected, hs⟩
    unfold slots
    exact List.nodup_finRange _
  · exact fun r s h => h.2

/-- A round starts with what the run is known to meet. -/
theorem scanning_start {n : I32} {m : Nat} {s : Kernel} {c : Cpu}
    (ha : K.assume Unit c (.note (.scan n m)) s) (hc : s.current c = some p) :
    Scanning K p n slots false m s.proc := by
  have hmem : ∀ q, q ∈ slots := fun q => by
    unfold slots
    exact List.mem_finRange q
  refine ⟨fun hK => ?_, fun hK => ?_, fun hK => ?_, fun q hq => absurd (hmem q) hq⟩
  · have hlive : liveScans Unit c (.note (.scan n m)) s := ha .live hK
    have hlive := hlive p hc
    by_cases hl : Table.HasLive s.proc p none
    · exact .inr (.inl hl)
    · have hzombie : ∀ q, (s.proc q).parent = some p → (s.proc q).state = .zombie := by
        intro q hq
        by_contra hz
        exact hl ⟨q, by simp, hq, hz⟩
      have hcount : Table.zombies s.proc p slots = Table.numChildren s.proc p := by
        refine List.countP_congr fun q _ => ?_
        rw [decide_eq_true_iff, decide_eq_true_iff]
        exact ⟨fun h => h.1, fun h => ⟨h, hzombie q h⟩⟩
      by_cases hchild : Table.HasChild s.proc p
      · left
        rw [hcount]
        exact Int.not_lt.1 fun hlt => hlive ⟨hchild, hzombie, hlt⟩
      · refine .inr (.inr ⟨rfl, ?_⟩)
        refine List.countP_eq_zero.2 fun q _ hq => hchild ⟨q, ?_⟩
        exact (of_decide_eq_true hq).1
  · have hcomplete : completeScans Unit c (.note (.scan n m)) s := ha .complete hK
    obtain hle | ⟨q, hq⟩ | hno := hcomplete p hc
    · exact .inl hle
    · exact .inr (.inr (.inl (List.countP_pos_iff.2 ⟨q, hmem q, by simpa using hq⟩)))
    · exact .inr (.inr (.inr hno))
  · have hbounded : boundedScans Unit c (.note (.scan n m)) s := ha .bounded hK
    exact hbounded p hc

/-! ## The call -/

/-- `waitall` that returns -1 has collected nobody, if it can store what it
has to report. -/
def EndsAll (K : Known) (p : Slot) (r : I32) (T : Table) : Prop :=
  K .copied → r = -1 → (T p).reaped = 0

theorem endsAll_frame {r : I32} : Frame K (.proc p) S (EndsAll K p r) :=
  .imp fun _ => .imp fun _ => reaped_frame

/-- What `waitall` has collected when it has left the loop. -/
def Gathered (K : Known) (n : I32) (collected : List Report) : Prop :=
  (∀ r ∈ collected, Collected K r) ∧ (K .bounded → (collected.length : Int) ≤ n.toInt)

/-- `waitall` has left the loop, with what it has collected. -/
def Leaving (K : Known) (p : Slot) (n : I32) (collected : List Report) (T : Table) : Prop :=
  Gathered K n collected ∧ (T p).reaped = collected.length ∧ (T p).leaving = true ∧
    (K .complete → n.toInt ≤ (collected.length : Int) ∨ Left p T)

theorem leaving_all_frame {n : I32} {collected : List Report} :
    Frame K (.proc p) [] (Leaving K p n collected) :=
  (Frame.const _).and (reaped_frame.and (leaving_frame.and
    (.imp fun hK => (Frame.const _).or (left_frame hK))))

/-- A store to the memory of a process that leaves `waitall` succeeds, if it
has collected somebody and the run is known to be like that. -/
theorem copyoutTo_leaving {n : I32} {collected : List Report} {dstva : U64} {src : List Byte} :
    (discipline K).Triple (.proc p) (On (.proc p) [] (Leaving K p n collected))
      (copyoutTo p dstva src) fun r => On (.proc p) [] fun T =>
        Leaving K p n collected T ∧ (K .copied → r = none → (T p).reaped = 0) := by
  have hL : Frame K (.proc p) [] (Leaving K p n collected) := leaving_all_frame
  refine (read_spec hL.stab).bind fun pagetable => (deref_spec hL.stab).bind fun pagetable => ?_
  refine Logic.Triple.bind (R := fun x => match x with
    | .ok r => On (.proc p) [] fun T =>
        Leaving K p n collected T ∧ (K .copied → r = none → (T p).reaped = 0)
    | .error _ => On (.proc p) [] (Leaving K p n collected)) ?_ fun x => ?_
  · refine triple_op hL.stab fun s c _ hc h ha => ⟨trivial, fun i b s' hx => ?_⟩
    simp only [exec] at hx
    split at hx
    · rename_i r m hf
      obtain ⟨rfl, rfl⟩ := Prod.mk.inj (Option.some.inj hx)
      refine ⟨c, ⟨hc.running, hc.proc, hc.noff, hc.nodup, hc.held, hc.ran⟩, h, fun hK hr => ?_⟩
      by_contra hpos
      have hcopied : copiesOut _ c (.vm (copyout pagetable dstva src)) s := ha .copied hK
      exact hcopied p hc.current h.2.2.1 (Nat.pos_of_ne_zero hpos) r m hf (heq_of_eq hr)
    · obtain ⟨rfl, rfl⟩ := Prod.mk.inj (Option.some.inj hx)
      exact ⟨c, hc, h⟩
  · cases x with
    | ok r => exact fun s hs => hs
    | error msg => exact triple_panic hL.stab

/-- `waitall` after the loop. -/
theorem waitallLeave_spec {n : U64} {statuses : U64} {expected : I32} {collected : List Report} :
    (discipline K).Triple (.proc p)
      (On (.proc p) [] (Leaving K p expected collected)) (do
        let r ← copyoutTo p n (intBytes (BitVec.ofNat 32 collected.length))
        match r with
        | none =>
          write (.leaving p false)
          return (-1 : I32)
        | some () =>
          note (.copyStatuses expected collected.length)
          match ← copyoutTo p statuses (collected.flatMap fun r => intBytes r.status) with
          | none =>
            write (.leaving p false)
            return -1
          | some () =>
            note (.waitallReturns expected collected)
            write (.leaving p false)
            return 0) fun r => On (.proc p) [] (EndsAll K p r) := by
  have hL : Frame K (.proc p) [] (Leaving K p expected collected) := leaving_all_frame
  have hend : ∀ r : I32, (discipline K).Triple (.proc p) (On (.proc p) [] (EndsAll K p r)) (do
      write (.leaving p false)
      return r) fun r => On (.proc p) [] (EndsAll K p r) := by
    refine fun r => Logic.Triple.bind (triple_write (G := EndsAll K p r) endsAll_frame.stab id ?_)
      fun _ s hs => hs
    intro s c _ hc h _
    refine ⟨hc.current, fun hK hr => ?_⟩
    simp only [Write.table, if_pos]
    exact h hK hr
  have hfail : (discipline K).Triple (.proc p) (On (.proc p) [] fun T =>
      Leaving K p expected collected T ∧
        (K .copied → (none : Option Unit) = none → (T p).reaped = 0)) (do
      write (.leaving p false)
      return (-1 : I32)) fun r => On (.proc p) [] (EndsAll K p r) :=
    (hend (-1)).pre fun s hs => hs.imp fun T hT hK _ => hT.2 hK rfl
  refine copyoutTo_leaving.bind fun r => ?_
  cases r with
  | none => exact hfail
  | some _ =>
  refine Logic.Triple.pre ?_ fun s hs => At.imp (fun _ => And.left) hs
  refine Logic.Triple.bind (triple_note (G := Leaving K p expected collected) hL.stab
    fun s c _ _ h _ => ⟨h.1.2, h⟩) fun _ => ?_
  refine copyoutTo_leaving.bind fun r => ?_
  cases r with
  | none => exact hfail
  | some _ =>
  refine Logic.Triple.bind (triple_note (G := EndsAll K p 0)
    (hL.stab.and (.imp fun _ => .imp fun _ => reaped_frame.stab)) ?_) fun _ => hend 0
  intro s c _ hc h _
  refine ⟨⟨h.1.1.1, fun p' hp' hK => ?_⟩, fun _ hr => absurd hr (by decide)⟩
  obtain rfl : p = p' := Option.some.inj (hc.current.symm.trans hp')
  exact (h.1.2.2.2 hK).imp id fun hleft => hleft.1

/-- What the loop of `waitall` keeps. -/
def Gathering (K : Known) (p : Slot) (collected : List Report) (T : Table) : Prop :=
  (∀ r ∈ collected, Collected K r) ∧ (T p).reaped = collected.length ∧ LockInv K .wait T

theorem Gathering.stab {collected : List Report} (hwait : .wait ∈ S) :
    Stab K (.proc p) S (Gathering K p collected) :=
  (Stab.const _).and (reaped_frame.stab.and (lockInv_stab hwait))

/-- One round of `waitall`: it leaves the loop, or it sleeps. -/
theorem waitallRound_spec {n : I32} {collected : List Report} :
    (discipline K).Triple (.proc p) (On (.proc p) [.wait] (Gathering K p collected)) (do
        note (.scan n collected.length)
        let (found, collected) ← waitallScan p collected
        if (collected.length : Int) ≥ n.toInt ∨ !found then
          return .inr collected
        sleep .waitall (.proc p) .wait
        return .inl collected)
      (Sum.elim (fun collected => On (.proc p) [.wait] (Gathering K p collected))
        fun collected => On (.proc p) [.wait] fun T => Gathered K n collected ∧
          ((T p).reaped = collected.length ∧ LockInv K .wait T) ∧
            (K .complete → n.toInt ≤ (collected.length : Int) ∨ ¬ T.HasChild p)) := by
  refine Logic.Triple.bind (triple_note (G := fun T => (∀ r ∈ collected, Collected K r) ∧
    Round K p n slots false collected.length T) (Gathering.stab List.mem_cons_self) ?_) fun _ => ?_
  · exact fun s c _ hc h ha => ⟨trivial, h.1, scanning_start ha hc.current, h.2⟩
  intro s hs
  obtain ⟨c, hc, hcollected, hscan⟩ := hs
  refine Logic.Triple.bind (waitallScan_spec hcollected) (fun r => ?_) s ⟨c, hc, hscan⟩
  obtain ⟨found, collected⟩ := r
  intro s hs
  obtain ⟨hcollected, c, hc, hscan, hreaped, hli⟩ := hs
  dsimp only at hcollected hscan hreaped ⊢
  have hfits : K .bounded → (collected.length : Int) ≤ n.toInt := fun hK => (hscan.fits hK).1
  by_cases hexit : (collected.length : Int) ≥ n.toInt ∨ !found
  · rw [if_pos hexit]
    refine ⟨c, hc, ⟨hcollected, hfits⟩, ⟨hreaped, hli⟩, fun hK => ?_⟩
    obtain hle | hfound | hz | hno := hscan.complete hK
    · left
      omega
    · left
      obtain hle | hfound' := hexit
      · exact hle
      · rw [hfound] at hfound'
        cases hfound'
    · exact absurd hz (Nat.lt_irrefl 0)
    · exact .inr hno
  · rw [if_neg hexit]
    obtain ⟨hlt, hfound⟩ := not_or.1 hexit
    have hsleep : Frame K (.proc p) [] fun T => ((∀ r ∈ collected, Collected K r) ∧
        (T p).reaped = collected.length) ∧ (K .live → T.HasChild p) :=
      ((Frame.const _).and reaped_frame).and (.imp fun _ => hasChild_frame)
    refine Logic.Triple.bind (sleep_spec hsleep (by simp) (fun _ => ⟨rfl, rfl⟩)
      fun _ hK T h => h.2 hK) (fun _ => ?_) s
      ⟨c, hc, ⟨⟨⟨hcollected, hreaped⟩, fun hK => ?_⟩, hli⟩, fun _ q =>
        hscan.seen q List.not_mem_nil⟩
    · intro s hs
      show On (.proc p) [.wait] (Gathering K p collected) s
      exact hs.imp fun T hT => ⟨hT.1.1.1, hT.1.1.2, hT.2⟩
    obtain hle | ⟨q, -, hq, -⟩ | ⟨hf, -⟩ := hscan.live hK
    · exact absurd hle hlt
    · exact ⟨q, hq⟩
    · rw [hf] at hfound
      exact absurd rfl hfound

/-- `waitall` that returns -1 has collected nobody, if it can report. -/
theorem waitall_spec {n statuses : U64} :
    (discipline K).Triple (.proc p) (On (.proc p) [] fun _ => True) (waitall n statuses)
      fun r => On (.proc p) [] (EndsAll K p r) := by
  have hR : Stab K (.proc p) [] fun T => (T p).reaped = 0 := reaped_frame.stab
  refine (myproc_spec stab_true).bind fun p' => ?_
  intro s hs
  obtain ⟨hp', hs⟩ := hs
  obtain rfl : p = p' := Tid.proc.inj hp'
  refine Logic.Triple.bind (triple_write (G := fun T => (T p).reaped = 0) stab_true id ?_)
    (fun _ => ?_) s hs
  · intro s c hinv hc _ ha
    refine ⟨hc.current, ?_⟩
    simp only [Write.table, if_pos]
  refine (read_spec hR).bind fun _ => (deref_spec hR).bind fun pagetable => ?_
  refine (triple_vm hR).bind fun bytes => ?_
  cases bytes with
  | none =>
    intro s hs
    show On (.proc p) [] (EndsAll K p (-1)) s
    exact hs.imp fun T hT _ _ => hT
  | some bytes =>
  refine (acquire_first hR (by simp)).bind fun _ => ?_
  refine Logic.Triple.bind (Logic.Triple.pre (Logic.Triple.loop
    (fun collected => On (.proc p) [.wait] (Gathering K p collected))
    (fun _ => (Gathering.stab List.mem_cons_self).stable) fun collected => waitallRound_spec)
    fun s hs => ?_) fun collected => ?_
  · exact hs.imp fun T hT => ⟨fun r hr => absurd hr List.not_mem_nil, hT⟩
  have hwait : Stab K (.proc p) [.wait] fun T => Gathered K (bytesInt bytes) collected ∧
      ((T p).reaped = collected.length ∧ LockInv K .wait T) ∧
        (K .complete → (bytesInt bytes).toInt ≤ (collected.length : Int) ∨ ¬ T.HasChild p) :=
    (Stab.const _).and ((reaped_frame.stab.and (lockInv_stab List.mem_cons_self)).and
      (.imp fun _ => (Stab.const _).or (noChild_stab List.mem_cons_self)))
  refine Logic.Triple.bind (triple_write (G := fun T =>
    Leaving K p (bytesInt bytes) collected T ∧ LockInv K .wait T) hwait id ?_) fun _ => ?_
  · intro s c hinv hc h ha
    obtain ⟨hgathered, ⟨hreaped, hli⟩, hcomplete⟩ := h
    refine ⟨hc.current, ⟨hgathered, ?_, ?_, fun hK => ?_⟩, hli.congr ?_ ?_ ?_ ?_ ?_⟩
    · simpa only [Write.table, if_pos] using hreaped
    · simp only [Write.table, if_pos]
    · obtain hle | hno := hcomplete hK
      · exact .inl hle
      · refine .inr ⟨fun hchild => hno ?_, by simp only [Write.table, if_pos]⟩
        obtain ⟨q, hq⟩ := hchild
        exact ⟨q, (((Write.leaving p true).table_parent s.proc q).resolve_right (by simp)) ▸ hq⟩
    · exact fun q => (Write.table_state _ _ q).resolve_right (by simp)
    · exact fun q => (Write.table_parent _ _ q).resolve_right (by simp)
    · exact fun q => (Write.table_dozing _ _ q).resolve_right (by simp)
    · exact fun q => (Write.table_reaps _ _ q).resolve_right (by simp)
    · exact fun q => (Write.table_pid _ _ q).resolve_right (by simp)
  exact (release_other (l := .wait) (by simp) leaving_all_frame.stab fun _ =>
    kerneltrap_moves _ leaving_all_frame).bind fun _ => waitallLeave_spec

end Xv6
