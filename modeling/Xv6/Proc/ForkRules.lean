import Xv6.Proc.TableRules

/-!
# `fork`, `forkn` and `kill` obey the discipline

A new process belongs to its creator until it is runnable: `Child` carries it
from `allocproc` to the end of `fork`.  `forkn` keeps the lock of the new
process while it takes `wait_lock`.
-/

namespace Xv6

open Conc Conc.Machine

variable {K : Known} {t : Tid} {n : Nat} {S S' : List Lock} {F G : Table → Prop} {l : Lock}
variable {p q np : Slot} {α β γ : Type}

/-! ## `kill` -/

/-- If `waitall` frees no locked process, the lock keeps the id of a process. -/
theorem victim_stab {v : I32} (hmem : .proc q ∈ S) :
    Stab K t S fun T => K .apart → (T q).pid = v ∧ (T q).state ≠ .unused := by
  intro s w hinv hr h hK
  obtain ⟨c, hc, hl, ha, hw, hheld⟩ := hr
  have hlq := hl _ hmem
  have hbusy := hheld _ hmem
  have hapart : killsApart Unit c (.write w) s := ha .apart hK
  obtain ⟨hpid, hstate⟩ := h hK
  constructor
  · obtain hp | ⟨v', rfl, -⟩ := w.table_pid s.proc q
    · exact hp.trans hpid
    · exact absurd hapart (not_or.2 ⟨hbusy, hlq⟩)
  · obtain hs | ⟨v', rfl, hs⟩ := w.table_state s.proc q
    · rwa [hs]
    · rw [hs]
      intro hv
      subst hv
      exact absurd hapart (not_or.2 ⟨hbusy, hlq⟩)

/-- The victim of `kill(pid)` while its lock is held. -/
def Victim (K : Known) (p q : Slot) (pid : I32) (T : Table) : Prop :=
  (T p).target = some pid ∧ (K .apart → (T q).pid = pid ∧ (T q).state ≠ .unused)

theorem Victim.stab {pid : I32} (hmem : .proc q ∈ S) :
    Stab K (.proc p) S (Victim K p q pid) :=
  target_stab.and (victim_stab hmem)

/-- The killed flag is set before the state is looked at. -/
theorem strike_spec {pid : I32} {Q : Option Unit → Kernel → Prop} (hpid : K .apart → pid ≠ 0)
    (hQ : (discipline K).Triple (.proc p) (On (.proc p) [.proc q] fun T =>
      (T p).target = some pid ∧ Guarded K (.proc p) q T) (do
        release (.proc q)
        return some ()) Q) :
    (discipline K).Triple (.proc p)
      (On (.proc p) [.proc q] fun T => Victim K p q pid T ∧ Guarded K (.proc p) q T) (do
        write (.killed q true)
        if (← read fun s => (s.proc q).state) = .sleeping then
          write (.state q .runnable)
          write (.dozing q false)
        release (.proc q)
        return some ()) Q := by
  have hV : Stab K (.proc p) [.proc q] (Victim K p q pid) := Victim.stab List.mem_cons_self
  have hmem : Lock.proc q ∈ [Lock.proc q] := List.mem_cons_self
  -- it sleeps, and then it has an id, or it keeps the rule
  have hstruck : Stab K (.proc p) [.proc q] fun T => (T p).target = some pid ∧
      ((q ≠ p ∧ (T q).state = .sleeping ∧ Named K q T) ∨
        (T q).state ≠ .sleeping ∧ Guarded K (.proc p) q T) := by
    refine target_stab.and (Stab.or ((Stab.const _).and
      ((state_stab (by simp) hmem).and (Named.stab hmem))) (Stab.and ?_ (Guarded.stab hmem)))
    intro s w hinv hr h
    have := sleeping_stab (φ := False) hmem s w hinv hr (iff_false_intro h)
    exact fun hs => this.1 hs
  refine Logic.Triple.bind (triple_write (G := fun T => (T p).target = some pid ∧
      ((q ≠ p ∧ (T q).state = .sleeping ∧ Named K q T) ∨
        (T q).state ≠ .sleeping ∧ Guarded K (.proc p) q T))
    (hV.and (Guarded.stab hmem)) id ?_) fun _ => ?_
  · intro s c hinv hc h ha
    obtain ⟨⟨htarget, hvictim⟩, hpi, hrun⟩ := h
    refine ⟨⟨(hc.held _).2 hmem, fun hK => ⟨p, hc.current, .inr ⟨?_, ?_, (hvictim hK).2⟩⟩⟩,
      ?_, ?_⟩
    · rw [htarget, (hvictim hK).1]
    · rw [(hvictim hK).1]
      exact hpid hK
    · simp only [Write.table]
      split <;> exact htarget
    · simp only [Guarded, Named, Write.table, if_pos]
      by_cases hs : (s.proc q).state = .sleeping
      · refine .inl ⟨fun hqp => ?_, hs, by simp [hs], by simp [hs], fun hK => ?_⟩
        · have := hrun (congrArg Tid.proc hqp.symm)
          rw [hs] at this
          cases this
        · exact hpi.named hK (by simp [hs]) (by simp [hs])
      · refine .inr ⟨hs, ⟨fun _ h => absurd h hs, hpi.dozing, fun hK hu => ?_, hpi.named⟩, hrun⟩
        exact absurd hu (hvictim hK).2
  refine Logic.Triple.bind (triple_read (G := fun v T => (T p).target = some pid ∧
    (v = .sleeping → q ≠ p ∧ (T q).state = .sleeping ∧ Named K q T) ∧
      (v ≠ .sleeping → Guarded K (.proc p) q T)) hstruck ?_) fun v => ?_
  · intro s c _ _ h
    obtain ⟨htarget, ⟨hqp, hs, hn⟩ | ⟨hs, hg⟩⟩ := h
    · exact ⟨htarget, fun _ => ⟨hqp, hs, hn⟩, fun hv => absurd hs hv⟩
    · exact ⟨htarget, fun hv => absurd hv hs, fun _ => hg⟩
  by_cases hv : v = .sleeping
  · rw [if_pos hv]
    intro s hs
    obtain ⟨c, hc, htarget, hsleep, -⟩ := hs
    obtain ⟨hqp, hs, hn⟩ := hsleep hv
    refine rouse_spec (F := fun T => (T p).target = some pid) target_frame
      (fun h => hqp (Tid.proc.inj h).symm) (Logic.Triple.pre hQ fun s hs => hs.imp fun T hT => hT.1)
      s ⟨c, hc, htarget, hs, hn⟩
  · rw [if_neg hv]
    exact Logic.Triple.pre hQ fun s hs => hs.imp fun T hT => ⟨hT.1, hT.2.2 hv⟩

theorem kill_calm {pid : I32} : Calm K p (kill pid) := by
  refine setTarget_spec.bind fun _ => ?_
  have hT : Frame K (.proc p) [] fun T => (T p).target = some pid := target_frame
  have hF : Frame K (.proc p) [] fun T => (T p).target = some pid ∧ (K .apart → pid ≠ 0) :=
    hT.and (.const _)
  refine Logic.Triple.bind (triple_note (G := fun T =>
    (T p).target = some pid ∧ (K .apart → pid ≠ 0)) hT.stab ?_) fun _ => ?_
  · exact fun s c _ _ h ha => ⟨trivial, h, fun hK => ha .apart hK⟩
  refine Logic.Triple.bind (R := fun _ => On (.proc p) [] fun _ => True)
    (Logic.Triple.post (Logic.Triple.findM? (J := fun _ => On (.proc p) [] fun T =>
      (T p).target = some pid ∧ (K .apart → pid ≠ 0)) (Q := fun _ => On (.proc p) [] fun T =>
      (T p).target = some pid ∧ (K .apart → pid ≠ 0)) fun q _ => ?_) ?_) fun r => ?_
  · refine (acquire_proc hF.stab .nil).bind fun _ => ?_
    have hG : Stab K (.proc p) [.proc q] fun T =>
        ((T p).target = some pid ∧ (K .apart → pid ≠ 0)) ∧ Guarded K (.proc p) q T :=
      (hF.stab.cons _).and (Guarded.stab List.mem_cons_self)
    have hrelease : (discipline K).Triple (.proc p) (On (.proc p) [.proc q] fun T =>
        ((T p).target = some pid ∧ (K .apart → pid ≠ 0)) ∧ Guarded K (.proc p) q T)
        (release (.proc q)) fun _ => On (.proc p) [] fun T =>
          (T p).target = some pid ∧ (K .apart → pid ≠ 0) :=
      release_proc hF.stab fun _ => kerneltrap_moves _ hF
    refine Logic.Triple.bind (triple_read (G := fun v T =>
      (((T p).target = some pid ∧ (K .apart → pid ≠ 0)) ∧ Guarded K (.proc p) q T) ∧
        (v = pid → K .apart → (T q).pid = pid ∧ (T q).state ≠ .unused)) hG ?_) fun pid' => ?_
    · intro s c _ _ h
      refine ⟨h, fun hv hK => ⟨hv, fun hu => h.1.2 hK ?_⟩⟩
      rw [← hv]
      exact (h.2.1.blank hK hu).1
    by_cases hpid : pid' = pid
    · rw [if_pos hpid]
      intro s hs
      obtain ⟨c, hc, ⟨⟨htarget, hne⟩, hg⟩, hvictim⟩ := hs
      have hdone : (discipline K).Triple (.proc p) (On (.proc p) [.proc q] fun T =>
          (T p).target = some pid ∧ Guarded K (.proc p) q T) (do
          release (.proc q)
          return some ()) fun _ => On (.proc p) [] fun T =>
            (T p).target = some pid ∧ (K .apart → pid ≠ 0) :=
        Logic.Triple.bind (hrelease.pre fun s hs => hs.imp fun T hT => ⟨⟨hT.1, hne⟩, hT.2⟩)
          fun _ s hs => hs
      refine Logic.wp_mono (fun r s hs => ?_)
        (strike_spec hne hdone s ⟨c, hc, ⟨htarget, hvictim hpid⟩, hg⟩)
      cases r <;> exact hs
    · rw [if_neg hpid]
      exact Logic.Triple.bind (hrelease.pre fun s hs => hs.imp fun T hT => hT.1) fun _ s hs => hs
  · intro r s hs
    cases r <;> exact hs.imp fun _ _ => trivial
  · cases r <;> exact Calm.ret

/-! ## A new process -/

/-- A process that waits and wakes others up does not touch a new one. -/
theorem used_of_mild {T : Table} {w : Write} (hne : np ≠ p) (hw : Mild (.proc p) [] T w)
    (hused : (T np).state = .used) : (w.table T np).state = .used := by
  obtain hs | ⟨v, rfl, -⟩ := w.table_state T np
  · exact hs.trans hused
  · cases v with
    | runnable =>
      obtain hs | ⟨-, ht⟩ := hw
      · exact absurd (hused.symm.trans hs) (by simp)
      · exact absurd (Tid.proc.inj ht).symm hne
    | sleeping => exact absurd (Tid.proc.inj hw.2).symm hne
    | _ => exact hw.elim

/-- A new process of `p`, not yet `RUNNABLE`, with the given parent. -/
structure Child (K : Known) (p np : Slot) (parent : Option Slot) (T : Table) : Prop where
  owned : Table.Owned T (some p) np
  parent : (T np).parent = parent
  dozing : (T np).dozing = false
  named : K .positive → (T np).pid ≠ 0

namespace Child

variable {parent : Option Slot} {T : Table}

/-- It depends on the slot of the new process only. -/
theorem congr {T' : Table} (h : Child K p np parent T) (hstate : (T' np).state = (T np).state)
    (hcreator : (T' np).creator = (T np).creator) (hparent : (T' np).parent = (T np).parent)
    (hdozing : (T' np).dozing = (T np).dozing) (hpid : (T' np).pid = (T np).pid) :
    Child K p np parent T' := by
  obtain ⟨⟨hused, hc, hne⟩, hp, hd, hn⟩ := h
  exact ⟨⟨hstate.trans hused, hcreator.trans hc, hne⟩, hparent.trans hp, hdozing.trans hd,
    hpid ▸ hn⟩

/-- Only its creator touches a new process. -/
theorem stab (hpar : parent = none ∨ parent = some p) :
    Stab K (.proc p) S (Child K p np parent) := by
  intro s w hinv hr h
  have howned := Owned.stab (t := .proc p) s w hinv hr h.owned
  obtain ⟨c, hc, -, ha, hw, -⟩ := hr
  have hne : s.current c ≠ some p := Rely.slot_ne (t := .proc p) hc (by simp)
  obtain ⟨⟨hused, hcreator, -⟩, hparent, hdozing, hnamed⟩ := h
  refine ⟨howned, ?_, ?_, fun hK => ?_⟩
  · obtain hp | ⟨v, rfl, hp⟩ := w.table_parent s.proc np
    · exact hp.trans hparent
    · simp only [writeOK, parentOK, Table.Owned] at hw
      grind
  · obtain hd | ⟨v, rfl, hd⟩ := w.table_dozing s.proc np
    · exact hd.trans hdozing
    · cases v with
      | false => exact hd
      | true => exact absurd (hused.symm.trans hw.2.2.2.1) (by simp)
  · obtain hp | ⟨v, rfl, -⟩ := w.table_pid s.proc np
    · rw [hp]
      exact hnamed hK
    · simp only [writeOK, pidOK, Freeing, Table.Owned] at hw
      grind

theorem frame (hne : np ≠ p) (hpar : parent = none ∨ parent = some p) :
    Frame K (.proc p) [] (Child K p np parent) where
  stab := .stab hpar
  mild T w hw h := by
    obtain ⟨⟨hused, hcreator, hme⟩, hparent, hdozing, hnamed⟩ := h
    refine ⟨⟨?_, ?_, hme⟩, ?_, ?_, ?_⟩
    · exact used_of_mild hne hw hused
    · obtain hs | ⟨v, rfl, -⟩ := w.table_creator T np
      · exact hs.trans hcreator
      · exact hw.elim
    · obtain hs | ⟨v, rfl, -⟩ := w.table_parent T np
      · exact hs.trans hparent
      · exact hw.elim
    · obtain hs | ⟨v, rfl, hs⟩ := w.table_dozing T np
      · exact hs.trans hdozing
      · obtain rfl | ⟨-, ht⟩ := hw
        · exact hs
        · exact absurd (Tid.proc.inj ht).symm hne
    · obtain hs | ⟨v, rfl, -⟩ := w.table_pid T np
      · rwa [hs]
      · exact hw.elim

/-- The lock of a new process can be released at any time. -/
theorem guarded (h : Child K p np parent T) (hne : np ≠ p) : Guarded K (.proc p) np T := by
  have hused := h.owned.1
  exact ⟨.of_awake (by simp [hused]) (by simp [hused]) h.dozing h.named,
    fun ht => absurd (Tid.proc.inj ht).symm hne⟩

end Child

/-- Only its creator says that a new process is made in `forkn`. -/
theorem forked_frame (hne : np ≠ p) :
    Frame K (.proc p) [] fun T => Table.Forked T (some p) np where
  stab := by
    intro s w hinv hr h
    refine ⟨Owned.stab s w hinv hr h.1, ?_⟩
    obtain ⟨c, hc, -, ha, hw, -⟩ := hr
    obtain ⟨howned, hforkn⟩ := h
    obtain hb | ⟨v, rfl, -⟩ := w.table_byForkn s.proc np
    · exact hb.trans hforkn
    · exact absurd (hw.2.symm.trans howned.2.1) (Rely.slot_ne (t := .proc p) hc (by simp))
  mild T w hw h := by
    obtain ⟨⟨hused, hcreator, hme⟩, hforkn⟩ := h
    refine ⟨⟨?_, ?_, hme⟩, ?_⟩
    · exact used_of_mild hne hw hused
    · obtain hs | ⟨v, rfl, -⟩ := w.table_creator T np
      · exact hs.trans hcreator
      · exact hw.elim
    · obtain hs | ⟨v, rfl, -⟩ := w.table_byForkn T np
      · exact hs.trans hforkn
      · exact hw.elim

/-- A blank slot keeps the rule. -/
theorem Blank.guarded {T : Table} (h : Blank K np T) (hd : (T np).dozing = false) (hne : np ≠ p) :
    Guarded K (.proc p) np T := by
  refine ⟨⟨fun _ hs => ?_, fun hd' => ?_, fun hK _ => h.2 hK, fun _ hu => absurd h.1 hu⟩,
    fun ht => absurd (Tid.proc.inj ht).symm hne⟩
  · rw [h.1] at hs
    cases hs
  · rw [hd] at hd'
    cases hd'

/-- While its lock is held, a process that does not run neither exits nor
dozes off. -/
theorem idle_stab (hmem : .proc np ∈ S) :
    Stab K t S fun T => (T np).dozing = false ∧ (T np).state ≠ .zombie := by
  intro s w hinv hr h
  refine ⟨dozing_stab hmem s w hinv hr h.1, ?_⟩
  obtain ⟨c, hc, hl, ha, hw, -⟩ := hr
  obtain hs | ⟨v, rfl, hs⟩ := w.table_state s.proc np
  · rw [hs]
    exact h.2
  · rw [hs]
    intro hv
    subst hv
    exact hl _ hmem hw.1

/-- Give up a new process: free its slot, and release its lock. -/
theorem giveUp_spec {r : α} {Q : α → Kernel → Prop} (hne : np ≠ p)
    (hQ : ∀ s, On (.proc p) [] (fun _ => True) s → Q r s) :
    (discipline K).Triple (.proc p) (On (.proc p) [.proc np] (Child K p np none)) (do
      freeproc np
      release (.proc np)
      return r) Q := by
  have hidle : Stab K (.proc p) [.proc np] fun T =>
      (T np).dozing = false ∧ (T np).state ≠ .zombie := idle_stab List.mem_cons_self
  refine Logic.Triple.bind (Logic.Triple.pre (freeproc_spec hidle ?_ ?_) ?_) fun _ => ?_
  · intro T w hw h
    cases w <;> simp only [Frees] at hw
    all_goals
      obtain ⟨rfl, rfl⟩ := hw
      simp [Write.table, h.1, h.2]
  · exact fun T h hz => absurd hz h.2
  · intro s hs
    refine hs.imp fun T h => ⟨⟨h.dozing, by simp [h.owned.1]⟩, ?_, .inl h.parent⟩
    exact .inr ⟨List.mem_cons_self, h.owned⟩
  · refine Logic.Triple.bind (Logic.Triple.pre (release_proc stab_true fun _ =>
      kerneltrap_moves.calm) ?_) fun _ => hQ
    exact fun s hs => hs.imp fun T h => ⟨trivial, h.2.guarded h.1.1 hne⟩

theorem findUnused_spec :
    (discipline K).Triple (.proc p) (On (.proc p) [] fun _ => True) findUnused fun r =>
      match r with
      | none => On (.proc p) [] fun _ => True
      | some np => fun s => np ≠ p ∧ On (.proc p) [.proc np] (fun T =>
          (T np).state = .unused ∧ ProcInv K np (T np)) s := by
  refine Logic.Triple.post (Logic.Triple.findM? (J := fun _ => On (.proc p) [] fun _ => True)
    (Q := fun np s => np ≠ p ∧ On (.proc p) [.proc np] (fun T =>
      (T np).state = .unused ∧ ProcInv K np (T np)) s) fun q _ => ?_) fun r s hs => ?_
  · have hG : Stab K (.proc p) [.proc q] fun T => True ∧ Guarded K (.proc p) q T :=
      stab_true.and (Guarded.stab List.mem_cons_self)
    refine (acquire_proc stab_true .nil).bind fun _ => ?_
    refine Logic.Triple.bind (triple_read (G := fun v T =>
      (True ∧ Guarded K (.proc p) q T) ∧ (T q).state = v) hG ?_) fun v => ?_
    · exact fun s c _ _ h => ⟨h, rfl⟩
    by_cases hv : v = .unused
    · rw [if_pos hv]
      intro s hs
      obtain ⟨c, hc, ⟨-, hg⟩, hstate⟩ := hs
      refine ⟨fun hq => ?_, c, hc, hstate.trans hv, hg.1⟩
      have hrun := hg.2 (congrArg Tid.proc hq.symm)
      rw [hstate.trans hv] at hrun
      cases hrun
    · rw [if_neg hv]
      exact Logic.Triple.bind (Logic.Triple.pre (release_proc stab_true fun _ =>
        kerneltrap_moves.calm) fun s hs => hs.imp fun T hT => hT.1) fun _ s hs => hs
  · cases r <;> exact hs

/-- A slot that its future creator has found and locked. -/
structure Taken (K : Known) (p np : Slot) (T : Table) : Prop where
  unused : (T np).state = .unused
  creator : (T np).creator = some p
  parent : (T np).parent = none
  dozing : (T np).dozing = false
  killed : K .apart → (T np).killed = false

/-- Nobody collects a free slot. -/
theorem reaps_stab {v : Nat} (hmem : .proc np ∈ S) :
    Stab K t S fun T => (T np).state = .unused ∧ (T np).reaps = v := by
  intro s w hinv hr h
  refine ⟨state_stab (by simp) hmem s w hinv hr h.1, ?_⟩
  obtain ⟨c, hc, hl, ha, hw, -⟩ := hr
  obtain hp | ⟨v', rfl, -⟩ | ⟨q, rfl, -⟩ := w.table_reaps s.proc np
  · exact hp.trans h.2
  · exact absurd hw.1 (hl _ hmem)
  · exact absurd (h.1.symm.trans hw.2.2.1.2) (by simp)

/-- Nobody gives an id to a locked free slot. -/
theorem pid_stab {φ : I32 → Prop} (hmem : .proc np ∈ S) :
    Stab K t S fun T => (T np).state = .unused ∧ φ (T np).pid := by
  intro s w hinv hr h
  refine ⟨state_stab (by simp) hmem s w hinv hr h.1, ?_⟩
  obtain ⟨c, hc, hl, ha, hw, -⟩ := hr
  obtain hp | ⟨v', rfl, -⟩ := w.table_pid s.proc np
  · rw [hp]
    exact h.2
  · obtain ⟨-, hfree, -⟩ | ⟨hlock, -⟩ := hw
    · obtain ⟨-, howned⟩ | ⟨-, hz⟩ := hfree
      · exact absurd (h.1.symm.trans howned.1) (by simp)
      · exact absurd (h.1.symm.trans hz) (by simp)
    · exact absurd hlock (hl _ hmem)

/-- Nobody kills a process whose lock is held. -/
theorem unkilled_stab (hmem : .proc np ∈ S) : Stab K t S fun T => (T np).killed = false := by
  intro s w hinv hr h
  obtain ⟨c, hc, hl, ha, hw, -⟩ := hr
  obtain hk | ⟨v, rfl, hk⟩ := w.table_killed s.proc np
  · exact hk.trans h
  · cases v with
    | false => exact hk
    | true => exact absurd hw.1 (hl _ hmem)

theorem Taken.stab (hmem : .proc np ∈ S) : Stab K t S (Taken K p np) := by
  intro s w hinv hr h
  refine ⟨state_stab (by simp) hmem s w hinv hr h.unused, ?_, ?_,
    dozing_stab hmem s w hinv hr h.dozing,
    fun hK => unkilled_stab hmem s w hinv hr (h.killed hK)⟩
  · obtain ⟨c, hc, hl, ha, hw, -⟩ := hr
    obtain hp | ⟨v, rfl, -⟩ := w.table_creator s.proc np
    · exact hp.trans h.creator
    · exact absurd hw.1 (hl _ hmem)
  · obtain ⟨c, hc, hl, ha, hw, -⟩ := hr
    obtain hp | ⟨v, rfl, hp⟩ := w.table_parent s.proc np
    · exact hp.trans h.parent
    · rw [hp]
      obtain ⟨hv, -⟩ | ⟨-, ⟨-, howned, -⟩ | ⟨hpar, hcur, -⟩⟩ := hw
      · exact hv
      · exact absurd (h.unused.symm.trans howned.1) (by simp)
      · rw [h.parent] at hpar
        exact absurd hpar.symm hcur

/-- The stores that set up a slot which is not in use yet. -/
def SetsUp : Write → Prop
  | .byForkn _ _ | .ended _ _ | .reaps _ _ | .newpid _ _ | .pid _ _ => True
  | _ => False

theorem Taken.store {T : Table} {w : Write} (h : Taken K p np T) (hw : SetsUp w) :
    Taken K p np (w.table T) := by
  refine ⟨?_, ?_, ?_, ?_, fun hK => ?_⟩
  · obtain hs | ⟨v, rfl, -⟩ := w.table_state T np
    · exact hs.trans h.unused
    · exact hw.elim
  · obtain hs | ⟨v, rfl, -⟩ := w.table_creator T np
    · exact hs.trans h.creator
    · exact hw.elim
  · obtain hs | ⟨v, rfl, -⟩ := w.table_parent T np
    · exact hs.trans h.parent
    · exact hw.elim
  · obtain hs | ⟨v, rfl, -⟩ := w.table_dozing T np
    · exact hs.trans h.dozing
    · exact hw.elim
  · obtain hs | ⟨v, rfl, -⟩ := w.table_killed T np
    · exact hs.trans (h.killed hK)
    · exact hw.elim

/-! ## `allocpid` -/

/-- `pid_lock` protects `nextpid`. -/
theorem nextpid_stable {v : I32} (hF : Stab K t S F) (hmem : .pid ∈ S) :
    (discipline K).Stable t fun s => At t n S F s ∧ s.nextpid = v := by
  intro s s' hstep hs
  refine ⟨hF.stable s s' hstep hs.1, ?_⟩
  obtain ⟨⟨c, hc, -⟩, hv⟩ := hs
  obtain ⟨β, d, i, o, b, hd, hinv, ha, hm, hx⟩ := hstep
  obtain hn | hl := (effect_of_exec ha hm hx).nextpid
  · exact hn.trans hv
  · exact absurd (Option.some.inj (hl.symm.trans ((hc.held _).2 hmem)))
      (Kernel.ne_of_running hc.running hd)

/-- The id `v` is about to be given out. -/
def Fresh (K : Known) (v : I32) (T : Table) : Prop :=
  K .positive → v ≠ 0 ∧ v.toNat < (v + 1).toNat ∧ ∀ q, (T q).newpid ≠ v ∧ (T q).pid ≠ v

/-- `p` has been given the id `v`, and nobody has it yet. -/
def Numbered (K : Known) (p : Slot) (v : I32) (T : Table) : Prop :=
  (T p).newpid = v ∧
    (K .positive → v ≠ 0 ∧ ∀ q, (T q).pid ≠ v ∧ ((T q).newpid = v → q = p))

theorem Fresh.stab {v : I32} (hmem : .pid ∈ S) : Stab K t S (Fresh K v) := by
  intro s w hinv hr h hK
  obtain ⟨c, hc, hl, ha, hw, -⟩ := hr
  obtain ⟨hne, hlt, hfresh⟩ := h hK
  refine ⟨hne, hlt, fun q => ⟨?_, ?_⟩⟩
  · obtain hn | ⟨v', rfl, -⟩ := w.table_newpid s.proc q
    · rw [hn]
      exact (hfresh q).1
    · exact absurd hw.2.1 (hl _ hmem)
  · obtain hp | ⟨v', rfl, hp⟩ := w.table_pid s.proc q
    · rw [hp]
      exact (hfresh q).2
    · rw [hp]
      obtain ⟨rfl, -⟩ | ⟨-, -, hpos⟩ := hw
      · exact hne.symm
      · obtain ⟨-, -, r, -, rfl⟩ := hpos hK
        exact (hfresh r).1

theorem Numbered.stab {v : I32} : Stab K (.proc p) S (Numbered K p v) := by
  intro s w hinv hr h
  obtain ⟨c, hc, hl, ha, hw, -⟩ := hr
  have hcp : s.current c ≠ some p := fun h => hc (Kernel.running_eq_proc.2 h)
  obtain ⟨hnew, hnum⟩ := h
  refine ⟨?_, fun hK => ⟨(hnum hK).1, fun q => ⟨?_, fun hq => ?_⟩⟩⟩
  · obtain hn | ⟨v', rfl, -⟩ := w.table_newpid s.proc p
    · exact hn.trans hnew
    · exact absurd hw.1 hcp
  · obtain hp | ⟨v', rfl, hp⟩ := w.table_pid s.proc q
    · rw [hp]
      exact ((hnum hK).2 q).1
    · rw [hp]
      obtain ⟨rfl, -⟩ | ⟨-, -, hpos⟩ := hw
      · exact (hnum hK).1.symm
      · obtain ⟨-, -, r, hr, rfl⟩ := hpos hK
        intro hrv
        exact hcp (((hnum hK).2 r).2 hrv ▸ hr)
  · obtain hn | ⟨v', rfl, hn⟩ := w.table_newpid s.proc q
    · exact ((hnum hK).2 q).2 (hn.symm.trans hq)
    · obtain rfl : v' = v := hn.symm.trans hq
      exact absurd hnew ((hw.2.2 hK).2 p).1

/-- The next id is one that nobody has. -/
theorem Inv.fresh_nextpid {s : Kernel} (hinv : Inv K s) (hpos : K .positive → 0 < s.nextpid.toInt) :
    Fresh K s.nextpid s.proc := by
  intro hK
  have hp := hinv.pids hK
  have hpos := hpos hK
  refine ⟨fun h => ?_, ?_, fun q => ⟨fun h => ?_, fun h => ?_⟩⟩
  · rw [h] at hpos
    exact absurd hpos (by decide)
  · rw [(Inv.toNat_succ hpos).1]
    omega
  · exact absurd (hp.newpid_lt q) (by rw [h]; omega)
  · exact absurd (hp.pid_lt q) (by rw [h]; omega)

/-- `allocpid` gives an id that nobody has. -/
theorem allocpid_spec (hF : Stab K (.proc p) (l :: S) F)
    (hnew : ∀ T v, F T → F ((Write.newpid p v).table T)) :
    (discipline K).Triple (.proc p) (On (.proc p) (l :: S) F) allocpid
      fun pid => On (.proc p) (l :: S) fun T => F T ∧ Numbered K p pid T := by
  have hpid : Lock.pid ∈ .pid :: l :: S := List.mem_cons_self
  refine (acquire_plain hF Lock.plain_pid).bind fun _ => ?_
  refine Logic.Triple.bind (R := fun v s => On (.proc p) (.pid :: l :: S) F s ∧ s.nextpid = v) ?_
    fun pid => ?_
  · refine triple_op (hF.cons _) fun s c _ hc hFs _ => ⟨trivial, fun i b s' hx => ?_⟩
    obtain ⟨rfl, rfl⟩ := Prod.mk.inj (Option.some.inj hx)
    exact ⟨⟨c, hc, hFs⟩, rfl⟩
  refine Logic.Triple.bind (R := fun _ s => On (.proc p) (.pid :: l :: S)
    (fun T => F T ∧ Fresh K pid T) s ∧ s.nextpid = pid + 1) ?_ fun _ => ?_
  · refine triple_perform (nextpid_stable (hF.cons _) hpid)
      (fun s hs => hs.1.here) fun s c hs hinv hc ha => ?_
    obtain ⟨⟨-, -, hFs⟩, rfl⟩ := hs
    refine ⟨⟨(hc.held _).2 hpid, rfl⟩, fun i b s' hx => ?_⟩
    obtain ⟨-, rfl⟩ := Prod.mk.inj (Option.some.inj hx)
    exact ⟨⟨c, hc.write id, hFs, hinv.fresh_nextpid fun hK => ha .positive hK⟩, rfl⟩
  have hfresh : (discipline K).Stable (.proc p) fun s => On (.proc p) (.pid :: l :: S)
      (fun T => F T ∧ Fresh K pid T) s ∧ s.nextpid = pid + 1 :=
    nextpid_stable ((hF.cons _).and (Fresh.stab hpid)) hpid
  refine Logic.Triple.bind (R := fun _ => On (.proc p) (.pid :: l :: S) fun T =>
    F T ∧ Numbered K p pid T) ?_ fun _ => ?_
  · refine Logic.Triple.bind (R := fun r s => r = some p ∧ On (.proc p) (.pid :: l :: S)
      (fun T => F T ∧ Fresh K pid T) s ∧ s.nextpid = pid + 1) ?_ fun r => ?_
    · refine triple_perform hfresh (fun s hs => hs.1.here)
        fun s c hs hinv hc ha => ⟨trivial, fun i b s' hx => ?_⟩
      obtain ⟨rfl, rfl⟩ := Prod.mk.inj (Option.some.inj hx)
      exact ⟨hc.proc, hs⟩
    intro s hs
    obtain ⟨rfl, hs⟩ := hs
    refine triple_perform hfresh (fun s hs => hs.1.here)
      (fun s c hs hinv hc ha => ?_) s hs
    obtain ⟨⟨-, -, hFs, hfr⟩, hnext⟩ := hs
    refine ⟨⟨hc.current, (hc.held _).2 hpid, fun hK => ⟨?_, (hfr hK).2.2⟩⟩, fun i b s' hx => ?_⟩
    · rw [hnext]
      exact (hfr hK).2.1
    obtain ⟨-, rfl⟩ := Prod.mk.inj (Option.some.inj hx)
    refine ⟨c, hc.write id, ?_⟩
    rw [Write.apply_proc]
    refine ⟨hnew _ _ hFs, by simp [Write.table], fun hK => ⟨(hfr hK).1, fun q => ⟨?_, ?_⟩⟩⟩
    · simp only [Write.table]
      split <;> exact ((hfr hK).2.2 q).2
    · simp only [Write.table]
      split
      · rename_i hq
        exact fun _ => hq
      · exact fun h => absurd h ((hfr hK).2.2 q).1
  · exact (release_plain Lock.plain_pid (hF.and Numbered.stab) (by simp)).bind
      fun _ s hs => hs

/-! ## `allocproc` -/

theorem triple_context {P : Kernel → Prop} (hP : (discipline K).Stable t P)
    (h : ∀ s c, P s → Inv K s → s.running c = t →
      s.locked (.proc p) = some c ∧ (s.proc p).state = .used ∧ s.current c ≠ some p) :
    (discipline K).Triple t P (.perform (.context p)) fun _ => P := by
  refine Logic.Triple.perform hP fun s c hs hinv hc _ => ⟨h s c hs hinv hc, fun i b s' hx => ?_⟩
  obtain ⟨-, rfl⟩ := Prod.mk.inj (Option.some.inj hx)
  exact hs

/-- The slot that `findUnused` has found is taken. -/
theorem take_spec {f : Unit → Code β} {Q : β → Kernel → Prop}
    (hf : (discipline K).Triple (.proc p) (On (.proc p) [.proc np] fun T =>
      Child K p np none T ∧ (K .apart → (T np).killed = false)) (f ()) Q) :
    (discipline K).Triple (.proc p)
      (On (.proc p) [.proc np] fun T => (T np).state = .unused ∧ ProcInv K np (T np)) (do
        write (.creator np (← mycpuProc))
        write (.byForkn np false)
        write (.ended np none)
        write (.reaps np 0)
        let pid ← allocpid
        write (.pid np pid)
        let u ← write (.state np .used)
        f u) Q := by
  have hmem : Lock.proc np ∈ [Lock.proc np] := List.mem_cons_self
  have hfound : Stab K (.proc p) [.proc np] fun T =>
      (T np).state = .unused ∧ ProcInv K np (T np) :=
    (state_stab (by simp) hmem).and (procInv_stab hmem)
  have htaken : Stab K (.proc p) [.proc np] (Taken K p np) := Taken.stab hmem
  have hready : Stab K (.proc p) [.proc np] fun T =>
      Taken K p np T ∧ (T np).state = .unused ∧ (T np).reaps = 0 := htaken.and (reaps_stab hmem)
  have hnamed : Stab K (.proc p) [.proc np] fun T =>
      (Taken K p np T ∧ (T np).state = .unused ∧ (T np).reaps = 0) ∧
        (T np).state = .unused ∧ (K .positive → (T np).pid ≠ 0) :=
    hready.and (pid_stab (φ := fun v => K .positive → v ≠ 0) hmem)
  refine Logic.Triple.bind (mycpuProc_spec hfound) fun me => ?_
  intro s hs
  obtain ⟨rfl, hs⟩ := hs
  refine Logic.Triple.bind (triple_write (G := Taken K p np) hfound id ?_) (fun _ => ?_) s hs
  · intro s c hinv hc h ha
    obtain ⟨hunused, hpi⟩ := h
    refine ⟨⟨(hc.held _).2 hmem, hunused⟩, ⟨?_, ?_, ?_, ?_, fun hK => ?_⟩⟩ <;>
      simp only [Write.table, if_pos, Tid.slot_proc]
    · exact hunused
    · exact hinv.forest.orphan np hunused
    · exact hpi.not_dozing (by simp [hunused])
    · exact (hpi.blank hK hunused).2
  refine Logic.Triple.bind (triple_write (G := Taken K p np) htaken id ?_) fun _ => ?_
  · intro s c hinv hc h ha
    exact ⟨⟨(hc.held _).2 hmem, h.creator.trans hc.current.symm⟩, h.store trivial⟩
  refine Logic.Triple.bind (triple_write (G := Taken K p np) htaken id ?_) fun _ => ?_
  · intro s c hinv hc h ha
    exact ⟨.inr ⟨(hc.held _).2 hmem, h.unused⟩, h.store trivial⟩
  refine Logic.Triple.bind (triple_write (G := fun T =>
    Taken K p np T ∧ (T np).state = .unused ∧ (T np).reaps = 0) htaken id ?_) fun _ => ?_
  · intro s c hinv hc h ha
    have h' := h.store (w := .reaps np 0) trivial
    exact ⟨⟨(hc.held _).2 hmem, h.unused, rfl⟩, h', h'.unused, by simp [Write.table]⟩
  refine Logic.Triple.bind (allocpid_spec hready fun T v h => ?_) fun pid => ?_
  · have h' := h.1.store (w := .newpid p v) trivial
    refine ⟨h', h'.unused, ?_⟩
    simp only [Write.table]
    split <;> exact h.2.2
  refine Logic.Triple.bind (triple_write (G := fun T =>
    (Taken K p np T ∧ (T np).state = .unused ∧ (T np).reaps = 0) ∧
      (T np).state = .unused ∧ (K .positive → (T np).pid ≠ 0)) (hready.and Numbered.stab) id ?_)
    fun _ => ?_
  · intro s c hinv hc h ha
    obtain ⟨⟨h, -, hreaps⟩, hnew, hnum⟩ := h
    have h' := h.store (w := .pid np pid) trivial
    refine ⟨.inr ⟨(hc.held _).2 hmem, h.unused, fun hK => ⟨(hnum hK).1,
      fun q => ((hnum hK).2 q).1, p, hc.current, hnew⟩⟩, ⟨h', h'.unused, ?_⟩, h'.unused,
      fun hK => ?_⟩
    · simpa only [Write.table, if_pos] using hreaps
    · simpa only [Write.table, if_pos] using (hnum hK).1
  refine Logic.Triple.bind (triple_write hnamed id fun s c hinv hc h ha => ?_) fun _ => hf
  obtain ⟨⟨h, -, hreaps⟩, -, hpid⟩ := h
  refine ⟨⟨(hc.held _).2 hmem, h.unused, hreaps⟩, ⟨⟨?_, ?_, by simp⟩, ?_, ?_, fun hK => ?_⟩,
    fun hK => ?_⟩ <;> simp only [Write.table, if_pos]
  · exact h.creator
  · exact h.parent
  · exact h.dozing
  · exact hpid hK
  · exact h.killed hK

/-- `allocproc` answers a new process, with its lock held. -/
theorem allocproc_spec :
    (discipline K).Triple (.proc p) (On (.proc p) [] fun _ => True) allocproc fun r =>
      match r with
      | none => On (.proc p) [] fun _ => True
      | some np => fun s => np ≠ p ∧ On (.proc p) [.proc np] (Child K p np none) s := by
  refine findUnused_spec.bind fun r => ?_
  cases r with
  | none => exact fun s hs => hs
  | some np =>
  intro s hs
  obtain ⟨hne, hs⟩ := hs
  have hnew : Stab K (.proc p) [.proc np] fun T =>
      Child K p np none T ∧ (K .apart → (T np).killed = false) :=
    (Child.stab (.inl rfl)).and (.imp fun _ => unkilled_stab List.mem_cons_self)
  have hgiveUp : (discipline K).Triple (.proc p) (On (.proc p) [.proc np] fun T =>
      Child K p np none T ∧ (K .apart → (T np).killed = false)) (do
      freeproc np
      release (.proc np)
      return (none : Option Slot)) fun r =>
      match r with
      | none => On (.proc p) [] fun _ => True
      | some np => fun s => np ≠ p ∧ On (.proc p) [.proc np] (Child K p np none) s :=
    Logic.Triple.pre (giveUp_spec hne fun s hs => hs) fun s hs => hs.imp fun T hT => hT.1
  refine take_spec ?_ s hs
  refine (triple_vm hnew).bind fun trapframe => ?_
  cases trapframe with
  | none => exact hgiveUp
  | some trapframe =>
  refine Logic.Triple.bind (triple_write_free hnew fun _ => rfl) fun _ => ?_
  refine (triple_vm hnew).bind fun pagetable => ?_
  cases pagetable with
  | none => exact hgiveUp
  | some pagetable =>
  refine Logic.Triple.bind (triple_write_free hnew fun _ => rfl) fun _ => ?_
  refine Logic.Triple.bind (triple_context hnew.stable ?_) fun _ => ?_
  · intro s c hs hinv hc
    obtain ⟨d, hd, hchild, -⟩ := hs
    obtain rfl : c = d := hinv.unique c d p (Kernel.running_eq_proc.1 hc) hd.current
    refine ⟨(hd.held _).2 List.mem_cons_self, hchild.owned.1, fun h => hne ?_⟩
    exact Option.some.inj (h.symm.trans hd.current)
  · exact Logic.Triple.bind (triple_note (G := Child K p np none) hnew fun s c _ _ h _ =>
      ⟨h.2, h.1⟩) fun _ s hs => ⟨hne, hs⟩

/-! ## `fork` -/

/-- A new process is no zombie, so it may get a parent. -/
theorem LockInv.adopt {T : Table} {v : Option Slot} (h : LockInv K .wait T)
    (hused : (T np).state = .used) : LockInv K .wait ((Write.parent np v).table T) := by
  obtain ⟨hquiet, hsettled⟩ := h
  constructor
  · intro r q hr hdoze hz
    have := hquiet r q hr
    simp only [Table.ZombieChild, Write.table] at hdoze hz this
    grind
  · intro q hq hz
    have := hsettled q hq
    simp only [Write.table] at hz ⊢
    grind

/-- Give the new process its parent. -/
theorem setParent_spec (hwait : .wait ∈ S) (hp : .proc p ∉ S) :
    (discipline K).Triple (.proc p)
      (On (.proc p) S fun T => Child K p np none T ∧ LockInv K .wait T)
      (write (.parent np (some p)))
      fun _ => On (.proc p) S fun T => Child K p np (some p) T ∧ LockInv K .wait T := by
  refine triple_write ((Child.stab (.inl rfl)).and (lockInv_stab hwait)) id
    fun s c hinv hc h ha => ?_
  obtain ⟨hchild, hli⟩ := h
  refine ⟨.inr ⟨(hc.held _).2 hwait, .inl ⟨hc.current.symm, ?_, hchild.parent, fun q hq => ?_⟩⟩,
    ⟨⟨?_, ?_, hchild.owned.2.2⟩, ?_, ?_, fun hK => ?_⟩, hli.adopt hchild.owned.1⟩
  · rw [hc.current]
    exact hchild.owned
  · obtain rfl : p = q := Option.some.inj (hc.current.symm.trans hq)
    obtain hrun | hlock := hinv.current c p hq
    · exact hrun
    · exact absurd ((hc.held _).1 hlock) hp
  · simpa only [Write.table, if_pos] using hchild.owned.1
  · simpa only [Write.table, if_pos] using hchild.owned.2.1
  · simp only [Write.table, if_pos]
  · simpa only [Write.table, if_pos] using hchild.dozing
  · simpa only [Write.table, if_pos] using hchild.named hK

/-- Let the new process run. -/
theorem start_spec (hmem : .proc np ∈ S) (hne : np ≠ p) :
    (discipline K).Triple (.proc p) (On (.proc p) S (Child K p np (some p)))
      (write (.state np .runnable))
      fun _ => On (.proc p) S fun T => True ∧ Guarded K (.proc p) np T := by
  refine triple_write (Child.stab (.inr rfl)) id fun s c hinv hc h ha => ?_
  refine ⟨⟨(hc.held _).2 hmem, .inr (.inr ⟨?_, ?_⟩)⟩, trivial, ?_, fun ht => ?_⟩
  · rw [hc.current]
    exact h.owned
  · rw [hc.current]
    exact h.parent
  · simp only [Write.table, if_pos]
    exact .of_awake (by simp) (by simp) h.dozing h.named
  · exact absurd (Tid.proc.inj ht).symm hne

theorem fork_calm : Calm K p fork := by
  refine (myproc_spec stab_true).bind fun p' => ?_
  intro s hs
  obtain ⟨hp', hs⟩ := hs
  obtain rfl : p = p' := Tid.proc.inj hp'
  refine Logic.Triple.bind allocproc_spec (fun r => ?_) s hs
  cases r with
  | none => exact fun s hs => hs
  | some np =>
  intro s hs
  obtain ⟨hne, hs⟩ := hs
  have hF : Frame K (.proc p) [] (Child K p np none) := Child.frame hne (.inl rfl)
  have hO : Frame K (.proc p) [] (Child K p np (some p)) := Child.frame hne (.inr rfl)
  refine Logic.Triple.bind (copyMemory_moves _ hF) (fun r => ?_) s hs
  cases r with
  | none => exact giveUp_spec hne fun s hs => hs
  | some _ =>
  refine (read_moves _ hF).bind fun sz => ?_
  refine Logic.Triple.bind (triple_write_free hF.mono.stab fun _ => rfl) fun _ => ?_
  refine (copyRegisters_moves _ hF).bind fun _ => (dupPrivate_moves _ hF).bind fun _ => ?_
  refine (read_moves _ hF).bind fun pid => ?_
  refine Logic.Triple.bind (Logic.Triple.pre (release_proc hF.stab fun _ =>
    kerneltrap_moves _ hF) fun s hs => hs.imp fun T hT => ⟨hT, hT.guarded hne⟩) fun _ => ?_
  refine (acquire_first hF.stab (by simp)).bind fun _ => ?_
  refine (setParent_spec List.mem_cons_self (by simp)).bind fun _ => ?_
  refine (release_other (by simp) hO.stab fun _ => kerneltrap_moves _ hO).bind fun _ => ?_
  refine (acquire_proc hO.stab .nil).bind fun _ => ?_
  refine Logic.Triple.bind (Logic.Triple.pre (start_spec (S := [.proc np]) List.mem_cons_self hne)
    fun s hs => hs.imp fun T hT => hT.1) fun _ => ?_
  exact (release_proc stab_true fun _ => kerneltrap_moves.calm).bind fun _ s hs => hs

/-! ## `forkn` -/

/-- `forkn` never answers 0. -/
theorem forknLoop_spec (k i : Nat) (pids : List I32) :
    (discipline K).Triple (.proc p) (On (.proc p) [] fun _ => True) (forknLoop p k i pids)
      fun r s => r.1 ≠ 0 ∧ On (.proc p) [] (fun _ => True) s := by
  induction k generalizing i pids with
  | zero => exact fun s hs => ⟨by simp, hs⟩
  | succ k ih =>
  rw [forknLoop]
  refine allocproc_spec.bind fun r => ?_
  cases r with
  | none =>
    have hkills : Calm K p (Prog.foldM (fun () pid => do let _ ← kill pid) () pids) :=
      Logic.Triple.foldM (fun _ _ => On (.proc p) [] fun _ => True) fun pid _ _ =>
        kill_calm.bind fun _ => Calm.ret
    exact Logic.Triple.bind hkills fun _ s hs => ⟨by simp, hs⟩
  | some np =>
  intro s hs
  obtain ⟨hne, hs⟩ := hs
  have hF : Frame K (.proc p) [] (Child K p np none) := Child.frame hne (.inl rfl)
  have hO : Frame K (.proc p) [] (Child K p np (some p)) := Child.frame hne (.inr rfl)
  have hFF := hF.and (forked_frame (K := K) hne)
  refine Logic.Triple.bind (triple_write
    (G := fun T => Child K p np none T ∧ Table.Forked T (some p) np) hF.mono.stab id ?_)
    (fun _ => ?_) s hs
  · intro s c hinv hc h ha
    have h' : Child K p np none ((Write.byForkn np true).table s.proc) :=
      h.congr (by simp [Write.table]) (by simp [Write.table]) (by simp [Write.table])
        (by simp [Write.table]) (by simp [Write.table])
    exact ⟨⟨(hc.held _).2 List.mem_cons_self, h.owned.2.1.trans hc.current.symm⟩, h', h'.owned,
      by simp [Write.table]⟩
  refine (read_moves _ hFF).bind fun sz => ?_
  refine Logic.Triple.bind (triple_write_free hFF.mono.stab fun _ => rfl) fun _ => ?_
  refine (copyMemory_moves _ hFF).bind fun r => ?_
  cases r with
  | none =>
    refine Logic.Triple.pre (giveUp_spec hne fun s hs => ⟨by simp, hs⟩) fun s hs => ?_
    exact hs.imp fun T hT => hT.1
  | some _ =>
  refine (copyRegisters_moves _ hFF).bind fun _ => (dupPrivate_moves _ hFF).bind fun _ => ?_
  -- `wait_lock` is taken with the lock of the new process held
  refine (acquire_wait hFF.mono.stab fun T q h hmem => ?_).bind fun _ => ?_
  · obtain rfl : q = np := Lock.proc.inj (List.mem_singleton.1 hmem)
    exact h.2
  refine Logic.Triple.bind (Logic.Triple.pre (setParent_spec List.mem_cons_self ?_) fun s hs =>
    hs.imp fun T hT => ⟨hT.1.1, hT.2⟩) fun _ => ?_
  · simp [hne.symm]
  refine (release_other (l := .wait) (S := [.proc np]) (by simp) hO.mono.stab
    (by simp)).bind fun _ => ?_
  refine (read_moves _ hO).bind fun pid => ?_
  refine (start_spec List.mem_cons_self hne).bind fun _ => ?_
  exact (release_proc stab_true fun _ => kerneltrap_moves.calm).bind fun _ => ih _ _

theorem forkn_spec {n : I32} :
    (discipline K).Triple (.proc p) (On (.proc p) [] fun _ => True) (forkn n)
      fun r s => r.1 ≠ 0 ∧ On (.proc p) [] (fun _ => True) s := by
  refine (myproc_spec stab_true).bind fun p' => ?_
  intro s hs
  obtain ⟨hp', hs⟩ := hs
  obtain rfl : p = p' := Tid.proc.inj hp'
  by_cases hn : n.toInt < 1 ∨ n.toInt > 16
  · rw [if_pos hn]
    exact ⟨by simp, hs⟩
  · rw [if_neg hn]
    exact forknLoop_spec _ _ _ s hs

end Xv6
