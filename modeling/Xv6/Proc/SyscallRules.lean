import Xv6.Proc.WaitallRules

/-!
# The whole kernel obeys the discipline

`exit`, the system calls, traps, and the threads themselves.  The result is
`discipline_of_reach`: in every state that a run reaches, the invariant
holds, and every operation that is about to be performed meets its
obligation.
-/

namespace Xv6

open Conc Conc.Machine

variable {K : Known} {t : Tid} {S S' : List Lock} {F G : Table → Prop} {l : Lock}
variable {p q : Slot} {α β γ : Type}

/-! ## `exit` -/

/-- The message of every process that has called `exitmsg`. -/
def farewell : List Byte := exitMsgOf (literal "Goodbye World xv6")

/-- `p` is on its way through `exit`: how it ended is settled. -/
structure Ending (p : Slot) (e : Termination) (T : Table) : Prop where
  live : (T p).Live
  ended : (T p).ended = some e
  status : ∀ v, e = .status v → (T p).xstatus = v
  message : e = .msg → (T p).message ≠ none

/-- Nobody else ends a process. -/
theorem live_frame : Frame K (.proc p) S fun T => (T p).Live where
  stab := by
    intro s w hinv hr h
    obtain ⟨c, hc, -, ha, hw, -⟩ := hr
    have hne : s.current c ≠ some p := fun h => hc (Kernel.running_eq_proc.2 h)
    unfold Proc.Live at h ⊢
    obtain hs | ⟨v, rfl, hs⟩ := w.table_state s.proc p
    · rwa [hs]
    · rw [hs]
      cases v <;> (simp only [writeOK, stateOK, Freeing, Table.Owned] at hw; grind)
  mild T w hw h := by
    unfold Proc.Live at h ⊢
    obtain hs | ⟨v, rfl, hs⟩ := w.table_state T p
    · rwa [hs]
    · rw [hs]
      cases v with
      | runnable => exact .inl rfl
      | sleeping => exact .inr (.inr rfl)
      | _ => exact hw.elim

/-- Only a process itself says how it ends. -/
theorem ended_frame {e : Termination} :
    Frame K (.proc p) S fun T => (T p).Live ∧ (T p).ended = some e where
  stab := by
    intro s w hinv hr h
    refine ⟨live_frame.stab s w hinv hr h.1, ?_⟩
    obtain ⟨c, hc, -, ha, hw, -⟩ := hr
    have hne : s.current c ≠ some p := fun h => hc (Kernel.running_eq_proc.2 h)
    have hlive := h.1
    unfold Proc.Live at hlive
    obtain he | ⟨v, rfl, -⟩ := w.table_ended s.proc p
    · exact he.trans h.2
    · simp only [writeOK] at hw
      grind
  mild T w hw h := by
    refine ⟨(live_frame (K := K)).mild T w hw h.1, ?_⟩
    obtain he | ⟨v, rfl, -⟩ := w.table_ended T p
    · exact he.trans h.2
    · exact hw.elim

theorem ending_frame {e : Termination} : Frame K (.proc p) S (Ending p e) where
  stab := by
    intro s w hinv hr h
    obtain ⟨hlive, hended⟩ := ended_frame.stab s w hinv hr ⟨h.live, h.ended⟩
    obtain ⟨c, hc, -, ha, hw, -⟩ := hr
    have hne : s.current c ≠ some p := fun h => hc (Kernel.running_eq_proc.2 h)
    refine ⟨hlive, hended, fun v hv => ?_, fun hm => ?_⟩
    · obtain hx | ⟨v', rfl, -⟩ := w.table_xstatus s.proc p
      · exact hx.trans (h.status v hv)
      · exact absurd hw.1 hne
    · obtain hx | ⟨v', rfl, -⟩ := w.table_message s.proc p
      · rw [hx]
        exact h.message hm
      · exact absurd hw.1 hne
  mild T w hw h := by
    obtain ⟨hlive, hended⟩ := (ended_frame (K := K)).mild T w hw ⟨h.live, h.ended⟩
    refine ⟨hlive, hended, fun v hv => ?_, fun hm => ?_⟩
    · obtain hx | ⟨v', rfl, -⟩ := w.table_xstatus T p
      · exact hx.trans (h.status v hv)
      · exact hw.elim
    · obtain hx | ⟨v', rfl, -⟩ := w.table_message T p
      · rw [hx]
        exact h.message hm
      · exact hw.elim

/-- The exit message of a process that has called `exitmsg`, in `exit`. -/
def Parting (p : Slot) (e : Termination) (T : Table) : Prop :=
  e = .msg → (T p).priv.exitMsg = farewell

theorem parting_frame {e : Termination} : Frame K (.proc p) S (Parting p e) where
  stab := by
    intro s w hinv hr h hm
    obtain ⟨c, hc, -, ha, hw, -⟩ := hr
    obtain hx | ⟨f, rfl, hx⟩ := w.table_priv s.proc p
    · rw [hx]
      exact h hm
    · rw [hx]
      obtain hf | ⟨hcur, -⟩ := hw
      · rw [hf]
        exact h hm
      · exact absurd (Kernel.running_eq_proc.2 hcur) hc
  mild T w hw h hm := by
    obtain hx | ⟨f, rfl, -⟩ := w.table_priv T p
    · rw [hx]
      exact h hm
    · exact hw.elim

/-- A process that is about to exit, with what its parent will find. -/
def Leaves (p : Slot) (e : Termination) (T : Table) : Prop := Ending p e T ∧ Parting p e T

theorem leaves_frame {e : Termination} : Frame K (.proc p) S (Leaves p e) :=
  ending_frame.and parting_frame

/-- A store that names none of these fields. -/
theorem Leaves.congr {e : Termination} {T T' : Table} (h : Leaves p e T)
    (hstate : (T' p).state = (T p).state) (hended : (T' p).ended = (T p).ended)
    (hxstatus : (T' p).xstatus = (T p).xstatus) (hmessage : (T' p).message = (T p).message)
    (hpriv : (T' p).priv = (T p).priv) : Leaves p e T' := by
  obtain ⟨⟨hlive, he, hs, hm⟩, hp⟩ := h
  refine ⟨⟨?_, hended.trans he, fun v hv => hxstatus.trans (hs v hv), fun h => ?_⟩, fun h => ?_⟩
  · unfold Proc.Live at hlive ⊢
    rwa [hstate]
  · rw [hmessage]
    exact hm h
  · rw [hpriv]
    exact hp h

/-! ## What `wait_lock` protects in `exit` -/

theorem quiet_frame {ex : Option Slot} (hwait : .wait ∈ S) : Frame K t S (Quiet ex) where
  stab := by
    intro s w hinv hr h
    obtain ⟨c, hc, hl, ha, hw, -⟩ := hr
    exact h.kept hw (hl _ hwait)
  mild T w hw h r q hr hd hz := by
    have hS : S ≠ [] := List.ne_nil_of_mem hwait
    have hd' : (T r).dozing = true := by
      obtain hd' | ⟨v, rfl, hd'⟩ := w.table_dozing T r
      · rwa [← hd']
      · obtain rfl | ⟨hnil, -⟩ := hw
        · rw [hd] at hd'
          cases hd'
        · exact absurd hnil hS
    refine h r q hr hd' ⟨?_, ?_⟩
    · obtain hp | ⟨v, rfl, -⟩ := w.table_parent T q
      · exact hp ▸ hz.1
      · exact hw.elim
    · obtain hs | ⟨v, rfl, hs⟩ := w.table_state T q
      · exact hs ▸ hz.2
      · obtain rfl : v = .zombie := hs.symm.trans hz.2
        exact hw.elim

theorem settled_frame {ex : Option Slot} (hwait : .wait ∈ S) : Frame K t S (Settled K ex) where
  stab := by
    intro s w hinv hr h
    obtain ⟨c, hc, hl, ha, hw, -⟩ := hr
    exact h.kept hw (hl _ hwait)
  mild T w hw h q hq hz := by
    have hz' : (T q).state = .zombie := by
      obtain hs | ⟨v, rfl, hs⟩ := w.table_state T q
      · exact hs ▸ hz
      · obtain rfl : v = .zombie := hs.symm.trans hz
        exact hw.elim
    have hparent : (w.table T q).parent = (T q).parent :=
      (w.table_parent T q).resolve_right fun ⟨v, hv, _⟩ => (hv ▸ hw).elim
    have hpid : (w.table T q).pid = (T q).pid :=
      (w.table_pid T q).resolve_right fun ⟨v, hv, _⟩ => (hv ▸ hw).elim
    have hreaps : (w.table T q).reaps = (T q).reaps := by
      obtain hr | ⟨v, rfl, -⟩ | ⟨r, rfl, -⟩ := w.table_reaps T q
      · exact hr
      · exact hw.elim
      · exact hw.elim
    rw [hparent, hpid, hreaps]
    exact h q hq hz'

theorem waitInv_frame (hwait : .wait ∈ S) : Frame K t S (LockInv K .wait) :=
  (quiet_frame hwait).and (settled_frame hwait)

/-- Under `wait_lock` nobody else changes parents. -/
theorem parent_frame {v : Option Slot} (hwait : .wait ∈ S) :
    Frame K t S fun T => (T q).parent = v where
  stab := by
    intro s w hinv hr h
    obtain ⟨c, hc, hl, ha, hw, -⟩ := hr
    obtain hp | ⟨v', rfl, hp⟩ := w.table_parent s.proc q
    · exact hp.trans h
    · obtain ⟨rfl, hnone⟩ | ⟨hlock, -⟩ := hw
      · exact hp.trans (hnone.symm.trans h)
      · exact absurd hlock (hl _ hwait)
  mild T w hw h := by
    obtain hp | ⟨v', rfl, -⟩ := w.table_parent T q
    · exact hp.trans h
    · exact hw.elim

/-- Nor does anybody get a child. -/
theorem notChild_frame {P : Slot → Prop} (hwait : .wait ∈ S) :
    Frame K (.proc p) S fun T => ∀ q, P q → (T q).parent ≠ some p where
  stab := by
    intro s w hinv hr h q hq
    rw [ne_eq, parent_iff hwait hr]
    exact h q hq
  mild T w hw h q hq := by
    obtain hp | ⟨v', rfl, -⟩ := w.table_parent T q
    · rw [hp]
      exact h q hq
    · exact hw.elim

/-! ## `exit` itself -/

/-- What `reparent` keeps, with `is` still to visit: the children of `p` are
among those. -/
def Reparenting (K : Known) (p : Slot) (e : Termination) (is : List Slot) (T : Table) : Prop :=
  (Leaves p e T ∧ LockInv K .wait T) ∧ ∀ q, q ∉ is → (T q).parent ≠ some p

theorem reparenting_frame {e : Termination} {is : List Slot} (hwait : .wait ∈ S) :
    Frame K (.proc p) S (Reparenting K p e is) :=
  (leaves_frame.and (waitInv_frame hwait)).and (notChild_frame hwait)

/-- The child `pp` is given to `initproc`, that has not been woken up yet. -/
theorem Reparenting.give {e : Termination} {is : List Slot} {T : Table}
    (h : Reparenting K p e (pp :: is) T) (hp : p ≠ Boot.initproc) :
    let T' := (Write.parent pp (some Boot.initproc)).table T
    (Leaves p e T' ∧ Quiet (some Boot.initproc) T' ∧ Settled K none T') ∧
      ∀ q, q ∉ is → (T' q).parent ≠ some p := by
  obtain ⟨⟨hleaves, hquiet, hsettled⟩, hvisited⟩ := h
  refine ⟨⟨hleaves.congr ?_ ?_ ?_ ?_ ?_, fun r q hr hd hz => ?_, fun q hq hz => ?_⟩,
    fun q hq => ?_⟩
  · exact (Write.table_state _ _ p).resolve_right (by simp)
  · exact (Write.table_ended _ _ p).resolve_right (by simp)
  · exact (Write.table_xstatus _ _ p).resolve_right (by simp)
  · exact (Write.table_message _ _ p).resolve_right (by simp)
  · exact (Write.table_priv _ _ p).resolve_right (by simp)
  · have := hquiet r q (by simp)
    simp only [Table.ZombieChild, Write.table] at hd hz this
    grind
  · have := hsettled q hq
    simp only [Write.table] at hz ⊢
    grind
  · have := hvisited q
    simp only [Write.table]
    grind

/-- `reparent` gives all children to `initproc`. -/
theorem reparent_spec {e : Termination} (hp : p ≠ Boot.initproc) :
    (discipline K).Triple (.proc p)
      (On (.proc p) [.wait] fun T => Leaves p e T ∧ LockInv K .wait T) (reparent p)
      fun _ => On (.proc p) [.wait] (Reparenting K p e []) := by
  have hwait : Lock.wait ∈ [Lock.wait] := List.mem_cons_self
  refine Logic.Triple.pre (Logic.Triple.foldM
    (fun is _ => On (.proc p) [.wait] (Reparenting K p e is)) fun pp is _ => ?_) fun s hs =>
    hs.imp fun T hT => ⟨hT, fun q hq => absurd ?_ hq⟩
  · have hR : Stab K (.proc p) [.wait] (Reparenting K p e (pp :: is)) :=
      (reparenting_frame hwait).stab
    refine Logic.Triple.bind (triple_read (G := fun v T =>
      Reparenting K p e (pp :: is) T ∧ ((T pp).parent = some p ↔ v = some p)) hR
      fun s c _ _ h => ⟨h, Iff.rfl⟩) fun v => ?_
    have hchild : Stab K (.proc p) [.wait] fun T =>
        Reparenting K p e (pp :: is) T ∧ ((T pp).parent = some p ↔ v = some p) := by
      refine hR.and fun s w hinv hr h => ?_
      rw [parent_iff hwait hr]
      exact h
    by_cases hv : v = some p
    · rw [if_pos hv]
      refine Logic.Triple.bind (triple_read (G := fun i T => i = Boot.initproc ∧
        Reparenting K p e (pp :: is) T ∧ ((T pp).parent = some p ↔ v = some p)) hchild
        fun s c hinv _ h => ⟨hinv.initproc, h⟩) fun i => ?_
      have hgiven : Frame K (.proc p) [.wait] fun T =>
          (Leaves p e T ∧ Quiet (some Boot.initproc) T ∧ Settled K none T) ∧
            ∀ q, q ∉ is → (T q).parent ≠ some p :=
        (leaves_frame.and ((quiet_frame hwait).and (settled_frame hwait))).and
          (notChild_frame hwait)
      intro s hs
      obtain ⟨c, hc, rfl, h⟩ := hs
      refine Logic.Triple.bind (triple_write (G := fun T =>
        (Leaves p e T ∧ Quiet (some Boot.initproc) T ∧ Settled K none T) ∧
          ∀ q, q ∉ is → (T q).parent ≠ some p) hchild id ?_) (fun _ => ?_) s ⟨c, hc, h⟩
      · intro s c hinv hc h ha
        refine ⟨.inr ⟨(hc.held _).2 hwait, .inr ⟨?_, ?_, .inl ?_⟩⟩, h.1.give hp⟩
        · rw [hc.current]
          exact h.2.2 hv
        · rw [hc.current]
          simp
        · rw [hinv.initproc]
      -- `initproc` is awake now, so it may have an exited child
      refine (wakeup_spec hgiven NoProc.wait fun h => nomatch h).post fun _ s hs =>
        hs.imp fun T hT => ?_
      obtain ⟨⟨⟨hleaves, hquiet, hsettled⟩, hvisited⟩, hwoken⟩ := hT
      refine ⟨⟨hleaves, fun r q _ hd hz => ?_, hsettled⟩, hvisited⟩
      by_cases hr : r = Boot.initproc
      · have := hwoken Boot.initproc rfl (fun h => hp (Tid.proc.inj h)) hwait List.not_mem_nil
        rw [hr, this] at hd
        cases hd
      · exact hquiet r q (fun h => hr (Option.some.inj h)) hd hz
    · rw [if_neg hv]
      intro s hs
      show On (.proc p) [.wait] (Reparenting K p e is) s
      refine hs.imp fun T hT => ⟨hT.1.1, fun q hq => ?_⟩
      by_cases hqp : q = pp
      · exact hqp ▸ fun h => hv (hT.2.1 h)
      · exact hT.1.2 q (by simp [hqp, hq])
  · unfold slots
    exact List.mem_finRange q

theorem closeFiles_moves : Moves K (.proc p) [] (closeFiles p) fun _ => [] := by
  refine .foldM fun _ fd => read_moves.bind fun f => ?_
  cases f with
  | none => exact .ret rfl
  | some f => exact fileclose_moves.bind fun _ => write_moves fun _ => rfl

/-- The process may become a zombie: it has no child, and its parent is
awake. -/
def Parted (K : Known) (p : Slot) (e : Termination) (T : Table) : Prop :=
  Reparenting K p e [] T ∧ ∀ q, (T p).parent = some q → (T q).dozing = false

theorem parted_stab {e : Termination} (hwait : .wait ∈ S) :
    Stab K (.proc p) S (Parted K p e) := by
  intro s w hinv hr h
  refine ⟨(reparenting_frame hwait).stab s w hinv hr h.1, fun q hq => ?_⟩
  have hq' : (s.proc p).parent = some q := by
    rw [← hq]
    exact ((parent_frame hwait).stab s w hinv hr rfl).symm
  obtain ⟨c, hc, hl, ha, hw, -⟩ := hr
  obtain hd | ⟨v, rfl, hd⟩ := w.table_dozing s.proc q
  · exact hd.trans (h.2 q hq')
  · cases v with
    | false => exact hd
    | true => exact absurd hw.2.1 (hl _ hwait)

/-- `wait_lock` lets a process become a zombie whose parent is awake. -/
theorem Parted.zombie {e : Termination} {T : Table} (h : Parted K p e T)
    (hparent : (T p).parent ≠ none) (hreaps : (T p).reaps = 0)
    (hpid : K .positive → (T p).pid ≠ 0) :
    LockInv K .wait ((Write.state p .zombie).table T) := by
  obtain ⟨⟨⟨-, hquiet, hsettled⟩, -⟩, hawake⟩ := h
  constructor
  · intro r q hr hd hz
    have hqr := hquiet r q hr
    have := hawake r
    simp only [Table.ZombieChild, Write.table] at hd hz hqr
    grind
  · intro q hq hz
    have := hsettled q hq
    simp only [Write.table] at hz ⊢
    grind

/-- The end of a process, once it holds both locks. -/
theorem zombie_spec {e : Termination} {Q : Unit → Kernel → Prop} (hp : p ≠ Boot.initproc) :
    (discipline K).Triple (.proc p)
      (On (.proc p) [.proc p, .wait] fun T => Parted K p e T ∧ Guarded K (.proc p) p T) (do
        write (.xstate p 0)
        write (.state p .zombie)
        release .wait
        sched
        panic "zombie exit") Q := by
  have hwait : Lock.wait ∈ [Lock.proc p, Lock.wait] := List.mem_cons_of_mem _ List.mem_cons_self
  have hlp : Lock.proc p ∈ [Lock.proc p, Lock.wait] := List.mem_cons_self
  have hP : Stab K (.proc p) [.proc p, .wait] fun T => Parted K p e T ∧ Guarded K (.proc p) p T :=
    (parted_stab hwait).and (Guarded.stab hlp)
  have hZ : Stab K (.proc p) [.proc p] fun T => True ∧ ProcInv K p (T p) :=
    stab_true.and (procInv_stab List.mem_cons_self)
  refine Logic.Triple.bind (triple_write (G := fun T => Parted K p e T ∧ Guarded K (.proc p) p T)
    hP id ?_) fun _ => ?_
  · intro s c hinv hc h ha
    obtain ⟨⟨⟨⟨hleaves, hli⟩, hnot⟩, hawake⟩, hpi, hrun⟩ := h
    refine ⟨⟨rfl, .inl ((hc.held _).2 hlp)⟩, ⟨⟨⟨hleaves.congr ?_ ?_ ?_ ?_ ?_,
      hli.congr ?_ ?_ ?_ ?_ ?_⟩, fun q hq => ?_⟩, fun q hq => ?_⟩, ?_, fun ht => ?_⟩
    · exact (Write.table_state _ _ p).resolve_right (by simp)
    · exact (Write.table_ended _ _ p).resolve_right (by simp)
    · exact (Write.table_xstatus _ _ p).resolve_right (by simp)
    · exact (Write.table_message _ _ p).resolve_right (by simp)
    · exact (Write.table_priv _ _ p).resolve_right (by simp)
    · exact fun q => (Write.table_state _ _ q).resolve_right (by simp)
    · exact fun q => (Write.table_parent _ _ q).resolve_right (by simp)
    · exact fun q => (Write.table_dozing _ _ q).resolve_right (by simp)
    · exact fun q => (Write.table_reaps _ _ q).resolve_right (by simp)
    · exact fun q => (Write.table_pid _ _ q).resolve_right (by simp)
    · rw [(Write.table_parent _ _ q).resolve_right (by simp)]
      exact hnot q hq
    · rw [(Write.table_parent _ _ p).resolve_right (by simp)] at hq
      rw [(Write.table_dozing _ _ q).resolve_right (by simp)]
      exact hawake q hq
    · simp only [Write.table, if_pos]
      exact ⟨hpi.awake, hpi.dozing, hpi.blank, hpi.named⟩
    · simp only [Write.table, if_pos]
      exact hrun ht
  refine Logic.Triple.bind (triple_write (G := fun T =>
    (True ∧ ProcInv K p (T p)) ∧ LockInv K .wait T) hP id ?_) fun _ => ?_
  · intro s c hinv hc h ha
    obtain ⟨hparted, hpi, hrun⟩ := h
    have hrun := hrun rfl
    have hzombie := hparted.zombie
    obtain ⟨⟨⟨⟨hending, hparting⟩, -⟩, hnot⟩, hawake⟩ := hparted
    refine ⟨⟨(hc.held _).2 hlp, (hc.held _).2 hwait, hc.current, hrun, ?_, fun v hv => ?_,
      fun hm => ?_, ?_, fun hchild => ?_, hawake⟩, ⟨trivial, ?_⟩, hzombie ?_ ?_ ?_⟩
    · rw [hending.ended]
      simp
    · exact hending.status v (Option.some.inj (hending.ended.symm.trans hv))
    · have hm : e = .msg := Option.some.inj (hending.ended.symm.trans hm)
      exact ⟨hending.message hm, hparting hm⟩
    · rw [hinv.initproc]
      exact hp
    · obtain ⟨q, hq⟩ := hchild
      exact hnot q List.not_mem_nil hq
    · simp only [Write.table, if_pos]
      have hdoze := hpi.not_dozing (by simp [hrun])
      refine ⟨fun _ hs => by simp at hs, fun hd => ?_, fun _ hu => by simp at hu,
        fun _ _ hz => absurd rfl hz⟩
      exact absurd (hdoze.symm.trans hd) (by simp)
    · exact hinv.forest.rooted p hp hending.live
    · exact hinv.fresh p (by simp [hrun]) (by simp [hrun])
    · exact fun hK => hpi.named hK (by simp [hrun]) (by simp [hrun])
  refine Logic.Triple.bind (Logic.Triple.pre (release_other (by simp) hZ (by simp))
    fun s hs => hs.swap) fun _ => ?_
  refine (sched_spec stab_true).bind fun _ => ?_
  exact triple_panic (stab_true.and (Guarded.stab List.mem_cons_self))

/-- A process that holds no lock is running. -/
theorem Here.state_running {s : Kernel} {n : Nat} {c : Cpu} (hinv : Inv K s)
    (hc : Here (.proc p) n [] s c) : (s.proc p).state = .running := by
  obtain h | h := hinv.current c p hc.current
  · exact h
  · exact absurd ((hc.held _).1 h) List.not_mem_nil

/-- `exit` does not return. -/
theorem exit_spec {e : Termination} {msg : List Byte} {Q : Unit → Kernel → Prop}
    (hmsg : e = .msg → msg = literal "Goodbye World xv6") :
    (discipline K).Triple (.proc p) (On (.proc p) [] (Ending p e)) (exit msg) Q := by
  have hwait : Lock.wait ∈ [Lock.wait] := List.mem_cons_self
  have hE : Frame K (.proc p) [] (Ending p e) := ending_frame
  have hF : Frame K (.proc p) [] (Leaves p e) := leaves_frame
  refine (myproc_spec hE.stab).bind fun p' => ?_
  intro s hs
  obtain ⟨hp', hs⟩ := hs
  obtain rfl : p = p' := Tid.proc.inj hp'
  refine Logic.Triple.bind (triple_read (G := fun i T => i = Boot.initproc ∧ Ending p e T)
    hE.stab fun s c hinv _ h => ⟨hinv.initproc, h⟩) (fun i => ?_) s hs
  by_cases hi : p = i
  · rw [if_pos hi]
    exact panic_first (triple_panic ((Stab.const _).and hE.stab))
  rw [if_neg hi]
  intro s hs
  obtain ⟨c, hc, rfl, h⟩ := hs
  refine Logic.Triple.bind (triple_write (G := Leaves p e) hE.stab id ?_) (fun _ => ?_) s ⟨c, hc, h⟩
  · intro s c hinv hc h ha
    refine ⟨.inr ⟨hc.current, hc.state_running hinv⟩, ⟨?_, ?_, ?_, ?_⟩, fun hm => ?_⟩ <;>
      simp only [Write.table, if_pos]
    · exact h.live
    · exact h.ended
    · exact h.status
    · exact h.message
    · rw [hmsg hm]
      rfl
  refine (closeFiles_moves _ hF).bind fun _ => (fsCall_moves _ hF).bind fun _ => ?_
  refine Logic.Triple.bind (triple_write_free hF.stab fun _ => rfl) fun _ => ?_
  refine (acquire_first hF.stab (by simp)).bind fun _ => ?_
  refine (reparent_spec hi).bind fun _ => ?_
  have hend : (discipline K).Triple (.proc p) (On (.proc p) [.wait] (Parted K p e)) (do
      acquire (.proc p)
      write (.xstate p 0)
      write (.state p .zombie)
      release .wait
      sched
      panic "zombie exit") Q :=
    (acquire_proc (parted_stab hwait) NoProc.wait).bind fun _ => zombie_spec hi
  have hR : Frame K (.proc p) [.wait] (Reparenting K p e []) := reparenting_frame hwait
  refine Logic.Triple.bind (triple_read (G := fun v T => (∀ q, v = some q → q ≠ p) ∧
    Reparenting K p e [] T ∧ (T p).parent = v) hR.stab ?_) fun v => ?_
  · exact fun s c hinv _ h => ⟨fun q hq => (hinv.forest.parent q p hq).1, h, rfl⟩
  intro s hs
  obtain ⟨c, hc, hne, h⟩ := hs
  cases v with
  | none => exact hend s ⟨c, hc, h.1, fun q hq => by cases h.2.symm.trans hq⟩
  | some parent =>
  have hP : Frame K (.proc p) [.wait] fun T =>
      Reparenting K p e [] T ∧ (T p).parent = some parent := hR.and (parent_frame hwait)
  refine Logic.Triple.bind ((wakeup_spec hP NoProc.wait (by simp)).post
    fun _ s hs => ?_) (fun _ => hend) s ⟨c, hc, h⟩
  refine hs.imp fun T hT => ⟨hT.1.1, fun q hq => ?_⟩
  obtain rfl : parent = q := Option.some.inj (hT.1.2.symm.trans hq)
  exact hT.2 parent rfl (fun h => hne parent rfl (Tid.proc.inj h).symm) hwait List.not_mem_nil

/-- A process says how it ends. -/
theorem setEnded_spec {e : Termination} :
    (discipline K).Triple (.proc p) (On (.proc p) [] fun _ => True)
      (write (.ended p (some e)))
      fun _ => On (.proc p) [] fun T => (T p).Live ∧ (T p).ended = some e := by
  refine triple_write stab_true id fun s c hinv hc _ ha => ?_
  have hrun := hc.state_running hinv
  refine ⟨.inl ⟨hc.current, hrun⟩, ?_⟩
  simp only [Write.table, if_pos]
  exact ⟨.inr (.inl hrun), trivial⟩

theorem exitKilled_spec {msg : String} {Q : Unit → Kernel → Prop} :
    (discipline K).Triple (.proc p) (On (.proc p) [] fun _ => True) (exitKilled msg) Q := by
  refine (myproc_spec stab_true).bind fun p' => ?_
  intro s hs
  obtain ⟨hp', hs⟩ := hs
  obtain rfl : p = p' := Tid.proc.inj hp'
  refine Logic.Triple.bind setEnded_spec (fun _ => Logic.Triple.pre
    (exit_spec (e := .killed) fun h => nomatch h) fun s hs => ?_) s hs
  exact hs.imp fun T hT => ⟨hT.1, hT.2, fun v hv => (nomatch hv), fun hm => (nomatch hm)⟩

/-- The message does not outlive the first lines of `exit`. -/
theorem exitMsg_spec {msg : List Byte} {Q : Unit → Kernel → Prop} :
    (discipline K).Triple (.proc p) (On (.proc p) [] fun _ => True) (exitMsg msg) Q := by
  refine (myproc_spec stab_true).bind fun p' => ?_
  intro s hs
  obtain ⟨hp', hs⟩ := hs
  obtain rfl : p = p' := Tid.proc.inj hp'
  have hE : Stab K (.proc p) [] (Ending p .msg) := ending_frame.stab
  refine Logic.Triple.bind setEnded_spec (fun _ => ?_) s hs
  refine Logic.Triple.bind (triple_write (G := Ending p .msg) ended_frame.stab id ?_) fun _ => ?_
  · intro s c hinv hc h ha
    refine ⟨⟨hc.current, hc.state_running hinv⟩, ?_, ?_, fun v hv => (nomatch hv), fun _ => ?_⟩ <;>
      simp only [Write.table, if_pos]
    · exact h.1
    · exact h.2
    · simp
  refine Logic.Triple.bind (triple_write (G := Ending p .msg) hE id ?_) fun _ =>
    exit_spec fun _ => rfl
  intro s c hinv hc h ha
  refine ⟨.inr ⟨hc.current, hc.state_running hinv⟩, ?_, ?_, ?_, fun _ => ?_⟩ <;>
    simp only [Write.table, if_pos]
  · exact h.live
  · exact h.ended
  · exact h.status
  · exact h.message rfl

theorem exitNum_spec {v : I32} {Q : Unit → Kernel → Prop} :
    (discipline K).Triple (.proc p) (On (.proc p) [] fun _ => True) (exitNum v) Q := by
  refine (myproc_spec stab_true).bind fun p' => ?_
  intro s hs
  obtain ⟨hp', hs⟩ := hs
  obtain rfl : p = p' := Tid.proc.inj hp'
  refine Logic.Triple.bind setEnded_spec (fun _ => ?_) s hs
  refine Logic.Triple.bind (triple_write (G := Ending p (.status v)) ended_frame.stab id ?_)
    fun _ => exit_spec fun h => nomatch h
  intro s c hinv hc h ha
  refine ⟨⟨hc.current, hc.state_running hinv⟩, ?_, ?_, fun v' hv' => ?_, fun hm => nomatch hm⟩ <;>
    simp only [Write.table, if_pos]
  · exact h.1
  · exact h.2
  · exact Termination.status.inj hv'

/-! ## `sysproc.c` -/

theorem Calm.ite {φ : Prop} [Decidable φ] {m m' : Code α} (h : Calm K p m) (h' : Calm K p m') :
    Calm K p (if φ then m else m') := by
  by_cases hφ : φ
  · rw [if_pos hφ]
    exact h
  · rw [if_neg hφ]
    exact h'

theorem Calm.myproc {f : Slot → Code β} (h : Calm K p (f p)) : Calm K p (myproc.bind f) := by
  refine (myproc_spec stab_true).bind fun p' => ?_
  intro s hs
  obtain ⟨hp', hs⟩ := hs
  obtain rfl : p = p' := Tid.proc.inj hp'
  exact h s hs

theorem note_calm {e : Event} (h : ∀ s c, noteOK K c s e) : Calm K p (note e) :=
  triple_note stab_true fun s c _ _ _ _ => ⟨h s c, trivial⟩

theorem sysExitmsg_calm {a : U64} : Calm K p (sysExitmsg a) := by
  refine .myproc (read_moves.calm.bind fun _ => deref_moves.calm.bind fun _ => ?_)
  refine vm_moves.calm.bind fun ⟨msg, r⟩ => ?_
  cases r with
  | none => exact Calm.bind (note_calm fun _ _ => rfl) fun _ => Calm.ret
  | some _ =>
    -- `exitmsg` does not come back
    exact Logic.Triple.bind (exitMsg_spec (Q := fun _ _ => False)) fun _ _ hs => hs.elim

theorem growproc_moves {n : I32} : Moves K (.proc p) [] (growproc n) fun _ => [] := by
  have hpriv : ∀ (p : Slot) (sz : U64), Moves K (.proc p) []
      (write (.priv p fun x => { x with sz := sz })) fun _ => [] :=
    fun p sz => write_moves fun _ => rfl
  refine myproc_moves fun p' hp' => ?_
  obtain rfl : p = p' := Tid.proc.inj hp'
  refine read_moves.bind fun sz => read_moves.bind fun _ => deref_moves.bind fun _ => ?_
  refine .ite ?_ (.ite ?_ ?_)
  · refine vm_moves.bind fun r => ?_
    cases r with
    | none => exact .ret rfl
    | some sz => exact .ite (.ret rfl) ((hpriv _ _).bind fun _ => .ret rfl)
  · exact vm_moves.bind fun _ => (hpriv _ _).bind fun _ => .ret rfl
  · exact (hpriv _ _).bind fun _ => .ret rfl

theorem sysSbrk_moves {n : I32} : Moves K (.proc p) [] (sysSbrk n) fun _ => [] := by
  refine myproc_moves fun p' hp' => ?_
  obtain rfl : p = p' := Tid.proc.inj hp'
  exact read_moves.bind fun _ => growproc_moves.bind fun _ => .ite (.ret rfl) (.ret rfl)

/-- The locks that `sys_sleep` holds when it has left the loop. -/
private def sysSleepLocks : Option Unit → List Lock
  | none => []
  | some _ => [.ticks]

theorem sysSleep_moves {n : I32} : Moves K (.proc p) [] (sysSleep n) fun _ => [] := by
  have hl := Lock.plain_ticks
  refine myproc_moves fun p' hp' => ?_
  obtain rfl : p = p' := Tid.proc.inj hp'
  refine (acquire_moves hl).bind fun _ => read_moves.bind fun ticks0 => ?_
  refine Moves.bind (R := sysSleepLocks) (Moves.loop fun _ => ?_) fun r => ?_
  · refine read_moves.bind fun _ => .ite (.ret rfl) ?_
    refine (killed_moves hl.noProc).bind fun _ => .ite ?_ ?_
    · exact (release_moves hl).bind fun _ => .ret rfl
    · exact (sleep_moves hl rfl).bind fun _ => .ret rfl
  · cases r with
    | none => exact .ret rfl
    | some _ => exact (release_moves hl).bind fun _ => .ret rfl

/-- `forkn` never answers 0, so its array is never stored. -/
theorem sysForkn_calm {n : I32} {a : U64} : Calm K p (sysForkn n a) := by
  refine .ite .ret (Logic.Triple.bind forkn_spec fun ⟨result, pids⟩ => ?_)
  intro s hs
  obtain ⟨hresult, hs⟩ := hs
  dsimp only
  rw [if_neg hresult]
  exact Calm.bind (note_calm (e := .forknEnds a result pids false) fun _ _ => rfl)
    (fun _ => Calm.ret) s hs

theorem sysWait_calm {a b : U64} : Calm K p (sysWait a b) := by
  refine wait_spec.bind fun r => ?_
  refine Logic.Triple.bind (triple_note (G := fun _ => True) ends_frame.stab ?_) fun _ => Calm.ret
  intro s c _ hc h _
  refine ⟨fun hK hr p' hp' => ?_, trivial⟩
  obtain rfl : p = p' := Option.some.inj (hc.current.symm.trans hp')
  exact h hK hr

theorem sysWaitall_calm {n a : U64} : Calm K p (sysWaitall n a) := by
  refine .ite .ret (waitall_spec.bind fun r => ?_)
  refine Logic.Triple.bind (triple_note (G := fun _ => True) endsAll_frame.stab ?_)
    fun _ => Calm.ret
  intro s c _ hc h _
  refine ⟨fun hK hr p' hp' => ?_, trivial⟩
  obtain rfl : p = p' := Option.some.inj (hc.current.symm.trans hp')
  exact h hK hr

/-! ## Descriptors -/

theorem argfd_moves {fd : I32} : Moves K t S (argfd p fd) fun _ => S := by
  unfold argfd
  split
  · refine read_moves.bind fun f => ?_
    cases f <;> exact .ret rfl
  · exact .ret rfl

theorem setFd_moves {fd : Fin NOFILE} {f : Option FileId} :
    Moves K t S (setFd p fd f) fun _ => S :=
  write_moves fun _ => rfl

theorem fdalloc_moves {f : FileId} : Moves K t S (fdalloc p f) fun _ => S := by
  refine read_moves.bind fun fd => ?_
  cases fd with
  | none => exact .ret rfl
  | some fd => exact setFd_moves.bind fun _ => .ret rfl

theorem sysDup_moves {fd : I32} : Moves K (.proc p) [] (sysDup fd) fun _ => [] := by
  refine myproc_moves fun _ _ => argfd_moves.bind fun r => ?_
  cases r with
  | none => exact .ret rfl
  | some r =>
    refine fdalloc_moves.bind fun fd => ?_
    cases fd with
    | none => exact .ret rfl
    | some fd => exact filedup_moves.bind fun _ => .ret rfl

theorem sysRead_moves {fd : I32} {a : U64} {n : I32} :
    Moves K (.proc p) [] (sysRead fd a n) fun _ => [] := by
  refine myproc_moves fun _ _ => argfd_moves.bind fun r => ?_
  cases r with
  | none => exact .ret rfl
  | some r => exact fileread_moves.bind fun _ => .ret rfl

theorem sysWrite_moves {fd : I32} {a : U64} {n : I32} :
    Moves K (.proc p) [] (sysWrite fd a n) fun _ => [] := by
  refine myproc_moves fun _ _ => argfd_moves.bind fun r => ?_
  cases r with
  | none => exact .ret rfl
  | some r => exact filewrite_moves.bind fun _ => .ret rfl

theorem sysClose_moves {fd : I32} : Moves K (.proc p) [] (sysClose fd) fun _ => [] := by
  refine myproc_moves fun _ _ => argfd_moves.bind fun r => ?_
  cases r with
  | none => exact .ret rfl
  | some r => exact setFd_moves.bind fun _ => fileclose_moves.bind fun _ => .ret rfl

theorem sysOpen_moves {device : Bool} : Moves K (.proc p) [] (sysOpen device) fun _ => [] := by
  refine myproc_moves fun _ _ => fsCall_moves.bind fun r => .ite (.ret rfl) ?_
  refine filealloc_moves.bind fun f => ?_
  cases f with
  | none => exact .ret rfl
  | some f =>
    refine fdalloc_moves.bind fun fd => ?_
    cases fd with
    | none => exact fileclose_moves.bind fun _ => .ret rfl
    | some fd => exact modFile_moves.bind fun _ => .ret rfl

theorem sysPipe_moves {a : U64} : Moves K (.proc p) [] (sysPipe a) fun _ => [] := by
  have hclose : ∀ rf wf : FileId, Moves K (.proc p) [] (do
      fileclose rf
      fileclose wf
      return intResult (-1)) fun _ => [] := fun rf wf =>
    fileclose_moves.bind fun _ => fileclose_moves.bind fun _ => .ret rfl
  refine myproc_moves fun _ _ => pipealloc_moves.bind fun r => ?_
  cases r with
  | none => exact .ret rfl
  | some r =>
  obtain ⟨rf, wf⟩ := r
  refine fdalloc_moves.bind fun fd0 => ?_
  cases fd0 with
  | none => exact hclose rf wf
  | some fd0 =>
  refine fdalloc_moves.bind fun fd1 => ?_
  cases fd1 with
  | none => exact setFd_moves.bind fun _ => hclose rf wf
  | some fd1 =>
  refine copyoutTo_moves.bind fun r => ?_
  cases r with
  | none => exact setFd_moves.bind fun _ => setFd_moves.bind fun _ => hclose rf wf
  | some _ =>
  refine copyoutTo_moves.bind fun r => ?_
  cases r with
  | none => exact setFd_moves.bind fun _ => setFd_moves.bind fun _ => hclose rf wf
  | some _ => exact .ret rfl

/-! ## System calls and traps -/

theorem dispatch_calm {call : Syscall} : Calm K p (dispatch call) := by
  cases call with
  | fork => exact fork_calm.bind fun _ => .ret
  | forkn n a => exact sysForkn_calm
  | exit v => exact Logic.Triple.bind exitNum_spec fun _ => Calm.ret
  | exitNum v => exact Logic.Triple.bind exitNum_spec fun _ => Calm.ret
  | exitmsg a => exact sysExitmsg_calm
  | wait a b => exact sysWait_calm
  | waitall n a => exact sysWaitall_calm
  | kill pid => exact kill_calm.bind fun _ => .ret
  | sleep n => exact sysSleep_moves.calm
  | sbrk n => exact sysSbrk_moves.calm
  | pipe a => exact sysPipe_moves.calm
  | dup fd => exact sysDup_moves.calm
  | read fd a n => exact sysRead_moves.calm
  | write fd a n => exact sysWrite_moves.calm
  | close fd => exact sysClose_moves.calm
  | «open» device => exact sysOpen_moves.calm
  | other => exact fsCall_moves.calm.bind fun _ => .ret

theorem syscall_calm {call : Syscall} : Calm K p (syscall call) :=
  .myproc (dispatch_calm.bind fun _ => read_moves.calm.bind fun _ =>
    deref_moves.calm.bind fun _ => vm_moves.calm)

theorem usertrap_calm {e : UserEvent} : Calm K p (usertrap e) := by
  refine .myproc ?_
  have hrest : ∀ which : Nat, Calm K p (do
      if ← killed p then
        exitKilled "killed"
      if which = 2 then
        yield) := by
    intro which
    have hyield : Calm K p (if which = 2 then yield else pure ()) := .ite yield_moves.calm .ret
    refine (killed_moves NoProc.nil).calm.bind fun k => .ite ?_ hyield
    exact Logic.Triple.bind exitKilled_spec fun _ => hyield
  cases e with
  | «syscall» call =>
    have hcall : Calm K p (do
        intrOn
        syscall call
        let which ← pure 0
        if ← killed p then
          exitKilled "killed"
        if which = 2 then
          yield) := intrOn_moves.calm.bind fun _ => syscall_calm.bind fun _ => hrest 0
    refine (killed_moves NoProc.nil).calm.bind fun k => .ite ?_ hcall
    exact Logic.Triple.bind exitKilled_spec fun _ => hcall
  | store va b => exact setkilled_calm.bind fun _ => hrest 0
  | fault => exact setkilled_calm.bind fun _ => hrest 0
  | intr d => exact devintr_moves.calm.bind fun which => hrest which

theorem usertrapret_calm : Calm K p usertrapret := (intr_moves (v := false)).calm

theorem userRound_calm : Calm K p userRound := by
  have htrap : ∀ e, Calm K p (do
      usertrap e
      usertrapret) := fun e => usertrap_calm.bind fun _ => usertrapret_calm
  refine input_moves.calm.bind fun i => ?_
  split
  · refine .myproc (read_moves.calm.bind fun _ => deref_moves.calm.bind fun _ => ?_)
    refine vm_moves.calm.bind fun r => ?_
    cases r with
    | none => exact htrap _
    | some _ => exact .ret
  · exact htrap _
  · exact .ret

/-! ## The threads -/

/-- A process starts with its own lock held. -/
theorem forkret_spec :
    (discipline K).Triple (.proc p) (Parked K p fun _ => True) forkret
      fun _ => On (.proc p) [] fun _ => True := by
  have hG : Stab K (.proc p) [.proc p] fun T => True ∧ Guarded K (.proc p) p T :=
    stab_true.and (Guarded.stab List.mem_cons_self)
  refine Logic.Triple.bind (R := fun p' s => p' = p ∧
    On (.proc p) [.proc p] (fun T => True ∧ Guarded K (.proc p) p T) s) ?_ fun p' => ?_
  · refine Logic.Triple.bind (R := fun r s => r = some p ∧
      On (.proc p) [.proc p] (fun T => True ∧ Guarded K (.proc p) p T) s) ?_ fun r => ?_
    · exact Logic.Triple.resume (Parked.stable stab_true) (fun s c h _ hc => h.resume hc)
        (mycpuProc_spec hG)
    · cases r with
      | none => exact fun s hs => nomatch hs.1
      | some p' =>
        intro s hs
        exact ⟨Option.some.inj hs.1, hs.2⟩
  intro s hs
  obtain ⟨rfl, hs⟩ := hs
  refine Logic.Triple.bind (release_proc (S := []) stab_true fun _ => kerneltrap_moves.calm)
    (fun _ => ?_) s hs
  refine Logic.Triple.bind read_moves.calm fun first => ?_
  cases first with
  | false => exact usertrapret_calm
  | true =>
    refine Logic.Triple.bind (write_moves (w := .data _) trivial).calm fun _ => ?_
    exact Logic.Triple.bind fsCall_moves.calm fun _ => usertrapret_calm

theorem processMain_spec {Q : Empty → Kernel → Prop} :
    (discipline K).Triple (.proc p) (Parked K p fun _ => True) processMain Q :=
  Logic.Triple.bind forkret_spec fun _ =>
    Logic.Triple.forever (Stab.stable (.const True)) userRound_calm

/-- Every thread obeys the discipline from boot on. -/
theorem boot_ok (K : Known) (b : Boot) (u : Tid) :
    (discipline K).Ok u (b.system.code u) b.system.mem := by
  cases u with
  | cpu c =>
    refine scheduler_spec _ ⟨c, ⟨Kernel.running_eq_cpu.2 ⟨rfl, rfl⟩, rfl, rfl, List.nodup_nil,
      fun l => ?_, fun _ h => absurd h List.not_mem_nil⟩, trivial⟩
    simp [Boot.system, Boot.kernel]
  | proc p =>
    refine processMain_spec _ (.inr ⟨fun c => ?_, trivial⟩)
    simp [Boot.system, Boot.kernel]

/-- A process that is set up anew obeys the discipline from its start. -/
theorem restart_ok {c : Cpu} {i : Input} {s s' : Kernel} {o : Op β} {b : β} {u : Tid}
    (hinv : Inv K s) (hm : must K β c o s) (hx : exec c i s o = some (b, s'))
    (hu : machine.restarts o = some u) : (discipline K).Ok u (machine.main u) s' := by
  cases o with
  | context p =>
    obtain rfl : Tid.proc p = u := Option.some.inj hu
    obtain ⟨-, rfl⟩ := Prod.mk.inj (Option.some.inj hx)
    obtain ⟨hl, hused, hne⟩ := hm
    refine processMain_spec _ (.inr ⟨fun d hd => ?_, trivial⟩)
    obtain hrun | hlock := hinv.current d p hd
    · rw [hused] at hrun
      cases hrun
    · obtain rfl : d = c := Option.some.inj (hlock.symm.trans hl)
      exact hne hd
  | _ => cases hu

/-- In every state that a run reaches, the invariant holds and every operation
that is about to be performed meets its obligation. -/
theorem discipline_of_reach {A : OpPred Op Kernel Cpu} {b : Boot} {g : System}
    (hA : ∀ {β : Type} {c : Cpu} {o : Op β} {s : Kernel}, A β c o s → K.assume β c o s)
    (h : ReachableIf A b g) :
    Inv K g.mem ∧ ∀ {β : Type} (c : Cpu) (o : Op β), machine.Next g c o →
      K.assume β c o g.mem → must K β c o g.mem := by
  have hboot : (discipline K).inv b.system.mem := inv_boot K b
  obtain ⟨hinv, hok⟩ := Logic.sound (L := discipline K) hA
    (fun hinv _ hm hx hu => restart_ok hinv hm hx hu) hboot (boot_ok K b) h
  exact ⟨hinv, fun c o hn ha => Logic.must_of_ok hinv hok hn ha⟩

/-- The operation that a processor is about to perform meets its obligation,
if it meets what the run is known to meet. -/
theorem must_of_next {A : OpPred Op Kernel Cpu} {b : Boot} {g : System} {c : Cpu} {o : Op β}
    (hA : ∀ {β : Type} {c : Cpu} {o : Op β} {s : Kernel}, A β c o s → K.assume β c o s)
    (h : ReachableIf A b g) (hn : machine.Next g c o) (ha : K.assume β c o g.mem) :
    must K β c o g.mem :=
  (discipline_of_reach hA h).2 c o hn ha

/-- What a run that meets one condition keeps true. -/
theorem inv_of_reach {k : Cond} {b : Boot} {g : System} (h : ReachableIf k.meets b g) :
    Inv (.only k) g.mem :=
  (discipline_of_reach (fun ha => Known.only_assume _ _ _ ha) h).1

/-- What a run that meets one condition meets at every operation. -/
theorem must_of_reach {k : Cond} {b : Boot} {g : System} {c : Cpu} {o : Op β}
    (h : ReachableIf k.meets b g) (hn : machine.Next g c o) (ha : k.meets β c o g.mem) :
    must (.only k) β c o g.mem :=
  must_of_next (fun ha => Known.only_assume _ _ _ ha) h hn (Known.only_assume _ _ _ ha)

/-- What every run keeps true. -/
theorem inv_of_reachable {b : Boot} {g : System} (h : Reachable b g) : Inv .nothing g.mem :=
  (discipline_of_reach (fun _ => Known.nothing_assume _ _ _) h).1

/-- What every run meets at every operation. -/
theorem must_of_reachable {b : Boot} {g : System} {c : Cpu} {o : Op β} (h : Reachable b g)
    (hn : machine.Next g c o) : must .nothing β c o g.mem :=
  must_of_next (fun _ => Known.nothing_assume _ _ _) h hn (Known.nothing_assume _ _ _)

end Xv6
