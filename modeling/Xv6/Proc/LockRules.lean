import Xv6.Proc.Assertions

/-!
# Locks, sleeping and scheduling obey the discipline

`spinlock.c`, and what `proc.c` builds on it: `sched`, `yield`, `sleep`,
`wakeup`.  Code that gives up the processor keeps an assertion only if that
survives what the process itself then stores; `Frame` says so.
-/

namespace Xv6

open Conc Conc.Machine

variable {K : Known} {t : Tid} {n : Nat} {S S' : List Lock} {F F' G : Table → Prop} {l : Lock}
variable {p q : Slot} {α β γ : Type}

/-! ## Frames -/

/-- The stores of code that waits and wakes up.  Its own state a process changes
only while it holds no lock but its own. -/
def Mild (t : Tid) (S : List Lock) (T : Table) : Write → Prop
  | .state q .runnable => (T q).state = .sleeping ∨ S = [] ∧ t = .proc q
  | .state q .sleeping => S = [] ∧ t = .proc q
  | .site q _ => S = [] ∧ t = .proc q
  | .chan q _ => S = [] ∧ t = .proc q
  | .dozing q v => v = false ∨ S = [] ∧ t = .proc q
  | _ => False

theorem Mild.mono {T : Table} {w : Write} (h : Mild t S' T w) (hS : S' = [] → S = []) :
    Mild t S T w := by
  cases w with
  | state q v =>
    cases v with
    | runnable => exact h.imp id fun h => ⟨hS h.1, h.2⟩
    | sleeping => exact ⟨hS h.1, h.2⟩
    | _ => exact h
  | site q v => exact ⟨hS h.1, h.2⟩
  | chan q v => exact ⟨hS h.1, h.2⟩
  | dozing q v => exact h.imp id fun h => ⟨hS h.1, h.2⟩
  | _ => exact h

/-- Kernel code keeps `F`, run by `t` while it holds `S`: other threads keep
it, and it survives what `t` itself does when it waits and wakes up. -/
structure Frame (K : Known) (t : Tid) (S : List Lock) (F : Table → Prop) : Prop where
  stab : Stab K t S F
  mild : ∀ T w, Mild t S T w → F T → F (w.table T)

namespace Frame

theorem mono (h : Frame K t [] F) : Frame K t S F where
  stab := h.stab.mono fun _ hmem => absurd hmem List.not_mem_nil
  mild T w hw := h.mild T w (hw.mono fun _ => rfl)

theorem cons (h : Frame K t S F) : Frame K t (l :: S) F where
  stab := h.stab.cons l
  mild T w hw := h.mild T w (hw.mono fun hl => nomatch hl)

theorem and (h : Frame K t S F) (h' : Frame K t S G) : Frame K t S fun T => F T ∧ G T where
  stab := h.stab.and h'.stab
  mild T w hw hFG := ⟨h.mild T w hw hFG.1, h'.mild T w hw hFG.2⟩

theorem imp {φ : Prop} (h : φ → Frame K t S F) : Frame K t S fun T => φ → F T where
  stab := .imp fun hφ => (h hφ).stab
  mild T w hw hF hφ := (h hφ).mild T w hw (hF hφ)

theorem or (h : Frame K t S F) (h' : Frame K t S G) : Frame K t S fun T => F T ∨ G T where
  stab := h.stab.or h'.stab
  mild T w hw := Or.imp (h.mild T w hw) (h'.mild T w hw)

theorem const (φ : Prop) : Frame K t S fun _ => φ where
  stab := .const φ
  mild _ _ _ h := h

/-- An assertion about all slots. -/
theorem forall_slot {F : Slot → Table → Prop} (h : ∀ q, Frame K t S (F q)) :
    Frame K t S fun T => ∀ q, F q T where
  stab s w hinv hr hF q := (h q).stab s w hinv hr (hF q)
  mild T w hw hF q := (h q).mild T w hw (hF q)

end Frame

/-- Any thread may perform the store at any time. -/
def Write.Free : Write → Prop
  | .priv _ f => ∀ x, (f x).exitMsg = x.exitMsg
  | .data _ => True
  | _ => False

theorem Write.Free.ok {w : Write} (h : w.Free) (c : Cpu) (s : Kernel) : writeOK K c s w := by
  cases w with
  | priv p f => exact .inl h
  | data f => trivial
  | _ => exact h.elim

theorem Write.Free.not_starts {w : Write} (h : w.Free) : ¬ w.Starts := by
  cases w with
  | priv p f => exact id
  | data f => exact id
  | _ => exact h.elim

theorem Write.Free.assume {w : Write} (h : w.Free) (c : Cpu) (s : Kernel) :
    K.assume Unit c (.write w) s := by
  intro k _
  cases w with
  | priv p f => cases k <;> trivial
  | data f => cases k <;> trivial
  | _ => exact h.elim

/-- There is always another thread that may perform a free store. -/
theorem Rely.of_free {w : Write} {s : Kernel} {c : Cpu} (hw : w.Free) (hinv : Inv K s)
    (hc : Here t n S s c) : Rely K t S s w := by
  refine ⟨c + 1, fun ht => ?_, fun l hl hld => ?_, hw.assume _ s, hw.ok _ s, fun l hl => ?_⟩
  · cases t with
    | cpu e =>
      have h₁ := (Kernel.running_eq_cpu.1 ht).2
      have h₂ := (Kernel.running_eq_cpu.1 hc.running).2
      exact Nat.succ_ne_self c (h₁.trans h₂.symm)
    | proc p =>
      exact Nat.succ_ne_self c (hinv.unique (c + 1) c p (Kernel.running_eq_proc.1 ht)
        (Kernel.running_eq_proc.1 hc.running))
  · exact Nat.succ_ne_self c (Option.some.inj (hld.symm.trans ((hc.held l).2 hl)))
  · simp [(hc.held l).2 hl]

/-- A free store keeps what other threads keep. -/
theorem triple_write_free {w : Write} (hF : Stab K t S F) (hw : w.Free) :
    (discipline K).Triple t (At t n S F) (write w) fun _ => At t n S F :=
  triple_write hF hw.not_starts fun s c hinv hc hFs _ =>
    ⟨hw.ok c s, hF s w hinv (.of_free hw hinv hc) hFs⟩

/-- Nothing comes after a panic. -/
theorem panic_first {P : Kernel → Prop} {m : Code α} {f : α → Code β} {Q : β → Kernel → Prop}
    (h : (discipline K).Triple t P m fun _ _ => False) :
    (discipline K).Triple t P (m.bind f) Q :=
  h.bind fun _ _ hs => hs.elim

/-! ## `push_off` and `pop_off` -/

theorem pushOff_spec (hF : Stab K t S F) :
    (discipline K).Triple t (At t n S F) pushOff fun _ => At t (n + 1) S F :=
  triple_cpu hF fun _ hp hn => ⟨hp, congrArg (· + 1) hn⟩

/-- `pop_off` turns interrupts on only at the outermost level. -/
theorem CpuState.popOff_cases {x : CpuState} (hx : x.noff = n + 1) :
    (∃ msg, x.popOff = (.error msg, x)) ∨
      ∃ on, x.popOff = (.ok on, { x with noff := n, intr := on }) ∧ (on = true → n = 0) := by
  unfold CpuState.popOff
  by_cases hi : x.intr
  · exact .inl ⟨_, if_pos hi⟩
  · have hn : ¬ x.noff < 1 := by
      rw [hx]
      omega
    refine .inr ⟨decide (x.noff - 1 = 0 ∧ x.intena), ?_, fun hon => ?_⟩
    · rw [if_neg hi, if_neg hn, hx]
      rfl
    · have := (of_decide_eq_true hon).1
      rw [hx] at this
      exact this

theorem CpuState.popOff_proc (x : CpuState) : x.popOff.2.proc = x.proc := by
  unfold CpuState.popOff
  split
  · rfl
  · split <;> rfl

theorem popOff_spec (hF : Stab K t S F) :
    (discipline K).Triple t (At t (n + 1) S F) popOff
      fun on s => At t n S F s ∧ (on = true → n = 0) := by
  refine Logic.Triple.bind (R := fun r s =>
    (∀ on, r = .ok on → At t n S F s ∧ (on = true → n = 0)) ∧
      ∀ msg, r = .error msg → At t (n + 1) S F s) ?_ fun r => ?_
  · refine triple_op hF fun s c _ hc hFs _ => ⟨.inl (CpuState.popOff_proc _), fun i b s' hx => ?_⟩
    obtain ⟨rfl, rfl⟩ := Prod.mk.inj (Option.some.inj hx)
    obtain ⟨msg, hpop⟩ | ⟨on, hpop, hon⟩ := CpuState.popOff_cases hc.noff
    · refine ⟨fun on hok => (by rw [hpop] at hok; cases hok), fun _ _ => ?_⟩
      refine ⟨c, ⟨hc.running, ?_, ?_, hc.nodup, hc.held, hc.ran⟩, hFs⟩
      · simpa only [Kernel.modCpu, if_pos, hpop] using hc.proc
      · simpa only [Kernel.modCpu, if_pos, hpop] using hc.noff
    · refine ⟨fun on' hok => ?_, fun msg herr => (by rw [hpop] at herr; cases herr)⟩
      rw [hpop] at hok
      obtain rfl : on = on' := Except.ok.inj hok
      refine ⟨⟨c, ⟨hc.running, ?_, ?_, hc.nodup, hc.held, hc.ran⟩, hFs⟩, hon⟩
      · simpa only [Kernel.modCpu, if_pos, hpop] using hc.proc
      · simp only [Kernel.modCpu, if_pos, hpop]
  · cases r with
    | ok on => exact fun s hs => hs.1 on rfl
    | error msg => exact Logic.Triple.pre (triple_panic hF) fun s hs => hs.2 msg rfl

/-! ## Spinlocks -/

/-- What the lock of a process guards, as thread `t` sees it. -/
def Guarded (K : Known) (t : Tid) (p : Slot) (T : Table) : Prop :=
  ProcInv K p (T p) ∧ (t = .proc p → (T p).state = .running)

/-- Who does not sleep does not doze. -/
theorem ProcInv.not_dozing {x : Proc} (h : ProcInv K p x) (hs : x.state ≠ .sleeping) :
    x.dozing = false := by
  by_contra hd
  exact hs (h.dozing (by simpa using hd)).1

/-- A process that is awake keeps the rule. -/
theorem ProcInv.of_awake {x : Proc} (hs : x.state ≠ .sleeping) (hu : x.state ≠ .unused)
    (hd : x.dozing = false) (hp : K .positive → x.pid ≠ 0) : ProcInv K p x where
  awake _ h := absurd h hs
  dozing h := absurd (hd.symm.trans h) (by simp)
  blank _ h := absurd h hu
  named hK _ _ := hp hK

/-- Without the lock of a process, no other thread changes its state, unless
it is a zombie. -/
theorem state_stab {v : ProcState} (hv : v ≠ .zombie) (hmem : .proc p ∈ S) :
    Stab K t S fun T => (T p).state = v := by
  intro s w hinv hr hs
  obtain ⟨c, hc, hl, ha, hw, -⟩ := hr
  have hlp := hl _ hmem
  obtain hst | ⟨v', rfl, -⟩ := w.table_state s.proc p
  · exact hst.trans hs
  · cases v' <;> (simp only [writeOK, stateOK, Freeing] at hw; grind)

/-- Nor does it let the process run. -/
theorem not_running_stab (hmem : .proc p ∈ S) :
    Stab K t S fun T => (T p).state ≠ .running := by
  intro s w hinv hr hs
  obtain ⟨c, hc, hl, ha, hw, -⟩ := hr
  obtain hst | ⟨v', rfl, hst⟩ := w.table_state s.proc p
  · rwa [hst]
  · rw [hst]
    intro hv
    subst hv
    exact hl _ hmem hw.1

/-- A lock keeps other threads from what it protects. -/
theorem lockInv_stab (hmem : l ∈ S) : Stab K t S (LockInv K l) := by
  intro s w hinv hr h
  obtain ⟨c, hc, hl, ha, hw, -⟩ := hr
  exact h.kept hw (hl _ hmem)

theorem procInv_stab (hmem : .proc p ∈ S) : Stab K t S fun T => ProcInv K p (T p) :=
  lockInv_stab (l := .proc p) hmem

/-- The lock of a process keeps other threads from what it guards. -/
theorem Guarded.stab (hmem : .proc p ∈ S) : Stab K t S (Guarded K t p) :=
  (procInv_stab hmem).and (.imp fun _ => state_stab (by simp) hmem)

theorem holding_spec (hF : Stab K t S F) :
    (discipline K).Triple t (At t n S F) (holding l)
      fun b s => At t n S F s ∧ (b = true ↔ l ∈ S) := by
  refine (triple_read (G := fun b T => F T ∧ (b = true ↔ l ∈ S)) hF ?_).post ?_
  · intro s c _ hc hFs
    exact ⟨hFs, by rw [decide_eq_true_iff, hc.held l]⟩
  · rintro b s ⟨c, hc, hFs, hb⟩
    exact ⟨⟨c, hc, hFs⟩, hb⟩

/-- `acquire` gives what is true while the lock is free. -/
theorem acquire_spec (hF : Stab K t S F)
    (horder : ∀ s c, Here t (S.length + 1) S s c → F s.proc → l ∉ S → lockOK c s l) :
    (discipline K).Triple t (On t S F) (acquire l) fun _ => On t (l :: S) fun T =>
      F T ∧ LockInv K l T ∧ ∀ p, l = .proc p → t = .proc p → (T p).state = .running := by
  refine (pushOff_spec hF).bind fun _ => ?_
  refine (holding_spec hF).bind fun b => ?_
  cases b with
  | true => exact panic_first fun s hs => triple_panic hF s hs.1
  | false =>
    intro s hs
    obtain ⟨hs, hb⟩ := hs
    have hl : l ∉ S := fun h => Bool.noConfusion (hb.2 h)
    refine triple_op (o := .lock l) hF (fun s c hinv hc hFs _ => ⟨horder s c hc hFs hl, ?_⟩) s hs
    intro i b s' hx
    simp only [exec] at hx
    split at hx
    · rename_i hfree
      obtain ⟨-, rfl⟩ := Prod.mk.inj (Option.some.inj hx)
      refine ⟨c, ⟨hc.running, hc.proc, hc.noff, hc.nodup.cons hl, fun k => ?_, fun p hp ht => ?_⟩,
        hFs, hinv.locks l hfree, fun p hp ht => ?_⟩
      · have := hc.held k
        simp only [Kernel.setLocked, List.mem_cons]
        grind
      · obtain rfl | hp := List.mem_cons.1 hp
        · exact hinv.running p hfree
        · exact hc.ran p hp ht
      · subst hp ht
        obtain h | h := hinv.current c p hc.current
        · exact h
        · rw [hfree] at h
          cases h
    · cases hx

/-- No `p->lock` is among the locks. -/
def NoProc (S : List Lock) : Prop := ∀ p, Lock.proc p ∉ S

theorem NoProc.nil : NoProc [] := fun _ => List.not_mem_nil

theorem NoProc.cons (hl : ∀ p, l ≠ .proc p) (h : NoProc S) : NoProc (l :: S) := by
  intro p hmem
  obtain hp | hp := List.mem_cons.1 hmem
  · exact hl p hp.symm
  · exact h p hp

theorem NoProc.wait : NoProc [.wait] := NoProc.nil.cons (by simp)

/-- `acquire(&p->lock)`. -/
theorem acquire_proc (hF : Stab K t S F) (hS : NoProc S) :
    (discipline K).Triple t (On t S F) (acquire (.proc p))
      fun _ => On t (.proc p :: S) fun T => F T ∧ Guarded K t p T := by
  refine (acquire_spec (l := .proc p) hF fun s c hc _ _ q hq =>
    hS q ((hc.held _).1 hq)).post fun _ s hs => ?_
  exact hs.imp fun T h => ⟨h.1, h.2.1, h.2.2 p rfl⟩

/-- `acquire(&wait_lock)`: the only lock of a process that may be held is that
of a new child of `forkn`. -/
theorem acquire_wait (hF : Stab K t S F)
    (hS : ∀ T q, F T → .proc q ∈ S → Table.Forked T t.slot q) :
    (discipline K).Triple t (On t S F) (acquire .wait)
      fun _ => On t (.wait :: S) fun T => F T ∧ LockInv K .wait T := by
  refine (acquire_spec (l := .wait) hF fun s c hc hFs hl =>
    ⟨fun h => hl ((hc.held _).1 h), fun q hq => ?_⟩).post
    fun _ s hs => hs.imp fun T h => ⟨h.1, h.2.1⟩
  rw [hc.current]
  exact hS _ q hFs ((hc.held _).1 hq)

/-- The locks that are neither `wait_lock` nor a `p->lock`. -/
def Lock.Plain (l : Lock) : Prop := l ≠ .wait ∧ ∀ p, l ≠ .proc p

/-- Such a lock protects nothing of the process table. -/
theorem Lock.Plain.inv (hl : l.Plain) (T : Table) : LockInv K l T := by
  cases l with
  | wait => exact absurd rfl hl.1
  | proc p => exact absurd rfl (hl.2 p)
  | _ => trivial

theorem acquire_plain (hF : Stab K t S F) (hl : l.Plain) :
    (discipline K).Triple t (On t S F) (acquire l) fun _ => On t (l :: S) F := by
  refine (acquire_spec hF fun s c _ _ _ => ?_).post fun _ s hs => hs.imp fun T h => h.1
  cases l with
  | wait => exact absurd rfl hl.1
  | proc p => exact absurd rfl (hl.2 p)
  | _ => trivial

/-- With no lock held, any lock but a `p->lock` can be taken. -/
theorem acquire_first (hF : Stab K t [] F) (hl : ∀ p, l ≠ .proc p) :
    (discipline K).Triple t (On t [] F) (acquire l)
      fun _ => On t [l] fun T => F T ∧ LockInv K l T := by
  by_cases hw : l = .wait
  · subst hw
    exact acquire_wait hF fun _ _ _ hmem => absurd hmem List.not_mem_nil
  · exact (acquire_plain hF ⟨hw, hl⟩).post fun _ s hs =>
      hs.imp fun T h => ⟨h, Lock.Plain.inv ⟨hw, hl⟩ T⟩

/-- `release`; `trap` runs only when no lock is left. -/
theorem release_spec {trap : Code Unit} (hF' : Stab K t (l :: S) F') (hF : Stab K t S F)
    (hunlock : ∀ T, F' T → F T ∧ LockInv K l T ∧
      ∀ p, l = .proc p → t = .proc p → (T p).state = .running)
    (htrap : S = [] → (discipline K).Triple t (On t [] F) trap fun _ => On t [] F) :
    (discipline K).Triple t (On t (l :: S) F') (releaseWith trap l) fun _ => On t S F := by
  refine (holding_spec hF').bind fun b => ?_
  cases b with
  | false => exact panic_first fun s hs => triple_panic hF' s hs.1
  | true =>
    refine Logic.Triple.bind (R := fun _ => At t (S.length + 1) S F) ?_ fun _ => ?_
    · intro s hs
      refine triple_op (o := .unlock l) hF' (fun s c hinv hc hFs _ =>
        ⟨⟨?_, (hunlock _ hFs).2.1, ?_, fun p hp => ⟨fun hcur => ?_, fun hcur => ?_⟩⟩, ?_⟩) s hs.1
      · exact (hc.held l).2 List.mem_cons_self
      · rw [hc.proc, hc.current]
      · refine (hunlock _ hFs).2.2 p hp ?_
        rw [← hc.running]
        exact Kernel.running_eq_proc.2 hcur
      · refine hc.ran p (hp ▸ List.mem_cons_self) fun ht => hcur ?_
        rw [hc.current, ht, Tid.slot_proc]
      · intro i b s' hx
        obtain ⟨-, rfl⟩ := Prod.mk.inj (Option.some.inj hx)
        obtain ⟨hl, hnodup⟩ := List.nodup_cons.1 hc.nodup
        refine ⟨c, ⟨hc.running, hc.proc, hc.noff, hnodup, fun k => ?_, fun p hp =>
          hc.ran p (List.mem_cons_of_mem l hp)⟩, (hunlock _ hFs).1⟩
        have := hc.held k
        simp only [Kernel.setLocked, List.mem_cons] at this ⊢
        grind
    · refine (popOff_spec hF).bind fun on => ?_
      cases on with
      | false => exact fun s hs => hs.1
      | true =>
        intro s hs
        obtain rfl : S = [] := List.length_eq_zero_iff.1 (hs.2 rfl)
        exact htrap rfl s hs.1

/-- `release(&p->lock)`. -/
theorem release_proc {trap : Code Unit} (hF : Stab K t S F)
    (htrap : S = [] → (discipline K).Triple t (On t [] F) trap fun _ => On t [] F) :
    (discipline K).Triple t (On t (.proc p :: S) fun T => F T ∧ Guarded K t p T)
      (releaseWith trap (.proc p)) fun _ => On t S F := by
  refine release_spec ((hF.cons _).and (Guarded.stab List.mem_cons_self)) hF ?_ htrap
  intro T hT
  exact ⟨hT.1, hT.2.1, fun q hq => Lock.proc.inj hq ▸ hT.2.2⟩

/-- `release` of another lock. -/
theorem release_other {trap : Code Unit} (hl : ∀ p, l ≠ .proc p) (hF : Stab K t S F)
    (htrap : S = [] → (discipline K).Triple t (On t [] F) trap fun _ => On t [] F) :
    (discipline K).Triple t (On t (l :: S) fun T => F T ∧ LockInv K l T) (releaseWith trap l)
      fun _ => On t S F :=
  release_spec ((hF.cons _).and (lockInv_stab List.mem_cons_self)) hF
    (fun _ hT => ⟨hT.1, hT.2, fun p hp => absurd hp (hl p)⟩) htrap

theorem release_plain {trap : Code Unit} (hl : l.Plain) (hF : Stab K t S F)
    (htrap : S = [] → (discipline K).Triple t (On t [] F) trap fun _ => On t [] F) :
    (discipline K).Triple t (On t (l :: S) F) (releaseWith trap l) fun _ => On t S F :=
  (release_other hl.2 hF htrap).pre fun _ hs => hs.imp fun T hT => ⟨hT, hl.inv T⟩

/-- The order in which locks were taken does not matter. -/
theorem At.swap {k : Lock} {s : Kernel} (h : At t n (l :: k :: S) F s) :
    At t n (k :: l :: S) F s := by
  obtain ⟨c, hc, hF⟩ := h
  have hperm := List.Perm.swap k l S
  refine ⟨c, ⟨hc.running, hc.proc, hc.noff, hperm.nodup_iff.1 hc.nodup, fun m => ?_,
    fun p hp => hc.ran p (hperm.mem_iff.2 hp)⟩, hF⟩
  rw [hc.held m, hperm.mem_iff]

end Xv6
