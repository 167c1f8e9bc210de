import Xv6.Proc.SyscallRules
import Xv6.Proc.Paths

/-!
# Process ids

`allocpid` counts up, and nothing stops it where an `int` ends.
-/

namespace Xv6

open Conc

/-- The process has not been freed, and nobody works on its slot. -/
def Kernel.Whole (s : Kernel) (p : Slot) : Prop :=
  (s.proc p).state ≠ .unused ∧ s.locked (.proc p) = none ∧
    ((s.proc p).state = .zombie → s.locked .wait = none)

section

variable {K : Known} {s : Kernel} {p : Slot}

theorem Inv.pid_ne_zero (hinv : Inv K s) (hK : K .positive) (hp : s.Whole p) :
    (s.proc p).pid ≠ 0 := by
  obtain ⟨hused, hfree, hwait⟩ := hp
  by_cases hzombie : (s.proc p).state = .zombie
  · exact ((hinv.locks .wait (hwait hzombie)).2 p (by simp) hzombie).2.2 hK
  · exact (hinv.locks (.proc p) hfree).named hK hused hzombie

theorem Inv.pid_pos (hinv : Inv K s) (hK : K .positive) (hp : s.Whole p) :
    0 < (s.proc p).pid.toInt := by
  have hpids := hinv.pids hK
  have hlt : (s.proc p).pid.toNat < 2 ^ 31 := Nat.lt_of_lt_of_le (hpids.pid_lt p) hpids.bound
  have hne : (s.proc p).pid.toNat ≠ 0 := fun h0 =>
    hinv.pid_ne_zero hK hp (BitVec.eq_of_toNat_eq h0)
  rw [BitVec.toInt_eq_toNat_of_lt (by omega)]
  omega

end

/-- In runs in which `allocpid` is called only while `nextpid` is positive,
the id of a process is positive, and no two slots hold the same one, 0
apart. -/
theorem pids_unique {b : Boot} {g : System} (h : ReachableIf pidsPositive b g) :
    (∀ p, g.mem.Whole p → 0 < (g.mem.proc p).pid.toInt) ∧
      ∀ p q, (g.mem.proc p).pid = (g.mem.proc q).pid → (g.mem.proc p).pid ≠ 0 → p = q := by
  have hinv := inv_of_reach (k := .positive) h
  exact ⟨fun p hp => hinv.pid_pos rfl hp, (hinv.pids rfl).pid_inj⟩

set_option maxRecDepth 100000 in
def childPidSeen : Sight pidsPositive 60
    (fun g => ((g.mem.proc 1).state, g.mem.locked (.proc 1), (g.mem.proc 1).pid))
    (.runnable, none, 2) :=
  .after initForks (by decide +kernel)

theorem pids_unique_child : ∃ (b : Boot) (g : System), ReachableIf pidsPositive b g ∧
    (g.mem.proc 1).pid = 2 ∧ 0 < (g.mem.proc 1).pid.toInt := by
  obtain ⟨b, g, -, hg, hview⟩ := childPidSeen
  simp only [Prod.mk.injEq] at hview
  obtain ⟨hstate, hfree, hpid⟩ := hview
  have hwhole : g.mem.Whole 1 := by
    refine ⟨?_, hfree, fun hzombie => ?_⟩
    · rw [hstate]
      decide
    · rw [hstate] at hzombie
      cases hzombie
  exact ⟨b, g, hg, hpid, (pids_unique hg).1 1 hwhole⟩

/-! ## Where `nextpid` wraps around -/

/-- A kernel that boots with seven pages to spare. -/
def sparePages : Boot :=
  (Boot.start (Boot.smallMem 14)).getD ⟨Boot.smallMem 0, Proc.free.priv, fun _ => Pipe.new⟩

/-- The trapframe of its `initproc`. -/
def spareTrapframe : U64 := 0x87fff000

/-- What `sbrk(28672)` makes of its memory. -/
def spareMem : Mem :=
  match uvmalloc 0x87ffe000 4096 32768 PTE_W sparePages.mem with
  | .ok (_, m) => m
  | .error _ => sparePages.mem

set_option maxRecDepth 100000 in
theorem spare_boot : sparePages.init.trapframe = some spareTrapframe ∧
    sparePages.init.pagetable = some 0x87ffe000 ∧ sparePages.init.sz = 4096 := by
  decide +kernel

set_option maxRecDepth 100000 in
theorem spare_view : (match uvmalloc 0x87ffe000 4096 32768 PTE_W sparePages.mem with
    | .ok (r, m) => (r, m.freelist)
    | .error _ => (none, [])) = (some 32768, []) := by
  decide +kernel

/-- `sbrk(28672)` takes all memory. -/
theorem spare_sbrk : uvmalloc 0x87ffe000 4096 32768 PTE_W sparePages.mem =
    .ok (some 32768, spareMem) ∧ spareMem.freelist = [] := by
  have hview := spare_view
  unfold spareMem
  split at hview
  · rename_i r m hvm
    obtain ⟨rfl, hm⟩ := Prod.mk.inj hview
    rw [hvm]
    exact ⟨rfl, hm⟩
  · cases hview

/-- `initproc` has no free memory, and `pid` is the last id that `allocpid`
has given out. -/
def wrapped (pid : I32) : System :=
  ⟨((sparePages.starved spareTrapframe 32768 spareMem).counted pid).on 0 (userCpu 0) [],
    Machine.setCode machine.main (.proc 0) (Prog.forever userRound)⟩

/-- Any number of calls of `fork` that fail lead there, but for the code of
the scheduler that has started `initproc`. -/
theorem reach_wrapped (pid : I32) : ∃ g, Reachable sparePages g ∧
    Machine.AgreeExcept (.cpu 0) g (wrapped pid) := by
  obtain ⟨htf, hpt, hsz⟩ := spare_boot
  obtain ⟨hvm, hm⟩ := spare_sbrk
  have hcount : 2 + BitVec.ofNat 32 (pid - 2).toNat = pid := by
    rw [BitVec.ofNat_toNat, BitVec.setWidth_eq, BitVec.add_comm, BitVec.sub_add_cancel]
  obtain ⟨m₀, hg⟩ := reach_counted (n := 28672) htf hpt (by decide)
    (by rw [hsz]; exact hvm) (by decide) hm (pid - 2).toNat
  rw [hcount] at hg
  refine ⟨_, hg, rfl, fun t ht => ?_⟩
  show (if t = _ then _ else if t = _ then _ else _) = if t = _ then _ else _
  rw [if_neg ht]

/-- What a schedule leads to from there is seen of a reachable state. -/
theorem reachable_of_wrapped {pid : I32} {sched : List (Cpu × Input)} {g : System}
    (hr : machine.runWithout (.cpu 0) sched (wrapped pid) = some g) :
    ∃ g', Reachable sparePages g' ∧ Machine.AgreeExcept (.cpu 0) g' g := by
  obtain ⟨g₀, hg₀, hag⟩ := reach_wrapped pid
  exact Machine.reach_of_runWithout hag hg₀ hr

/-- `initproc` gives seven pages back, and forks a child. -/
def forksAtLast : List (Cpu × Input) :=
  steps 0 1 ++ calls 0 (.sbrk (-28672)) ++ steps 0 32 ++ calls 0 .fork ++ steps 0 122

set_option maxRecDepth 100000 in
theorem negative_pid_run : ((machine.runWithout (.cpu 0) forksAtLast (wrapped (-2))).map fun g =>
      ((g.mem.proc 1).state, g.mem.locked (.proc 1), (g.mem.proc 1).pid)) =
    some (.runnable, none, -1) := by
  decide +kernel

set_option maxRecDepth 100000 in
theorem same_pid_run : ((machine.runWithout (.cpu 0) forksAtLast (wrapped 0)).map fun g =>
      ((g.mem.proc 0).state, (g.mem.proc 0).pid, (g.mem.proc 1).state, (g.mem.proc 1).pid)) =
    some (.running, 1, .runnable, 1) := by
  decide +kernel

/-- A process can have a negative id, and one that another process has. -/
theorem pids_wrap :
    (¬ ∀ (b : Boot) (g : System) (p : Slot), Reachable b g → g.mem.Whole p →
      0 < (g.mem.proc p).pid.toInt) ∧
    ¬ ∀ (b : Boot) (g : System) (p q : Slot), Reachable b g →
      (g.mem.proc p).state ≠ .unused → (g.mem.proc q).state ≠ .unused →
        (g.mem.proc p).pid = (g.mem.proc q).pid → p = q := by
  constructor
  · intro hall
    obtain ⟨g, hr, hview⟩ := Option.map_eq_some_iff.1 negative_pid_run
    simp only [Prod.mk.injEq] at hview
    obtain ⟨hstate, hfree, hpid⟩ := hview
    obtain ⟨g', hg', hmem, -⟩ := reachable_of_wrapped hr
    rw [← hmem] at hstate hfree hpid
    have hwhole : g'.mem.Whole 1 := by
      refine ⟨?_, hfree, fun hzombie => ?_⟩
      · rw [hstate]
        decide
      · rw [hstate] at hzombie
        cases hzombie
    have hpos := hall sparePages g' 1 hg' hwhole
    rw [hpid] at hpos
    exact absurd hpos (by decide)
  · intro hall
    obtain ⟨g, hr, hview⟩ := Option.map_eq_some_iff.1 same_pid_run
    simp only [Prod.mk.injEq] at hview
    obtain ⟨hstate0, hpid0, hstate1, hpid1⟩ := hview
    obtain ⟨g', hg', hmem, -⟩ := reachable_of_wrapped hr
    rw [← hmem] at hstate0 hpid0 hstate1 hpid1
    refine absurd (hall sparePages g' 0 1 hg' ?_ ?_ (hpid0.trans hpid1.symm)) (by decide)
    · rw [hstate0]
      decide
    · rw [hstate1]
      decide

end Xv6
