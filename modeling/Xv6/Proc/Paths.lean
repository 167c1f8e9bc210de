import Xv6.Proc.Boot
import Xv6.Conc.Solo

/-!
# The kernel on one processor

Paths of kernel code while no other processor takes a step and no interrupt
arrives: from boot to the first process, and calls of `sbrk` and of `fork`,
the latter without free memory.
-/

namespace Xv6

open Conc

/-! ## Locks and the processor -/

/-- The kernel with another state of a processor, which holds some locks. -/
def Kernel.on (s : Kernel) (c : Cpu) (x : CpuState) (L : List Lock) : Kernel :=
  { s with
    cpu := fun d => if d = c then x else s.cpu d
    locked := fun l => if l ∈ L then some c else s.locked l }

/-- `push_off`. -/
def CpuState.pushed (x : CpuState) : CpuState :=
  { x with
    intr := false
    intena := if x.noff = 0 then x.intr else x.intena
    noff := x.noff + 1 }

/-- `push_off` and `pop_off`. -/
def CpuState.settled (x : CpuState) : CpuState :=
  { x with intena := if x.noff = 0 then x.intr else x.intena }

section

variable {s s' : Kernel} {c : Cpu} {t : Tid} {x y : CpuState} {L : List Lock} {l : Lock}
  {α β : Type}

theorem Kernel.on_self (s : Kernel) (c : Cpu) : s.on c (s.cpu c) [] = s := by
  unfold Kernel.on
  congr 1
  funext d
  by_cases hd : d = c <;> simp [hd]

theorem Kernel.on_cpu_self : (s.on c x L).cpu c = x := if_pos rfl

theorem Kernel.on_on : (s.on c x L).on c y [] = s.on c y L := by
  unfold Kernel.on
  congr 1
  funext d
  by_cases hd : d = c <;> simp [hd]

theorem Kernel.on_modCpu (f : CpuState → CpuState) :
    (s.on c x L).modCpu c f = s.on c (f x) L := by
  unfold Kernel.modCpu Kernel.on
  congr 1
  funext d
  by_cases hd : d = c <;> simp [hd]

theorem Kernel.on_lock : (s.on c x L).setLocked l (some c) = s.on c x (l :: L) := by
  unfold Kernel.setLocked Kernel.on
  congr 1
  funext k
  by_cases hk : k = l <;> simp [hk]

theorem Kernel.on_unlock (hl : l ∉ L) (hfree : s.locked l = none) :
    (s.on c x (l :: L)).setLocked l none = s.on c x L := by
  unfold Kernel.setLocked Kernel.on
  congr 1
  funext k
  by_cases hk : k = l
  · subst hk
    simp [hl, hfree]
  · simp [hk]

theorem Kernel.on_locked (hl : l ∉ L) : (s.on c x L).locked l = s.locked l := if_neg hl

theorem CpuState.pushed_popOff (hx : x.noff = 0 ∨ x.intr = false) :
    x.pushed.popOff = (.ok x.intr, x.settled) := by
  obtain ⟨proc, noff, intena, intr⟩ := x
  cases noff with
  | zero => cases intr <;> rfl
  | succ noff =>
    obtain rfl : intr = false := hx.resolve_left (by simp)
    rfl

/-- A path of the kernel. -/
abbrev Runs (c : Cpu) (t : Tid) (m : Code α) (s : Kernel) (a : α) (s' : Kernel) : Prop :=
  Path machine c t m s (.ret a) s'

theorem runs_read (f : Kernel → β) (ht : s.running c = t) : Runs c t (read f) s (f s) s :=
  Path.perform (.intr none) ht rfl rfl

theorem runs_note (e : Event) (ht : s.running c = t) : Runs c t (note e) s () s :=
  Path.perform (.intr none) ht rfl rfl

theorem runs_input (i : Input) (ht : s.running c = t) : Runs c t input s i s :=
  Path.perform i ht rfl rfl

theorem runs_cpu (f : CpuState → β × CpuState) (ht : s.running c = t) :
    Runs c t (.perform (.cpu f)) (s.on c x L) (f x).1 (s.on c (f x).2 L) := by
  refine Path.perform (.intr none) ht ?_ rfl
  show some ((f ((s.on c x L).cpu c)).1, (s.on c x L).modCpu c fun x => (f x).2) = _
  rw [Kernel.on_cpu_self, Kernel.on_modCpu]

theorem runs_pushOff (ht : s.running c = t) :
    Runs c t pushOff (s.on c x L) () (s.on c x.pushed L) :=
  runs_cpu _ ht

theorem runs_write (w : Write) (ht : s.running c = t) :
    Runs c t (write w) (s.on c x L) () ((w.apply s).on c x L) := by
  refine Path.perform (.intr none) ht ?_ rfl
  show some ((), w.apply (s.on c x L)) = _
  cases w <;> rfl

theorem runs_vm {f : Vm β} {b : β} {m : Mem} (hf : f s.mem = .ok (b, m)) (ht : s.running c = t) :
    Runs c t (vm f) (s.on c x L) b (Kernel.on { s with mem := m } c x L) := by
  have hx : exec c (.intr none) (s.on c x L) (.vm f) =
      some (.ok b, Kernel.on { s with mem := m } c x L) := by
    simp only [exec]
    rw [show (s.on c x L).mem = s.mem from rfl, hf]
    rfl
  exact Path.bind (Path.perform (.intr none) ht hx rfl) .refl

theorem runs_holding (ht : s.running c = t) :
    Runs c t (holding l) s (decide (s.locked l = some c)) s :=
  Path.perform (.intr none) ht rfl rfl

theorem runs_acquire (hl : l ∉ L) (hfree : s.locked l = none) (ht : s.running c = t) :
    Runs c t (acquire l) (s.on c x L) () (s.on c x.pushed (l :: L)) := by
  have hlock : (s.on c x.pushed L).locked l = none := (Kernel.on_locked hl).trans hfree
  refine Path.bind (runs_pushOff ht) (Path.bind (runs_holding ht) ?_)
  refine Path.ite_not (by simp [hlock]) (Path.perform (.intr none) ht ?_ rfl)
  show exec c (.intr none) (s.on c x.pushed L) (.lock l) = _
  simp only [exec]
  rw [hlock, Kernel.on_lock]

/-- Nothing is pending when interrupts are turned on. -/
theorem runs_kerneltrap (ht : s.running c = t) : Runs c t kerneltrap s () s :=
  .iter (.intr none) ht (Path.bind (Path.bind (runs_input (.intr none) ht) .refl) .refl)

/-- A lock is released, and nothing is pending. -/
theorem runs_release (hl : l ∉ L) (hfree : s.locked l = none) (ht : s.running c = t)
    (hx : x.noff = 0 ∨ x.intr = false) :
    Runs c t (release l) (s.on c x.pushed (l :: L)) () (s.on c x.settled L) := by
  have hlock : (s.on c x.pushed (l :: L)).locked l = some c := if_pos List.mem_cons_self
  have hunlock : Runs c t (.perform (.unlock l)) (s.on c x.pushed (l :: L)) ()
      (s.on c x.pushed L) := by
    refine Path.perform (.intr none) ht ?_ rfl
    show some ((), (s.on c x.pushed (l :: L)).setLocked l none) = _
    rw [Kernel.on_unlock hl hfree]
  have hpop : Runs c t popOff (s.on c x.pushed L) x.intr (s.on c x.settled L) := by
    have hcpu := runs_cpu (s := s) (x := x.pushed) (L := L) CpuState.popOff ht
    rw [CpuState.pushed_popOff hx] at hcpu
    exact Path.bind hcpu .refl
  refine Path.bind (runs_holding ht) (Path.ite_not (by simp [hlock]) ?_)
  refine Path.bind hunlock (Path.bind hpop ?_)
  cases x.intr with
  | false => exact .refl
  | true => exact runs_kerneltrap ht

theorem runs_mycpuProc (ht : s.running c = t) :
    Runs c t mycpuProc (s.on c x L) x.proc (s.on c x L) := by
  refine Path.perform (.intr none) ht ?_ rfl
  show some (((s.on c x L).cpu c).proc, s.on c x L) = _
  rw [Kernel.on_cpu_self]

theorem runs_myproc {p : Slot} (hx : x.proc = some p) (ht : s.running c = t) :
    Runs c t myproc (s.on c x L) p (s.on c x L) := by
  have h := runs_mycpuProc (x := x) (L := L) ht
  rw [hx] at h
  exact Path.bind h .refl

theorem runs_record {p : Slot} (w : Slot → Write) (hx : x.proc = some p)
    (ht : s.running c = t) :
    Runs c t (record w) (s.on c x L) () (((w p).apply s).on c x L) := by
  have h := runs_mycpuProc (x := x) (L := L) ht
  rw [hx] at h
  exact Path.bind h (runs_write _ ht)

theorem runs_deref {o : Option α} {a : α} (ho : o = some a) : Runs c t (deref o) s a s := by
  rw [ho]
  exact .refl

theorem runs_killed {p : Slot} (hl : .proc p ∉ L) (hfree : s.locked (.proc p) = none)
    (ht : s.running c = t) (hx : x.noff = 0 ∨ x.intr = false) :
    Runs c t (killed p) (s.on c x L) (s.proc p).killed (s.on c x.settled L) :=
  Path.bind (runs_acquire hl hfree ht)
    (Path.bind (runs_read _ ht) (Path.bind (runs_release hl hfree ht hx) .refl))

theorem runs_intrOn (ht : s.running c = t) :
    Runs c t intrOn (s.on c x L) () (s.on c { x with intr := true } L) :=
  Path.bind (runs_cpu _ ht) (runs_kerneltrap ht)

/-! ## A system call -/

/-- A processor in user mode. -/
def userCpu (p : Slot) : CpuState := { proc := some p, noff := 0, intena := true, intr := false }

/-- A processor in a system call. -/
def kernelCpu (p : Slot) (intena : Bool) : CpuState :=
  { proc := some p, noff := 0, intena := intena, intr := true }

/-- What a system call needs of its process. -/
structure Calls (s : Kernel) (c : Cpu) (p : Slot) (trapframe : U64) : Prop where
  running : s.running c = .proc p
  free : s.locked (.proc p) = none
  killed : (s.proc p).killed = false
  trapframe : (s.proc p).priv.trapframe = some trapframe

/-- The kernel with the return value of a system call in `a0`. -/
def Kernel.answer (s : Kernel) (trapframe r : U64) : Kernel :=
  { s with mem := s.mem.setWord trapframe 14 r }

theorem runs_syscall {p : Slot} {call : Syscall} {tf r : U64} {ia : Bool} (h : Calls s c p tf)
    (h' : Calls s' c p tf)
    (hd : Runs c (.proc p) (dispatch call) (s.on c (kernelCpu p false) []) r
      (s'.on c (kernelCpu p ia) [])) :
    Runs c (.proc p) userRound (s.on c (userCpu p) []) ()
      ((s'.answer tf r).on c (userCpu p) []) := by
  have hcall : Runs c (.proc p) (syscall call) (s.on c (kernelCpu p false) []) ()
      ((s'.answer tf r).on c (kernelCpu p ia) []) := by
    refine Path.bind (runs_myproc rfl h.running) (Path.bind hd ?_)
    refine Path.bind (runs_read _ h'.running) (Path.bind (runs_deref h'.trapframe) ?_)
    exact runs_vm rfl h'.running
  have hafter := runs_killed (s := s'.answer tf r) (x := kernelCpu p ia) List.not_mem_nil h'.free
    h'.running (.inl rfl)
  have hbefore := runs_killed (s := s) (x := userCpu p) List.not_mem_nil h.free h.running (.inl rfl)
  rw [h.killed] at hbefore
  rw [show ((s'.answer tf r).proc p).killed = false from h'.killed] at hafter
  have hret : Runs c (.proc p) usertrapret
      ((s'.answer tf r).on c (kernelCpu p ia).settled []) () ((s'.answer tf r).on c (userCpu p) []) :=
    runs_cpu (s := s'.answer tf r) (x := (kernelCpu p ia).settled) _ h'.running
  have htrap : Runs c (.proc p) (usertrap (.syscall call)) (s.on c (userCpu p) []) ()
      ((s'.answer tf r).on c (kernelCpu p ia).settled []) := by
    refine Path.bind (runs_myproc rfl h.running) (Path.bind hbefore (Path.ite_not (by simp) ?_))
    refine Path.bind (runs_intrOn h.running) (Path.bind hcall (Path.bind .refl ?_))
    exact Path.bind hafter (Path.ite_not (by simp) (Path.ite_not (by simp) .refl))
  exact Path.bind (runs_input (.user (.syscall call)) h.running) (Path.bind htrap hret)

/-! ## `fork` without memory -/

theorem Kernel.modProc_modProc (s : Kernel) (p : Slot) (f g : Proc → Proc) :
    (s.modProc p f).modProc p g = s.modProc p fun x => g (f x) := by
  unfold Kernel.modProc
  congr 1
  funext q
  by_cases hq : q = p <;> simp [hq]

/-- A slot that `freeproc` has freed. -/
def Proc.freed (x : Proc) : Proc :=
  { x with
    priv :=
      { x.priv with trapframe := none, pagetable := none, sz := 0, name := x.priv.name.set 0 0 }
    pid := 0
    parent := none
    chan := none
    killed := false
    xstate := 0
    state := .unused }

/-- `freeproc` frees a slot that has neither memory nor trapframe. -/
theorem runs_freeproc {q : Slot} (ht : s.running c = t)
    (htf : (s.proc q).priv.trapframe = none) (hpt : (s.proc q).priv.pagetable = none) :
    Runs c t (freeproc q) (s.on c x L) () ((s.modProc q Proc.freed).on c x L) := by
  have hpt' : (((s.modProc q fun x => { x with priv := { x.priv with trapframe := none } }).on
      c x L).proc q).priv.pagetable = none := by
    simp [Kernel.on, Kernel.modProc, hpt]
  have hfreed : s.modProc q Proc.freed = Write.apply (Write.apply (Write.apply (Write.apply
      (Write.apply (Write.apply (Write.apply (Write.apply (Write.apply (Write.apply s
        (.priv q fun x => { x with trapframe := none }))
        (.priv q fun x => { x with pagetable := none })) (.priv q fun x => { x with sz := 0 }))
        (.pid q 0)) (.parent q none)) (.priv q fun x => { x with name := x.name.set 0 0 }))
        (.chan q none)) (.killed q false)) (.xstate q 0)) (.state q .unused) := by
    simp only [Write.apply, Kernel.modProc_modProc]
    rfl
  rw [hfreed]
  refine Path.bind (runs_note _ ht) (Path.bind (runs_read _ ht) ?_)
  rw [show ((s.on c x L).proc q).priv.trapframe = none from htf]
  refine Path.bind (runs_write _ ht) (Path.bind (runs_read _ ht) ?_)
  rw [show (((Write.priv q fun x => { x with trapframe := none }).apply s).on c x L) =
    (s.modProc q fun x => { x with priv := { x.priv with trapframe := none } }).on c x L from rfl,
    hpt']
  refine Path.bind (runs_write _ ht) (Path.bind (runs_write _ ht) ?_)
  refine Path.bind (runs_write _ ht) (Path.bind (runs_write _ ht) ?_)
  refine Path.bind (runs_write _ ht) (Path.bind (runs_write _ ht) ?_)
  exact Path.bind (runs_write _ ht) (Path.bind (runs_write _ ht) (runs_write _ ht))

theorem runs_allocpid {p : Slot} (hp : x.proc = some p) (hfree : s.locked .pid = none)
    (hL : .pid ∉ L) (ht : s.running c = t) (hx : x.noff = 0 ∨ x.intr = false) :
    Runs c t allocpid (s.on c x L) s.nextpid
      (Kernel.on (Write.apply (Write.apply s (.nextpid (s.nextpid + 1)))
        (.newpid p s.nextpid)) c x.settled L) := by
  refine Path.bind (runs_acquire hL hfree ht) (Path.bind (runs_read _ ht) ?_)
  refine Path.bind (runs_write _ ht) (Path.bind (runs_record _ hp ht) ?_)
  exact Path.bind (runs_release hL hfree ht hx) .refl

theorem slots_eq : slots = 0 :: 1 :: slots.drop 2 := by
  unfold slots
  decide

/-- What a call of `fork` needs that fails: one process, a free slot after it,
and no free memory. -/
structure Starved (s : Kernel) (c : Cpu) : Prop where
  running : s.running c = .proc 0
  free0 : s.locked (.proc 0) = none
  free1 : s.locked (.proc 1) = none
  freePid : s.locked .pid = none
  used0 : (s.proc 0).state ≠ .unused
  unused1 : (s.proc 1).state = .unused
  trapframe1 : (s.proc 1).priv.trapframe = none
  pagetable1 : (s.proc 1).priv.pagetable = none
  mem : s.mem.freelist = []

theorem runs_findUnused (h : Starved s c) (ia : Bool) :
    Runs c (.proc 0) findUnused (s.on c (kernelCpu 0 ia) []) (some 1)
      (s.on c (kernelCpu 0 true).pushed [.proc 1]) := by
  unfold findUnused
  rw [slots_eq]
  have hfirst : Runs c (.proc 0) (do
      acquire (.proc 0)
      if (← read fun s => (s.proc 0).state) = .unused then
        return some 0
      else
        release (.proc 0)
        return none : Code (Option Slot)) (s.on c (kernelCpu 0 ia) []) none (s.on c (kernelCpu 0 true) []) := by
    refine Path.bind (runs_acquire List.not_mem_nil h.free0 h.running) ?_
    refine Path.bind (runs_read _ h.running) (Path.ite_not h.used0 ?_)
    exact Path.bind (runs_release List.not_mem_nil h.free0 h.running (.inl rfl)) .refl
  have hsecond : Runs c (.proc 0) (do
      acquire (.proc 1)
      if (← read fun s => (s.proc 1).state) = .unused then
        return some 1
      else
        release (.proc 1)
        return none : Code (Option Slot)) (s.on c (kernelCpu 0 true) []) (some 1)
      (s.on c (kernelCpu 0 true).pushed [.proc 1]) := by
    refine Path.bind (runs_acquire List.not_mem_nil h.free1 h.running) ?_
    exact Path.bind (runs_read _ h.running) (Path.ite h.unused1 .refl)
  exact Path.bind hfirst (Path.bind hsecond .refl)

/-- The kernel after a call of `fork` that has found no memory. -/
def Kernel.forkFailed (s : Kernel) : Kernel :=
  { s with
    nextpid := s.nextpid + 1
    proc := fun q =>
      if q = 0 then { s.proc 0 with newpid := s.nextpid }
      else if q = 1 then
        Proc.freed { s.proc 1 with creator := some 0, byForkn := false, ended := none, reaps := 0 }
      else s.proc q }

theorem runs_allocproc (h : Starved s c) (ia : Bool) :
    Runs c (.proc 0) allocproc (s.on c (kernelCpu 0 ia) []) none
      (s.forkFailed.on c (kernelCpu 0 true) []) := by
  have hfailed : ∀ s₁, Write.apply (Write.apply (Write.apply (Write.apply
      (Write.apply (Write.apply (Write.apply (Write.apply s (.creator 1 (some 0)))
        (.byForkn 1 false)) (.ended 1 none)) (.reaps 1 0)) (.nextpid (s.nextpid + 1)))
        (.newpid 0 s.nextpid)) (.pid 1 s.nextpid)) (.state 1 .used) = s₁ →
      s₁.modProc 1 Proc.freed = s.forkFailed := by
    intro s₁ hs₁
    rw [← hs₁]
    unfold Kernel.forkFailed
    simp only [Write.apply, Kernel.modProc]
    congr 1
    funext q
    by_cases h0 : q = 0
    · subst h0
      simp
    · by_cases h1 : q = 1
      · subst h1
        simp [Proc.freed]
      · simp [h0, h1]
  refine Path.bind (runs_findUnused h ia) (Path.bind (runs_mycpuProc h.running) ?_)
  refine Path.bind (runs_write _ h.running) (Path.bind (runs_write _ h.running) ?_)
  refine Path.bind (runs_write _ h.running) (Path.bind (runs_write _ h.running) ?_)
  refine Path.bind (runs_allocpid rfl h.freePid (by simp) h.running (.inr rfl)) ?_
  refine Path.bind (runs_write _ h.running) (Path.bind (runs_write _ h.running) ?_)
  generalize htaken : Write.apply (Write.apply _ (.pid 1 _)) (.state 1 .used) = s₁
  have hrun : s₁.running c = .proc 0 := by
    rw [← htaken]
    exact h.running
  have hfree : s₁.locked (.proc 1) = none := by
    rw [← htaken]
    exact h.free1
  have hmem : s₁.mem.freelist = [] := by
    rw [← htaken]
    exact h.mem
  have hkalloc : kalloc s₁.mem = .ok (none, s₁.mem) := by
    unfold kalloc
    rw [Vm.bind_ok (show (get : Vm Mem) s₁.mem = .ok (s₁.mem, s₁.mem) from rfl), hmem]
    rfl
  rw [← hfailed s₁ htaken]
  refine Path.bind (runs_vm hkalloc hrun) (Path.bind (runs_freeproc hrun ?_ ?_) ?_)
  · rw [← htaken]
    exact h.trapframe1
  · rw [← htaken]
    exact h.pagetable1
  · exact Path.bind (runs_release (x := kernelCpu 0 true) List.not_mem_nil hfree hrun (.inl rfl)) .refl

theorem runs_fork (h : Starved s c) (ia : Bool) :
    Runs c (.proc 0) (dispatch .fork) (s.on c (kernelCpu 0 ia) []) (intResult (-1))
      (s.forkFailed.on c (kernelCpu 0 true) []) :=
  Path.bind (Path.bind (runs_myproc rfl h.running) (Path.bind (runs_allocproc h ia) .refl)) .refl

/-! ## Any number of calls of `fork` -/

theorem path_forever {m : Code Unit} (ht : s.running c = t) (h : Runs c t m s () s') :
    Path machine c t (Prog.forever m) s (Prog.forever m) s' :=
  .iter (.intr none) ht (Path.bind (Path.bind h .refl) .refl)

/-- The kernel when `fork` has failed and returned. -/
def Kernel.afterFork (s : Kernel) (trapframe : U64) : Kernel :=
  s.forkFailed.answer trapframe (intResult (-1))

/-- The kernel with another process id that `allocpid` has given out last. -/
def Kernel.counted (s : Kernel) (pid : I32) : Kernel :=
  { s with
    nextpid := pid + 1
    proc := fun q => if q = 0 then { s.proc 0 with newpid := pid } else s.proc q }

/-- `fork` that fails again only counts. -/
theorem Kernel.counted_afterFork (s : Kernel) (tf : U64) (pid : I32) :
    ((s.afterFork tf).counted pid).afterFork tf = (s.afterFork tf).counted (pid + 1) := by
  have hmem : (s.mem.setWord tf 14 (intResult (-1))).setWord tf 14 (intResult (-1)) =
      s.mem.setWord tf 14 (intResult (-1)) := by
    unfold Mem.setWord Mem.setPage
    congr 1
    funext a i
    by_cases ha : a = tf <;> by_cases hi : i = 14 <;> simp [ha, hi]
  have hproc : ∀ q, (((s.afterFork tf).counted pid).afterFork tf).proc q =
      ((s.afterFork tf).counted (pid + 1)).proc q := by
    intro q
    simp only [Kernel.afterFork, Kernel.answer, Kernel.forkFailed, Kernel.counted]
    by_cases h0 : q = 0
    · subst h0
      simp
    · by_cases h1 : q = 1
      · subst h1
        simp [Proc.freed]
      · simp [h0, h1]
  have hext : ∀ s₁ s₂ : Kernel, s₁.proc = s₂.proc → s₁.mem = s₂.mem → s₁.nextpid = s₂.nextpid →
      s₁.cpu = s₂.cpu → s₁.current = s₂.current → s₁.locked = s₂.locked →
      s₁.initproc = s₂.initproc → s₁.data = s₂.data → s₁ = s₂ := by
    intro s₁ s₂ h1 h2 h3 h4 h5 h6 h7 h8
    cases s₁
    cases s₂
    simp_all
  exact hext _ _ (funext hproc) hmem rfl rfl rfl rfl rfl rfl

theorem Kernel.counted_nextpid (s : Kernel) (tf : U64) :
    (s.afterFork tf).counted s.nextpid = s.afterFork tf := by
  unfold Kernel.counted Kernel.afterFork Kernel.answer Kernel.forkFailed
  congr 1
  funext q
  by_cases h0 : q = 0 <;> simp [h0]

theorem Starved.counted {tf : U64} (h : Starved s c) (pid : I32) :
    Starved ((s.afterFork tf).counted pid) c where
  running := h.running
  free0 := h.free0
  free1 := h.free1
  freePid := h.freePid
  used0 := h.used0
  unused1 := rfl
  trapframe1 := rfl
  pagetable1 := rfl
  mem := h.mem

theorem Calls.counted {tf : U64} (h : Calls s c 0 tf) (pid : I32) :
    Calls ((s.afterFork tf).counted pid) c 0 tf where
  running := h.running
  free := h.free
  killed := h.killed
  trapframe := h.trapframe

theorem path_fork {tf : U64} (hs : Starved s c) (h : Calls s c 0 tf) :
    Path machine c (.proc 0) (Prog.forever userRound) (s.on c (userCpu 0) [])
      (Prog.forever userRound) ((s.afterFork tf).on c (userCpu 0) []) :=
  path_forever h.running (runs_syscall h ⟨h.running, h.free, h.killed, h.trapframe⟩
    (runs_fork hs false))

/-- Without memory, `fork` can be called any number of times, and process ids
are all that changes. -/
theorem path_forks {tf : U64} (hs : Starved s c) (h : Calls s c 0 tf) (pid : I32) (n : Nat) :
    Path machine c (.proc 0) (Prog.forever userRound)
      (((s.afterFork tf).counted pid).on c (userCpu 0) []) (Prog.forever userRound)
      (((s.afterFork tf).counted (pid + BitVec.ofNat 32 n)).on c (userCpu 0) []) := by
  induction n generalizing pid with
  | zero =>
    rw [BitVec.add_zero]
    exact .refl
  | succ n ih =>
    refine (path_fork (hs.counted pid) (h.counted pid)).trans ?_
    rw [Kernel.counted_afterFork, Nat.add_comm n 1, BitVec.ofNat_add, ← BitVec.add_assoc]
    exact ih (pid + 1)

/-! ## `sbrk` -/

/-- The kernel when a process has grown. -/
def Kernel.grown (s : Kernel) (p : Slot) (sz : U64) (m : Mem) : Kernel :=
  Write.apply { s with mem := m } (.priv p fun x => { x with sz := sz })

theorem runs_sbrk {p : Slot} {n : I32} {tf pt sz : U64} {m : Mem} {ia : Bool} (h : Calls s c p tf)
    (hn : n.toInt > 0) (hpt : (s.proc p).priv.pagetable = some pt)
    (hvm : uvmalloc pt (s.proc p).priv.sz ((s.proc p).priv.sz + n.signExtend 64) PTE_W s.mem =
      .ok (some sz, m)) (hsz : sz ≠ 0) :
    Runs c (.proc p) (dispatch (.sbrk n)) (s.on c (kernelCpu p ia) []) (s.proc p).priv.sz
      ((s.grown p sz m).on c (kernelCpu p ia) []) := by
  have hgrow : Runs c (.proc p) (growproc n) (s.on c (kernelCpu p ia) []) 0
      ((s.grown p sz m).on c (kernelCpu p ia) []) := by
    refine Path.bind (runs_myproc rfl h.running) (Path.bind (runs_read _ h.running) ?_)
    refine Path.bind (runs_read _ h.running) (Path.bind (runs_deref hpt) (Path.ite hn ?_))
    refine Path.bind (runs_vm hvm h.running) (Path.ite_not hsz ?_)
    exact Path.bind (runs_write _ h.running) .refl
  refine Path.bind (runs_myproc rfl h.running) (Path.bind (runs_read _ h.running) ?_)
  exact Path.bind hgrow (Path.ite_not (by decide) .refl)

/-! ## From boot to the first process -/

/-- The first process takes its first steps. -/
theorem runs_forkret {p : Slot} (hfree : s.locked (.proc p) = none) (hfirst : s.data.first = true)
    (ht : s.running c = .proc p) :
    Runs c (.proc p) forkret (s.on c (kernelCpu p true).pushed [.proc p]) ()
      (Kernel.on { s with data := { s.data with first := false } } c (userCpu p) []) := by
  have hfs : Runs c (.proc p) fsCall
      (Kernel.on { s with data := { s.data with first := false } } c (kernelCpu p true) []) 0
      (Kernel.on { s with data := { s.data with first := false } } c (kernelCpu p true) []) :=
    .iter (.intr none) ht (Path.bind (Path.bind (runs_input (.fs (.done 0)) ht) .refl) .refl)
  refine Path.bind (runs_myproc rfl ht) ?_
  refine Path.bind (runs_release List.not_mem_nil hfree ht (.inl rfl)) ?_
  refine Path.bind (runs_read _ ht) (Path.ite hfirst ?_)
  exact Path.bind (runs_write _ ht) (Path.bind hfs (runs_cpu (x := kernelCpu p true) _ ht))

/-- What `scheduler` does with one slot. -/
def schedulerVisit (p : Slot) : Code Unit := do
  acquire (.proc p)
  if (← read fun s => (s.proc p).state) = .runnable then
    write (.state p .running)
    .perform (.cpu fun x => ((), { x with proc := some p }))
    .perform (.swtch (some p))
    .perform (.cpu fun x => ((), { x with proc := none }))
  release (.proc p)

theorem scheduler_eq : scheduler =
    (Prog.perform (.cpu fun x => ((), { x with proc := none }))).bind fun _ =>
      Prog.forever (intrOn.bind fun _ => Prog.foldM (fun () p => schedulerVisit p) () slots) :=
  rfl

/-- The kernel when processor 0 switches to `initproc`. -/
def Boot.switching (b : Boot) : Kernel :=
  b.kernel.modProc 0 fun x => { x with state := .running }

/-- Processor 0 comes to the switch to `initproc`. -/
theorem path_scheduler (b : Boot) : ∃ k, Path machine 0 (.cpu 0) scheduler b.kernel
    (.op (.swtch (some 0)) k) (b.switching.on 0 (kernelCpu 0 true).pushed [.proc 0]) := by
  have ht : b.kernel.running 0 = .cpu 0 := rfl
  have hstart : b.kernel.on 0 { proc := none, noff := 0, intena := false, intr := false } [] =
      b.kernel := Kernel.on_self b.kernel 0
  have hvisit : ∃ k, Path machine 0 (.cpu 0) (schedulerVisit 0)
      (b.kernel.on 0 { proc := none, noff := 0, intena := false, intr := true } [])
      (.op (.swtch (some 0)) k) (b.switching.on 0 (kernelCpu 0 true).pushed [.proc 0]) :=
    ⟨_, Path.bind (runs_acquire List.not_mem_nil rfl ht) (Path.bind (runs_read _ ht)
      (Path.ite rfl (Path.bind (runs_write _ ht) (Path.bind (runs_cpu _ ht) .refl))))⟩
  obtain ⟨k, hk⟩ := hvisit
  have hturn : ∃ k, Path machine 0 (.cpu 0)
      (intrOn.bind fun _ => Prog.foldM (fun () p => schedulerVisit p) () slots)
      (b.kernel.on 0 { proc := none, noff := 0, intena := false, intr := false } [])
      (.op (.swtch (some 0)) k) (b.switching.on 0 (kernelCpu 0 true).pushed [.proc 0]) := by
    rw [slots_eq]
    exact ⟨_, Path.bind (runs_intrOn ht) (hk.andThen _)⟩
  obtain ⟨k, hk⟩ := hturn
  have hcpu : Runs 0 (.cpu 0) (.perform (.cpu fun x => ((), { x with proc := none })))
      (b.kernel.on 0 { proc := none, noff := 0, intena := false, intr := false } []) ()
      (b.kernel.on 0 { proc := none, noff := 0, intena := false, intr := false } []) :=
    runs_cpu _ ht
  rw [hstart] at hk hcpu
  rw [scheduler_eq]
  exact ⟨_, Path.bind hcpu (.iter (.intr none) ht ((hk.andThen _).andThen _))⟩

/-- The kernel when processor 0 has started `initproc`. -/
def Boot.started (b : Boot) : Kernel :=
  { b.switching with
    current := fun d => if d = 0 then some 0 else none
    data := { b.data with first := false } }

/-- Processor 0 runs `initproc` in user mode, and nothing else has happened. -/
theorem reach_started (b : Boot) : ∃ m, Reachable b ⟨b.started.on 0 (userCpu 0) [],
    Machine.setCode (Machine.setCode machine.main (.cpu 0) m) (.proc 0)
      (Prog.forever userRound)⟩ := by
  obtain ⟨k, hk⟩ := path_scheduler b
  refine ⟨k (), ?_⟩
  have hboot : Reachable b ⟨b.kernel, Machine.setCode machine.main (.cpu 0) scheduler⟩ := by
    rw [show scheduler = machine.main (.cpu 0) from rfl, Machine.setCode_self]
    exact .start
  have hswtch : Reachable b ⟨Kernel.on { b.switching with
      current := fun d => if d = 0 then some 0 else none } 0 (kernelCpu 0 true).pushed [.proc 0],
      Machine.setCode machine.main (.cpu 0) (k ())⟩ := by
    rw [← Machine.setCode_setCode machine.main (.cpu 0) (.op (.swtch (some 0)) k) (k ())]
    exact (Machine.Reach.path hk hboot).step (c := 0) (i := .intr none) (fun _ _ _ => trivial) rfl
  have hmain : Machine.setCode machine.main (.cpu 0) (k ()) =
      Machine.setCode (Machine.setCode machine.main (.cpu 0) (k ())) (.proc 0) processMain :=
    (Machine.setCode_self _ (Tid.proc 0)).symm
  rw [hmain] at hswtch
  exact Machine.Reach.path (Path.bind (runs_forkret rfl rfl rfl) .refl) hswtch

/-! ## From boot to any process id -/

/-- The kernel after boot, one call of `sbrk`, and one call of `fork` that has
failed. -/
def Boot.starved (b : Boot) (tf sz : U64) (m : Mem) : Kernel :=
  ((b.started.grown 0 sz m).answer tf b.init.sz).afterFork tf

/-- When a first `sbrk` takes all memory that boot has left, processor 0 can
bring the counter of process ids to any value. -/
theorem reach_counted {b : Boot} {n : I32} {tf pt sz : U64} {m : Mem}
    (htf : b.init.trapframe = some tf) (hpt : b.init.pagetable = some pt) (hn : n.toInt > 0)
    (hvm : uvmalloc pt b.init.sz (b.init.sz + n.signExtend 64) PTE_W b.mem = .ok (some sz, m))
    (hsz : sz ≠ 0) (hm : m.freelist = []) (k : Nat) :
    ∃ m₀, Reachable b ⟨((b.starved tf sz m).counted (2 + BitVec.ofNat 32 k)).on 0 (userCpu 0) [],
      Machine.setCode (Machine.setCode machine.main (.cpu 0) m₀) (.proc 0)
        (Prog.forever userRound)⟩ := by
  obtain ⟨m₀, hstart⟩ := reach_started b
  refine ⟨m₀, ?_⟩
  have hcalls : Calls b.started 0 0 tf := ⟨rfl, rfl, rfl, htf⟩
  have hgrown : Calls (b.started.grown 0 sz m) 0 0 tf := ⟨rfl, rfl, rfl, htf⟩
  have hanswer : Calls ((b.started.grown 0 sz m).answer tf b.init.sz) 0 0 tf :=
    ⟨rfl, rfl, rfl, htf⟩
  have hstarved : Starved ((b.started.grown 0 sz m).answer tf b.init.sz) 0 :=
    { running := rfl
      free0 := rfl
      free1 := rfl
      freePid := rfl
      used0 := fun h => nomatch h
      unused1 := rfl
      trapframe1 := rfl
      pagetable1 := rfl
      mem := hm }
  have hsbrk : Path machine 0 (.proc 0) (Prog.forever userRound)
      (b.started.on 0 (userCpu 0) []) (Prog.forever userRound)
      (((b.started.grown 0 sz m).answer tf b.init.sz).on 0 (userCpu 0) []) :=
    path_forever hcalls.running (runs_syscall hcalls hgrown
      (runs_sbrk hcalls hn hpt hvm hsz))
  have hforks := path_forks hstarved hanswer 2 k
  rw [show ((((b.started.grown 0 sz m).answer tf b.init.sz).afterFork tf).counted 2) =
    ((b.started.grown 0 sz m).answer tf b.init.sz).afterFork tf from
      Kernel.counted_nextpid ((b.started.grown 0 sz m).answer tf b.init.sz) tf] at hforks
  exact Machine.Reach.path ((hsbrk.trans (path_fork hstarved hanswer)).trans hforks) hstart

end

end Xv6
