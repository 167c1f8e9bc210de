import Xv6.Proc.Syscall

/-!
# The kernel after boot

The state that `main` and `userinit` leave behind, when the processors enter
`scheduler`: one process, `initproc`, is ready to run.
-/

namespace Xv6

open Conc

/-- What the boot code may leave in memory: the page table of `initproc`, the
free pages, and whatever the pages of pipes hold. -/
structure Boot where
  mem : Mem
  init : Private
  pipe : PipeId → Pipe

/-! ## The first process -/

/-- A user program that calls `exec("/init")`. -/
def initcode : List Byte :=
  [0x17, 0x05, 0x00, 0x00, 0x13, 0x05, 0x45, 0x02,
   0x97, 0x05, 0x00, 0x00, 0x93, 0x85, 0x35, 0x02,
   0x93, 0x08, 0x70, 0x00, 0x73, 0x00, 0x00, 0x00,
   0x93, 0x08, 0x20, 0x00, 0x73, 0x00, 0x00, 0x00,
   0xef, 0xf0, 0x9f, 0xff, 0x2f, 0x69, 0x6e, 0x69,
   0x74, 0x00, 0x00, 0x24, 0x00, 0x00, 0x00, 0x00,
   0x00, 0x00, 0x00, 0x00]

abbrev ROOTINO : InodeId := 1

/-- Set up first user process: the memory that `userinit` and its call of
`allocproc` build, and what they store in the slot. -/
def userinit : Vm Private := do
  match ← kalloc with
  | none => Vm.panic "kerneltrap"
  | some trapframe =>
    match ← procPagetable trapframe with
    | none => Vm.panic "kerneltrap"
    | some pagetable =>
      -- allocate one user page and copy initcode's instructions and data into it.
      uvmfirst pagetable initcode
      storeWord trapframe 3 0      -- epc
      storeWord trapframe 6 PGSIZE -- sp
      let x := Proc.free.priv
      return { x with
        sz := PGSIZE
        pagetable := some pagetable
        trapframe := some trapframe
        cwd := some ROOTINO
        name := safestrcpy x.name (literal "initcode") 16 }

namespace Boot

/-- The boot of a kernel with the given memory, unless it panics. -/
def start (m : Mem) : Option Boot :=
  match userinit m with
  | .ok (init, mem) => some ⟨mem, init, fun _ => Pipe.new⟩
  | .error _ => none

/-- A small physical memory: the last `n` pages are free. -/
def smallMem (n : Nat) : Mem where
  page := fun _ _ => 0
  freelist := (List.range n).map fun k => PHYSTOP - PGSIZE * BitVec.ofNat 64 (k + 1)

/-- The slot of `initproc`. -/
def initproc : Slot := 0

/-- The process table: `initproc`, with the first process id, is ready to run. -/
def table (b : Boot) : Slot → Proc := fun p =>
  if p = initproc then { Proc.free with state := .runnable, pid := 1, priv := b.init }
  else Proc.free

def data (b : Boot) : Data where
  ticks := 0
  first := true
  file := fun _ => { type := .none, ref := 0, readable := false, writable := false }
  inodeRef := fun _ => 0
  pipe := b.pipe
  cons := { buf := fun _ => 0, r := 0, w := 0, e := 0 }

def kernel (b : Boot) : Kernel where
  proc := b.table
  cpu := fun _ => { proc := none, noff := 0, intena := false, intr := false }
  current := fun _ => none
  locked := fun _ => none
  nextpid := 2
  initproc := initproc
  data := b.data
  mem := b.mem

/-- Every processor is at the start of `scheduler`. -/
def system (b : Boot) : System := ⟨b.kernel, machine.main⟩

end Boot

/-- The states that runs reach when every operation meets a condition. -/
def ReachableIf (A : Machine.OpPred Op Kernel Cpu) (b : Boot) (g : System) : Prop :=
  machine.Reach A b.system g

/-- The states that runs reach after boot. -/
def Reachable (b : Boot) (g : System) : Prop := ReachableIf Machine.always b g

/-! ## Running the kernel -/

/-- Follow a schedule from boot, with `n` free pages of memory. -/
def runFrom (A : Machine.OpPred Op Kernel Cpu)
    [∀ (β : Type) (c : Cpu) (o : Op β) (s : Kernel), Decidable (A β c o s)]
    (n : Nat) (sched : List (Cpu × Input)) : Option System :=
  (Boot.start (Boot.smallMem n)).bind fun b => machine.run A sched b.system

/-- A state that a run from boot reaches, with `n` free pages of memory, and
what `f` sees of it. -/
structure Sight (A : Machine.OpPred Op Kernel Cpu) (n : Nat) {α : Type} (f : System → α)
    (a : α) where
  boot : Boot
  state : System
  start : Boot.start (Boot.smallMem n) = some boot
  reach : ReachableIf A boot state
  view : f state = a

/-- The state that a schedule leads to. -/
def Sight.after {A : Machine.OpPred Op Kernel Cpu}
    [∀ (β : Type) (c : Cpu) (o : Op β) (s : Kernel), Decidable (A β c o s)]
    {n : Nat} {α : Type} {f : System → α} {a : α} (sched : List (Cpu × Input))
    (h : (runFrom A n sched).map f = some a) : Sight A n f a :=
  match hb : Boot.start (Boot.smallMem n), hg : runFrom A n sched with
  | some b, some g =>
    { boot := b
      state := g
      start := hb
      reach := by
        rw [runFrom, hb] at hg
        exact machine.reach_of_run A .start hg
      view := by
        rw [hg] at h
        exact Option.some.inj h }
  | none, _ => absurd h (by simp [runFrom, hb])
  | _, none => absurd h (by simp [hg])

/-- Follow a schedule from boot in legs, with `n` free pages of memory. -/
def viewsFrom (A : Machine.OpPred Op Kernel Cpu)
    [∀ (β : Type) (c : Cpu) (o : Op β) (s : Kernel), Decidable (A β c o s)]
    {α : Type} (f : System → α) (n : Nat) (legs : List (List (Cpu × Input))) :
    Option (List α) :=
  (Boot.start (Boot.smallMem n)).bind fun b => machine.views A f legs b.system

theorem reachableIf_of_viewsFrom {A : Machine.OpPred Op Kernel Cpu}
    [∀ (β : Type) (c : Cpu) (o : Op β) (s : Kernel), Decidable (A β c o s)]
    {α : Type} {f : System → α} {n : Nat} {legs : List (List (Cpu × Input))} {as : List α}
    {a : α} (h : viewsFrom A f n legs = some as) (ha : a ∈ as) :
    ∃ b g, Boot.start (Boot.smallMem n) = some b ∧ ReachableIf A b g ∧ f g = a := by
  obtain ⟨b, hb, hviews⟩ := Option.bind_eq_some_iff.1 h
  obtain ⟨g, hg, hf⟩ := machine.reach_of_views A .start hviews ha
  exact ⟨b, g, hb, hg, hf⟩

/-- A run that meets a condition is a run. -/
theorem ReachableIf.reachable {A : Machine.OpPred Op Kernel Cpu} {b : Boot} {g : System}
    (h : ReachableIf A b g) : Reachable b g :=
  h.mono _ fun _ _ _ _ _ => trivial

/-- The place that a processor is about to mark. -/
def noteAt (g : System) (c : Cpu) : Option Event :=
  match machine.next? g c with
  | some ⟨_, .note e⟩ => some e
  | _ => none

theorem next_of_noteAt {g : System} {c : Cpu} {e : Event} (h : noteAt g c = some e) :
    machine.Next g c (.note e) := by
  unfold noteAt at h
  split at h
  · rename_i e' hnext
    cases h
    exact machine.next?_eq_some.1 hnext
  · cases h

/-! ## Schedules -/

/-- Processor `c` takes `n` steps, and no interrupt arrives. -/
def steps (c : Cpu) (n : Nat) : List (Cpu × Input) := List.replicate n (c, .intr none)

/-- The process on processor `c` makes a system call. -/
def calls (c : Cpu) (call : Syscall) : List (Cpu × Input) := [(c, .user (.syscall call))]

/-- `initproc` starts on processor 0 and forks a child. -/
def initForks : List (Cpu × Input) := steps 0 24 ++ calls 0 .fork ++ steps 0 122

end Xv6
