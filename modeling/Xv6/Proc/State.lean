import Xv6.Conc.Machine
import Xv6.Vm.PageTable

/-!
# The state of the kernel

`struct proc`, `struct cpu`, the spinlocks and the other shared data that the
process code of `kernel/` works on.  A spinlock is the processor that holds
it.  The last fields of `Proc` are history, and no code of the source reads
them: who created the process, how it ended, where it sleeps, what it has
passed to a call that it is in, and what has been collected.
-/

namespace Xv6

/-- `int`. -/
abbrev I32 := BitVec 32

abbrev Byte := BitVec 8

/-! ## Constants of `param.h` -/

abbrev NPROC : Nat := 64
abbrev NOFILE : Nat := 16
abbrev NFILE : Nat := 100

/-- A slot of the process table; `struct proc *` is an optional slot. -/
abbrev Slot := Fin NPROC

instance neZero_NPROC : NeZero NPROC := ⟨by decide⟩

/-- The process table in the order in which the loops of the source visit it. -/
@[irreducible] def slots : List Slot := List.finRange NPROC

/-- A processor, by its `cpuid`.  The model has any number of them. -/
abbrev Cpu := Nat

/-- A slot of the file table. -/
abbrev FileId := Fin NFILE

/-- A slot of the inode table. -/
abbrev InodeId := Nat

/-- A pipe, by the address of the page that holds it. -/
abbrev PipeId := U64

/-! ## Processes -/

inductive ProcState
  | unused | used | sleeping | runnable | running | zombie
  deriving DecidableEq, Repr

/-- What a process can sleep on.  `fs k` is any channel of the file system
or of the disk driver. -/
inductive Chan
  | proc (p : Slot)
  | ticks
  | pipeRead (pi : PipeId)
  | pipeWrite (pi : PipeId)
  | cons
  | fs (k : Nat)
  deriving DecidableEq

/-- The spinlocks.  `fs k` is any lock of the file system, the buffer cache
or the disk driver. -/
inductive Lock
  | wait
  | pid
  | proc (p : Slot)
  | ticks
  | cons
  | pipe (pi : PipeId)
  | ftable
  | itable
  | fs (k : Nat)
  deriving DecidableEq

/-- How a process came to call `exit`. -/
inductive Termination
  | status (s : I32)
  | msg
  | killed
  deriving DecidableEq

/-- The function whose loop a process sleeps in. -/
inductive Site
  | wait | waitall | piperead | pipewrite | consoleread | sysSleep | fs
  deriving DecidableEq

/-- It sleeps there until a child exits. -/
def Site.forChild : Site → Bool
  | .wait | .waitall => true
  | _ => false

/-- The fields of `struct proc` that are private to the process. -/
structure Private where
  sz : U64
  pagetable : Option U64
  trapframe : Option U64
  ofile : Fin NOFILE → Option FileId
  cwd : Option InodeId
  name : List Byte
  exitMsg : List Byte

/-- `struct proc`, less its lock and its saved context. -/
structure Proc where
  state : ProcState
  chan : Option Chan
  killed : Bool
  xstate : I32
  pid : I32
  xstatus : I32
  parent : Option Slot
  priv : Private
  /-- History: the process whose `allocproc` took the slot. -/
  creator : Option Slot
  /-- History: its creator is in `forkn`, and not in `fork`. -/
  byForkn : Bool
  /-- History: how the process ended, once it is in `exit`. -/
  ended : Option Termination
  /-- History: the function that called `sleep` last. -/
  site : Site
  /-- History: it is in `waitall`, and has left the loop. -/
  leaving : Bool
  /-- History: it has gone to sleep for a child, and nobody has woken it up. -/
  dozing : Bool
  /-- History: how many children its last `wait` or `waitall` has collected. -/
  reaped : Nat
  /-- History: how often the process itself has been collected. -/
  reaps : Nat
  /-- History: the argument of its last `kill`, or `none` after a fatal trap. -/
  target : Option I32
  /-- History: what its last `allocpid` has given it. -/
  newpid : I32
  /-- History: the string that it has passed to `exitmsg`. -/
  message : Option (List Byte)

/-- A slot as `procinit` leaves it. -/
def Proc.free : Proc where
  state := .unused
  chan := none
  killed := false
  xstate := 0
  pid := 0
  xstatus := 0
  parent := none
  priv :=
    { sz := 0, pagetable := none, trapframe := none, ofile := fun _ => none, cwd := none,
      name := List.replicate 16 0, exitMsg := List.replicate 32 0 }
  creator := none
  byForkn := false
  ended := none
  site := .fs
  leaving := false
  dozing := false
  reaped := 0
  reaps := 0
  target := none
  newpid := 0
  message := none

/-! ## Processors -/

/-- `struct cpu`, with the interrupt enable bit of the processor. -/
structure CpuState where
  proc : Option Slot
  noff : Nat
  intena : Bool
  intr : Bool

/-! ## Files, pipes and the console -/

inductive FileType
  | none
  | pipe (pi : PipeId)
  | inode
  | device
  deriving DecidableEq

/-- `struct file`, less what only the file system reads. -/
structure File where
  type : FileType
  ref : Nat
  readable : Bool
  writable : Bool

abbrev PIPESIZE : Nat := 512

/-- `struct pipe`, less its lock. -/
structure Pipe where
  data : Fin PIPESIZE → Byte
  nread : I32
  nwrite : I32
  readopen : Bool
  writeopen : Bool

abbrev INPUT_BUF_SIZE : Nat := 128

instance neZero_INPUT_BUF_SIZE : NeZero INPUT_BUF_SIZE := ⟨by decide⟩

/-- `cons`, less its lock. -/
structure Cons where
  buf : Fin INPUT_BUF_SIZE → Byte
  r : I32
  w : I32
  e : I32

/-! ## The kernel -/

/-- The shared data outside the process table. -/
structure Data where
  ticks : I32
  first : Bool
  file : FileId → File
  inodeRef : InodeId → Nat
  pipe : PipeId → Pipe
  cons : Cons

/-- The shared state of the kernel.  `current` is the process whose kernel
thread a processor executes, `none` while it executes `scheduler`. -/
structure Kernel where
  proc : Slot → Proc
  cpu : Cpu → CpuState
  current : Cpu → Option Slot
  locked : Lock → Option Cpu
  nextpid : I32
  initproc : Slot
  data : Data
  mem : Mem

namespace Kernel

/-- Change one slot of the process table. -/
def modProc (s : Kernel) (p : Slot) (f : Proc → Proc) : Kernel :=
  { s with proc := fun q => if q = p then f (s.proc q) else s.proc q }

/-- Change one processor. -/
def modCpu (s : Kernel) (c : Cpu) (f : CpuState → CpuState) : Kernel :=
  { s with cpu := fun d => if d = c then f (s.cpu d) else s.cpu d }

/-- Give a spinlock to a processor, or free it. -/
def setLocked (s : Kernel) (l : Lock) (h : Option Cpu) : Kernel :=
  { s with locked := fun k => if k = l then h else s.locked k }

/-- Let a processor execute the thread of a process, or `scheduler`. -/
def setCurrent (s : Kernel) (c : Cpu) (p : Option Slot) : Kernel :=
  { s with current := fun d => if d = c then p else s.current d }

end Kernel

end Xv6
