import Xv6.Proc.State

/-!
# The atomic operations of kernel code

One operation is one access to shared memory, one turn of a spinlock, or one
step inside a processor.  `vm` runs a whole function of `kernel/vm.c` or
`kernel/kalloc.c` on physical memory.  `input` asks the outside world what
comes next.  `note` does nothing: it marks a place in the code for the
statements about it.
-/

namespace Xv6

open Conc

/-- One store into a field that threads share. -/
inductive Write
  | state (p : Slot) (v : ProcState)
  | chan (p : Slot) (v : Option Chan)
  | killed (p : Slot) (v : Bool)
  | xstate (p : Slot) (v : I32)
  | pid (p : Slot) (v : I32)
  | xstatus (p : Slot) (v : I32)
  | parent (p : Slot) (v : Option Slot)
  | priv (p : Slot) (f : Private → Private)
  | creator (p : Slot) (v : Option Slot)
  | byForkn (p : Slot) (v : Bool)
  | ended (p : Slot) (v : Option Termination)
  | site (p : Slot) (v : Site)
  | leaving (p : Slot) (v : Bool)
  | dozing (p : Slot) (v : Bool)
  | reaped (p : Slot) (v : Nat)
  | reaps (p : Slot) (v : Nat)
  /-- History: `p` collects `pp`. -/
  | reap (p pp : Slot)
  | target (p : Slot) (v : Option I32)
  | newpid (p : Slot) (v : I32)
  | message (p : Slot) (v : Option (List Byte))
  | nextpid (v : I32)
  | data (f : Data → Data)

namespace Write

/-- The store itself. -/
def apply (s : Kernel) : Write → Kernel
  | .state p v => s.modProc p fun x => { x with state := v }
  | .chan p v => s.modProc p fun x => { x with chan := v }
  | .killed p v => s.modProc p fun x => { x with killed := v }
  | .xstate p v => s.modProc p fun x => { x with xstate := v }
  | .pid p v => s.modProc p fun x => { x with pid := v }
  | .xstatus p v => s.modProc p fun x => { x with xstatus := v }
  | .parent p v => s.modProc p fun x => { x with parent := v }
  | .priv p f => s.modProc p fun x => { x with priv := f x.priv }
  | .creator p v => s.modProc p fun x => { x with creator := v }
  | .byForkn p v => s.modProc p fun x => { x with byForkn := v }
  | .ended p v => s.modProc p fun x => { x with ended := v }
  | .site p v => s.modProc p fun x => { x with site := v }
  | .leaving p v => s.modProc p fun x => { x with leaving := v }
  | .dozing p v => s.modProc p fun x => { x with dozing := v }
  | .reaped p v => s.modProc p fun x => { x with reaped := v }
  | .reaps p v => s.modProc p fun x => { x with reaps := v }
  | .reap p pp =>
    { s with
      proc := fun q =>
        { s.proc q with
          reaped := if q = p then (s.proc q).reaped + 1 else (s.proc q).reaped
          reaps := if q = pp then (s.proc q).reaps + 1 else (s.proc q).reaps } }
  | .target p v => s.modProc p fun x => { x with target := v }
  | .newpid p v => s.modProc p fun x => { x with newpid := v }
  | .message p v => s.modProc p fun x => { x with message := v }
  | .nextpid v => { s with nextpid := v }
  | .data f => { s with data := f s.data }

end Write

/-! ## What the outside world does -/

/-- The devices that interrupt. -/
inductive Dev
  | timer
  | uart (c : I32)
  | disk (k : Nat)
  deriving DecidableEq

/-- The system calls, with their arguments. -/
inductive Syscall
  | fork
  | forkn (n : I32) (pidsAddr : U64)
  | exit (status : I32)
  | exitNum (status : I32)
  | exitmsg (msgAddr : U64)
  | wait (statusAddr msgAddr : U64)
  | waitall (nAddr statusesAddr : U64)
  | kill (pid : I32)
  | sleep (n : I32)
  | sbrk (n : I32)
  | pipe (fdarray : U64)
  | dup (fd : I32)
  | read (fd : I32) (addr : U64) (n : I32)
  | write (fd : I32) (addr : U64) (n : I32)
  | close (fd : I32)
  | open (device : Bool)
  | other

/-- What makes a process leave user mode, or what it does there. -/
inductive UserEvent
  | syscall (call : Syscall)
  | store (va : U64) (b : Byte)
  | fault
  | intr (d : Dev)

/-- What a file-system call does next that other processes can notice. -/
inductive FsAct
  | sleep (lk chan : Nat)
  | wakeup (lk chan : Nat)
  | done (r : I32)

/-- The answers of the outside world. -/
inductive Input
  | user (e : UserEvent)
  | intr (d : Option Dev)
  | fs (a : FsAct)

/-! ## Marked places -/

/-- A status that `waitall` has collected, and of whom. -/
structure Report where
  pid : I32
  status : I32
  ended : Option Termination
  deriving DecidableEq

/-- A place in the code that statements refer to. -/
inductive Event
  /-- `wait` returns `pid` after it has stored `xstate` at `addr`. -/
  | waitReturns (pid : I32) (xstate : I32) (ended : Option Termination)
  /-- `waitall` begins a round with `count` statuses out of `n`. -/
  | scan (n : I32) (count : Nat)
  /-- `waitall` stores the status of `pp` at `local_statuses[count]`. -/
  | collect (pp : Slot) (count : Nat)
  /-- `waitall` stores `count` statuses at the address that it was given. -/
  | copyStatuses (n : I32) (count : Nat)
  /-- `waitall` returns 0. -/
  | waitallReturns (n : I32) (reports : List Report)
  /-- `waitall` returns `r`. -/
  | waitallEnds (r : I32)
  /-- `wait` has found an exited child, `pid`. -/
  | found (pid : I32)
  /-- `wait` has stored the exit message of a child at the address for it. -/
  | messageStored (ended : Option Termination) (message : Option (List Byte)) (stored : List Byte)
  /-- `wait` returns `r`. -/
  | waitEnds (r : I32)
  /-- `forkn` has returned `result`, and its array has been stored at the
  address for it or not. -/
  | forknEnds (pidsAddr : U64) (result : I32) (pids : List I32) (copied : Bool)
  /-- `exitmsg` returns, after it has got the string or has not. -/
  | exitmsgReturns (got : Option Unit)
  /-- `kill(pid)` begins. -/
  | kills (pid : I32)
  /-- `allocproc` returns `p`. -/
  | allocated (p : Slot)
  /-- `freeproc(p)` begins. -/
  | frees (p : Slot)
  deriving DecidableEq

/-! ## Operations -/

inductive Op : Type → Type 1
  | lock (l : Lock) : Op Unit
  | unlock (l : Lock) : Op Unit
  | read {β : Type} (f : Cpu → Kernel → β) : Op β
  | cpu {β : Type} (f : CpuState → β × CpuState) : Op β
  | write (w : Write) : Op Unit
  | context (p : Slot) : Op Unit
  | swtch (p : Option Slot) : Op Unit
  | vm {β : Type} (f : Vm β) : Op (Except String β)
  | input : Op Input
  | note (e : Event) : Op Unit
  | panic {β : Type} (msg : String) : Op β

/-- Kernel code. -/
abbrev Code := Prog Op

/-- One operation on processor `c`.  A lock that is held, and a panic, make
the thread wait forever. -/
def exec {β : Type} (c : Cpu) (i : Input) (s : Kernel) : Op β → Option (β × Kernel)
  | .lock l =>
    match s.locked l with
    | none => some ((), s.setLocked l (some c))
    | some _ => none
  | .unlock l => some ((), s.setLocked l none)
  | .read f => some (f c s, s)
  | .cpu f => some ((f (s.cpu c)).1, s.modCpu c fun x => (f x).2)
  | .write w => some ((), w.apply s)
  | .context _ => some ((), s)
  | .swtch p => some ((), s.setCurrent c p)
  | .vm f =>
    match f s.mem with
    | .ok (b, m) => some (.ok b, { s with mem := m })
    | .error msg => some (.error msg, s)
  | .input => some (i, s)
  | .note _ => some ((), s)
  | .panic _ => none

/-! ## Operations as code -/

def read {β : Type} (f : Kernel → β) : Code β := .perform (.read fun _ s => f s)

def write (w : Write) : Code Unit := .perform (.write w)

def note (e : Event) : Code Unit := .perform (.note e)

def input : Code Input := .perform .input

/-- `panic(msg)`. -/
def panic {β : Type} (msg : String) : Code β := .perform (.panic msg)

/-- Call a function of `vm.c` or `kalloc.c`. -/
def vm {β : Type} (f : Vm β) : Code β := do
  match ← .perform (.vm f) with
  | .ok b => return b
  | .error msg => panic msg

end Xv6
