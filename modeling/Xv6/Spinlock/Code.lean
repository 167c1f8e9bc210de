import Xv6.Conc.Machine
import Xv6.Proc.State

/-!
# Interrupts and spinlocks

`kernel/spinlock.c` with the switches between threads of `kernel/proc.c`, for
any numbers of processors, processes and locks.  The threads are the
schedulers of the processors and the processes, and what a process does
between its calls is up to it.  An interrupt may be taken wherever interrupts
can be on: `trap` stands at those places, and its handler may acquire locks
and yield like anybody else.
-/

namespace Xv6.Spinlock

open Conc

variable (C P L : Type)

/-- The lock of a process, or another one. -/
inductive Lock
  | proc (p : P)
  | other (l : L)
  deriving DecidableEq

/-- The threads: processes, and the loop of `scheduler` on each processor. -/
inductive Tid
  | proc (p : P)
  | sched (c : C)
  deriving DecidableEq

/-- `struct cpu`, less the process, and whether interrupts are on. -/
structure Cpu where
  noff : Int
  intena : Bool
  intr : Bool

/-- The processors, the locks with the processors that hold them, and the
states of the processes; `current c` is `c->proc`.  The last three fields are
history: the locks that a thread holds, whether interrupts were on when it
acquired the first of them, and whether a process has never run. -/
structure State where
  cpu : C → Cpu
  current : C → Option P
  locked : Lock P L → Option C
  state : P → ProcState
  held : Tid C P → List (Lock P L)
  base : Tid C P → Bool
  fresh : P → Bool

/-- What a thread may be asked to do. -/
inductive Work
  | acquire (l : Lock P L)
  | release (l : Lock P L)
  | wake (q : P)
  | yield
  | sleep (l : Lock P L)

/-- ... outside of interrupts. -/
inductive Call
  | work (w : Work P L)
  | intrOn
  | intrOff

/-- The answers of the outside world: the next call, or an interrupt. -/
inductive Input
  | call (c : Call P L)
  | irq
  | none

inductive Op : Type → Type 1
  | read {β : Type} (f : Cpu → β) : Op β
  /-- An interrupt is taken, if there is one. -/
  | irq : Op Bool
  | intrOn : Op Unit
  | intrOff : Op Unit
  | setIntena (b : Bool) : Op Unit
  /-- `mycpu()->noff += k`. -/
  | addNoff (k : Int) : Op Unit
  | proc : Op (Option P)
  | holding (l : Lock P L) : Op Bool
  | lock (l : Lock P L) : Op Unit
  | unlock (l : Lock P L) : Op Unit
  /-- `release` returns. -/
  | released : Op Unit
  | state (q : P) : Op ProcState
  | setState (q : P) (st : ProcState) : Op Unit
  /-- `p->state = RUNNING; c->proc = p; swtch(&c->context, &p->context)`. -/
  | swtchTo (p : P) : Op Unit
  /-- `swtch(&p->context, &mycpu()->context)`, and `c->proc = 0`. -/
  | swtch : Op Unit
  | held : Op (List (Lock P L))
  | next : Op (Option (Call P L))
  | panic {β : Type} (msg : String) : Op β

abbrev Code := Prog (Op P L)

variable {C P L}

/-- The thread that a processor runs. -/
def running (s : State C P L) (c : C) : Tid C P :=
  match s.current c with
  | some p => .proc p
  | none => .sched c

variable [DecidableEq C] [DecidableEq P] [DecidableEq L]

open Function (update)

def State.setCpu (s : State C P L) (c : C) (x : Cpu) : State C P L :=
  { s with cpu := update s.cpu c x }

/-- One operation of processor `c`. -/
def exec {β : Type} (c : C) (i : Input P L) (s : State C P L) :
    Op P L β → Option (β × State C P L)
  | .read f => some (f (s.cpu c), s)
  | .irq =>
    match i with
    | .irq =>
      if (s.cpu c).intr then some (true, s.setCpu c { s.cpu c with intr := false })
      else some (false, s)
    | _ => some (false, s)
  | .intrOn => some ((), s.setCpu c { s.cpu c with intr := true })
  | .intrOff => some ((), { s.setCpu c { s.cpu c with intr := false } with
      base := if s.held (running s c) = [] then update s.base (running s c) (s.cpu c).intr
        else s.base })
  | .setIntena b => some ((), s.setCpu c { s.cpu c with intena := b })
  | .addNoff k => some ((), s.setCpu c { s.cpu c with noff := (s.cpu c).noff + k })
  | .proc => some (s.current c, s)
  | .holding l => some (decide (s.locked l = some c), s)
  | .lock l =>
    if s.locked l = none then
      some ((), { s with
        locked := update s.locked l (some c)
        held := update s.held (running s c) (l :: s.held (running s c)) })
    else none
  | .unlock l => some ((), { s with
      locked := update s.locked l none
      held := update s.held (running s c) ((s.held (running s c)).erase l) })
  | .released => some ((), s)
  | .state q => some (s.state q, s)
  | .setState q st => some ((), { s with state := update s.state q st })
  | .swtchTo p => some ((), { s with
      state := update s.state p .running
      current := update s.current c (some p)
      base := if s.fresh p then update s.base (.proc p) (s.base (running s c)) else s.base
      fresh := update s.fresh p false })
  | .swtch => some ((), { s with current := update s.current c none })
  | .held => some (s.held (running s c), s)
  | .next =>
    match i with
    | .call c => some (some c, s)
    | _ => some (none, s)
  | .panic _ => none

/-! ## The code -/

def panic {β : Type} (msg : String) : Code P L β := .perform (.panic msg)

def read {β : Type} (f : Cpu → β) : Code P L β := .perform (.read f)

/-- `if` without `else`. -/
def when (φ : Prop) [Decidable φ] (m : Code P L Unit) : Code P L Unit := if φ then m else .ret ()

/-- With interrupts off, nothing is taken. -/
def noTrap : Code P L Unit := .ret ()

section

variable (trap : Code P L Unit)

def pushOff : Code P L Unit := do
  trap
  let old ← read Cpu.intr
  trap
  .perform .intrOff
  let noff ← read Cpu.noff
  when (noff = 0) (.perform (.setIntena old))
  .perform (.addNoff 1)

def popOff : Code P L Unit := do
  let intr ← read Cpu.intr
  if intr then
    panic "pop_off - interruptible"
  else
    let noff ← read Cpu.noff
    if noff < 1 then
      panic "pop_off"
    else
      .perform (.addNoff (-1))
      let on ← read fun x => decide (x.noff = 0) && x.intena
      when (on = true) (.perform .intrOn)

/-- Acquire the lock.  Loops (spins) until the lock is acquired. -/
def acquire (l : Lock P L) : Code P L Unit := do
  pushOff trap -- disable interrupts to avoid deadlock.
  let holding ← .perform (.holding l)
  if holding then
    panic "acquire"
  else
    .perform (.lock l)

def release (l : Lock P L) : Code P L Unit := do
  let holding ← .perform (.holding l)
  if holding then
    .perform (.unlock l)
    popOff
    .perform .released
  else
    panic "release"

def myproc : Code P L (Option P) := do
  pushOff trap
  let p ← .perform .proc
  popOff
  return p

/-- `myproc()`, where the source follows the pointer. -/
def thisproc : Code P L P := do
  match ← myproc trap with
  | some p => return p
  | none => panic "myproc: no process"

/-- Switch to scheduler.  Saves and restores intena because intena is a
property of this kernel thread, not this CPU. -/
def sched : Code P L Unit := do
  let p ← thisproc noTrap
  let holding ← .perform (.holding (.proc p))
  if holding then
    let noff ← read Cpu.noff
    if noff ≠ 1 then
      panic "sched locks"
    else
      let state ← .perform (.state p)
      if state = .running then
        panic "sched running"
      else
        let intr ← read Cpu.intr
        if intr then
          panic "sched interruptible"
        else
          let intena ← read Cpu.intena
          .perform .swtch
          .perform (.setIntena intena)
  else
    panic "sched p->lock"

/-- Give up the CPU for one scheduling round. -/
def yield : Code P L Unit := do
  let p ← thisproc trap
  acquire trap (.proc p)
  .perform (.setState p .runnable)
  sched
  release (.proc p)

/-- Atomically release lock and sleep.  Reacquires lock when awakened. -/
def sleep (p : P) (l : Lock P L) : Code P L Unit := do
  acquire noTrap (.proc p)
  release l
  -- Go to sleep.
  .perform (.setState p .sleeping)
  sched
  -- Reacquire original lock.
  release (.proc p)
  acquire trap l

/-- What `wakeup` and `kill` do for one process. -/
def wake (q : P) : Code P L Unit := do
  acquire trap (.proc q)
  let state ← .perform (.state q)
  when (state = .sleeping) (.perform (.setState q .runnable))
  release (.proc q)

/-- One piece of work.  Locks are paired, a process yields with no lock and
goes to sleep with one. -/
def work : Work P L → Code P L Unit
  | .acquire l => acquire trap l
  | .release l => do
    let held ← .perform .held
    when (l ∈ held) (release l)
  | .wake q => wake trap q
  | .yield => do
    let held ← .perform .held
    if held = [] then
      match ← myproc trap with
      | some _ => yield trap
      | none => return ()
    else
      return ()
  | .sleep l => do
    let held ← .perform .held
    if held = [l] then
      match ← myproc noTrap with
      | some p => when (l ≠ .proc p) (sleep trap p l)
      | none => return ()
    else
      return ()

end

/-- The handler of interrupts in the kernel: what devices need, and then it
may give the CPU up. -/
def kerneltrap : Code P L Unit := Prog.loop (fun () => do
  match ← .perform .next with
  | some (.work w) =>
    work noTrap w
    return .inl ()
  | _ =>
    let held ← .perform .held
    if held = [] then
      return .inr ()
    else
      return .inl ()) ()

/-- The interrupts that are taken here. -/
def trap : Code P L Unit := Prog.loop (fun () => do
  let taken ← .perform .irq
  if taken then
    kerneltrap
    .perform .intrOn -- sret
    return .inl ()
  else
    return .inr ()) ()

/-- One call of a process. -/
def call : Code P L Unit := do
  trap
  match ← .perform .next with
  | some (.work w) => work trap w
  | some .intrOn =>
    let held ← .perform .held
    when (held = []) (.perform .intrOn)
  | some .intrOff =>
    let held ← .perform .held
    when (held = []) (.perform .intrOff)
  | none => return ()

/-- A process, from `forkret` on. -/
def process : Code P L Empty := do
  -- Still holding p->lock from scheduler.
  let p ← thisproc noTrap
  release (.proc p)
  Prog.forever call

/-- The turn of `scheduler` for one process. -/
def schedule (p : P) : Code P L Unit := do
  acquire trap (.proc p)
  let state ← .perform (.state p)
  when (state = .runnable) (.perform (.swtchTo p))
  release (.proc p)

def scheduler (table : List P) : Code P L Empty := Prog.forever do
  -- Avoid deadlock by ensuring that devices can interrupt.
  .perform .intrOn
  Prog.foldM (fun () p => schedule p) () table

def main (table : List P) : Tid C P → Code P L Empty
  | .proc _ => process
  | .sched _ => scheduler table

def machine (C P L : Type) [DecidableEq C] [DecidableEq P] [DecidableEq L] (table : List P) :
    Machine (Op P L) (State C P L) C (Tid C P) (Input P L) where
  running := running
  exec := exec
  restarts _ := none
  main := main table

/-- The machine when every processor enters `scheduler`: no process has run,
and the scheduler that will run it first has its lock for it. -/
def State.new (intena intr : C → Bool) (state : P → ProcState) : State C P L where
  cpu c := ⟨0, intena c, intr c⟩
  current _ := none
  locked _ := none
  state := state
  held t :=
    match t with
    | .proc p => [.proc p]
    | .sched _ => []
  base _ := false
  fresh _ := true

def start (intena intr : C → Bool) (state : P → ProcState) (table : List P) :
    Config (Op P L) (State C P L) (Tid C P) := ⟨.new intena intr state, main table⟩

end Xv6.Spinlock
