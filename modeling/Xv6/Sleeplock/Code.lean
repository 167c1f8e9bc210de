import Xv6.Conc.Machine
import Xv6.Proc.State

/-!
# One sleep-lock

`kernel/sleeplock.c` from the point of view of one lock and the processes that
use it, with `sleep`, `wakeup` and `kill` of `kernel/proc.c`.  An operation is
one access to the lock or to a process.  Where a process goes on is up to the
scheduler: `swtch` is `sched` up to the release of `p->lock` in `scheduler`,
and `resume` is the choice of a runnable process there, with which it has
`p->lock` again.
-/

namespace Xv6.Sleeplock

open Conc

/-- The process table: every process has a place there and a pid of its own. -/
structure Procs (P : Type) where
  table : List P
  pid : P → I32
  complete : ∀ p, p ∈ table
  distinct : Function.Injective pid

variable (P : Type)

/-- The spinlocks: `lk->lk` and the lock of each process. -/
inductive Lock
  | lk
  | proc (p : P)
  deriving DecidableEq

/-- The lock and its processes; `chan p` says that `p->chan` is `lk`.  The last
three fields are history: who has set `locked`, who is between its calls of
`acquiresleep` and `releasesleep`, and who has given up `lk->lk` in `sleep` and
has not been woken up yet. -/
structure State where
  locked : I32
  pid : I32
  spin : Lock P → Option P
  state : P → ProcState
  chan : P → Bool
  killed : P → Bool
  owner : Option P
  inside : P → Bool
  waits : P → Bool

/-- What a process may be asked to do. -/
inductive Call
  | acquire
  | release
  | holding
  | kill (pid : I32)

/-- The answers of the outside world: the next call, if any. -/
abbrev Input := Option Call

inductive Op : Type → Type 1
  | acquire (l : Lock P) : Op Unit
  | release (l : Lock P) : Op Unit
  /-- `release(lk)` in `sleep`. -/
  | giveUp : Op Unit
  | setChan (b : Bool) : Op Unit
  /-- `p->state = SLEEPING`. -/
  | fallAsleep : Op Unit
  | swtch : Op Unit
  | resume : Op Unit
  /-- `q->state = RUNNABLE`. -/
  | wake (q : P) : Op Unit
  | kill (q : P) : Op Unit
  | read {β : Type} (f : State P → β) : Op β
  | myproc : Op P
  | setLocked (v : I32) : Op Unit
  | setPid (v : I32) : Op Unit
  /-- `acquiresleep` returns. -/
  | enter : Op Unit
  /-- `releasesleep` is called. -/
  | leave : Op Unit
  /-- `holdingsleep` returns `r`. -/
  | answer (r : Bool) : Op Unit
  | next : Op (Option Call)

abbrev Code := Prog (Op P)

variable {P} [DecidableEq P]

open Function (update) in
/-- One operation of process `p`. -/
def exec {β : Type} (p : P) (i : Input) (s : State P) : Op P β → Option (β × State P)
  | .acquire l =>
    if s.spin l = none then some ((), { s with spin := update s.spin l (some p) }) else none
  | .release l => some ((), { s with spin := update s.spin l none })
  | .giveUp => some ((), { s with
      spin := update s.spin .lk none, waits := update s.waits p true })
  | .setChan b => some ((), { s with chan := update s.chan p b })
  | .fallAsleep => some ((), { s with state := update s.state p .sleeping })
  | .swtch => some ((), { s with spin := update s.spin (.proc p) none })
  | .resume =>
    if s.spin (.proc p) = none ∧ s.state p = .runnable then
      some ((), { s with
        spin := update s.spin (.proc p) (some p), state := update s.state p .running })
    else none
  | .wake q => some ((), { s with
      state := update s.state q .runnable, waits := update s.waits q false })
  | .kill q => some ((), { s with killed := update s.killed q true })
  | .read f => some (f s, s)
  | .myproc => some (p, s)
  | .setLocked v => some ((), { s with
      locked := v, owner := if v = 0 then none else some p })
  | .setPid v => some ((), { s with pid := v })
  | .enter => some ((), { s with inside := update s.inside p true })
  | .leave => some ((), { s with inside := update s.inside p false })
  | .answer _ => some ((), s)
  | .next => some (i, s)

/-! ## The code -/

def acquire (l : Lock P) : Code P Unit := .perform (.acquire l)

def release (l : Lock P) : Code P Unit := .perform (.release l)

def read {β : Type} (f : State P → β) : Code P β := .perform (.read f)

/-- `sleep(lk, &lk->lk)`. -/
def sleep : Code P Unit := do
  let p ← .perform .myproc
  acquire (.proc p)
  .perform .giveUp
  -- Go to sleep.
  .perform (.setChan true)
  .perform .fallAsleep
  .perform .swtch
  .perform .resume
  -- Tidy up.
  .perform (.setChan false)
  -- Reacquire original lock.
  release (.proc p)
  acquire .lk

/-- The turn of `wakeup(lk)` for one process. -/
def wakeOne (q : P) : Code P Unit := do
  let p ← .perform .myproc
  if q ≠ p then
    acquire (.proc q)
    let state ← read fun s => s.state q
    let chan ← read fun s => s.chan q
    if state = .sleeping ∧ chan = true then
      .perform (.wake q)
      release (.proc q)
    else
      release (.proc q)
  else
    return ()

variable (procs : Procs P)

/-- `wakeup(lk)`. -/
def wakeup : Code P Unit := Prog.foldM (fun () q => wakeOne q) () procs.table

def kill (pid : I32) : Code P I32 := do
  let found ← Prog.findM? (fun q => do
    acquire (.proc q)
    if procs.pid q = pid then
      .perform (.kill q)
      let state ← read fun s => s.state q
      if state = .sleeping then
        -- Wake process from sleep().
        .perform (.wake q)
        release (.proc q)
        return some ()
      else
        release (.proc q)
        return some ()
    else
      release (.proc q)
      return none) procs.table
  return if found.isSome then 0 else -1

def acquiresleep : Code P Unit := do
  acquire .lk
  Prog.loop (fun () => do
    let locked ← read State.locked
    if locked ≠ 0 then
      sleep
      return .inl ()
    else
      return .inr ()) ()
  .perform (.setLocked 1)
  let p ← .perform .myproc
  .perform (.setPid (procs.pid p))
  release .lk

def releasesleep : Code P Unit := do
  acquire .lk
  .perform (.setLocked 0)
  .perform (.setPid 0)
  wakeup procs
  release .lk

def holdingsleep : Code P Bool := do
  acquire .lk
  let locked ← read State.locked
  if locked ≠ 0 then
    let pid ← read State.pid
    let p ← .perform .myproc
    release .lk
    return decide (pid = procs.pid p)
  else
    release .lk
    return false

/-- One call.  A process releases the lock only when it has acquired it. -/
def call : Code P Unit := do
  match ← .perform .next with
  | none => return ()
  | some .acquire =>
    acquiresleep procs
    .perform .enter
  | some .release =>
    let p ← .perform .myproc
    if ← read fun s => s.inside p then
      .perform .leave
      releasesleep procs
    else
      return ()
  | some .holding =>
    let r ← holdingsleep procs
    .perform (.answer r)
  | some (.kill pid) => let _ ← kill procs pid

/-- A process makes one call after the other. -/
def main : Code P Empty := Prog.forever (call procs)

def machine : Machine (Op P) (State P) P P Input where
  running _ p := p
  exec := exec
  restarts _ := none
  main _ := main procs

/-- The lock after `initsleeplock`. -/
def State.new : State P where
  locked := 0
  pid := 0
  spin _ := none
  state _ := .running
  chan _ := false
  killed _ := false
  owner := none
  inside _ := false
  waits _ := false

/-- The processes at the beginning. -/
def start : Config (Op P) (State P) P := ⟨.new, fun _ => main procs⟩

end Xv6.Sleeplock
