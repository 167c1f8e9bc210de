import Xv6.Conc.Machine
import Xv6.Log.Disk

/-!
# Operations of the log

`begin_op`, `log_write` and `end_op` of `kernel/log.c`, called by any number
of processes.  An operation is one access to `struct log`, to its lock or to a
buffer; during `commit` the accesses to the header do without the lock.
`doze` releases the lock and goes to sleep in one step, because `sleep` holds
`p->lock` from before the release, and `wakeup` takes the same lock.
-/

namespace Xv6.LogOps

open Conc Log

/-- `struct logheader`. -/
structure Header where
  n : Nat
  block : Nat → BlockNo

/-- `struct log`, less its lock and `dev`. -/
structure Vars where
  start : Int
  size : Int
  outstanding : Int
  committing : Bool
  lh : Header

variable (P : Type)

/-- The log and the processes that use it; `asleep` are those that sleep on
`&log`.  The last two fields are history: who has returned from `begin_op` and
not yet come to `end_op`, once for each operation, and who commits. -/
structure State where
  log : Vars
  lock : Option P
  asleep : P → Bool
  active : List P
  committer : Option P

/-- What a process may be asked to do. -/
inductive Call
  | op
  | write (b : BlockNo)
  | kill (p : P)

/-- The answers of the outside world: the next call, if any. -/
abbrev Input := Option (Call P)

inductive Op : Type → Type 1
  | acquire : Op Unit
  | release : Op Unit
  | doze : Op Unit
  | awake : Op Unit
  | wakeup : Op Unit
  | kill (p : P) : Op Unit
  | read {β : Type} (f : Vars → β) : Op β
  /-- `log.outstanding += 1`. -/
  | reserve : Op Unit
  /-- `log.outstanding -= 1`. -/
  | unreserve : Op Unit
  /-- `log.committing = b`. -/
  | commits (b : Bool) : Op Unit
  | setBlock (i : Nat) (b : BlockNo) : Op Unit
  /-- `log.lh.n++`. -/
  | push : Op Unit
  /-- `log.lh.n = 0`. -/
  | clear : Op Unit
  | bpin (b : BlockNo) : Op Unit
  | bread (b : BlockNo) : Op Unit
  | bwrite (b : BlockNo) : Op Unit
  | bunpin (b : BlockNo) : Op Unit
  | brelse (b : BlockNo) : Op Unit
  | next : Op (Option (Call P))
  | panic (msg : String) : Op Unit

abbrev Code := Prog (Op P)

variable {P} [DecidableEq P]

open Function (update) in
/-- One operation of process `p`. -/
def exec {β : Type} (p : P) (i : Input P) (s : State P) : Op P β → Option (β × State P)
  | .acquire => if s.lock = none then some ((), { s with lock := some p }) else none
  | .release => some ((), { s with lock := none })
  | .doze => some ((), { s with lock := none, asleep := update s.asleep p true })
  | .awake => if s.asleep p = false then some ((), s) else none
  | .wakeup => some ((), { s with asleep := fun _ => false })
  | .kill q => some ((), { s with asleep := update s.asleep q false })
  | .read f => some (f s.log, s)
  | .reserve => some ((), { s with
      log := { s.log with outstanding := s.log.outstanding + 1 }, active := p :: s.active })
  | .unreserve => some ((), { s with
      log := { s.log with outstanding := s.log.outstanding - 1 }, active := s.active.erase p })
  | .commits b => some ((), { s with
      log := { s.log with committing := b }, committer := if b then some p else none })
  | .setBlock i b => some ((), { s with
      log := { s.log with lh := { s.log.lh with block := update s.log.lh.block i b } } })
  | .push => some ((), { s with
      log := { s.log with lh := { s.log.lh with n := s.log.lh.n + 1 } } })
  | .clear => some ((), { s with log := { s.log with lh := { s.log.lh with n := 0 } } })
  | .bpin _ | .bread _ | .bwrite _ | .bunpin _ | .brelse _ => some ((), s)
  | .next => some (i, s)
  | .panic _ => none

/-! ## The code -/

def acquire : Code P Unit := .perform .acquire

def release : Code P Unit := .perform .release

def wakeup : Code P Unit := .perform .wakeup

def read {β : Type} (f : Vars → β) : Code P β := .perform (.read f)

def panic (msg : String) : Code P Unit := .perform (.panic msg)

def bread (b : BlockNo) : Code P Unit := .perform (.bread b)

def bwrite (b : BlockNo) : Code P Unit := .perform (.bwrite b)

def brelse (b : BlockNo) : Code P Unit := .perform (.brelse b)

/-- `sleep(&log, &log.lock)`. -/
def sleep : Code P Unit := do
  .perform .doze
  .perform .awake
  acquire

def beginOp : Code P Unit := do
  acquire
  Prog.loop (fun () => do
    if ← read Vars.committing then
      sleep
      return .inl ()
    else
      let n ← read fun l => l.lh.n
      let outstanding ← read Vars.outstanding
      if (n : Int) + (outstanding + 1) * MAXOPBLOCKS > LOGSIZE then
        -- this op might exhaust log space; wait for commit.
        sleep
        return .inl ()
      else
        .perform .reserve
        release
        return .inr ()) ()

/-- The number of a log block. -/
def logBlock (start : Int) (tail : Nat) : BlockNo := BitVec.ofInt 32 (start + tail + 1)

/-- `for (tail = 0; tail < log.lh.n; tail++)`. -/
def forTail (body : Nat → Code P Unit) : Code P Unit :=
  Prog.loop (fun tail : Nat => do
    let n ← read fun l => l.lh.n
    if tail < n then
      body tail
      return .inl (tail + 1)
    else
      return .inr ()) 0

/-- Copy modified blocks from cache to log. -/
def writeLog : Code P Unit := forTail fun tail => do
  let start ← read Vars.start
  bread (logBlock start tail)
  let b ← read fun l => l.lh.block tail
  bread b
  bwrite (logBlock start tail)
  brelse b
  brelse (logBlock start tail)

/-- Write in-memory log header to disk. -/
def writeHead : Code P Unit := do
  let start ← read Vars.start
  bread (BitVec.ofInt 32 start)
  let _ ← read fun l => l.lh.n
  forTail fun i => do
    let _ ← read fun l => l.lh.block i
  bwrite (BitVec.ofInt 32 start)
  brelse (BitVec.ofInt 32 start)

/-- Copy committed blocks from log to their home location. -/
def installTrans : Code P Unit := forTail fun tail => do
  let start ← read Vars.start
  bread (logBlock start tail)
  let b ← read fun l => l.lh.block tail
  bread b
  bwrite b
  .perform (.bunpin b)
  brelse (logBlock start tail)
  brelse b

def commit : Code P Unit := do
  let n ← read fun l => l.lh.n
  if n > 0 then
    writeLog -- Write modified blocks from cache to log
    writeHead -- Write header to disk -- the real commit
    installTrans -- Now install writes to home locations
    .perform .clear
    writeHead -- Erase the transaction from the log
  else
    return ()

def endOp : Code P Unit := do
  acquire
  .perform .unreserve
  if ← read Vars.committing then
    panic "log.committing"
  else
    let outstanding ← read Vars.outstanding
    if outstanding = 0 then
      .perform (.commits true)
      release
      -- call commit w/o holding locks, since not allowed to sleep with locks.
      commit
      acquire
      .perform (.commits false)
      wakeup
      release
    else
      -- begin_op() may be waiting for log space, and decrementing
      -- log.outstanding has decreased the amount of reserved space.
      wakeup
      release

/-- The place of block `b` in the header, or the first free one. -/
def findBlock (b : BlockNo) : Code P Nat :=
  Prog.loop (fun i : Nat => do
    let n ← read fun l => l.lh.n
    if i < n then
      let b' ← read fun l => l.lh.block i
      if b' = b then -- log absorption
        return .inr i
      else
        return .inl (i + 1)
    else
      return .inr i) 0

def logWrite (b : BlockNo) : Code P Unit := do
  acquire
  let n ← read fun l => l.lh.n
  let size ← read Vars.size
  if n ≥ LOGSIZE ∨ (n : Int) ≥ size - 1 then
    panic "too big a transaction"
  else
    let outstanding ← read Vars.outstanding
    if outstanding < 1 then
      panic "log_write outside of trans"
    else
      let i ← findBlock b
      .perform (.setBlock i b)
      let n ← read fun l => l.lh.n
      if i = n then -- Add new block to log?
        .perform (.bpin b)
        .perform .push
        release
      else
        release

/-- One operation: calls of `log_write` between `begin_op` and `end_op`. -/
def fsOp : Code P Unit := do
  beginOp
  Prog.loop (fun () => do
    match ← .perform .next with
    | some (.write b) =>
      logWrite b
      return .inl ()
    | _ => return .inr ()) ()
  endOp

/-- A process makes one call after the other.  A `log_write` outside of any
operation of its own is allowed too. -/
def main : Code P Empty := Prog.forever do
  match ← .perform .next with
  | none => return ()
  | some .op => fsOp
  | some (.write b) => logWrite b
  | some (.kill q) => .perform (.kill q)

def machine (P : Type) [DecidableEq P] : Machine (Op P) (State P) P P (Input P) where
  running _ p := p
  exec := exec
  restarts _ := none
  main _ := main

/-- The log after `initlog`. -/
def State.new (start size : Int) : State P where
  log := ⟨start, size, 0, false, 0, fun _ => 0⟩
  lock := none
  asleep _ := false
  active := []
  committer := none

/-- The processes at the beginning. -/
def start (logstart size : Int) : Config (Op P) (State P) P := ⟨.new logstart size, fun _ => main⟩

end Xv6.LogOps
