import Xv6.Proc.Files

/-!
# One pipe

`kernel/pipe.c` from the point of view of one pipe and the processes that
work on it, of which there may be any number.  An operation is one access to
the pipe or to a process.  Where a process sleeps the scheduler does not
matter: `doze` releases `pi->lock` and goes to sleep in one step, because
`sleep` holds `p->lock` from before the release, and `wakeup` takes the same
lock.
-/

namespace Xv6.Pipes

open Conc

/-- The channels of a pipe. -/
inductive Chan
  | nread | nwrite
  deriving DecidableEq

variable (P : Type)

/-- A pipe and its processes.  The last fields are history: the bytes put in
and taken out since the pipe was made, and whether a process has put one in
since it last took the lock or woke the readers. -/
structure State where
  pipe : Pipe
  lock : Option P
  killed : P → Bool
  asleep : P → Option Chan
  put : List Byte
  taken : List Byte
  fresh : P → Bool

/-- What a process may be asked to do. -/
inductive Call
  | write (addr : U64) (n : I32)
  | read (addr : U64) (n : I32)
  | close (writable : Bool)
  | kill (p : P)

/-- The answers of the outside world: the next call, and what is at an
address of user memory. -/
inductive Input
  | call (c : Call P)
  | byte (ch : Option Byte)
  | stored (r : Option Unit)
  | none

inductive Op : Type → Type 1
  | acquire : Op Unit
  | release : Op Unit
  | doze (chan : Chan) : Op Unit
  | awake : Op Unit
  | wakeup (chan : Chan) : Op Unit
  | kill (p : P) : Op Unit
  | killed : Op Bool
  | read {β : Type} (f : Pipe → β) : Op β
  | push (ch : Byte) : Op Unit
  | pop : Op Byte
  | close (writable : Bool) : Op Unit
  | copyin (srcva : U64) : Op (Option Byte)
  | copyout (dstva : U64) (ch : Byte) : Op (Option Unit)
  | next : Op (Option (Call P))

abbrev Code := Prog (Op P)

variable {P}

/-- The pipe after `pipeclose` has closed one end. -/
def Pipe.closed (x : Pipe) (writable : Bool) : Pipe :=
  if writable then { x with writeopen := false } else { x with readopen := false }

variable [DecidableEq P]

/-- One operation of process `p`. -/
def exec {β : Type} (p : P) (i : Input P) (s : State P) : Op P β → Option (β × State P)
  | .acquire =>
    match s.lock with
    | none => some ((), { s with lock := some p, fresh := Function.update s.fresh p false })
    | some _ => none
  | .release => some ((), { s with lock := none })
  | .doze chan =>
    some ((), { s with lock := none, asleep := Function.update s.asleep p (some chan) })
  | .awake => if s.asleep p = none then some ((), s) else none
  | .wakeup chan =>
    some ((), { s with
      asleep := fun q => if s.asleep q = some chan then none else s.asleep q
      fresh := if chan = .nread then Function.update s.fresh p false else s.fresh })
  | .kill q =>
    some ((), { s with
      killed := Function.update s.killed q true
      asleep := Function.update s.asleep q none })
  | .killed => some (s.killed p, s)
  | .read f => some (f s.pipe, s)
  | .push ch =>
    some ((), { s with
      pipe := s.pipe.push ch
      put := s.put ++ [ch]
      fresh := Function.update s.fresh p true })
  | .pop =>
    some (s.pipe.at s.pipe.nread, { s with
      pipe := { s.pipe with nread := s.pipe.nread + 1 }
      taken := s.taken ++ [s.pipe.at s.pipe.nread] })
  | .close writable => some ((), { s with pipe := Pipe.closed s.pipe writable })
  | .copyin _ =>
    match i with
    | .byte ch => some (ch, s)
    | _ => none
  | .copyout _ _ =>
    match i with
    | .stored r => some (r, s)
    | _ => none
  | .next =>
    match i with
    | .call c => some (some c, s)
    | _ => some (none, s)

/-! ## The code -/

def acquire : Code P Unit := .perform .acquire

def release : Code P Unit := .perform .release

def wakeup (chan : Chan) : Code P Unit := .perform (.wakeup chan)

/-- `sleep(chan, &pi->lock)`. -/
def sleep (chan : Chan) : Code P Unit := do
  .perform (.doze chan)
  .perform .awake
  acquire

def read {β : Type} (f : Pipe → β) : Code P β := .perform (.read f)

/-- Close one end.  The page of a pipe with both ends closed goes back to the
allocator: no process has a file for it any more. -/
def pipeclose (writable : Bool) : Code P Unit := do
  acquire
  .perform (.close writable)
  if writable then
    wakeup .nread
  else
    wakeup .nwrite
  release

def pipewrite (addr : U64) (n : I32) : Code P I32 := do
  acquire
  let r ← Prog.loop (fun i : Nat => do
    if ¬ (i : Int) < n.toInt then
      return .inr (some i)
    if !(← read fun x => x.readopen) then
      release
      return .inr none
    if ← .perform .killed then
      release
      return .inr none
    if ← read fun x => decide (x.nwrite = x.nread + BitVec.ofNat 32 PIPESIZE) then
      wakeup .nread
      sleep .nwrite
      return .inl i
    else
      match ← .perform (.copyin (addr + BitVec.ofNat 64 i)) with
      | none => return .inr (some i)
      | some ch =>
        .perform (.push ch)
        return .inl (i + 1)) 0
  match r with
  | none => return -1
  | some i =>
    wakeup .nread
    release
    return BitVec.ofNat 32 i

def piperead (addr : U64) (n : I32) : Code P I32 := do
  acquire
  let ready ← Prog.loop (fun () => do
    if !(← read fun x => decide (x.nread = x.nwrite) && x.writeopen) then
      return .inr true
    if ← .perform .killed then
      release
      return .inr false
    sleep .nread
    return .inl ()) ()
  if !ready then
    return -1
  let i ← Prog.loop (fun i : Nat => do
    if ¬ (i : Int) < n.toInt then
      return .inr i
    if ← read fun x => decide (x.nread = x.nwrite) then
      return .inr i
    let ch ← .perform .pop
    match ← .perform (.copyout (addr + BitVec.ofNat 64 i) ch) with
    | none => return .inr i
    | some () => return .inl (i + 1)) 0
  wakeup .nwrite
  release
  return BitVec.ofNat 32 i

/-- A process makes one call after the other. -/
def main : Code P Empty := Prog.forever do
  match ← .perform .next with
  | none => return ()
  | some (.write addr n) => let _ ← pipewrite addr n
  | some (.read addr n) => let _ ← piperead addr n
  | some (.close writable) => pipeclose writable
  | some (.kill q) => .perform (.kill q)

def machine (P : Type) [DecidableEq P] : Machine (Op P) (State P) P P (Input P) where
  running _ p := p
  exec := exec
  restarts _ := none
  main _ := main

/-- A new pipe. -/
def State.new (killed : P → Bool) : State P where
  pipe := Pipe.new
  lock := none
  killed := killed
  asleep _ := none
  put := []
  taken := []
  fresh _ := false

/-- The processes at the beginning. -/
def start (killed : P → Bool) : Config (Op P) (State P) P := ⟨.new killed, fun _ => main⟩

end Xv6.Pipes
