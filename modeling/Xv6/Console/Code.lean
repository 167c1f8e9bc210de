import Xv6.Conc.Machine
import Xv6.Console.Line

/-!
# The console

`consoleintr` and `consoleread` of `kernel/console.c`, called by any number of
threads: processes that read, and interrupt handlers.  An operation is one
access to `cons`, to its lock or to a process; `intr` is the whole `switch` of
`consoleintr`, during which the lock is held.  `doze` releases the lock and
goes to sleep in one step, because `sleep` holds `p->lock` from before the
release, and `wakeup` takes the same lock.
-/

namespace Xv6.Console

open Conc

/-- What happens to the text. -/
inductive Event
  | typed (c : Byte)
  | took
  | back

/-- What the events make of the text. -/
def Editor.step (ed : Editor) : Event → Editor
  | .typed c => ed.type c
  | .took => ed.take
  | .back => { ed with taken := ed.taken - 1 }

def text (history : List Event) : Editor := history.foldl Editor.step ⟨[], 0, []⟩

/-- A call of `consoleread` with the characters that it has taken out of the
ring, and those that it has stored for its user. -/
structure Turn where
  n : I32
  taken : List Byte
  got : List Byte

/-- A call that has returned, and the character that was the next one then. -/
structure Ended extends Turn where
  r : I32
  next : Option Byte

/-- The character that the next reader finds. -/
def nextChar (cons : Cons) : Option Byte :=
  if cons.r = cons.w then none else some (cons.at cons.r)

variable (P : Type)

/-- The console and the threads that use it; `asleep` are those that sleep on
`&cons.r`, and `mapped` says where a reader's memory is.  The last four fields
are history: what has happened to the text, the characters that users have
got, the call that each thread makes, and the calls that have returned. -/
structure State where
  cons : Cons
  lock : Option P
  asleep : P → Bool
  killed : P → Bool
  mapped : P → U64 → Bool
  history : List Event
  delivered : List Byte
  turn : P → Turn
  ended : List Ended

/-- What a thread may be asked to do. -/
inductive Call
  | intr (c : Byte)
  | read (dst : U64) (n : I32)
  | kill (p : P)

/-- The answers of the outside world: the next call, if any. -/
abbrev Input := Option (Call P)

inductive Op : Type → Type 1
  | acquire : Op Unit
  | release : Op Unit
  /-- `release` at the end of a call that returns `r`. -/
  | finish (r : I32) : Op Unit
  | doze : Op Unit
  | awake : Op Unit
  | wakeup : Op Unit
  | kill (p : P) : Op Unit
  | killed : Op Bool
  | read {β : Type} (f : Cons → β) : Op β
  | intr (c : Byte) : Op Bool
  /-- `cons.buf[cons.r++ % INPUT_BUF_SIZE]`. -/
  | pop : Op Byte
  /-- `cons.r--`. -/
  | unread : Op Unit
  | copyout (dst : U64) (c : Byte) : Op (Option Unit)
  | next : Op (Option (Call P))

abbrev Code := Prog (Op P)

variable {P} [DecidableEq P]

open Function (update) in
/-- One operation of thread `p`. -/
def exec {β : Type} (p : P) (i : Input P) (s : State P) : Op P β → Option (β × State P)
  | .acquire => if s.lock = none then some ((), { s with lock := some p }) else none
  | .release => some ((), { s with lock := none })
  | .finish r => some ((), { s with
      lock := none, ended := s.ended ++ [⟨s.turn p, r, nextChar s.cons⟩] })
  | .doze => some ((), { s with lock := none, asleep := update s.asleep p true })
  | .awake => if s.asleep p = false then some ((), s) else none
  | .wakeup => some ((), { s with asleep := fun _ => false })
  | .kill q => some ((), { s with
      killed := update s.killed q true, asleep := update s.asleep q false })
  | .killed => some (s.killed p, s)
  | .read f => some (f s.cons, s)
  | .intr c => some ((s.cons.intr (c.setWidth 32)).2, { s with
      cons := (s.cons.intr (c.setWidth 32)).1, history := s.history ++ [.typed c] })
  | .pop => some (s.cons.at s.cons.r, { s with
      cons := { s.cons with r := s.cons.r + 1 }
      history := s.history ++ [.took]
      turn := update s.turn p
        { s.turn p with taken := (s.turn p).taken ++ [s.cons.at s.cons.r] } })
  | .unread => some ((), { s with
      cons := { s.cons with r := s.cons.r - 1 }
      history := s.history ++ [.back]
      turn := update s.turn p { s.turn p with taken := (s.turn p).taken.dropLast } })
  | .copyout dst c =>
    if s.mapped p dst then
      some (some (), { s with
        delivered := s.delivered ++ [c]
        turn := update s.turn p { s.turn p with got := (s.turn p).got ++ [c] } })
    else some (none, s)
  | .next =>
    match i with
    | some (.read dst n) =>
      some (some (.read dst n), { s with turn := update s.turn p ⟨n, [], []⟩ })
    | i => some (i, s)

/-! ## The code -/

def acquire : Code P Unit := .perform .acquire

def release : Code P Unit := .perform .release

def wakeup : Code P Unit := .perform .wakeup

def read {β : Type} (f : Cons → β) : Code P β := .perform (.read f)

/-- `sleep(&cons.r, &cons.lock)`. -/
def sleep : Code P Unit := do
  .perform .doze
  .perform .awake
  acquire

def consoleintr (c : Byte) : Code P Unit := do
  acquire
  if ← .perform (.intr c) then
    -- wake up consoleread() if a whole line (or end-of-file) has arrived.
    wakeup
    release
  else
    release

/-- One turn of the loop of `consoleread`. -/
def readTurn (target : I32) (dst : U64) (n : I32) : Code P (U64 × I32 ⊕ Option I32) := do
  if ¬ n.toInt > 0 then
    return .inr (some n)
  else if ← read fun x => decide (x.r = x.w) then
    -- wait until interrupt handler has put some input into cons.buffer.
    if ← .perform .killed then
      release
      return .inr none
    else
      sleep
      return .inl (dst, n)
  else
    let c ← .perform .pop
    if c.setWidth 32 = C 'D' then -- end-of-file
      if n < target then
        -- Save ^D for next time, to make sure caller gets a 0-byte result.
        .perform .unread
        return .inr (some n)
      else
        return .inr (some n)
    else
      match ← .perform (.copyout dst c) with
      | none => return .inr (some n)
      | some () =>
        if c = 10 then
          -- a whole line has arrived, return to the user-level read().
          return .inr (some (n - 1))
        else
          return .inl (dst + 1, n - 1)

def consoleread (dst : U64) (n : I32) : Code P I32 := do
  acquire
  match ← Prog.loop (fun x => readTurn n x.1 x.2) (dst, n) with
  | none => return -1
  | some m =>
    .perform (.finish (n - m))
    return n - m

/-- A thread makes one call after the other. -/
def main : Code P Empty := Prog.forever do
  match ← .perform .next with
  | none => return ()
  | some (.intr c) => consoleintr c
  | some (.read dst n) => let _ ← consoleread dst n
  | some (.kill q) => .perform (.kill q)

def machine (P : Type) [DecidableEq P] : Machine (Op P) (State P) P P (Input P) where
  running _ p := p
  exec := exec
  restarts _ := none
  main _ := main

/-- The console before the first character, with its indices anywhere. -/
def State.new (buf : Fin INPUT_BUF_SIZE → Byte) (i : I32) (mapped : P → U64 → Bool) : State P where
  cons := ⟨buf, i, i, i⟩
  lock := none
  asleep _ := false
  killed _ := false
  mapped := mapped
  history := []
  delivered := []
  turn _ := ⟨0, [], []⟩
  ended := []

/-- The threads at the beginning. -/
def start (buf : Fin INPUT_BUF_SIZE → Byte) (i : I32) (mapped : P → U64 → Bool) :
    Config (Op P) (State P) P := ⟨.new buf i mapped, fun _ => main⟩

end Xv6.Console
