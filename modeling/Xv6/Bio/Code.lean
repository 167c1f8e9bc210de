import Xv6.Proc.State
import Xv6.Conc.Machine
import Xv6.Links.Circular

/-!
# The buffer cache

`kernel/bio.c` and the processes that use it.  One operation is a critical
section of `bcache.lock`, an operation on the sleep-lock of a buffer, or an
access to a buffer by the process that has it locked.  A process waits in
`acquiresleep` until the lock is free.
-/

namespace Xv6.Bio

open Conc
open Function (update)

abbrev NBUF : Nat := 30

instance neZero_NBUF : NeZero NBUF := ⟨by decide⟩

abbrev Buf := Fin NBUF

/-- A node of the list: a buffer, or `bcache.head`. -/
abbrev Node := Option Buf

/-- A device number and a block number. -/
abbrev Key := I32 × I32

/-- The buffer cache, over blocks with contents in `D`, and the disk.  The
last fields are history: the buffer that a process is about to lock or has
just unlocked, how often a buffer is pinned, what has been written to a block
since it has been cached, and when a buffer was last released. -/
structure State (D : Type) where
  next : Node → Node
  prev : Node → Node
  dev : Buf → I32
  blockno : Buf → I32
  valid : Buf → Bool
  refcnt : Buf → I32
  lock : Buf → Option Slot
  data : Buf → D
  disk : Key → D
  transit : Slot → Option Buf
  pins : Buf → Nat
  written : Key → Option D
  clock : Nat
  released : Buf → Nat

variable {D : Type}

namespace State

variable (s : State D)

def key (b : Buf) : Key := (s.dev b, s.blockno b)

/-- The latest contents of a block. -/
def contents (k : Key) : D := (s.written k).getD (s.disk k)

/-- Put a buffer at the head of the list. -/
def pushFront (b : Buf) : State D :=
  let s := { s with next := update s.next b (s.next none) }
  let s := { s with prev := update s.prev b none }
  let s := { s with prev := update s.prev (s.next none) b }
  { s with next := update s.next none b }

/-- Take a buffer out of the list. -/
def unlink (b : Buf) : State D :=
  let s := { s with prev := update s.prev (s.next b) (s.prev b) }
  { s with next := update s.next (s.prev b) (s.next b) }

end State

/-- `binit`: the buffers are put into the list one after the other. -/
def binit (s : State D) : State D :=
  (List.finRange NBUF).foldl State.pushFront
    { s with next := update s.next none none, prev := update s.prev none none }

/-- A test of buffers, on nodes. -/
def onBuf (f : Buf → Bool) (x : Node) : Bool := x.any f

/-- The critical section of `bget`: the buffer, if there is one. -/
def bget (p : Slot) (dev blockno : I32) (s : State D) : Option (Option Buf × State D) := do
  -- Is the block already cached?
  let found ← Links.walk s.next none
    (onBuf fun b => s.dev b = dev && s.blockno b = blockno) (NBUF + 1) (s.next none)
  match found.join with
  | some b =>
    return (some b, { s with
      refcnt := update s.refcnt b (s.refcnt b + 1)
      transit := update s.transit p (some b) })
  | none =>
    -- Not cached. Recycle the least recently used (LRU) unused buffer.
    let unused ← Links.walk s.prev none (onBuf fun b => s.refcnt b = 0) (NBUF + 1) (s.prev none)
    match unused.join with
    | some b =>
      return (some b, { s with
        dev := update s.dev b dev
        blockno := update s.blockno b blockno
        valid := update s.valid b false
        refcnt := update s.refcnt b 1
        transit := update s.transit p (some b)
        written := update s.written (s.key b) none })
    | none => return (none, s)

/-- The critical section of `brelse`. -/
def put (p : Slot) (b : Buf) (s : State D) : State D :=
  let s := { s with
    refcnt := update s.refcnt b (s.refcnt b - 1)
    transit := update s.transit p none
    clock := s.clock + 1
    released := update s.released b (s.clock + 1) }
  if s.refcnt b = 0 then
    -- no one is waiting for it.
    (s.unlink b).pushFront b
  else
    s

/-- What a process does with the cache. -/
inductive Call (D : Type)
  | read (dev blockno : I32)
  | store (b : Buf) (d : D)
  | write (b : Buf)
  | release (b : Buf)
  | pin (b : Buf)
  | unpin (b : Buf)

/-- The calls that are properly paired: a block of a device other than 0 is
read, a process uses the buffers that it has locked, and a pin is taken back
once.  No buffer has so many pins that its count wraps. -/
def Call.Proper (p : Slot) (s : State D) : Call D → Prop
  | .read dev _ => dev ≠ 0
  | .store b _ | .write b | .release b => s.lock b = some p
  | .pin b => s.lock b = some p ∧ s.pins b + NPROC + 2 < 2 ^ 32
  | .unpin b => s.lock b = some p ∧ s.pins b ≠ 0

instance (p : Slot) (s : State D) (c : Call D) : Decidable (c.Proper p s) := by
  cases c <;> unfold Call.Proper <;> infer_instance

variable (D) in
inductive Op : Type → Type 1
  | bget (dev blockno : I32) : Op (Option Buf)
  | acquiresleep (b : Buf) : Op Unit
  | releasesleep (b : Buf) : Op Unit
  | holdingsleep (b : Buf) : Op Bool
  | valid (b : Buf) : Op Bool
  /-- `virtio_disk_rw(b, 0)`. -/
  | load (b : Buf) : Op Unit
  | setValid (b : Buf) : Op Unit
  /-- `bread` returns. -/
  | got (dev blockno : I32) (b : Buf) : Op Unit
  | store (b : Buf) (d : D) : Op Unit
  /-- `virtio_disk_rw(b, 1)`. -/
  | flush (b : Buf) : Op Unit
  | put (b : Buf) : Op Unit
  | bpin (b : Buf) : Op Unit
  | bunpin (b : Buf) : Op Unit
  | panic {β : Type} (msg : String) : Op β
  | next : Op (Call D)

abbrev Code (D : Type) := Prog (Op D)

/-- One operation of process `p`.  What has to wait, and a panic, answers
`none`. -/
def exec {β : Type} (p : Slot) (i : Call D) (s : State D) : Op D β → Option (β × State D)
  | .bget dev blockno => bget p dev blockno s
  | .acquiresleep b =>
    if s.lock b = none then
      some ((), { s with lock := update s.lock b (some p), transit := update s.transit p none })
    else
      none
  | .releasesleep b =>
    some ((), { s with lock := update s.lock b none, transit := update s.transit p (some b) })
  | .holdingsleep b => some (decide (s.lock b = some p), s)
  | .valid b => some (s.valid b, s)
  | .load b => some ((), { s with data := update s.data b (s.disk (s.key b)) })
  | .setValid b => some ((), { s with valid := update s.valid b true })
  | .got _ _ _ => some ((), s)
  | .store b d => some ((), { s with
      data := update s.data b d
      written := update s.written (s.key b) (some d) })
  | .flush b => some ((), { s with disk := update s.disk (s.key b) (s.data b) })
  | .put b => some ((), put p b s)
  | .bpin b => some ((), { s with
      refcnt := update s.refcnt b (s.refcnt b + 1)
      pins := update s.pins b (s.pins b + 1) })
  | .bunpin b => some ((), { s with
      refcnt := update s.refcnt b (s.refcnt b - 1)
      pins := update s.pins b (s.pins b - 1) })
  | .panic _ => none
  | .next => if i.Proper p s then some (i, s) else none

/-! ## The code -/

section code

variable {Op' : Type → Type 1}

/-- `perform` says how the kernel performs an operation on the cache. -/
def bread (perform : {β : Type} → Op D β → Prog Op' β) (dev blockno : I32) : Prog Op' Buf := do
  match ← perform (.bget dev blockno) with
  | none => perform (.panic "bget: no buffers")
  | some b =>
    perform (.acquiresleep b)
    if !(← perform (.valid b)) then
      perform (.load b)
      perform (.setValid b)
    perform (.got dev blockno b)
    return b

/-- Write b's contents to disk.  Must be locked. -/
def bwrite (perform : {β : Type} → Op D β → Prog Op' β) (b : Buf) : Prog Op' Unit := do
  if !(← perform (.holdingsleep b)) then
    perform (.panic "bwrite")
  perform (.flush b)

/-- Release a locked buffer. -/
def brelse (perform : {β : Type} → Op D β → Prog Op' β) (b : Buf) : Prog Op' Unit := do
  if !(← perform (.holdingsleep b)) then
    perform (.panic "brelse")
  perform (.releasesleep b)
  perform (.put b)

end code

/-- A process uses the cache. -/
def main : Code D Empty := Prog.forever do
  match ← .perform .next with
  | .read dev blockno => let _ ← bread .perform dev blockno
  | .store b d => .perform (.store b d)
  | .write b => bwrite .perform b
  | .release b => brelse .perform b
  | .pin b => .perform (.bpin b)
  | .unpin b => .perform (.bunpin b)

def machine (D : Type) : Machine (Op D) (State D) Slot Slot (Call D) where
  running _ p := p
  exec := exec
  restarts _ := none
  main _ := main

/-- The cache before `binit`: everything is zero. -/
def State.zero (disk : Key → D) (data : Buf → D) : State D where
  next _ := none
  prev _ := none
  dev _ := 0
  blockno _ := 0
  valid _ := false
  refcnt _ := 0
  lock _ := none
  data := data
  disk := disk
  transit _ := none
  pins _ := 0
  written _ := none
  clock := 0
  released _ := 0

def start (disk : Key → D) (data : Buf → D) : Config (Op D) (State D) Slot :=
  ⟨binit (.zero disk data), fun _ => main⟩

end Xv6.Bio
