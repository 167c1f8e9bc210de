import Xv6.Proc.State
import Xv6.Conc.Machine

/-!
# The inode table

The part of `kernel/fs.c` that hands out, locks and drops in-memory inodes.
One operation is a critical section of `itable.lock`, an operation on the
sleep-lock of an inode, an access to the buffer with the inode on disk, or an
access to an in-memory inode by the process that has it locked.

A handle is one use of an entry: `iget`, `idup` and `ialloc` make one, and
`iput` gives it up.  Any process may work with any handle.
-/

namespace Xv6.Inodes

open Conc
open Function (update)

abbrev NINODE : Nat := 50

abbrev NDIRECT : Nat := 12

abbrev Entry := Fin NINODE

/-- A device number and an inode number. -/
abbrev Key := I32 × I32

abbrev I16 := BitVec 16

/-- What an inode holds, on disk and in memory. -/
structure Dinode where
  type : I16
  major : I16
  minor : I16
  nlink : I16
  size : I32
  addrs : Fin (NDIRECT + 1) → I32

/-- An inode after `memset`. -/
def Dinode.zero : Dinode := ⟨0, 0, 0, 0, 0, fun _ => 0⟩

abbrev Handle := Nat

/-- What a process does with a handle; this is history.  While it drops the
last one, `frees` says whether the inode on disk is free already.  Between its
two steps `ialloc` claims an inode. -/
inductive Doing
  | idle
  | uses (h : Handle)
  | puts (h : Handle)
  | frees (h : Handle) (done : Bool)
  | drops (h : Handle)
  | claims (k : Key)
  deriving DecidableEq

/-- The inode table, and the inodes on disk as `bread` finds them.  The last
fields are history: the entry of each handle that has not been given up, the
number of handles so far, what each process does, and who has locked an inode
through which handle. -/
structure State where
  dev : Entry → I32
  inum : Entry → I32
  ref : Entry → Int
  valid : Entry → Bool
  copy : Entry → Dinode
  lock : Entry → Option Slot
  disk : Key → Dinode
  handle : Handle → Option Entry
  fresh : Nat
  doing : Slot → Doing
  held : Handle → Option Slot

namespace State

variable (s : State)

def key (e : Entry) : Key := (s.dev e, s.inum e)

/-- Process `p` has made a handle on `e`. -/
def addHandle (p : Slot) (e : Entry) : State :=
  { s with
    handle := update s.handle s.fresh (some e)
    fresh := s.fresh + 1
    doing := update s.doing p .idle }

end State

/-- The critical section of `iget`. -/
def iget (p : Slot) (dev inum : I32) (s : State) : Option Entry × State :=
  -- Is the inode already in the table?
  match (List.finRange NINODE).find? fun e => s.ref e > 0 && s.dev e = dev && s.inum e = inum with
  | some e => (some e, ({ s with ref := update s.ref e (s.ref e + 1) } : State).addHandle p e)
  | none =>
    -- Recycle an inode entry.
    match (List.finRange NINODE).find? fun e => s.ref e = 0 with
    | some e => (some e, ({ s with
        dev := update s.dev e dev
        inum := update s.inum e inum
        ref := update s.ref e 1
        valid := update s.valid e false } : State).addHandle p e)
    | none => (none, s)

/-- The inode on disk is marked allocated, if it is free. -/
def claim (p : Slot) (k : Key) (type : I16) (s : State) : Bool × State :=
  if (s.disk k).type = 0 then
    (true, { s with
      disk := update s.disk k { Dinode.zero with type := type }
      doing := update s.doing p (.claims k) })
  else
    (false, s)

/-- The first critical section of `iput`: whether to free the inode.  It
waits if the inode is locked. -/
def drop (p : Slot) (e : Entry) (s : State) : Option (Bool × State) :=
  if s.ref e = 1 && s.valid e && (s.copy e).nlink = 0 then
    if s.lock e = none then
      match s.doing p with
      | .puts h => some (true, { s with
          lock := update s.lock e (some p)
          doing := update s.doing p (.frees h false) })
      | _ => some (true, { s with lock := update s.lock e (some p) })
    else
      none
  else
    match s.doing p with
    | .puts h => some (false, { s with
        ref := update s.ref e (s.ref e - 1)
        handle := update s.handle h none
        doing := update s.doing p .idle })
    | _ => some (false, { s with ref := update s.ref e (s.ref e - 1) })

/-- The last critical section of `iput`. -/
def unref (p : Slot) (e : Entry) (s : State) : State :=
  match s.doing p with
  | .drops h => { s with
      ref := update s.ref e (s.ref e - 1)
      handle := update s.handle h none
      doing := update s.doing p .idle }
  | _ => { s with ref := update s.ref e (s.ref e - 1) }

def acquiresleep (p : Slot) (e : Entry) (s : State) : Option State :=
  if s.lock e = none then
    match s.doing p with
    | .uses h => some { s with
        lock := update s.lock e (some p), held := update s.held h (some p) }
    | _ => some { s with lock := update s.lock e (some p) }
  else
    none

def releasesleep (p : Slot) (e : Entry) (s : State) : State :=
  match s.doing p with
  | .uses h => { s with
      lock := update s.lock e none
      held := update s.held h none
      doing := update s.doing p .idle }
  | .frees h _ => { s with
      lock := update s.lock e none
      doing := update s.doing p (.drops h) }
  | _ => { s with lock := update s.lock e none }

/-- The copy of an inode goes to the disk. -/
def iupdate (p : Slot) (e : Entry) (s : State) : State :=
  let s := { s with disk := update s.disk (s.key e) (s.copy e) }
  match s.doing p with
  | .uses _ => { s with doing := update s.doing p .idle }
  | .frees h _ =>
    { s with doing := update s.doing p (.frees h (decide ((s.copy e).type = 0))) }
  | _ => s

/-- What a process asks for; `α` are its handles, or the entries that they
stand for. -/
inductive Call (α : Type)
  | iget (dev inum : I32)
  | ialloc (dev : I32) (type : I16)
  | idup (ip : α)
  | ilock (ip : α)
  | iunlock (ip : α)
  /-- Change what the inode holds, but for its type, and call `iupdate`. -/
  | update (ip : α) (d : Dinode)
  | iput (ip : α)

/-- The handle that a process gives up. -/
def Doing.puts? : Doing → Option Handle
  | .puts h | .frees h _ | .drops h => some h
  | _ => none

/-- The handle that a process works with. -/
def Doing.handle? : Doing → Option Handle
  | .uses h => some h
  | d => d.puts?

/-- Handles are used correctly: a process uses handles that nobody gives up,
unlocks the inodes that it has locked, and gives up a handle that nobody
uses. -/
def Call.Proper (p : Slot) (s : State) : Call Handle → Prop
  | .iget _ _ => True
  | .ialloc _ type => type ≠ 0
  | .idup h | .ilock h => s.handle h ≠ none ∧ ∀ q, (s.doing q).puts? ≠ some h
  | .iunlock h | .update h _ => s.held h = some p
  | .iput h => s.handle h ≠ none ∧ s.held h = none ∧ ∀ q, (s.doing q).handle? ≠ some h

instance (p : Slot) (s : State) (c : Call Handle) : Decidable (c.Proper p s) := by
  cases c <;> unfold Call.Proper <;> infer_instance

/-- The call as the code gets it, and what the process does from now on. -/
def Call.start (s : State) : Call Handle → Option (Call Entry × Doing)
  | .iget dev inum => some (.iget dev inum, .idle)
  | .ialloc dev type => some (.ialloc dev type, .idle)
  | .idup h => (s.handle h).map fun e => (.idup e, .uses h)
  | .ilock h => (s.handle h).map fun e => (.ilock e, .uses h)
  | .iunlock h => (s.handle h).map fun e => (.iunlock e, .uses h)
  | .update h d => (s.handle h).map fun e => (.update e d, .uses h)
  | .iput h => (s.handle h).map fun e => (.iput e, .puts h)

inductive Op : Type → Type 1
  | iget (dev inum : I32) : Op (Option Entry)
  | claim (k : Key) (type : I16) : Op Bool
  | idup (ip : Entry) : Op Unit
  | ref (ip : Entry) : Op Int
  | acquiresleep (ip : Entry) : Op Unit
  | releasesleep (ip : Entry) : Op Unit
  | holdingsleep (ip : Entry) : Op Bool
  | valid (ip : Entry) : Op Bool
  | setValid (ip : Entry) (v : Bool) : Op Unit
  /-- The inode is copied from the disk. -/
  | load (ip : Entry) : Op Unit
  | type (ip : Entry) : Op I16
  | setType (ip : Entry) (type : I16) : Op Unit
  /-- `ilock` returns. -/
  | got (ip : Entry) : Op Unit
  | change (ip : Entry) (d : Dinode) : Op Unit
  /-- `itrunc`, less what it does with the blocks and the inode on disk. -/
  | truncate (ip : Entry) : Op Unit
  | iupdate (ip : Entry) : Op Unit
  | drop (ip : Entry) : Op Bool
  | unref (ip : Entry) : Op Unit
  | panic {β : Type} (msg : String) : Op β
  | next : Op (Call Entry)

abbrev Code := Prog Op

/-- One operation of process `p`.  What has to wait, and a panic, answers
`none`. -/
def exec {β : Type} (p : Slot) (i : Call Handle) (s : State) : Op β → Option (β × State)
  | .iget dev inum => some (iget p dev inum s)
  | .claim k type => some (claim p k type s)
  | .idup e => some ((), ({ s with ref := update s.ref e (s.ref e + 1) } : State).addHandle p e)
  | .ref e => some (s.ref e, s)
  | .acquiresleep e => (acquiresleep p e s).map fun s => ((), s)
  | .releasesleep e => some ((), releasesleep p e s)
  | .holdingsleep e => some (decide (s.lock e = some p), s)
  | .valid e => some (s.valid e, s)
  | .setValid e v => some ((), { s with valid := update s.valid e v })
  | .load e => some ((), { s with copy := update s.copy e (s.disk (s.key e)) })
  | .type e => some ((s.copy e).type, s)
  | .setType e type => some ((), { s with copy := update s.copy e { s.copy e with type := type } })
  | .got _ => some ((), { s with doing := update s.doing p .idle })
  | .change e d => some ((), { s with
      copy := update s.copy e { d with type := (s.copy e).type } })
  | .truncate e => some ((), { s with
      copy := update s.copy e { s.copy e with size := 0, addrs := fun _ => 0 } })
  | .iupdate e => some ((), iupdate p e s)
  | .drop e => drop p e s
  | .unref e => some ((), unref p e s)
  | .panic _ => none
  | .next =>
    if i.Proper p s then
      (i.start s).map fun r => (r.1, { s with doing := update s.doing p r.2 })
    else
      none

/-! ## The code -/

namespace Code

def panic {β : Type} (msg : String) : Code β := .perform (.panic msg)

/-- Find the inode with number inum on device dev and return the in-memory
copy. -/
def iget (dev inum : I32) : Code Entry := do
  match ← .perform (.iget dev inum) with
  | none => panic "iget: no inodes"
  | some ip => return ip

/-- Allocate an inode on device dev; `none` if there is no free inode. -/
def ialloc (ninodes : Nat) (dev : I32) (type : I16) : Code (Option Entry) :=
  Prog.findM? (fun inum : Nat => do
    if ← .perform (.claim (dev, BitVec.ofNat 32 inum) type) then -- a free inode
      return some (← iget dev (BitVec.ofNat 32 inum))
    else
      return none) (List.range' 1 (ninodes - 1))

/-- Lock the given inode.  Reads the inode from disk if necessary. -/
def ilock (ip : Entry) : Code Unit := do
  if (← .perform (.ref ip)) < 1 then
    panic "ilock"
  .perform (.acquiresleep ip)
  if !(← .perform (.valid ip)) then
    .perform (.load ip)
    .perform (.setValid ip true)
    if (← .perform (.type ip)) = 0 then
      panic "ilock: no type"
  .perform (.got ip)

/-- Unlock the given inode. -/
def iunlock (ip : Entry) : Code Unit := do
  if !(← .perform (.holdingsleep ip)) then
    panic "iunlock"
  if (← .perform (.ref ip)) < 1 then
    panic "iunlock"
  .perform (.releasesleep ip)

/-- Truncate inode (discard contents). -/
def itrunc (ip : Entry) : Code Unit := do
  .perform (.truncate ip)
  .perform (.iupdate ip)

/-- Drop a reference to an in-memory inode. -/
def iput (ip : Entry) : Code Unit := do
  if ← .perform (.drop ip) then
    -- inode has no links and no other references: truncate and free.
    itrunc ip
    .perform (.setType ip 0)
    .perform (.iupdate ip)
    .perform (.setValid ip false)
    .perform (.releasesleep ip)
    .perform (.unref ip)

/-- A process uses the inode table. -/
def main (ninodes : Nat) : Code Empty := Prog.forever do
  match ← .perform .next with
  | .iget dev inum => let _ ← iget dev inum
  | .ialloc dev type => let _ ← ialloc ninodes dev type
  | .idup ip => .perform (.idup ip)
  | .ilock ip => ilock ip
  | .iunlock ip => iunlock ip
  | .update ip d =>
    .perform (.change ip d)
    .perform (.iupdate ip)
  | .iput ip => iput ip

end Code

def machine (ninodes : Nat) : Machine Op State Slot Slot (Call Handle) where
  running _ p := p
  exec := exec
  restarts _ := none
  main _ := Code.main ninodes

/-- The table after `iinit`. -/
def start (ninodes : Nat) (disk : Key → Dinode) : Config Op State Slot where
  mem := {
    dev := fun _ => 0
    inum := fun _ => 0
    ref := fun _ => 0
    valid := fun _ => false
    copy := fun _ => .zero
    lock := fun _ => none
    disk := disk
    handle := fun _ => none
    fresh := 0
    doing := fun _ => .idle
    held := fun _ => none }
  code _ := Code.main ninodes

end Xv6.Inodes
