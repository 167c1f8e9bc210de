import Xv6.Bio.Code
import Xv6.Log.Code

/-!
# File-system calls on the buffer cache

What the processes do with the cache in file-system calls: they read blocks,
in transactions or not, and log and release them.  `commit` is `kernel/log.c`
with all the buffers that it takes.  What the blocks contain is left to the
processes.
-/

namespace Xv6.Bio.Calls

open Conc
open Function (update)

abbrev ROOTDEV : I32 := 1

abbrev BlockNo := Log.BlockNo

variable {D : Type}

/-- The cache and the log.  The last fields are history: how many blocks of
the log header `install_trans` has unpinned, the processes between `begin_op`
and `end_op`, and the process that commits. -/
structure Fs (D : Type) where
  cache : State D
  log : Log.LogState
  installed : Nat
  inOp : Slot → Bool
  committer : Option Slot

/-- What a process may do next in its file-system calls. -/
inductive Call (D : Type)
  | read (blockno : BlockNo)
  | store (b : Buf) (d : D)
  | release (b : Buf)
  | beginOp
  | logWrite (b : Buf)
  | endOp

/-- A process works on buffers that it has locked; it logs them between
`begin_op` and `end_op`, which it calls in turn. -/
def Call.Proper (p : Slot) (s : Fs D) : Call D → Prop
  | .read _ => True
  | .store b _ | .release b => s.cache.lock b = some p
  | .beginOp => s.inOp p = false
  | .logWrite b => s.inOp p = true ∧ s.cache.lock b = some p
  | .endOp => s.inOp p = true

instance (p : Slot) (s : Fs D) (c : Call D) : Decidable (c.Proper p s) := by
  cases c <;> unfold Call.Proper <;> infer_instance

variable (D) in
inductive Op : Type → Type 1
  | cache {β : Type} (o : Bio.Op D β) : Op β
  /-- `memmove(dst->data, src->data, BSIZE)`. -/
  | copy (dst src : Buf) : Op Unit
  /-- `write_head` lays the log header over the data of a buffer. -/
  | header (b : Buf) : Op Unit
  | beginOp : Op Bool
  | endOp : Op (Except String Bool)
  | logWrite (b : Buf) : Op (Except String Unit)
  | readLog {β : Type} (f : Log.LogState → β) : Op β
  | bunpin (b : Buf) : Op Unit
  | clear : Op Unit
  /-- The second critical section of `end_op`. -/
  | endCommit : Op Unit
  | panic {β : Type} (msg : String) : Op β
  | next : Op (Call D)

abbrev Code (D : Type) := Prog (Op D)

/-- Where the log lies, and what a header looks like in a block. -/
structure Format (D : Type) where
  area : Log.LogArea
  encode : List BlockNo → D → D

variable (F : Format D)

/-- An operation of the cache itself. -/
def onCache {β : Type} (p : Slot) (s : Fs D) (o : Bio.Op D β) : Option (β × Fs D) :=
  (Bio.exec p (.release 0) s.cache o).map fun r => (r.1, { s with cache := r.2 })

/-- One operation of process `p`.  What has to wait, and a panic, answers
`none`. -/
def exec {β : Type} (p : Slot) (i : Call D) (s : Fs D) : Op D β → Option (β × Fs D)
  | .cache o => onCache p s o
  | .copy dst src => onCache p s (.store dst (s.cache.data src))
  | .header b => onCache p s (.store b (F.encode s.log.lh (s.cache.data b)))
  | .beginOp =>
    match s.log.beginOp with
    | none => some (false, s)
    | some l => some (true, { s with log := l, inOp := update s.inOp p true })
  | .endOp =>
    match s.log.endOp with
    | .error msg => some (.error msg, s)
    | .ok (false, l) => some (.ok false, { s with log := l, inOp := update s.inOp p false })
    | .ok (true, l) => some (.ok true, { s with
        log := l
        inOp := update s.inOp p false
        committer := some p })
  | .logWrite b =>
    match s.log.logWrite F.area.nlog (s.cache.blockno b) with
    | .error msg => some (.error msg, s)
    | .ok l =>
      if s.cache.blockno b ∈ s.log.lh then
        some (.ok (), { s with log := l })
      else
        -- Add new block to log
        (onCache p s (.bpin b)).map fun r => (.ok (), { r.2 with log := l })
  | .readLog f => some (f s.log, s)
  | .bunpin b => (onCache p s (.bunpin b)).map fun r =>
      (r.1, { r.2 with installed := s.installed + 1 })
  | .clear => some ((), { s with log := { s.log with lh := [] }, installed := 0 })
  | .endCommit => some ((), { s with
      log := { s.log with committing := false }
      committer := none })
  | .panic _ => none
  | .next => if i.Proper p s then some (i, s) else none

/-! ## The code -/

def onDisk {β : Type} (o : Bio.Op D β) : Code D β := .perform (.cache o)

def bread (blockno : BlockNo) : Code D Buf := Bio.bread onDisk ROOTDEV blockno

def bwrite (b : Buf) : Code D Unit := Bio.bwrite onDisk b

def brelse (b : Buf) : Code D Unit := Bio.brelse onDisk b

def readLog {β : Type} (f : Log.LogState → β) : Code D β := .perform (.readLog f)

/-- Called at the start of each FS system call. -/
def begin_op : Code D Unit :=
  Prog.loop (fun () => do
    if ← .perform .beginOp then
      return .inr ()
    else
      return .inl ()) ()

/-- Copy modified blocks from cache to log. -/
def write_log : Code D Unit := do
  let n ← readLog fun l => l.lh.length
  Prog.foldM (fun () tail => do
    let dst ← bread (F.area.slot tail) -- log block
    let block ← readLog fun l => l.lh.getD tail 0
    let src ← bread block -- cache block
    .perform (.copy dst src)
    bwrite dst -- write the log
    brelse src
    brelse dst) () (List.range n)

/-- Write in-memory log header to disk. -/
def write_head : Code D Unit := do
  let buf ← bread F.area.logstart
  .perform (.header buf)
  bwrite buf
  brelse buf

/-- Copy committed blocks from log to their home location. -/
def install_trans : Code D Unit := do
  let n ← readLog fun l => l.lh.length
  Prog.foldM (fun () tail => do
    let lbuf ← bread (F.area.slot tail) -- read log block
    let block ← readLog fun l => l.lh.getD tail 0
    let dbuf ← bread block -- read dst
    .perform (.copy dbuf lbuf) -- copy block to dst
    bwrite dbuf -- write dst to disk
    .perform (.bunpin dbuf)
    brelse lbuf
    brelse dbuf) () (List.range n)

def commit : Code D Unit := do
  if (← readLog fun l => l.lh.length) > 0 then
    write_log F -- Write modified blocks from cache to log
    write_head F -- Write header to disk -- the real commit
    install_trans F -- Now install writes to home locations
    .perform .clear
    write_head F -- Erase the transaction from the log

/-- Called at the end of each FS system call.  Commits if this was the last
outstanding operation. -/
def end_op : Code D Unit := do
  match ← .perform .endOp with
  | .error msg => .perform (.panic msg)
  | .ok false => return ()
  | .ok true =>
    commit F
    .perform .endCommit

def log_write (b : Buf) : Code D Unit := do
  match ← .perform (.logWrite b) with
  | .error msg => .perform (.panic msg)
  | .ok () => return ()

/-- A process makes file-system calls. -/
def main : Code D Empty := Prog.forever do
  match ← .perform .next with
  | .read blockno => let _ ← bread blockno
  | .store b d => onDisk (.store b d)
  | .release b => brelse b
  | .beginOp => begin_op
  | .logWrite b => log_write b
  | .endOp => end_op F

def machine (F : Format D) : Machine (Op D) (Fs D) Slot Slot (Call D) where
  running _ p := p
  exec := exec F
  restarts _ := none
  main _ := main F

/-- The cache after `binit`, and an empty log. -/
def start (F : Format D) (disk : Key → D) (data : Buf → D) : Config (Op D) (Fs D) Slot where
  mem := {
    cache := binit (.zero disk data)
    log := ⟨0, false, []⟩
    installed := 0
    inOp := fun _ => false
    committer := none }
  code _ := main F

end Xv6.Bio.Calls
