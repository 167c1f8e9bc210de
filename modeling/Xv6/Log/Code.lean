import Xv6.Conc.Machine
import Xv6.Log.Disk

/-!
# The redo log

`kernel/log.c`, and what it uses of `kernel/bio.c`.  One operation is a
critical section of `log.lock`, an access to `struct log` during a commit, or
the use of one buffer.  The buffer cache has any number of buffers, and may
drop one that nobody has pinned at any moment.  A crash can fall between any
two operations; it keeps nothing but the disk.

`History` is not read by the code: it says which operations logged what, and
how far their transactions have come.
-/

namespace Xv6.Log

open Conc

/-! ## `struct log` -/

/-- `struct log`, less its lock and where it lies. -/
structure LogState where
  outstanding : Nat
  committing : Bool
  lh : List BlockNo

namespace LogState

/-- One turn of the loop of `begin_op`; `none` means that it sleeps. -/
def beginOp (l : LogState) : Option LogState :=
  if l.committing then none
  else if l.lh.length + (l.outstanding + 1) * MAXOPBLOCKS > LOGSIZE then
    -- this op might exhaust log space; wait for commit.
    none
  else some { l with outstanding := l.outstanding + 1 }

/-- The first critical section of `end_op`: whether to commit. -/
def endOp (l : LogState) : Except String (Bool × LogState) :=
  let l := { l with outstanding := l.outstanding - 1 }
  if l.committing then .error "log.committing"
  else if l.outstanding = 0 then .ok (true, { l with committing := true })
  else .ok (false, l)

/-- The log is full, for `log_write`. -/
def TooBig (l : LogState) (size : Nat) : Prop :=
  l.lh.length ≥ LOGSIZE ∨ l.lh.length ≥ size - 1

instance (l : LogState) (size : Nat) : Decidable (l.TooBig size) :=
  inferInstanceAs (Decidable (_ ∨ _))

/-- `log_write`, less the pinning. -/
def logWrite (l : LogState) (size : Nat) (b : BlockNo) : Except String LogState :=
  if l.TooBig size then .error "too big a transaction"
  else if l.outstanding < 1 then .error "log_write outside of trans"
  else if b ∈ l.lh then .ok l -- log absorption
  else .ok { l with lh := l.lh ++ [b] }

end LogState

/-! ## Shared state -/

/-- The thread that boots, the file-system operations, and a thread that uses
and drops buffers. -/
inductive Tid
  | boot
  | op (k : Nat)
  | cache
  deriving DecidableEq

structure History (A : LogArea) where
  /-- How often the system has booted. -/
  epoch : Nat
  /-- The operations that have returned from `begin_op`. -/
  begun : List OpId
  /-- Those of them that have not come to `end_op`. -/
  active : List OpId
  /-- All calls of `log_write`. -/
  written : List (LoggedWrite A)
  /-- Those since the last `end_op` that commits. -/
  current : List (LoggedWrite A)
  /-- The transactions whose `commit` has started, but for those that a crash
  has lost. -/
  started : List (List (LoggedWrite A))
  /-- How many of them have their header on the disk, or are empty. -/
  durable : Nat
  /-- How many of them have finished `commit`. -/
  finished : Nat
  /-- The thread that recovers or commits. -/
  committer : Option Tid

/-- The disk, the buffer cache, the log, and whether `initlog` has completed.
`pins` counts the references of `bpin`. -/
structure Fs (A : LogArea) where
  disk : Disk
  cache : BlockNo → Option Block
  pins : BlockNo → Nat
  log : LogState
  ready : Bool
  hist : History A

/-- What `bread` finds in a block. -/
def Fs.view {A : LogArea} (s : Fs A) (b : BlockNo) : Block := (s.cache b).getD (s.disk b)

/-! ## Operations -/

/-- What the outside world asks for. -/
inductive Input (A : LogArea)
  | write (b : HomeBlock A) (d : Block)
  | fill (b : BlockNo)
  | evict (b : BlockNo)
  | stop

inductive LogOp (A : LogArea) : Type → Type 1
  /-- Wait until a process can run; answers which boot it is. -/
  | start : LogOp A Nat
  | input : LogOp A (Input A)
  | beginOp (id : OpId) : LogOp A Bool
  /-- Change the data of a buffer that the caller has locked, and log it. -/
  | logWrite (id : OpId) (b : HomeBlock A) (d : Block) : LogOp A (Except String Unit)
  | endOp (id : OpId) : LogOp A (Except String Bool)
  | readLog {β : Type} (f : LogState → β) : LogOp A β
  | setLh (lh : List BlockNo) : LogOp A Unit
  /-- `bread` and `brelse`. -/
  | bread (b : BlockNo) : LogOp A Block
  /-- `memmove` into a buffer, and `bwrite`; `commits` marks the write that
  commits a transaction. -/
  | bwrite (b : BlockNo) (d : Block) (commits : Bool) : LogOp A Unit
  | bunpin (b : BlockNo) : LogOp A Unit
  | evict (b : BlockNo) : LogOp A Unit
  /-- `commit` returns. -/
  | finished : LogOp A Unit
  /-- The second critical section of `end_op`. -/
  | endCommit : LogOp A Unit
  /-- `initlog` returns. -/
  | ready : LogOp A Unit
  | panic {β : Type} (msg : String) : LogOp A β

open Function (update) in
/-- One operation of thread `t`.  What has to wait, and a panic, answers
`none`. -/
def exec {A : LogArea} {β : Type} (t : Tid) (i : Input A) (s : Fs A) :
    LogOp A β → Option (β × Fs A)
  | .start => if s.ready then some (s.hist.epoch, s) else none
  | .input => some (i, s)
  | .beginOp id =>
    match s.log.beginOp with
    | none => some (false, s)
    | some l => some (true, { s with
        log := l
        hist := { s.hist with begun := id :: s.hist.begun, active := id :: s.hist.active } })
  | .logWrite id b d =>
    match s.log.logWrite A.nlog b with
    | .error msg => some (.error msg, s)
    | .ok l => some (.ok (), { s with
        cache := update s.cache b (some d)
        pins := if b.val ∈ s.log.lh then s.pins else update s.pins b (s.pins b + 1)
        log := l
        hist := { s.hist with
          written := s.hist.written ++ [⟨id, b, d⟩]
          current := s.hist.current ++ [⟨id, b, d⟩] } })
  | .endOp id =>
    match s.log.endOp with
    | .error msg => some (.error msg, s)
    | .ok (false, l) => some (.ok false, { s with
        log := l, hist := { s.hist with active := s.hist.active.erase id } })
    | .ok (true, l) => some (.ok true, { s with
        log := l
        hist := { s.hist with
          active := s.hist.active.erase id
          current := []
          started := s.hist.started ++ [s.hist.current]
          committer := some t } })
  | .readLog f => some (f s.log, s)
  | .setLh lh => some ((), { s with log := { s.log with lh := lh } })
  | .bread b => some (s.view b, { s with cache := update s.cache b (some (s.view b)) })
  | .bwrite b d commits => some ((), { s with
      cache := update s.cache b (some d)
      disk := update s.disk b d
      hist := if commits then { s.hist with durable := s.hist.started.length } else s.hist })
  | .bunpin b => some ((), { s with pins := update s.pins b (s.pins b - 1) })
  | .evict b => if s.pins b = 0 then some ((), { s with cache := update s.cache b none }) else none
  | .finished => some ((), { s with hist := { s.hist with
      durable := s.hist.started.length, finished := s.hist.started.length } })
  | .endCommit => some ((), { s with
      log := { s.log with committing := false }, hist := { s.hist with committer := none } })
  | .ready => some ((), { s with ready := true, hist := { s.hist with committer := none } })
  | .panic _ => none

/-! ## The code of `log.c` -/

variable {A : LogArea}

abbrev Code (A : LogArea) := Prog (LogOp A)

def panic {β : Type} (msg : String) : Code A β := .perform (.panic msg)

def readLog {β : Type} (f : LogState → β) : Code A β := .perform (.readLog f)

def setLh (lh : List BlockNo) : Code A Unit := .perform (.setLh lh)

def bread (b : BlockNo) : Code A Block := .perform (.bread b)

def bwrite (b : BlockNo) (d : Block) (commits : Bool) : Code A Unit :=
  .perform (.bwrite b d commits)

/-- Copy committed blocks from log to their home location. -/
def installTrans (recovering : Bool) : Code A Unit := do
  let n ← readLog fun l => l.lh.length
  Prog.foldM (fun () tail => do
    let d ← bread (A.slot tail) -- read log block
    let dst ← readLog fun l => l.lh.getD tail 0
    let _ ← bread dst -- read dst
    bwrite dst d false -- write dst to disk
    if recovering = false then
      .perform (.bunpin dst)) () (List.range n)

/-- Read the log header from disk into the in-memory log header. -/
def readHead : Code A Unit := do
  let hb ← bread A.logstart
  setLh (readHeader hb)

/-- Write in-memory log header to disk.  This is the true point at which the
current transaction commits. -/
def writeHead (commits : Bool) : Code A Unit := do
  let hb ← bread A.logstart
  let lh ← readLog fun l => l.lh
  bwrite A.logstart (storeHeader hb lh) commits

def recoverFromLog : Code A Unit := do
  readHead
  installTrans true -- if committed, copy from log to disk
  setLh []
  writeHead false -- clear the log

def initlog : Code A Unit := do
  if 4 * (LOGSIZE + 1) ≥ BSIZE then
    panic "initlog: too big logheader"
  recoverFromLog

/-- Called at the start of each FS system call. -/
def beginOp (id : OpId) : Code A Unit :=
  Prog.loop (fun () => do
    if ← .perform (.beginOp id) then
      return .inr ()
    return .inl ()) ()

/-- Copy modified blocks from cache to log. -/
def writeLog : Code A Unit := do
  let n ← readLog fun l => l.lh.length
  Prog.foldM (fun () tail => do
    let from' ← readLog fun l => l.lh.getD tail 0
    let d ← bread from' -- cache block
    bwrite (A.slot tail) d false -- write the log
    ) () (List.range n)

def commit : Code A Unit := do
  if (← readLog fun l => l.lh.length) > 0 then
    writeLog -- Write modified blocks from cache to log
    writeHead true -- Write header to disk -- the real commit
    installTrans false -- Now install writes to home locations
    setLh []
    writeHead false -- Erase the transaction from the log
  .perform .finished

/-- Called at the end of each FS system call.  Commits if this was the last
outstanding operation. -/
def endOp (id : OpId) : Code A Unit := do
  match ← .perform (.endOp id) with
  | .error msg => panic msg
  | .ok false => return ()
  | .ok true =>
    commit
    .perform .endCommit

def logWrite (id : OpId) (b : HomeBlock A) (d : Block) : Code A Unit := do
  match ← .perform (.logWrite id b d) with
  | .error msg => panic msg
  | .ok () => return ()

/-! ## The threads -/

/-- A file-system operation, which logs any writes of any blocks. -/
def fsOp (k : Nat) : Code A Unit := do
  let epoch ← .perform .start
  beginOp (epoch, k)
  Prog.loop (fun () => do
    match ← .perform .input with
    | .write b d =>
      logWrite (epoch, k) b d
      return .inl ()
    | _ => return .inr ()) ()
  endOp (epoch, k)

/-- The use of buffers outside of operations. -/
def useCache : Code A Empty :=
  Prog.forever do
    match ← .perform .input with
    | .fill b =>
      let _ ← bread b
    | .evict b => .perform (.evict b)
    | _ => return ()

def idle : Code A Empty := Prog.forever (return ())

/-- Any thread can take the next step. -/
def machine (A : LogArea) : Machine (LogOp A) (Fs A) Tid Tid (Input A) where
  running _ t := t
  exec := exec
  restarts _ := none
  main
    | .boot => do
      initlog
      .perform .ready
      idle
    | .op k => do
      fsOp k
      idle
    | .cache => useCache

abbrev System (A : LogArea) := Config (LogOp A) (Fs A) Tid

/-! ## Crashes -/

/-- What a crash leaves. -/
def Fs.reboot (s : Fs A) : Fs A where
  disk := s.disk
  cache _ := none
  pins _ := 0
  log := ⟨0, false, []⟩
  ready := false
  hist := { s.hist with
    epoch := s.hist.epoch + 1
    active := []
    current := []
    started := s.hist.started.take s.hist.durable
    committer := some .boot }

/-- All threads start over. -/
def boot (s : Fs A) : System A := ⟨s, (machine A).main⟩

/-- A disk whose log is empty. -/
structure Image (A : LogArea) where
  disk : Disk
  empty : disk A.logstart 0 = 0

/-- The first boot from an image. -/
def Image.fs (img : Image A) : Fs A where
  disk := img.disk
  cache _ := none
  pins _ := 0
  log := ⟨0, false, []⟩
  ready := false
  hist :=
    { epoch := 0, begun := [], active := [], written := [], current := [], started := [],
      durable := 0, finished := 0, committer := some .boot }

/-- The states that runs with crashes reach when every operation of the run
meets the condition `P`. -/
inductive Run (P : Machine.OpPred (LogOp A) (Fs A) Tid) (img : Image A) : System A → Prop
  | boot : Run P img (boot img.fs)
  | step {g g' : System A} {t : Tid} {i : Input A} (h : Run P img g)
      (hP : ∀ (β : Type) (o : LogOp A β), (machine A).Next g t o → P β t o g.mem)
      (hs : (machine A).step t i g = some g') : Run P img g'
  | crash {g : System A} (h : Run P img g) : Run P img (Log.boot g.mem.reboot)

/-- `g'` is reached from a crash in `g` while `initlog` runs, which further
crashes may interrupt. -/
inductive Recovers (g : System A) : System A → Prop
  | crash : Recovers g (boot g.mem.reboot)
  | step {g₁ g₂ : System A} {t : Tid} {i : Input A} (h : Recovers g g₁)
      (hr : g₁.mem.ready = false) (hs : (machine A).step t i g₁ = some g₂) : Recovers g g₂
  | again {g₁ : System A} (h : Recovers g g₁) (hr : g₁.mem.ready = false) :
      Recovers g (boot g₁.mem.reboot)

end Xv6.Log
