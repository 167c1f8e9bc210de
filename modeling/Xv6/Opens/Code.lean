import Xv6.Fs.Sysfile
import Xv6.Conc.Machine

/-!
# Processes that open files

The system calls of `kernel/sysfile.c` that look up paths, over the inode
table, the file table and the descriptors of all processes.  One operation is
a critical section of `itable.lock` or `ftable.lock`, an operation on the
sleep-lock of an inode, what a process does with an inode that it has locked,
or an access to its own descriptors and current directory.

An inode is seen as `ilock` finds it, and a directory as the map from the
names that its entries spell.
-/

namespace Xv6.Opens

open Conc
open Function (update)
open Fs (I16 U32 Chars NINODE NFILE NOFILE NDEV DIRSIZ ROOTINO SLASH T_DIR T_FILE T_DEVICE
  O_CREATE O_TRUNC dots skipelem)

abbrev Entry := Fin NINODE

abbrev Inum := U32

abbrev FileNo := Fin NFILE

abbrev Fd := Fin NOFILE

/-- What the calls ask of an inode. -/
structure Dinode where
  type : I16
  major : I16
  minor : I16
  nlink : I16

/-- `struct file`, as far as `open` and `close` use it. -/
structure File where
  type : FileType
  ref : Nat
  ip : Entry
  deriving DecidableEq

/-- The tables, the processes and the disk.  Two fields are history: the
references that each process has, with the one of its current directory, and
who has opened each file. -/
structure State where
  inum : Entry → Inum
  ref : Entry → Int
  lock : Entry → Option Slot
  file : FileNo → File
  ofile : Slot → Fd → Option FileNo
  cwd : Slot → Entry
  inode : Inum → Dinode
  /-- The first entry with a name; the names are as `strncpy` writes them. -/
  entry : Inum → List Byte → Option Inum
  mine : Slot → Multiset Entry
  owner : FileNo → Option Slot

namespace State

variable (s : State)

/-- Process `p` has one more reference. -/
def take (p : Slot) (e : Entry) : State :=
  { s with mine := update s.mine p (e ::ₘ s.mine p) }

/-- Process `p` has one reference less. -/
def give (p : Slot) (e : Entry) : State :=
  { s with mine := update s.mine p ((s.mine p).erase e) }

/-- The inode that an entry of the table is for. -/
def node (e : Entry) : Dinode := s.inode (s.inum e)

def setNode (e : Entry) (d : Dinode) : State :=
  { s with inode := update s.inode (s.inum e) d }

end State

/-- The critical section of `iget`; there is one device. -/
def iget (p : Slot) (inum : Inum) (s : State) : Option Entry × State :=
  -- Is the inode already in the table?
  match (List.finRange NINODE).find? fun e => s.ref e > 0 && s.inum e = inum with
  | some e => (some e, ({ s with ref := update s.ref e (s.ref e + 1) } : State).take p e)
  | none =>
    -- Recycle an inode entry.
    match (List.finRange NINODE).find? fun e => s.ref e = 0 with
    | some e =>
      (some e, ({ s with inum := update s.inum e inum, ref := update s.ref e 1 } : State).take p e)
    | none => (none, s)

/-- The first critical section of `iput`: whether to free the inode.  It
waits if the inode is locked. -/
def drop (p : Slot) (e : Entry) (s : State) : Option (Bool × State) :=
  if s.ref e = 1 ∧ (s.node e).nlink = 0 then
    if s.lock e = none then
      some (true, { s with lock := update s.lock e (some p) })
    else
      none
  else
    some (false, ({ s with ref := update s.ref e (s.ref e - 1) } : State).give p e)

/-- The critical section of `filealloc`. -/
def filealloc (p : Slot) (s : State) : Option FileNo × State :=
  match (List.finRange NFILE).find? fun f => (s.file f).ref = 0 with
  | some f => (some f, { s with
      file := update s.file f { s.file f with ref := 1 }, owner := update s.owner f (some p) })
  | none => (none, s)

def fdalloc (p : Slot) (f : FileNo) (s : State) : Option Fd × State :=
  match (List.finRange NOFILE).find? fun fd => (s.ofile p fd).isNone with
  | some fd => (some fd, { s with
      ofile := update s.ofile p (update (s.ofile p) fd (some f)) })
  | none => (none, s)

/-- `sys_open` fills in the file, which takes over a reference. -/
def fill (p : Slot) (f : FileNo) (ip : Entry) (type : FileType) (s : State) : State :=
  ({ s with file := update s.file f { s.file f with type := type, ip := ip } } : State).give p ip

/-- The critical section of `fileclose`: the inode that is to be given up, if
there is one.  It does not answer for a file that is not in use. -/
def fileclose (p : Slot) (f : FileNo) (s : State) : Option (Option Entry) × State :=
  let x := s.file f
  if x.ref < 1 then
    (none, s)
  else if 1 < x.ref then
    (some none, { s with file := update s.file f { x with ref := x.ref - 1 } })
  else
    let s := { s with
      file := update s.file f { x with ref := 0, type := .none }
      owner := update s.owner f none }
    if x.type = .inode ∨ x.type = .device then
      (some (some x.ip), s.take p x.ip)
    else
      (some none, s)

/-- A system call; the paths are the strings that `argstr` has fetched. -/
inductive Call
  | open (path : List Byte) (omode : U32)
  | mkdir (path : List Byte)
  | mknod (path : List Byte) (major minor : I16)
  | chdir (path : List Byte)
  | exec (path : List Byte)
  | close (fd : Nat)

/-- What the outside world does in a step: the call that a process makes, and
whether the disk is full. -/
structure Input where
  call : Call
  full : Bool

inductive Op : Type → Type 1
  | next : Op Call
  | iget (inum : Inum) : Op (Option Entry)
  | idup (ip : Entry) : Op Unit
  | ref (ip : Entry) : Op Int
  | acquiresleep (ip : Entry) : Op Unit
  | releasesleep (ip : Entry) : Op Unit
  | holdingsleep (ip : Entry) : Op Bool
  | inode (ip : Entry) : Op Dinode
  | inum (ip : Entry) : Op Inum
  /-- Change what the inode holds, and `iupdate`. -/
  | setInode (ip : Entry) (d : Dinode) : Op Unit
  /-- An inode on the disk is marked allocated, if it is free. -/
  | claim (inum : Inum) (type : I16) : Op Bool
  | drop (ip : Entry) : Op Bool
  | unref (ip : Entry) : Op Unit
  /-- The entry of directory `dp` with a name. -/
  | entry (dp : Entry) (name : Chars) : Op (Option Inum)
  /-- The entry is written, if there is room on the disk. -/
  | setEntry (dp : Entry) (name : Chars) (inum : Inum) : Op Bool
  | filealloc : Op (Option FileNo)
  | fdalloc (f : FileNo) : Op (Option Fd)
  | fill (f : FileNo) (ip : Entry) (type : FileType) : Op Unit
  | fileclose (f : FileNo) : Op (Option (Option Entry))
  | ofile (fd : Nat) : Op (Option FileNo)
  | clear (fd : Nat) : Op Unit
  | cwd : Op Entry
  | setCwd (ip : Entry) : Op Unit
  | panic {β : Type} (msg : String) : Op β

abbrev Code := Prog Op

/-- One operation of process `p`.  What has to wait, and a panic, answers
`none`. -/
def exec {β : Type} (p : Slot) (i : Input) (s : State) : Op β → Option (β × State)
  | .next => some (i.call, s)
  | .iget inum => some (iget p inum s)
  | .idup e => some ((), ({ s with ref := update s.ref e (s.ref e + 1) } : State).take p e)
  | .ref e => some (s.ref e, s)
  | .acquiresleep e =>
    if s.lock e = none then some ((), { s with lock := update s.lock e (some p) }) else none
  | .releasesleep e => some ((), { s with lock := update s.lock e none })
  | .holdingsleep e => some (decide (s.lock e = some p), s)
  | .inode e => some (s.node e, s)
  | .inum e => some (s.inum e, s)
  | .setInode e d => some ((), s.setNode e d)
  | .claim inum type =>
    if (s.inode inum).type = 0 then
      some (true, { s with inode := update s.inode inum ⟨type, 0, 0, 0⟩ })
    else
      some (false, s)
  | .drop e => drop p e s
  | .unref e => some ((), ({ s with ref := update s.ref e (s.ref e - 1) } : State).give p e)
  | .entry dp name => some (s.entry (s.inum dp) (Fs.strncpy name DIRSIZ), s)
  | .setEntry dp name inum =>
    if i.full then
      some (false, s)
    else
      some (true, { s with
        entry := update s.entry (s.inum dp)
          (update (s.entry (s.inum dp)) (Fs.strncpy name DIRSIZ) (some inum)) })
  | .filealloc => some (filealloc p s)
  | .fdalloc f => some (fdalloc p f s)
  | .fill f ip type => some ((), fill p f ip type s)
  | .fileclose f => some (fileclose p f s)
  | .ofile fd => some (if h : fd < NOFILE then s.ofile p ⟨fd, h⟩ else none, s)
  | .clear fd =>
    some ((), if h : fd < NOFILE then
      { s with ofile := update s.ofile p (update (s.ofile p) ⟨fd, h⟩ none) } else s)
  | .cwd => some (s.cwd p, s)
  | .setCwd ip => some ((), { s with cwd := update s.cwd p ip })
  | .panic _ => none

/-! ## Inodes -/

namespace Code

def panic {β : Type} (msg : String) : Code β := .perform (.panic msg)

/-- Find the inode with number inum and return the in-memory copy. -/
def iget (inum : Inum) : Code Entry := do
  match ← .perform (.iget inum) with
  | none => panic "iget: no inodes"
  | some ip => return ip

/-- Increment reference count for ip. -/
def idup (ip : Entry) : Code Entry := do
  .perform (.idup ip)
  return ip

/-- Lock the given inode. -/
def ilock (ip : Entry) : Code Unit := do
  if (← .perform (.ref ip)) < 1 then
    panic "ilock"
  .perform (.acquiresleep ip)
  if (← .perform (.inode ip)).type = 0 then
    panic "ilock: no type"

/-- Unlock the given inode. -/
def iunlock (ip : Entry) : Code Unit := do
  if !(← .perform (.holdingsleep ip)) then
    panic "iunlock"
  if (← .perform (.ref ip)) < 1 then
    panic "iunlock"
  .perform (.releasesleep ip)

/-- Drop a reference to an in-memory inode. -/
def iput (ip : Entry) : Code Unit := do
  if ← .perform (.drop ip) then
    -- inode has no links and no other references: truncate and free.
    let d ← .perform (.inode ip)
    .perform (.setInode ip { d with type := 0 })
    .perform (.releasesleep ip)
    .perform (.unref ip)

/-- Common idiom: unlock, then put. -/
def iunlockput (ip : Entry) : Code Unit := do
  iunlock ip
  iput ip

/-- Allocate an inode; `none` if there is no free inode. -/
def ialloc (ninodes : Nat) (type : I16) : Code (Option Entry) :=
  Prog.findM? (fun inum : Nat => do
    if ← .perform (.claim (BitVec.ofNat 32 inum) type) then -- a free inode
      return some (← iget (BitVec.ofNat 32 inum))
    else
      return none) (List.range' 1 (ninodes - 1))

/-! ## Directories and paths -/

/-- Look for a directory entry in a directory. -/
def dirlookup (dp : Entry) (name : Chars) : Code (Option Entry) := do
  if (← .perform (.inode dp)).type ≠ T_DIR then
    panic "dirlookup not DIR"
  match ← .perform (.entry dp name) with
  | none => return none
  | some inum => return some (← iget inum)

/-- Write a new directory entry (name, inum) into the directory dp; whether it
could. -/
def dirlink (dp : Entry) (name : Chars) (inum : Inum) : Code Bool := do
  -- Check that name is not present.
  match ← dirlookup dp name with
  | some ip =>
    iput ip
    return false
  | none => .perform (.setEntry dp name inum)

/-- Where `namex` is in its loop. -/
structure Walk where
  path : List Byte
  name : Chars
  ip : Entry

/-- What `namex` returns: an inode and the buffer `name`, or 0. -/
abbrev Found := Option (Entry × Chars)

/-- The body of the loop of `namex`. -/
def step (nameiparent : Bool) (w : Walk) : Code (Walk ⊕ Found) :=
  match skipelem w.path w.name with
  | some (path, name) => do
    ilock w.ip
    if (← .perform (.inode w.ip)).type ≠ T_DIR then
      iunlockput w.ip
      return .inr none
    else if nameiparent ∧ path.headD 0 = 0 then
      -- Stop one level early.
      iunlock w.ip
      return .inr (some (w.ip, name))
    else
      match ← dirlookup w.ip name with
      | none =>
        iunlockput w.ip
        return .inr none
      | some next =>
        iunlockput w.ip
        return .inl ⟨path, name, next⟩
  | none =>
    if nameiparent then do
      iput w.ip
      return .inr none
    else
      return .inr (some (w.ip, w.name))

/-- Look up and return the inode for a path name. -/
def namex (path : List Byte) (nameiparent : Bool) (name : Chars) : Code Found := do
  let ip ← if path.headD 0 = SLASH then
      iget (BitVec.ofNat 32 Fs.ROOTINO)
    else
      (Prog.perform .cwd).bind idup
  Prog.loop (step nameiparent) ⟨path, name, ip⟩

def namei (path : List Byte) : Code (Option Entry) := do
  let r ← namex path false fun _ => 0
  return r.map (·.1)

def nameiparent (path : List Byte) : Code Found := namex path true fun _ => 0

/-! ## System calls -/

/-- `create`, from `fail` on: something went wrong, de-allocate ip. -/
def createFail (dp ip : Entry) : Code (Option Entry) := do
  let d ← .perform (.inode ip)
  .perform (.setInode ip { d with nlink := 0 })
  iunlockput ip
  iunlockput dp
  return none

/-- The entries that `create` makes; whether it could. -/
def createEntries (dp ip : Entry) (name : Chars) (type : I16) : Code Bool := do
  let inum ← .perform (.inum ip)
  if type = T_DIR then
    -- No ip->nlink++ for ".": avoid cyclic ref count.
    if !(← dirlink ip (dots 1) inum) then
      return false
    else if !(← dirlink ip (dots 2) (← .perform (.inum dp))) then
      return false
    else
      dirlink dp name inum
  else
    dirlink dp name inum

/-- A new directory counts its parent, for "..". -/
def createParent (dp : Entry) (type : I16) : Code Unit := do
  if type = T_DIR then
    let d ← .perform (.inode dp)
    .perform (.setInode dp { d with nlink := d.nlink + 1 })

/-- The inode for `path`, locked; a new one if there is none. -/
def create (ninodes : Nat) (path : List Byte) (type major minor : I16) :
    Code (Option Entry) := do
  match ← nameiparent path with
  | none => return none
  | some (dp, name) =>
    ilock dp
    match ← dirlookup dp name with
    | some ip =>
      iunlockput dp
      ilock ip
      let d ← .perform (.inode ip)
      if type = T_FILE ∧ (d.type = T_FILE ∨ d.type = T_DEVICE) then
        return some ip
      else
        iunlockput ip
        return none
    | none =>
      match ← ialloc ninodes type with
      | none =>
        iunlockput dp
        return none
      | some ip =>
        ilock ip
        let d ← .perform (.inode ip)
        .perform (.setInode ip { d with major := major, minor := minor, nlink := 1 })
        if ← createEntries dp ip name type then
          -- now that success is guaranteed
          createParent dp type
          iunlockput dp
          return some ip
        else
          createFail dp ip

/-- Close file f.  (Decrement ref count, close when reaches 0.) -/
def fileclose (f : FileNo) : Code Unit := do
  match ← .perform (.fileclose f) with
  | none => panic "fileclose"
  | some none => return
  | some (some ip) => iput ip

/-- The inode that `sys_open` opens, locked. -/
def openInode (ninodes : Nat) (path : List Byte) (omode : U32) : Code (Option Entry) := do
  if omode &&& O_CREATE ≠ 0 then
    create ninodes path T_FILE 0 0
  else
    match ← namei path with
    | none => return none
    | some ip =>
      ilock ip
      if (← .perform (.inode ip)).type = T_DIR ∧ omode ≠ Fs.O_RDONLY then
        iunlockput ip
        return none
      else
        return some ip

/-- A file and a descriptor for it are allocated; `none` if there are not
both. -/
def openFile : Code (Option (FileNo × Fd)) := do
  match ← .perform .filealloc with
  | none => return none
  | some f =>
    match ← .perform (.fdalloc f) with
    | none =>
      fileclose f
      return none
    | some fd => return some (f, fd)

/-- `open`; what `O_TRUNC` does to the file is left out. -/
def sys_open (ninodes : Nat) (path : List Byte) (omode : U32) : Code Int := do
  match ← openInode ninodes path omode with
  | none => return -1
  | some ip =>
    let d ← .perform (.inode ip)
    if d.type = T_DEVICE ∧ (d.major.toInt < 0 ∨ (NDEV : Int) ≤ d.major.toInt) then
      iunlockput ip
      return -1
    else
      match ← openFile with
      | none =>
        iunlockput ip
        return -1
      | some (f, fd) =>
        .perform (.fill f ip (if d.type = T_DEVICE then .device else .inode))
        iunlock ip
        return fd

def sys_mkdir (ninodes : Nat) (path : List Byte) : Code Int := do
  match ← create ninodes path T_DIR 0 0 with
  | none => return -1
  | some ip =>
    iunlockput ip
    return 0

def sys_mknod (ninodes : Nat) (path : List Byte) (major minor : I16) : Code Int := do
  match ← create ninodes path T_DEVICE major minor with
  | none => return -1
  | some ip =>
    iunlockput ip
    return 0

def sys_chdir (path : List Byte) : Code Int := do
  match ← namei path with
  | none => return -1
  | some ip =>
    ilock ip
    if (← .perform (.inode ip)).type ≠ T_DIR then
      iunlockput ip
      return -1
    else
      iunlock ip
      iput (← .perform .cwd)
      .perform (.setCwd ip)
      return 0

/-- `exec`, as far as it uses the inode of the program. -/
def exec (path : List Byte) : Code Int := do
  match ← namei path with
  | none => return -1
  | some ip =>
    ilock ip
    iunlockput ip
    return 0

def sys_close (fd : Nat) : Code Int := do
  match ← .perform (.ofile fd) with
  | none => return -1
  | some f =>
    .perform (.clear fd)
    fileclose f
    return 0

/-- What a process does with a call. -/
def syscall (ninodes : Nat) : Call → Code Int
  | .open path omode => sys_open ninodes path omode
  | .mkdir path => sys_mkdir ninodes path
  | .mknod path major minor => sys_mknod ninodes path major minor
  | .chdir path => sys_chdir path
  | .exec path => exec path
  | .close fd => sys_close fd

/-- A process makes one call after another. -/
def main (ninodes : Nat) : Code Empty := Prog.forever do
  let call ← .perform .next
  let _ ← syscall ninodes call

end Code

def machine (ninodes : Nat) : Machine Op State Slot Slot Input where
  running _ p := p
  exec := exec
  restarts _ := none
  main _ := Code.main ninodes

/-- All processes are in the root directory and have no files open. -/
def start (ninodes : Nat) (inode : Inum → Dinode) (entry : Inum → List Byte → Option Inum) :
    Config Op State Slot where
  mem := {
    inum := fun _ => BitVec.ofNat 32 Fs.ROOTINO
    ref := fun e => if e = 0 then Fintype.card Slot else 0
    lock := fun _ => none
    file := fun _ => ⟨.none, 0, 0⟩
    ofile := fun _ _ => none
    cwd := fun _ => 0
    inode := inode
    entry := entry
    mine := fun _ => {0}
    owner := fun _ => none }
  code _ := Code.main ninodes

end Xv6.Opens
