import Xv6.Fs.Names

/-!
# The system calls on files

`kernel/sysfile.c` and the part of `kernel/file.c` that the system calls on
paths use.  A call answers what it returns; the paths are the strings that
`argstr` has fetched.
-/

namespace Xv6.Fs

open Function (update)

/-! ## Constants of `param.h` and `fcntl.h` -/

abbrev NOFILE : Nat := 16
abbrev NFILE : Nat := 100
abbrev NDEV : Nat := 10
abbrev MAXOPBLOCKS : Nat := 10

abbrev O_RDONLY : U32 := 0x000
abbrev O_WRONLY : U32 := 0x001
abbrev O_RDWR : U32 := 0x002
abbrev O_CREATE : U32 := 0x200
abbrev O_TRUNC : U32 := 0x400

/-! ## Open files -/

inductive FileType
  | none
  | pipe
  | inode
  | device
  deriving DecidableEq

/-- `struct file`, without its pipe. -/
structure File where
  type : FileType
  ref : Nat
  readable : Bool
  writable : Bool
  ip : Nat
  off : U32
  major : I16

/-- `ftable.file` and the descriptors of the process. -/
structure Files where
  file : Nat → File
  ofile : Nat → Option Nat
  /-- A file that is not in use has no type. -/
  idle : ∀ f, (file f).ref = 0 → (file f).type = .none

namespace Files

/-- `ftable.file[f] = x` -/
def set (fs : Files) (f : Nat) (x : File) (h : x.ref = 0 → x.type = .none) : Files where
  file := update fs.file f x
  ofile := fs.ofile
  idle g := by
    by_cases hg : g = f
    · rw [hg, Function.update_self]
      exact h
    · rw [Function.update_of_ne hg]
      exact fs.idle g

/-- Allocate a file structure. -/
def filealloc (fs : Files) : Option (Nat × Files) :=
  match (List.range NFILE).find? fun f => (fs.file f).ref = 0 with
  | some f => some (f, fs.set f { fs.file f with ref := 1 } fun h => absurd h Nat.one_ne_zero)
  | none => none

/-- Allocate a file descriptor for the given file. -/
def fdalloc (fs : Files) (f : Nat) : Option (Nat × Files) :=
  match (List.range NOFILE).find? fun fd => (fs.ofile fd).isNone with
  | some fd => some (fd, { fs with ofile := update fs.ofile fd (some f) })
  | none => none

end Files

variable (sb : Superblock)

/-- Close file f.  (Decrement ref count, close when reaches 0.)  The end of a
pipe is not closed here. -/
def fileclose (fs : Files) (f : Nat) : M Files := do
  let x := fs.file f
  if h : 1 < x.ref then
    return fs.set f { x with ref := x.ref - 1 } fun h' => by
      have hzero : x.ref - 1 = 0 := h'
      omega
  else if x.ref < 1 then
    panic "fileclose"
  else if x.type = .inode ∨ x.type = .device then
    iput sb x.ip
    return fs.set f { x with ref := 0, type := .none } fun _ => rfl
  else
    return fs.set f { x with ref := 0, type := .none } fun _ => rfl

/-! ## `link` and `unlink` -/

/-- `ip->nlink` is changed and the inode is saved. -/
def relink (ip : Nat) (f : I16 → I16) : M Unit := do
  setCopy ip fun d => { d with nlink := f d.nlink }
  iupdate sb ip

/-- `sys_link`, from `bad` on. -/
def unlinkBad (ip : Nat) : M Int := do
  ilock ip
  relink sb ip (· - 1)
  iunlockput sb ip
  return -1

/-- Create the path new as a link to the same inode as old. -/
def sys_link (cwd : Nat) (old new : List Byte) (name : Chars) : M Int := do
  match ← namei sb cwd old name with
  | none => return -1
  | some ip =>
    ilock ip
    if ((← get).copy ip).type = T_DIR then
      iunlockput sb ip
      return -1
    else
      relink sb ip (· + 1)
      iunlock ip
      match ← nameiparent sb cwd new name with
      | none => unlinkBad sb ip
      | some (dp, name) =>
        ilock dp
        let r ← dirlink sb dp name ip
        iunlockput sb dp
        if r < 0 then
          unlinkBad sb ip
        else
          iput sb ip
          return 0

/-- Is the directory dp empty except for "." and ".." ? -/
def isdirempty (dp : Nat) : M Bool := do
  let size := ((← get).copy dp).size
  let live ← Run.findM? (fun off => do
    let de ← readEntry sb "isdirempty: readi" dp off
    return if de.inum = 0 then none else some off) ((offsets size).drop 2)
  return live.isNone

/-- `sys_unlink`, from `bad` on. -/
def unlinkFail (dp : Nat) : M Int := do
  iunlockput sb dp
  return -1

/-- A directory that goes no longer counts its parent. -/
def unlinkParent (dp ip : Nat) : M Unit := do
  if ((← get).copy ip).type = T_DIR then
    relink sb dp (· - 1)

/-- The entry at `off` of `dp` goes, and with it a link of `ip`. -/
def unlinkEntry (dp ip off : Nat) : M Int := do
  zeroEntry sb dp off
  unlinkParent sb dp ip
  iunlockput sb dp
  relink sb ip (· - 1)
  iunlockput sb ip
  return 0

def sys_unlink (cwd : Nat) (path : List Byte) (name : Chars) : M Int := do
  match ← nameiparent sb cwd path name with
  | none => return -1
  | some (dp, name) =>
    ilock dp
    -- Cannot unlink "." or "..".
    if namecmp name (dots 1) = 0 ∨ namecmp name (dots 2) = 0 then
      unlinkFail sb dp
    else
      match ← dirlookup sb dp name with
      | none => unlinkFail sb dp
      | some (ip, off) =>
        ilock ip
        let d := (← get).copy ip
        if d.nlink.toInt < 1 then
          panic "unlink: nlink < 1"
        else if d.type = T_DIR then
          if ← isdirempty sb ip then
            unlinkEntry sb dp ip off
          else
            iunlockput sb ip
            unlinkFail sb dp
        else
          unlinkEntry sb dp ip off

/-! ## `create` and `open` -/

/-- `create`, from `fail` on: something went wrong, de-allocate ip. -/
def createFail (dp ip : Nat) : M (Option Nat) := do
  relink sb ip fun _ => 0
  iunlockput sb ip
  iunlockput sb dp
  return none

/-- The entries that `create` makes; whether it could. -/
def createEntries (dp ip : Nat) (name : Chars) (type : I16) : M Bool := do
  if type = T_DIR then
    -- No ip->nlink++ for ".": avoid cyclic ref count.
    if (← dirlink sb ip (dots 1) ip) < 0 then
      return false
    else if (← dirlink sb ip (dots 2) dp) < 0 then
      return false
    else
      return decide (0 ≤ (← dirlink sb dp name ip))
  else
    return decide (0 ≤ (← dirlink sb dp name ip))

/-- A new directory counts its parent, for "..". -/
def createParent (dp : Nat) (type : I16) : M Unit := do
  if type = T_DIR then
    relink sb dp (· + 1)

/-- The inode for `path`, locked; a new one if there is none. -/
def create (cwd : Nat) (path : List Byte) (type major minor : I16) (name : Chars) :
    M (Option Nat) := do
  match ← nameiparent sb cwd path name with
  | none => return none
  | some (dp, name) =>
    ilock dp
    match ← dirlookup sb dp name with
    | some (ip, _) =>
      iunlockput sb dp
      ilock ip
      let d := (← get).copy ip
      if type = T_FILE ∧ (d.type = T_FILE ∨ d.type = T_DEVICE) then
        return some ip
      else
        iunlockput sb ip
        return none
    | none =>
      match ← ialloc sb type with
      | none =>
        iunlockput sb dp
        return none
      | some ip =>
        ilock ip
        setCopy ip fun d => { d with major := major, minor := minor, nlink := 1 }
        iupdate sb ip
        if ← createEntries sb dp ip name type then
          -- now that success is guaranteed
          createParent sb dp type
          iunlockput sb dp
          return some ip
        else
          createFail sb dp ip

/-- The inode that `sys_open` opens, locked. -/
def openInode (cwd : Nat) (path : List Byte) (omode : U32) (name : Chars) : M (Option Nat) := do
  if omode &&& O_CREATE ≠ 0 then
    create sb cwd path T_FILE 0 0 name
  else
    match ← namei sb cwd path name with
    | none => return none
    | some ip =>
      ilock ip
      if ((← get).copy ip).type = T_DIR ∧ omode ≠ O_RDONLY then
        iunlockput sb ip
        return none
      else
        return some ip

/-- The file that `sys_open` fills in. -/
def opened (x : File) (d : Dinode) (ip : Nat) (omode : U32) : File :=
  { (if d.type = T_DEVICE then { x with type := .device, major := d.major }
      else { x with type := .inode, off := 0 }) with
    ip := ip
    readable := omode &&& O_WRONLY = 0
    writable := omode &&& O_WRONLY ≠ 0 ∨ omode &&& O_RDWR ≠ 0 }

/-- `O_TRUNC` empties a file. -/
def openTrunc (ip : Nat) (omode : U32) : M Unit := do
  if omode &&& O_TRUNC ≠ 0 ∧ ((← get).copy ip).type = T_FILE then
    itrunc sb ip

def sys_open (fs : Files) (cwd : Nat) (path : List Byte) (omode : U32) (name : Chars) :
    M (Int × Files) := do
  match ← openInode sb cwd path omode name with
  | none => return (-1, fs)
  | some ip =>
    let d := (← get).copy ip
    if d.type = T_DEVICE ∧ (d.major.toInt < 0 ∨ (NDEV : Int) ≤ d.major.toInt) then
      iunlockput sb ip
      return (-1, fs)
    else
      match fs.filealloc with
      | none =>
        iunlockput sb ip
        return (-1, fs)
      | some (f, fs) =>
        match fs.fdalloc f with
        | none =>
          let fs ← fileclose sb fs f
          iunlockput sb ip
          return (-1, fs)
        | some (fd, fs) =>
          let fs := fs.set f { opened (fs.file f) d ip omode with ref := 1 }
            fun h => absurd h Nat.one_ne_zero
          openTrunc sb ip omode
          iunlock ip
          return (fd, fs)

def sys_mkdir (cwd : Nat) (path : List Byte) (name : Chars) : M Int := do
  match ← create sb cwd path T_DIR 0 0 name with
  | none => return -1
  | some ip =>
    iunlockput sb ip
    return 0

def sys_mknod (cwd : Nat) (path : List Byte) (major minor : I16) (name : Chars) : M Int := do
  match ← create sb cwd path T_DEVICE major minor name with
  | none => return -1
  | some ip =>
    iunlockput sb ip
    return 0

/-- The current directory is part of the answer. -/
def sys_chdir (cwd : Nat) (path : List Byte) (name : Chars) : M (Int × Nat) := do
  match ← namei sb cwd path name with
  | none => return (-1, cwd)
  | some ip =>
    ilock ip
    if ((← get).copy ip).type = T_DIR then
      iunlock ip
      iput sb cwd
      return (0, ip)
    else
      iunlockput sb ip
      return (-1, cwd)

/-! ## `filewrite` -/

/-- How many bytes `filewrite` writes at a time. -/
abbrev maxWrite : Nat := (MAXOPBLOCKS - 1 - 1 - 2) / 2 * BSIZE

/-- One turn of the loop of `filewrite`: what `writei` returns, and `f->off`. -/
def writeChunk (ip : Nat) (src : Source) (off n1 : U32) : M (Int × U32) := do
  ilock ip
  let r ← writei sb ip src off n1
  iunlock ip
  return (r, if r > 0 then off + BitVec.ofInt 32 r else off)

/-- The loop of `filewrite`, which answers `i` and `f->off`; each turn writes
a byte at least. -/
def writeChunks (ip : Nat) (src : Source) (n : Nat) : (fuel i : Nat) → (off : U32) → M (Nat × U32)
  | 0, i, off => return (i, off)
  | fuel + 1, i, off =>
    if i < n then do
      let n1 := min (n - i) maxWrite
      let r ← writeChunk sb ip (fun j => src (i + j)) off (BitVec.ofNat 32 n1)
      if r.1 ≠ (n1 : Int) then
        -- error from writei
        return (i, r.2)
      else
        writeChunks ip src n fuel (i + n1) r.2
    else
      return (i, off)

/-- Write to file f.  `other` is what `pipewrite` or the device does. -/
def filewrite (other : M Int) (f : File) (src : Source) (n : Int) : M (Int × File) := do
  if f.writable = false then
    return (-1, f)
  else if f.type = .pipe ∨ f.type = .device then
    return (← other, f)
  else if f.type = .inode then
    let r ← writeChunks sb f.ip src n.toNat n.toNat 0 f.off
    return (if (r.1 : Int) = n then n else -1, { f with off := r.2 })
  else
    panic "filewrite"

end Xv6.Fs
