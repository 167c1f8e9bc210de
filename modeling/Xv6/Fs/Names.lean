import Xv6.Fs.Code

/-!
# Directories and paths

`dirlookup`, `dirlink` and `namex` of `kernel/fs.c`.  A string is what lies at
a pointer, a byte for each offset; a path is the list of its bytes before the
terminating NUL.
-/

namespace Xv6.Fs

open Words (load)

abbrev DIRSIZ : Nat := 14

/-- `sizeof(struct dirent)` -/
abbrev DIRENT : Nat := 16

/-- What a `char *` points to. -/
abbrev Chars := Nat → Byte

/-- The string literal of one or two dots. -/
def dots (n : Nat) : Chars := fun i => if i < n then 46 else 0

structure Dirent where
  inum : Nat
  name : Chars

/-- The entry that sixteen bytes make. -/
def Dirent.ofBytes (bs : List Byte) : Dirent where
  inum := load (fun i => bs.getD i 0) 2 0
  name i := bs.getD (2 + i) 0

/-! ## `string.c` -/

def strncmp (p q : Chars) : Nat → Int
  | 0 => 0
  | n + 1 =>
    if p 0 ≠ 0 ∧ p 0 = q 0 then
      strncmp (fun i => p (i + 1)) (fun i => q (i + 1)) n
    else
      (p 0).toNat - (q 0).toNat

/-- What `strncpy` writes. -/
def strncpy (t : Chars) : Nat → List Byte
  | 0 => []
  | n + 1 => if t 0 = 0 then List.replicate (n + 1) 0 else t 0 :: strncpy (fun i => t (i + 1)) n

def namecmp (s t : Chars) : Int := strncmp s t DIRSIZ

/-! ## Directories -/

variable (sb : Superblock)

/-- The offsets of the entries of a directory. -/
def offsets (size : Nat) : List Nat :=
  (List.range ((size + (DIRENT - 1)) / DIRENT)).map (DIRENT * ·)

/-- Where the loop over the entries ends. -/
def lastOffset (size : Nat) : Nat := DIRENT * ((size + (DIRENT - 1)) / DIRENT)

/-- `readi(dp, 0, (uint64)&de, off, sizeof(de)) != sizeof(de)` -/
def readEntry (msg : String) (dp off : Nat) : M Dirent := do
  let r ← readi sb dp (fun _ => true) (BitVec.ofNat 32 off) (BitVec.ofNat 32 DIRENT)
  if r.1 = DIRENT then
    return Dirent.ofBytes r.2
  else
    panic msg

/-- Look for a directory entry in a directory.  The answer is the inode and
the byte offset of the entry. -/
def dirlookup (dp : Nat) (name : Chars) : M (Option (Nat × Nat)) := do
  let d := (← get).copy dp
  if d.type = T_DIR then
    Run.findM? (fun off => do
      let de ← readEntry sb "dirlookup read" dp off
      if de.inum = 0 then
        return none
      else if namecmp name de.name = 0 then
        -- entry matches path element
        let ip ← iget de.inum
        return some (ip, off)
      else
        return none) (offsets d.size)
  else
    panic "dirlookup not DIR"

/-- The bytes of an entry. -/
def entryBytes (name : List Byte) (inum : Nat) : List Byte :=
  BitVec.ofNat 8 inum :: BitVec.ofNat 8 (inum / 256) :: name

/-- Bytes in the kernel. -/
def kernel (bs : List Byte) : Source := fun i => some (bs.getD i 0)

/-- Write a new directory entry (name, inum) into the directory dp.  Returns 0
on success, -1 on failure (e.g. out of disk blocks). -/
def dirlink (dp : Nat) (name : Chars) (inum : Nat) : M Int := do
  -- Check that name is not present.
  match ← dirlookup sb dp name with
  | some (ip, _) =>
    iput sb ip
    return -1
  | none =>
    let size := ((← get).copy dp).size
    -- Look for an empty dirent.
    let slot ← Run.findM? (fun off => do
      let de ← readEntry sb "dirlink read" dp off
      return if de.inum = 0 then some off else none) (offsets size)
    let off := slot.getD (lastOffset size)
    let r ← writei sb dp (kernel (entryBytes (strncpy name DIRSIZ) inum)) (BitVec.ofNat 32 off)
      (BitVec.ofNat 32 DIRENT)
    return if r = DIRENT then 0 else -1

/-- `sys_unlink` zeroes the entry at `off`. -/
def zeroEntry (dp off : Nat) : M Unit := do
  let r ← writei sb dp (kernel (List.replicate DIRENT 0)) (BitVec.ofNat 32 off)
    (BitVec.ofNat 32 DIRENT)
  if r ≠ DIRENT then
    panic "unlink: writei"

/-! ## Paths -/

abbrev SLASH : Byte := 47

/-- `while(*path == '/') path++` -/
def skipSlashes : List Byte → List Byte
  | [] => []
  | c :: path => if c = SLASH then skipSlashes path else c :: path

/-- `while(*path != '/' && *path != 0) path++` -/
def skipName : List Byte → List Byte
  | [] => []
  | c :: path => if c ≠ SLASH ∧ c ≠ 0 then skipName path else c :: path

/-- Put `len` bytes of `s` into the buffer `name`, cut to `DIRSIZ` or with a
NUL behind them. -/
def setName (name : Chars) (s : List Byte) (len : Nat) : Chars := fun i =>
  if DIRSIZ ≤ len then
    if i < DIRSIZ then s.getD i 0 else name i
  else
    if i < len then s.getD i 0 else if i = len then 0 else name i

/-- Copy the next path element from path into name.  Return the element
following the copied one; `none` if there is no name to remove. -/
def skipelem (path : List Byte) (name : Chars) : Option (List Byte × Chars) :=
  let s := skipSlashes path
  if s.headD 0 = 0 then
    none
  else
    let path := skipName s
    some (skipSlashes path, setName name s (s.length - path.length))

/-- The loop of `namex`; a path has not more elements than bytes. -/
def namexLoop (nameiparent : Bool) :
    (fuel : Nat) → (path : List Byte) → (name : Chars) → (ip : Nat) → M (Option (Nat × Chars))
  | 0, _, _, _ => panic "namex: no end"
  | fuel + 1, path, name, ip =>
    match skipelem path name with
    | some (path, name) => do
      ilock ip
      if ((← get).copy ip).type = T_DIR then
        if nameiparent ∧ path.headD 0 = 0 then
          -- Stop one level early.
          iunlock ip
          return some (ip, name)
        else
          match ← dirlookup sb ip name with
          | none =>
            iunlockput sb ip
            return none
          | some (next, _) =>
            iunlockput sb ip
            namexLoop nameiparent fuel path name next
      else
        iunlockput sb ip
        return none
    | none =>
      if nameiparent then do
        iput sb ip
        return none
      else
        return some (ip, name)

/-- Look up and return the inode for a path name.  If nameiparent, return the
inode for the parent and copy the final path element into name. -/
def namex (cwd : Nat) (path : List Byte) (nameiparent : Bool) (name : Chars) :
    M (Option (Nat × Chars)) := do
  let ip ← if path.headD 0 = SLASH then iget ROOTINO else idup cwd
  namexLoop sb nameiparent (path.length + 1) path name ip

def namei (cwd : Nat) (path : List Byte) (name : Chars) : M (Option Nat) := do
  let r ← namex sb cwd path false name
  return r.map (·.1)

def nameiparent (cwd : Nat) (path : List Byte) (name : Chars) : M (Option (Nat × Chars)) :=
  namex sb cwd path true name

end Xv6.Fs
