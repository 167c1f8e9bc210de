import Xv6.Words.Records
import Xv6.Fs.Names

/-!
# Building an image

`mkfs/mkfs.c`.  The image is a file of blocks of bytes, and `struct dinode`
and `struct superblock` are laid out in them byte by byte.  The host is
little-endian, as riscv is.  `die` and a failed `assert` end the program with
a message.
-/

namespace Xv6.Mkfs

open Function (update)
open Words (load store put)
open Fs (BSIZE NDIRECT MAXFILE IPB I16 T_DIR T_FILE Superblock Dinode entry setEntry entryBytes
  DIRSIZ dots Chars SLASH)

/-! ## Constants of `param.h`, `fs.h` and `mkfs.c` -/

/-- Size of file system in blocks. -/
abbrev FSSIZE : Nat := 2000
abbrev MAXOPBLOCKS : Nat := 10
abbrev LOGSIZE : Nat := MAXOPBLOCKS * 3
abbrev FSMAGIC : Nat := 0x10203040
abbrev NINODES : Nat := 200

abbrev nbitmap : Nat := FSSIZE / (BSIZE * 8) + 1
abbrev ninodeblocks : Nat := NINODES / IPB + 1
abbrev nlog : Nat := LOGSIZE
/-- Number of meta blocks (boot, sb, nlog, inode, bitmap). -/
abbrev nmeta : Nat := 2 + nlog + ninodeblocks + nbitmap
/-- Number of data blocks. -/
abbrev nblocks : Nat := FSSIZE - nmeta

/-- `sizeof(struct dinode)` -/
abbrev DINODE : Nat := 64

/-- The superblock that `main` fills in. -/
def sb : Superblock where
  size := FSSIZE
  ninodes := NINODES
  inodestart := 2 + nlog
  bmapstart := 2 + nlog + ninodeblocks
  size_lt := by decide

/-- The image, and the counters. -/
structure Image where
  disk : Nat → Words.Mem
  /-- The length of the file in blocks. -/
  sectors : Nat
  freeinode : Nat
  freeblock : Nat

abbrev M := StateT Image (Except String)

/-- The file is empty, and `nmeta` is the first free block that we can
allocate. -/
def start : Image := ⟨fun _ _ => 0, 0, 1, nmeta⟩

def die {α : Type} (s : String) : M α := throw s

def assert (φ : Prop) [Decidable φ] (msg : String) : M Unit := if φ then pure () else throw msg

/-- Convert to riscv byte order. -/
def xshort (x : I16) : I16 := BitVec.ofNat 16 (load (store (fun _ => 0) 2 0 x.toNat) 2 0)

def xint (x : Nat) : Nat := load (store (fun _ => 0) 4 0 x) 4 0

/-! ## Sectors and inodes -/

/-- Where `lseek` to the uint `sec * BSIZE` goes. -/
def seek (sec : Nat) : Nat := sec * BSIZE % 2 ^ 32 / BSIZE

def wsect (sec : Nat) (buf : Words.Mem) : M Unit :=
  modify fun s => { s with
    disk := update s.disk (seek sec) buf, sectors := max s.sectors (seek sec + 1) }

def rsect (sec : Nat) : M Words.Mem := do
  let s ← get
  if seek sec < s.sectors then
    return s.disk (seek sec)
  else
    die "read"

/-- The fields of `struct dinode`. -/
def dinodeFields (d : Dinode) : Words.Record :=
  [(2, d.type.toNat), (2, d.major.toNat), (2, d.minor.toNat), (2, d.nlink.toNat), (4, d.size)] ++
    (List.range (NDIRECT + 1)).map fun i => (4, d.addrs i)

/-- The `struct dinode` at `p`. -/
def getDinode (m : Words.Mem) (p : Nat) : Dinode where
  type := BitVec.ofNat 16 (load m 2 p)
  major := BitVec.ofNat 16 (load m 2 (p + 2))
  minor := BitVec.ofNat 16 (load m 2 (p + 4))
  nlink := BitVec.ofNat 16 (load m 2 (p + 6))
  size := load m 4 (p + 8)
  addrs i := if i ≤ NDIRECT then load m 4 (p + (12 + 4 * i)) else 0

def winode (inum : Nat) (ip : Dinode) : M Unit := do
  let bn := sb.IBLOCK inum
  let buf ← rsect bn
  wsect bn (put buf (DINODE * (inum % IPB)) (dinodeFields ip))

def rinode (inum : Nat) : M Dinode := do
  let bn := sb.IBLOCK inum
  let buf ← rsect bn
  return getDinode buf (DINODE * (inum % IPB))

def ialloc (type : I16) : M Nat := do
  let inum := (← get).freeinode
  modify fun s => { s with freeinode := s.freeinode + 1 }
  winode inum { Dinode.zero with type := xshort type, nlink := xshort 1, size := xint 0 }
  return inum

/-- The block of the bitmap in which the first `used` bits are set. -/
def bits (used : Nat) : Words.Mem :=
  (List.range used).foldl (fun buf i => update buf (i / 8) (buf (i / 8) ||| 1 <<< (i % 8)))
    fun _ => 0

def balloc (used : Nat) : M Unit := do
  assert (used < BSIZE * 8) "used < BSIZE*8"
  wsect sb.bmapstart (bits used)

/-! ## Files -/

/-- `freeblock++` -/
def nextblock : M Nat := do
  let b := (← get).freeblock
  modify fun s => { s with freeblock := s.freeblock + 1 }
  return b

/-- `din.addrs[i]`, allocated if it is 0. -/
def addrOf (din : Dinode) (i : Nat) : M Dinode := do
  if xint (din.addrs i) = 0 then
    let b ← nextblock
    return din.setAddr i (xint b)
  else
    return din

/-- The block for the `fbn`th block of a file, and the inode with it. -/
def blockOf (din : Dinode) (fbn : Nat) : M (Nat × Dinode) := do
  if fbn < NDIRECT then
    let din ← addrOf din fbn
    return (xint (din.addrs fbn), din)
  else
    let din ← addrOf din NDIRECT
    let indirect ← rsect (xint (din.addrs NDIRECT))
    if entry indirect (fbn - NDIRECT) = 0 then
      let b ← nextblock
      let indirect := setEntry indirect (fbn - NDIRECT) (xint b)
      wsect (xint (din.addrs NDIRECT)) indirect
      return (xint (entry indirect (fbn - NDIRECT)), din)
    else
      return (xint (entry indirect (fbn - NDIRECT)), din)

/-- The first `n` bytes of `p` copied to a place in a buffer. -/
def bcopy (p : List Byte) (buf : Words.Mem) (q n : Nat) : Words.Mem := fun a =>
  if q ≤ a ∧ a < q + n then p.getD (a - q) 0 else buf a

/-- The loop of `iappend`, which answers `off` and `din`; each turn appends a
byte at least. -/
def appendLoop : (fuel : Nat) → (p : List Byte) → (off : Nat) → (din : Dinode) → M (Nat × Dinode)
  | 0, _, off, din => return (off, din)
  | fuel + 1, p, off, din =>
    if 0 < p.length then do
      let fbn := off / BSIZE
      assert (fbn < MAXFILE) "fbn < MAXFILE"
      let x ← blockOf din fbn
      let n1 := min p.length ((fbn + 1) * BSIZE - off)
      let buf ← rsect x.1
      wsect x.1 (bcopy p buf (off - fbn * BSIZE) n1)
      appendLoop fuel (p.drop n1) (off + n1) x.2
    else
      return (off, din)

/-- Append bytes to the file with number `inum`. -/
def iappend (inum : Nat) (p : List Byte) : M Unit := do
  let din ← rinode inum
  let r ← appendLoop p.length p (xint din.size) din
  winode inum { r.2 with size := xint r.1 }

/-! ## `main` -/

/-- An argument of `mkfs`, and what there is to read in the file. -/
structure Input where
  argv : List Byte
  /-- An argument is a C string. -/
  nul : (0 : Byte) ∉ argv
  /-- What the calls of `read` yield until there is no more; `none` if the file
  cannot be opened. -/
  reads : Option (List (List Byte))

/-- The string `user/`. -/
def USER : List Byte := [117, 115, 101, 114, 47]

/-- Get rid of `user/`. -/
def shortname (argv : List Byte) : List Byte :=
  if USER <+: argv then argv.drop 5 else argv

/-- Skip leading `_` in name when writing to file system. -/
def skip (shortname : List Byte) : List Byte :=
  if shortname.headD 0 = 95 then shortname.tail else shortname

/-- The bytes of a `struct dirent`. -/
def dirent (inum : Nat) (name : Chars) : List Byte :=
  entryBytes (Fs.strncpy name DIRSIZ) (xshort (BitVec.ofNat 16 inum)).toNat

/-- One turn of the loop over the arguments. -/
def addFile (rootino : Nat) (file : Input) : M Unit := do
  let name := shortname file.argv
  assert (name.idxOf? SLASH = none) "index(shortname, '/') == 0"
  match file.reads with
  | none => die "open"
  | some reads =>
    let inum ← ialloc T_FILE
    iappend rootino (dirent inum fun i => (skip name).getD i 0)
    reads.forM (iappend inum)

/-- Fix size of root inode dir. -/
def fixRoot (rootino : Nat) : M Unit := do
  let din ← rinode rootino
  let off := xint din.size
  winode rootino { din with size := xint ((off / BSIZE + 1) * BSIZE) }

def superblockFields : Words.Record :=
  [(4, FSMAGIC), (4, xint FSSIZE), (4, xint nblocks), (4, xint NINODES), (4, xint nlog),
    (4, xint 2), (4, xint (2 + nlog)), (4, xint (2 + nlog + ninodeblocks))]

def main (files : List Input) : M Unit := do
  (List.range FSSIZE).forM fun i => wsect i fun _ => 0
  wsect 1 (put (fun _ => 0) 0 superblockFields)
  let rootino ← ialloc T_DIR
  assert (rootino = Fs.ROOTINO) "rootino == ROOTINO"
  iappend rootino (dirent rootino (dots 1))
  iappend rootino (dirent rootino (dots 2))
  files.forM (addFile rootino)
  fixRoot rootino
  balloc (← get).freeblock

end Xv6.Mkfs
