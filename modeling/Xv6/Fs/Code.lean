import Xv6.Run.Wp
import Xv6.Words.Memory
import Xv6.Proc.State
import Mathlib.Data.List.Dedup

/-!
# The file system, one operation at a time

The blocks, inodes and files of `kernel/fs.c`, for one operation that runs
alone, so that sleep-locks and buffers do not have to be waited for.  Blocks
are as `bread` finds them.  The bitmap and the inodes on disk are seen as such,
all other blocks are bytes.  There is one device, and an in-memory inode is
named by its number: `refs` lists the references, an inode once for each.
-/

namespace Xv6.Fs

open Function (update)
open Words (load store)

/-! ## Constants of `fs.h`, `param.h` and `stat.h` -/

abbrev BSIZE : Nat := 1024
abbrev NDIRECT : Nat := 12
abbrev NINDIRECT : Nat := BSIZE / 4
abbrev MAXFILE : Nat := NDIRECT + NINDIRECT
/-- Inodes per block. -/
abbrev IPB : Nat := BSIZE / 64
/-- Bitmap bits per block. -/
abbrev BPB : Nat := BSIZE * 8
abbrev NINODE : Nat := 50
abbrev ROOTINO : Nat := 1

abbrev I16 := BitVec 16

abbrev U32 := BitVec 32

abbrev T_DIR : I16 := 1
abbrev T_FILE : I16 := 2
abbrev T_DEVICE : I16 := 3

/-- `struct superblock`, as far as it is used after `fsinit`. -/
structure Superblock where
  size : Nat
  ninodes : Nat
  inodestart : Nat
  bmapstart : Nat
  /-- `size` is a uint. -/
  size_lt : size < 2 ^ 32

namespace Superblock

/-- Block containing inode `i`. -/
def IBLOCK (sb : Superblock) (i : Nat) : Nat := i / IPB + sb.inodestart

/-- Block of free map containing bit for block `b`. -/
def BBLOCK (sb : Superblock) (b : Nat) : Nat := b / BPB + sb.bmapstart

end Superblock

/-- What an inode holds, on disk and in memory. -/
structure Dinode where
  type : I16
  major : I16
  minor : I16
  nlink : I16
  size : Nat
  /-- `NDIRECT + 1` block numbers. -/
  addrs : Nat → Nat

/-- An inode after `memset`. -/
def Dinode.zero : Dinode := ⟨0, 0, 0, 0, 0, fun _ => 0⟩

/-- The disk and the inode table.  `logged` is history: the blocks that were
passed to `log_write`. -/
structure State where
  bitmap : Nat → Bool
  dinode : Nat → Dinode
  data : Nat → Words.Mem
  refs : List Nat
  valid : Nat → Bool
  copy : Nat → Dinode
  logged : List Nat

abbrev M := StateT State (Except String)

def panic {α : Type} (msg : String) : M α := throw msg

def logWrite (b : Nat) : M Unit := modify fun s => { s with logged := b :: s.logged }

def setData (b : Nat) (d : Words.Mem) : M Unit :=
  modify fun s => { s with data := update s.data b d }

def setBit (b : Nat) (v : Bool) : M Unit :=
  modify fun s => { s with bitmap := update s.bitmap b v }

def setCopy (ip : Nat) (f : Dinode → Dinode) : M Unit :=
  modify fun s => { s with copy := update s.copy ip (f (s.copy ip)) }

/-- `a[i]` of a block of block numbers. -/
def entry (d : Words.Mem) (i : Nat) : Nat := load d 4 (4 * i)

def setEntry (d : Words.Mem) (i v : Nat) : Words.Mem := store d 4 (4 * i) v

/-- `ip->addrs[i] = addr` -/
def Dinode.setAddr (d : Dinode) (i addr : Nat) : Dinode :=
  { d with addrs := update d.addrs i addr }

variable (sb : Superblock)

/-! ## Blocks -/

/-- Zero a block. -/
def bzero (b : Nat) : M Unit := do
  setData b fun _ => 0
  logWrite b

/-- Allocate a zeroed disk block; 0 if out of disk space. -/
def balloc : M Nat := do
  let s ← get
  match (List.range sb.size).find? fun b => !s.bitmap b with -- Is block free?
  | some b =>
    setBit b true -- Mark block in use.
    logWrite (sb.BBLOCK b)
    bzero b
    return b
  | none => return 0

/-- Free a disk block. -/
def bfree (b : Nat) : M Unit := do
  let s ← get
  if s.bitmap b then
    setBit b false
    logWrite (sb.BBLOCK b)
  else
    panic "freeing free block"

/-! ## Inodes -/

/-- Find the inode with number inum and return the in-memory copy. -/
def iget (inum : Nat) : M Nat := do
  let s ← get
  -- Is the inode already in the table?
  if inum ∈ s.refs then
    modify fun s => { s with refs := inum :: s.refs }
    return inum
  -- Recycle an inode entry.
  else if NINODE ≤ s.refs.dedup.length then
    panic "iget: no inodes"
  else
    modify fun s => { s with refs := inum :: s.refs, valid := update s.valid inum false }
    return inum

/-- Increment reference count for ip. -/
def idup (ip : Nat) : M Nat := do
  modify fun s => { s with refs := ip :: s.refs }
  return ip

/-- Allocate an inode; `none` if there is no free inode. -/
def ialloc (type : I16) : M (Option Nat) :=
  Run.findM? (fun inum => do
    let s ← get
    if (s.dinode inum).type = 0 then -- a free inode
      modify fun s => { s with
        dinode := update s.dinode inum { Dinode.zero with type := type } }
      logWrite (sb.IBLOCK inum) -- mark it allocated on the disk
      let ip ← iget inum
      return some ip
    else
      return none) (List.range' 1 (sb.ninodes - 1))

/-- Copy a modified in-memory inode to disk. -/
def iupdate (ip : Nat) : M Unit := do
  modify fun s => { s with dinode := update s.dinode ip (s.copy ip) }
  logWrite (sb.IBLOCK ip)

/-- Lock the given inode.  Reads the inode from disk if necessary. -/
def ilock (ip : Nat) : M Unit := do
  let s ← get
  if s.refs.count ip < 1 then
    panic "ilock"
  else if s.valid ip then
    return ()
  else
    modify fun s => { s with
      copy := update s.copy ip (s.dinode ip), valid := update s.valid ip true }
    if (s.dinode ip).type = 0 then
      panic "ilock: no type"

/-- Unlock the given inode. -/
def iunlock (ip : Nat) : M Unit := do
  let s ← get
  if s.refs.count ip < 1 then
    panic "iunlock"

/-- Free a block of an inode, if there is one. -/
def freeAddr (ip i : Nat) : M Unit := do
  let addr := ((← get).copy ip).addrs i
  if addr ≠ 0 then
    bfree sb addr
    setCopy ip fun d => d.setAddr i 0

/-- Free the indirect block of an inode, and the blocks in it, if there is
one. -/
def freeIndirect (ip : Nat) : M Unit := do
  let ind := ((← get).copy ip).addrs NDIRECT
  if ind ≠ 0 then
    (List.range NINDIRECT).forM fun j => do
      let a := entry ((← get).data ind) j
      if a ≠ 0 then
        bfree sb a
    bfree sb ind
    setCopy ip fun d => d.setAddr NDIRECT 0

/-- Truncate inode (discard contents). -/
def itrunc (ip : Nat) : M Unit := do
  (List.range NDIRECT).forM (freeAddr sb ip)
  freeIndirect sb ip
  setCopy ip fun d => { d with size := 0 }
  iupdate sb ip

/-- The inode has no links and no other references: truncate and free. -/
def ifree (ip : Nat) : M Unit := do
  itrunc sb ip
  setCopy ip fun d => { d with type := 0 }
  iupdate sb ip
  modify fun s => { s with valid := update s.valid ip false }

/-- `ip->ref--` -/
def unref (ip : Nat) : M Unit := modify fun s => { s with refs := s.refs.erase ip }

/-- Drop a reference to an in-memory inode. -/
def iput (ip : Nat) : M Unit := do
  let s ← get
  if s.refs.count ip = 1 ∧ s.valid ip = true ∧ (s.copy ip).nlink = 0 then
    ifree sb ip
    unref ip
  else
    unref ip

/-- Common idiom: unlock, then put. -/
def iunlockput (ip : Nat) : M Unit := do
  iunlock ip
  iput sb ip

/-! ## Inode content -/

/-- `ip->addrs[i]`, allocated if it is 0; 0 if out of disk space. -/
def addrOf (ip i : Nat) : M Nat := do
  let addr := ((← get).copy ip).addrs i
  if addr = 0 then
    let addr ← balloc sb
    if addr = 0 then
      return 0
    else
      setCopy ip fun d => d.setAddr i addr
      return addr
  else
    return addr

/-- Return the disk block address of the nth block in inode ip.  If there is
no such block, bmap allocates one; 0 if out of disk space. -/
def bmap (ip bn : Nat) : M Nat := do
  if bn < NDIRECT then
    addrOf sb ip bn
  else if bn - NDIRECT < NINDIRECT then
    -- Load indirect block, allocating if necessary.
    let ind ← addrOf sb ip NDIRECT
    if ind = 0 then
      return 0
    else
      let addr := entry ((← get).data ind) (bn - NDIRECT)
      if addr = 0 then
        let addr ← balloc sb
        if addr = 0 then
          return 0
        else
          setData ind (setEntry ((← get).data ind) (bn - NDIRECT) addr)
          logWrite ind
          return addr
      else
        return addr
  else
    panic "bmap: out of range"

/-- Where data goes to: whether the byte at each offset can be stored. -/
abbrev Dest := Nat → Bool

/-- Where data comes from: the byte at each offset, if its page is mapped. -/
abbrev Source := Nat → Option Byte

/-- A copy between `m` bytes of a block and memory at offset `tot` stops at
the first page that is not mapped. -/
def copied (mapped : Nat → Bool) (tot m : Nat) : Nat :=
  ((List.range m).find? fun i => !mapped (tot + i)).getD m

/-- The bytes of a block from `boff` on, with `k` bytes of the source put in. -/
def fill (d : Words.Mem) (boff : Nat) (src : Source) (tot k : Nat) : Words.Mem := fun a =>
  if boff ≤ a ∧ a < boff + k then (src (tot + (a - boff))).getD (d a) else d a

/-- `min(n - tot, BSIZE - off%BSIZE)` -/
def chunk (off left : Nat) : Nat := min left (BSIZE - off % BSIZE)

/-- The loop of `readi`, which answers what it has stored as well; each turn
reads a byte at least. -/
def readLoop (ip : Nat) (dst : Dest) (n : Nat) : (fuel tot off : Nat) → M (Int × List Byte)
  | 0, tot, _ => return (tot, [])
  | fuel + 1, tot, off =>
    if tot < n then do
      let addr ← bmap sb ip (off / BSIZE)
      if addr = 0 then
        return (tot, [])
      else
        let m := chunk off (n - tot)
        let k := copied dst tot m
        let d := (← get).data addr
        let bytes := (List.range k).map fun i => d (off % BSIZE + i)
        if k < m then
          return (-1, bytes)
        else
          let r ← readLoop ip dst n fuel (tot + m) (off + m)
          return (r.1, bytes ++ r.2)
    else
      return (tot, [])

/-- Read data from inode.  The bytes stored are part of the answer. -/
def readi (ip : Nat) (dst : Dest) (off n : U32) : M (Int × List Byte) := do
  let d := (← get).copy ip
  if off.toNat > d.size ∨ off + n < off then
    return (0, [])
  else if (off + n).toNat > d.size then
    readLoop sb ip dst (d.size - off.toNat) (d.size - off.toNat) 0 off.toNat
  else
    readLoop sb ip dst n.toNat n.toNat 0 off.toNat

/-- The loop of `writei`, which answers `tot`; each turn writes a byte at
least. -/
def writeLoop (ip : Nat) (src : Source) (n : Nat) : (fuel tot off : Nat) → M Nat
  | 0, tot, _ => return tot
  | fuel + 1, tot, off =>
    if tot < n then do
      let addr ← bmap sb ip (off / BSIZE)
      if addr = 0 then
        return tot
      else
        let m := chunk off (n - tot)
        let k := copied (fun i => (src i).isSome) tot m
        setData addr (fill ((← get).data addr) (off % BSIZE) src tot k)
        if k < m then
          return tot
        else
          logWrite addr
          writeLoop ip src n fuel (tot + m) (off + m)
    else
      return tot

/-- Write data to inode.  Returns the number of bytes successfully written;
if it is less than the requested n, there was an error of some kind. -/
def writei (ip : Nat) (src : Source) (off n : U32) : M Int := do
  let d := (← get).copy ip
  if off.toNat > d.size ∨ off + n < off then
    return -1
  else if (off + n).toNat > MAXFILE * BSIZE then
    return -1
  else
    let tot ← writeLoop sb ip src n.toNat n.toNat 0 off.toNat
    setCopy ip fun d => if off.toNat + tot > d.size then { d with size := off.toNat + tot } else d
    -- write the i-node back to disk even if the size didn't change because
    -- the loop above might have called bmap() and added a new block.
    iupdate sb ip
    return tot

end Xv6.Fs
