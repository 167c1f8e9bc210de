import Xv6.Vm.Mem

/-!
# User page tables

`kernel/vm.c`: the three-level page tables of Sv39, and the functions that
build, copy and free a process's address space.  A function that returns
`0` or `-1` in the source returns `some ()` or `none` here; one that returns
a page or `0` returns `some` page or `none`.
-/

namespace Xv6

/-! ## Page-table entries -/

def PTE_V : U64 := 1
def PTE_R : U64 := 2
def PTE_W : U64 := 4
def PTE_X : U64 := 8
def PTE_U : U64 := 16

def PA2PTE (pa : U64) : U64 := (pa >>> 12) <<< 10

def PTE2PA (pte : U64) : U64 := (pte >>> 10) <<< 12

def PTE_FLAGS (pte : U64) : U64 := pte &&& 0x3FF

/-- The index into the page table of one level. -/
def PX (level : Nat) (va : U64) : Fin 512 := Fin.ofNat 512 (va >>> (12 + 9 * level)).toNat

/-- Where a page-table entry lies: the page, and the index in it. -/
abbrev PteRef := U64 × Fin 512

def loadPte (r : PteRef) : Vm U64 := loadWord r.1 r.2

def storePte (r : PteRef) (pte : U64) : Vm Unit := storeWord r.1 r.2 pte

/-! ## Walking -/

/-- The loop of `walk` over the levels above 0. -/
def walkFrom (va : U64) (alloc : Bool) : Nat → U64 → Vm (Option PteRef)
  | 0, pagetable => return some (pagetable, PX 0 va)
  | level + 1, pagetable => do
    let ref := (pagetable, PX (level + 1) va)
    let pte ← loadPte ref
    if pte &&& PTE_V ≠ 0 then
      walkFrom va alloc level (PTE2PA pte)
    else if !alloc then
      return none
    else
      match ← kalloc with
      | none => return none
      | some page =>
        memsetPage page 0
        storePte ref (PA2PTE page ||| PTE_V)
        walkFrom va alloc level page

/-- The place of the entry for `va`; with `alloc`, create the page-table
pages that are missing on the way. -/
def walk (pagetable va : U64) (alloc : Bool) : Vm (Option PteRef) := do
  if va ≥ MAXVA then
    Vm.panic "walk"
  walkFrom va alloc 2 pagetable

/-- Look up a virtual address, return the physical address.  The callers take
the address 0 for a failure. -/
def walkaddr (pagetable va : U64) : Vm (Option U64) := do
  if va ≥ MAXVA then
    return none
  match ← walk pagetable va false with
  | none => return none
  | some ref =>
    let pte ← loadPte ref
    if pte &&& PTE_V = 0 then
      return none
    if pte &&& PTE_U = 0 then
      return none
    let pa := PTE2PA pte
    if pa = 0 then
      return none
    return some pa

/-! ## Mapping and unmapping -/

/-- The loop of `mappages`, for the page at `a` and `n` pages after it. -/
def mapFrom (pagetable perm : U64) : Nat → U64 → U64 → Vm (Option Unit)
  | n, a, pa => do
    match ← walk pagetable a true with
    | none => return none
    | some ref =>
      if (← loadPte ref) &&& PTE_V ≠ 0 then
        Vm.panic "mappages: remap"
      storePte ref (PA2PTE pa ||| perm ||| PTE_V)
      match n with
      | 0 => return some ()
      | n + 1 => mapFrom pagetable perm n (a + PGSIZE) (pa + PGSIZE)

/-- Create entries for the pages of `[va, va + size)` that refer to physical
addresses from `pa` on. -/
def mappages (pagetable va size pa perm : U64) : Vm (Option Unit) := do
  if size = 0 then
    Vm.panic "mappages: size"
  let a := PGROUNDDOWN va
  let last := PGROUNDDOWN (va + size - 1)
  mapFrom pagetable perm ((last - a) / PGSIZE).toNat a pa

/-- The addresses `a`, `a + PGSIZE`, … below `limit`. -/
def pagesBelow (a limit : U64) : List U64 :=
  (List.range ((limit.toNat - a.toNat + 4095) / 4096)).map fun k => a + PGSIZE * BitVec.ofNat 64 k

/-- One round of the loop of `uvmunmap`. -/
def unmapPage (pagetable : U64) (doFree : Bool) (a : U64) : Vm Unit := do
  match ← walk pagetable a false with
  | none => Vm.panic "uvmunmap: walk"
  | some ref =>
    let pte ← loadPte ref
    if pte &&& PTE_V = 0 then
      Vm.panic "uvmunmap: not mapped"
    if PTE_FLAGS pte = PTE_V then
      Vm.panic "uvmunmap: not a leaf"
    if doFree then
      kfree (PTE2PA pte)
    storePte ref 0

/-- Remove `npages` of mappings starting from `va`, which must exist. -/
def uvmunmap (pagetable va npages : U64) (doFree : Bool) : Vm Unit := do
  if va % PGSIZE ≠ 0 then
    Vm.panic "uvmunmap: not aligned"
  (pagesBelow va (va + npages * PGSIZE)).forM (unmapPage pagetable doFree)

/-- Write a byte string into one page. -/
def storeBytes (pa : U64) : Nat → List (BitVec 8) → Vm Unit
  | _, [] => return ()
  | off, b :: bs => do
    modify (·.setByte pa off b)
    storeBytes pa (off + 1) bs

/-! ## Building and freeing an address space -/

/-- Create an empty user page table. -/
def uvmcreate : Vm (Option U64) := do
  match ← kalloc with
  | none => return none
  | some pagetable =>
    memsetPage pagetable 0
    return some pagetable

/-- Load the user initcode into address 0 of `pagetable`, for the very first
process. -/
def uvmfirst (pagetable : U64) (src : List (BitVec 8)) : Vm Unit := do
  if src.length ≥ 4096 then
    Vm.panic "uvmfirst: more than a page"
  match ← kalloc with
  | none => Vm.panic "kerneltrap"
  | some mem =>
    memsetPage mem 0
    let _ ← mappages pagetable 0 PGSIZE mem (PTE_W ||| PTE_R ||| PTE_X ||| PTE_U)
    storeBytes mem 0 src

/-- Deallocate user pages to bring the process size from `oldsz` to `newsz`. -/
def uvmdealloc (pagetable oldsz newsz : U64) : Vm U64 := do
  if newsz ≥ oldsz then
    return oldsz
  if PGROUNDUP newsz < PGROUNDUP oldsz then
    -- `int npages`: the quotient is cut to 32 bits and extended with its sign
    let npages := (((PGROUNDUP oldsz - PGROUNDUP newsz) / PGSIZE).setWidth 32).signExtend 64
    uvmunmap pagetable (PGROUNDUP newsz) npages true
  return newsz

/-- The loop of `uvmalloc`, over the pages still to allocate. -/
def uvmallocLoop (pagetable oldsz newsz xperm : U64) : List U64 → Vm (Option U64)
  | [] => return some newsz
  | a :: rest => do
    match ← kalloc with
    | none =>
      let _ ← uvmdealloc pagetable a oldsz
      return none
    | some mem =>
      memsetPage mem 0
      match ← mappages pagetable a PGSIZE mem (PTE_R ||| PTE_U ||| xperm) with
      | none =>
        kfree mem
        let _ ← uvmdealloc pagetable a oldsz
        return none
      | some () => uvmallocLoop pagetable oldsz newsz xperm rest

/-- Allocate entries and memory to grow a process from `oldsz` to `newsz`;
the new size, or `none` for `0`. -/
def uvmalloc (pagetable oldsz newsz xperm : U64) : Vm (Option U64) := do
  if newsz < oldsz then
    return some oldsz
  let oldsz := PGROUNDUP oldsz
  uvmallocLoop pagetable oldsz newsz xperm (pagesBelow oldsz newsz)

/-- The loop of `freewalk` over the last `n` of the 512 entries, where
`child` frees a lower-level page table. -/
def freewalkEntries (child : U64 → Vm Unit) (pagetable : U64) : Nat → Vm Unit
  | 0 => return ()
  | n + 1 => do
    let ref := (pagetable, Fin.ofNat 512 (512 - (n + 1)))
    let pte ← loadPte ref
    if pte &&& PTE_V ≠ 0 ∧ pte &&& (PTE_R ||| PTE_W ||| PTE_X) = 0 then
      -- this entry points to a lower-level page table
      child (PTE2PA pte)
      storePte ref 0
    else if pte &&& PTE_V ≠ 0 then
      Vm.panic "freewalk: leaf"
    freewalkEntries child pagetable n

/-- Recursively free page-table pages.  `depth` bounds the recursion of the
source: a page table has three levels, and a deeper one is a panic here. -/
def freewalk : Nat → U64 → Vm Unit
  | 0, _ => Vm.panic "freewalk: depth"
  | depth + 1, pagetable => do
    freewalkEntries (freewalk depth) pagetable 512
    kfree pagetable

/-- Free user memory pages, then free page-table pages. -/
def uvmfree (pagetable sz : U64) : Vm Unit := do
  if sz > 0 then
    uvmunmap pagetable 0 (PGROUNDUP sz / PGSIZE) true
  freewalk 3 pagetable

/-- The loop of `uvmcopy`, over the pages still to copy. -/
def uvmcopyLoop (old new : U64) : List U64 → Vm (Option Unit)
  | [] => return some ()
  | i :: rest => do
    match ← walk old i false with
    | none => Vm.panic "uvmcopy: pte should exist"
    | some ref =>
      let pte ← loadPte ref
      if pte &&& PTE_V = 0 then
        Vm.panic "uvmcopy: page not present"
      let err : Vm (Option Unit) := do
        uvmunmap new 0 (i / PGSIZE) true
        return none
      match ← kalloc with
      | none => err
      | some mem =>
        memmovePage mem (PTE2PA pte)
        match ← mappages new i PGSIZE mem (PTE_FLAGS pte) with
        | none =>
          kfree mem
          err
        | some () => uvmcopyLoop old new rest

/-- Given a parent's page table, copy its memory into a child's. -/
def uvmcopy (old new sz : U64) : Vm (Option Unit) := uvmcopyLoop old new (pagesBelow 0 sz)

/-- Mark the page at `va` invalid for user access, for the guard page of the
user stack. -/
def uvmclear (pagetable va : U64) : Vm Unit := do
  match ← walk pagetable va false with
  | none => Vm.panic "uvmclear"
  | some ref =>
    let pte ← loadPte ref
    storePte ref (pte &&& ~~~PTE_U)

/-! ## Copying between kernel and user -/

/-- Read a byte string from one page. -/
def loadBytes (pa : U64) (off n : Nat) : Vm (List (BitVec 8)) := do
  let m ← get
  return (List.range n).map fun k => m.byte pa (off + k)

/-- The loop of `copyout`; each round handles one page, so `fuel` rounds are
enough for a byte string of that length. -/
def copyoutLoop (pagetable : U64) : Nat → U64 → List (BitVec 8) → Vm (Option Unit)
  | _, _, [] => return some ()
  | 0, _, _ :: _ => return none
  | fuel + 1, dstva, src => do
    let va0 := PGROUNDDOWN dstva
    match ← walkaddr pagetable va0 with
    | none => return none
    | some pa0 =>
      let n := min (PGSIZE - (dstva - va0)).toNat src.length
      storeBytes pa0 (dstva - va0).toNat (src.take n)
      copyoutLoop pagetable fuel (va0 + PGSIZE) (src.drop n)

/-- Copy `src` from kernel to the user address `dstva`. -/
def copyout (pagetable dstva : U64) (src : List (BitVec 8)) : Vm (Option Unit) :=
  copyoutLoop pagetable src.length dstva src

/-- The loop of `copyin`; each round handles one page. -/
def copyinLoop (pagetable : U64) : Nat → U64 → Nat → Vm (Option (List (BitVec 8)))
  | _, _, 0 => return some []
  | 0, _, _ + 1 => return none
  | fuel + 1, srcva, len => do
    let va0 := PGROUNDDOWN srcva
    match ← walkaddr pagetable va0 with
    | none => return none
    | some pa0 =>
      let n := min (PGSIZE - (srcva - va0)).toNat len
      let bytes ← loadBytes pa0 (srcva - va0).toNat n
      match ← copyinLoop pagetable fuel (va0 + PGSIZE) (len - n) with
      | none => return none
      | some more => return some (bytes ++ more)

/-- Copy `len` bytes from the user address `srcva` to kernel. -/
def copyin (pagetable srcva : U64) (len : Nat) : Vm (Option (List (BitVec 8))) :=
  copyinLoop pagetable len srcva len

/-- The loop of `copyinstr`.  `written` is what it has stored at `dst` so
far; the answer adds whether it has met the NUL. -/
def copyinstrLoop (pagetable : U64) : Nat → U64 → Nat → List (BitVec 8) →
    Vm (List (BitVec 8) × Option Unit)
  | _, _, 0, written => return (written, none)
  | 0, _, _ + 1, written => return (written, none)
  | fuel + 1, srcva, max, written => do
    let va0 := PGROUNDDOWN srcva
    match ← walkaddr pagetable va0 with
    | none => return (written, none)
    | some pa0 =>
      let n := min (PGSIZE - (srcva - va0)).toNat max
      let bytes ← loadBytes pa0 (srcva - va0).toNat n
      let text := bytes.takeWhile (· ≠ 0)
      if text.length < n then
        return (written ++ text ++ [0], some ())
      copyinstrLoop pagetable fuel (va0 + PGSIZE) (max - n) (written ++ text)

/-- Copy a NUL-terminated string from user to kernel: the bytes stored at
`dst`, and the result. -/
def copyinstr (pagetable srcva : U64) (max : Nat) : Vm (List (BitVec 8) × Option Unit) :=
  copyinstrLoop pagetable max srcva max []

/-- A store instruction of user code, which the processor checks against the
page table; `none` is a page fault. -/
def userStore (pagetable va : U64) (b : BitVec 8) : Vm (Option Unit) := do
  if va ≥ MAXVA then
    return none
  match ← walk pagetable va false with
  | none => return none
  | some ref =>
    let pte ← loadPte ref
    if pte &&& PTE_V = 0 ∨ pte &&& PTE_U = 0 ∨ pte &&& PTE_W = 0 then
      return none
    modify (·.setByte (PTE2PA pte) (va % PGSIZE).toNat b)
    return some ()

end Xv6
