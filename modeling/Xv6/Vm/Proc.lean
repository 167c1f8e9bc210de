import Xv6.Vm.PageTable

/-!
# The memory of a process

What the functions of `kernel/proc.c` do to the pages of a process: its page
table, its trapframe and its user memory.
-/

namespace Xv6.Vm

/-- Create a user page table for a process with the trapframe `trapframe`,
with no user memory, but with trampoline and trapframe pages. -/
def procPagetable (trapframe : U64) : Vm (Option U64) := do
  match ← uvmcreate with
  | none => return none
  | some pagetable =>
    match ← mappages pagetable TRAMPOLINE PGSIZE trampolinePa (PTE_R ||| PTE_X) with
    | none =>
      uvmfree pagetable 0
      return none
    | some () =>
      match ← mappages pagetable TRAPFRAME PGSIZE trapframe (PTE_R ||| PTE_W) with
      | none =>
        uvmunmap pagetable TRAMPOLINE 1 false
        uvmfree pagetable 0
        return none
      | some () => return some pagetable

/-- Free a process's page table, and free the physical memory it refers to. -/
def procFreepagetable (pagetable sz : U64) : Vm Unit := do
  uvmunmap pagetable TRAMPOLINE 1 false
  uvmunmap pagetable TRAPFRAME 1 false
  uvmfree pagetable sz

/-- What `struct proc` says about the memory of a process. -/
structure Image where
  sz : U64
  pagetable : U64
  trapframe : U64

/-- Free a proc structure and the data hanging from it, including user
pages.  `none` is a pointer that is `0`. -/
def freeproc (sz : U64) (pagetable trapframe : Option U64) : Vm Unit := do
  match trapframe with
  | none => pure ()
  | some trapframe => kfree trapframe
  match pagetable with
  | none => pure ()
  | some pagetable => procFreepagetable pagetable sz

/-- Initialise an unused slot of the process table; `none` when a memory
allocation fails. -/
def allocproc : Vm (Option Image) := do
  match ← kalloc with
  | none =>
    freeproc 0 none none
    return none
  | some trapframe =>
    match ← procPagetable trapframe with
    | none =>
      freeproc 0 none (some trapframe)
      return none
    | some pagetable => return some ⟨0, pagetable, trapframe⟩

/-- The number of words of `struct trapframe`. -/
def trapframeWords : Nat := 36

def trapframeEpc : Fin 512 := 3
def trapframeSp : Fin 512 := 6
def trapframeA0 : Fin 512 := 14
def trapframeA1 : Fin 512 := 15

/-- A user program that calls `exec("/init")`. -/
def initcode : List (BitVec 8) := [
  0x17, 0x05, 0x00, 0x00, 0x13, 0x05, 0x45, 0x02,
  0x97, 0x05, 0x00, 0x00, 0x93, 0x85, 0x35, 0x02,
  0x93, 0x08, 0x70, 0x00, 0x73, 0x00, 0x00, 0x00,
  0x93, 0x08, 0x20, 0x00, 0x73, 0x00, 0x00, 0x00,
  0xef, 0xf0, 0x9f, 0xff, 0x2f, 0x69, 0x6e, 0x69,
  0x74, 0x00, 0x00, 0x24, 0x00, 0x00, 0x00, 0x00,
  0x00, 0x00, 0x00, 0x00]

/-- Set up the first user process. -/
def userinit : Vm Image := do
  match ← allocproc with
  | none => Vm.panic "kerneltrap"
  | some p =>
    uvmfirst p.pagetable initcode
    -- prepare for the very first "return" from kernel to user
    storeWord p.trapframe trapframeEpc 0
    storeWord p.trapframe trapframeSp PGSIZE
    return { p with sz := PGSIZE }

/-- Grow or shrink user memory by `n` bytes. -/
def growproc (p : Image) (n : BitVec 32) : Vm (Option Image) := do
  if 0 < n.toInt then
    match ← uvmalloc p.pagetable p.sz (p.sz + n.signExtend 64) PTE_W with
    | none => return none
    | some sz =>
      if sz = 0 then
        return none
      return some { p with sz := sz }
  else if n.toInt < 0 then
    let sz ← uvmdealloc p.pagetable p.sz (p.sz + n.signExtend 64)
    return some { p with sz := sz }
  else
    return some p

/-- Create a new process, copying the parent `p`. -/
def fork (p : Image) : Vm (Option Image) := do
  match ← allocproc with
  | none => return none
  | some np =>
    match ← uvmcopy p.pagetable np.pagetable p.sz with
    | none =>
      freeproc np.sz (some np.pagetable) (some np.trapframe)
      return none
    | some () =>
      -- copy saved user registers
      modify fun m => m.setPage np.trapframe fun i =>
        if i.val < trapframeWords then m.page p.trapframe i else m.page np.trapframe i
      -- cause fork to return 0 in the child
      storeWord np.trapframe trapframeA0 0
      return some { np with sz := p.sz }

end Xv6.Vm
