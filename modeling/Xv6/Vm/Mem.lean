import Mathlib.Data.BitVec

/-!
# Physical memory and its allocator

`kernel/kalloc.c`.  Physical memory is a map from page addresses to pages of
512 words of 64 bits, which is how the page-table code reads it.  The list
of free pages that `kmem.freelist` threads through the pages themselves is a
`List` here.  A kernel `panic` is an exception that carries its message.
-/

namespace Xv6

/-- `uint64`. -/
abbrev U64 := BitVec 64

instance neZero_512 : NeZero 512 := ⟨by decide⟩

/-! ## Constants of `riscv.h` and `memlayout.h` -/

/-- Bytes per page. -/
def PGSIZE : U64 := 4096

def PGROUNDUP (sz : U64) : U64 := (sz + PGSIZE - 1) &&& ~~~(PGSIZE - 1)

def PGROUNDDOWN (a : U64) : U64 := a &&& ~~~(PGSIZE - 1)

/-- One beyond the highest possible virtual address. -/
def MAXVA : U64 := 1 <<< 38

def TRAMPOLINE : U64 := MAXVA - PGSIZE

def TRAPFRAME : U64 := TRAMPOLINE - PGSIZE

def PHYSTOP : U64 := 0x80000000 + 128 * 1024 * 1024

/-- The first address after the kernel, as `kernel.sym` gives it. -/
def kernelEnd : U64 := 0x80022750

/-- The page of `trampoline.S`, as `kernel.sym` gives it. -/
def trampolinePa : U64 := 0x80007000

/-! ## Memory -/

/-- Physical memory and `kmem.freelist`. -/
structure Mem where
  page : U64 → Fin 512 → U64
  freelist : List U64

/-- Code that works on physical memory, and may panic. -/
abbrev Vm := StateT Mem (Except String)

/-- `panic(msg)`. -/
def Vm.panic {α : Type} (msg : String) : Vm α := throw msg

namespace Mem

/-- Replace one page. -/
def setPage (m : Mem) (pa : U64) (ws : Fin 512 → U64) : Mem :=
  { m with page := fun a => if a = pa then ws else m.page a }

/-- Replace one word of a page. -/
def setWord (m : Mem) (pa : U64) (i : Fin 512) (w : U64) : Mem :=
  m.setPage pa fun j => if j = i then w else m.page pa j

/-- The byte at offset `off` of a page; words are little-endian. -/
def byte (m : Mem) (pa : U64) (off : Nat) : BitVec 8 :=
  (m.page pa (Fin.ofNat 512 (off / 8)) >>> (8 * (off % 8))).setWidth 8

/-- Replace one byte of a page. -/
def setByte (m : Mem) (pa : U64) (off : Nat) (b : BitVec 8) : Mem :=
  let i := Fin.ofNat 512 (off / 8)
  let k := 8 * (off % 8)
  m.setWord pa i ((m.page pa i &&& ~~~((0xFF : U64) <<< k)) ||| (b.setWidth 64 <<< k))

@[simp] theorem setPage_page (m : Mem) (pa a : U64) (ws : Fin 512 → U64) :
    (m.setPage pa ws).page a = if a = pa then ws else m.page a := rfl

@[simp] theorem setPage_freelist (m : Mem) (pa : U64) (ws : Fin 512 → U64) :
    (m.setPage pa ws).freelist = m.freelist := rfl

@[simp] theorem setWord_freelist (m : Mem) (pa : U64) (i : Fin 512) (w : U64) :
    (m.setWord pa i w).freelist = m.freelist := rfl

end Mem

theorem Vm.bind_ok {α β : Type} {x : Vm α} {f : α → Vm β} {m m' : Mem} {a : α}
    (h : x m = .ok (a, m')) : (x >>= f) m = f a m' := by
  show (x m).bind (fun r => f r.1 r.2) = f a m'
  rw [h]
  rfl

theorem Vm.of_bind {α β : Type} {x : Vm α} {f : α → Vm β} {m : Mem} {r : β × Mem}
    (h : (x >>= f) m = .ok r) : ∃ a m', x m = .ok (a, m') ∧ f a m' = .ok r := by
  have h : (x m).bind (fun r => f r.1 r.2) = .ok r := h
  cases hx : x m with
  | error msg =>
    rw [hx] at h
    cases h
  | ok r' =>
    rw [hx] at h
    exact ⟨r'.1, r'.2, rfl, h⟩

/-! ## Words and pages -/

/-- Read one word of a page. -/
def loadWord (pa : U64) (i : Fin 512) : Vm U64 := do return (← get).page pa i

/-- Write one word of a page. -/
def storeWord (pa : U64) (i : Fin 512) (w : U64) : Vm Unit := modify (·.setWord pa i w)

/-- `memset(pa, c, PGSIZE)`. -/
def memsetPage (pa : U64) (c : BitVec 8) : Vm Unit :=
  modify (·.setPage pa fun _ => c.setWidth 64 * 0x0101010101010101)

/-- `memmove(dst, src, PGSIZE)`. -/
def memmovePage (dst src : U64) : Vm Unit := modify fun m => m.setPage dst (m.page src)

/-! ## The allocator -/

/-- Free the page of physical memory pointed at by `pa`. -/
def kfree (pa : U64) : Vm Unit := do
  if pa % PGSIZE ≠ 0 ∨ pa < kernelEnd ∨ pa ≥ PHYSTOP then
    Vm.panic "kfree"
  -- Fill with junk to catch dangling refs.
  memsetPage pa 1
  modify fun m => { m with freelist := pa :: m.freelist }

/-- Allocate one page of physical memory; `none` when there is none left. -/
def kalloc : Vm (Option U64) := do
  match (← get).freelist with
  | [] => return none
  | r :: next =>
    modify fun m => { m with freelist := next }
    memsetPage r 5
    return some r

/-- Free the pages of `[paStart, paEnd)`. -/
def freerange (paStart paEnd : U64) : Vm Unit :=
  ((List.range ((paEnd.toNat - (PGROUNDUP paStart).toNat) / 4096)).map fun k =>
    PGROUNDUP paStart + PGSIZE * BitVec.ofNat 64 k).forM kfree

/-- Initialise the allocator. -/
def kinit : Vm Unit := freerange kernelEnd PHYSTOP

end Xv6
