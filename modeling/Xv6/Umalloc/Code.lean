import Xv6.Links.Circular
import Xv6.Words.Memory

/-!
# The allocator of user programs

`user/umalloc.c` over the memory of its process, which is bytes.  A header is
sixteen bytes: a pointer, and a size that counts headers.  An address is a
number, and 0 is NULL.
-/

namespace Xv6.Umalloc

open Words (load store)

/-- `sizeof(Header)` -/
abbrev HEADER : Nat := 16

/-- The memory of the machine.  The pages of a process are pages of it, so the
break does not go further. -/
abbrev MEMORY : Nat := 128 * 1024 * 1024

/-- The memory of the process, the static `freep`, and the break.  `cores`
lists what `morecore` has got: where it begins, and how many headers it has
room for. -/
structure Heap where
  mem : Words.Mem
  freep : Nat
  brk : Nat
  cores : List (Nat × Nat)

/-- `p->s.ptr` -/
def ptr (m : Words.Mem) (p : Nat) : Nat := load m 8 p

/-- `p->s.size` -/
def size (m : Words.Mem) (p : Nat) : Nat := load m 4 (p + 8)

def setPtr (m : Words.Mem) (p v : Nat) : Words.Mem := store m 8 p v

def setSize (m : Words.Mem) (p v : Nat) : Words.Mem := store m 4 (p + 8) v

/-- A loop that makes more turns than there are bytes in memory does not end. -/
abbrev turns : Nat := 2 * MEMORY + 2

/-- The loop of `free`: where the block at `bp` belongs. -/
def search (m : Words.Mem) (bp : Nat) : (n p : Nat) → Option Nat
  | 0, _ => none
  | n + 1, p =>
    if bp > p ∧ bp < ptr m p then
      some p
    else if p ≥ ptr m p ∧ (bp > p ∨ bp < ptr m p) then
      some p
    else
      search m bp n (ptr m p)

/-- Join the block at `bp` to the one behind it, or link it to that one. -/
def joinUpper (m : Words.Mem) (bp p : Nat) : Words.Mem :=
  if bp + HEADER * size m bp = ptr m p then
    let m := setSize m bp (size m bp + size m (ptr m p))
    setPtr m bp (ptr m (ptr m p))
  else
    setPtr m bp (ptr m p)

/-- Join the block at `bp` to the one before it, or link that one to it. -/
def joinLower (m : Words.Mem) (bp p : Nat) : Words.Mem :=
  if p + HEADER * size m p = bp then
    let m := setSize m p (size m p + size m bp)
    setPtr m p (ptr m bp)
  else
    setPtr m p bp

def free (ap : Nat) (s : Heap) : Option Heap :=
  let bp := ap - HEADER
  (search s.mem bp turns s.freep).map fun p =>
    { s with mem := joinLower (joinUpper s.mem bp p) bp p, freep := p }

/-- The size of a process of size `sz` after `sbrk(n)`.  A request to go below
zero is answered as a success, and does nothing. -/
def resized (sz : Nat) (n : BitVec 32) : Nat :=
  if (sz : Int) + n.toInt < 0 then sz else ((sz : Int) + n.toInt).toNat

/-- `sbrk`: the old break, or `none` if there is no memory.  Whether there is is
up to the kernel. -/
def sbrk (grants : Nat → Bool) (n : BitVec 32) (s : Heap) : Option (Nat × Heap) :=
  if 0 < n.toInt ∧ ¬ (grants s.brk = true ∧ s.brk + n.toInt ≤ MEMORY) then
    none
  else
    some (s.brk, { s with brk := resized s.brk n })

/-- Where the last page of the process ends. -/
def mapped (brk : Nat) : Nat := (brk + 4095) / 4096 * 4096

/-- The first result is what it returns.  There is no result if the size in
the header is not in a page of the process, whose other headers are below the
break. -/
def morecore (grants : Nat → Bool) (nu : Nat) (s : Heap) : Option (Nat × Heap) :=
  let nu := if nu < 4096 then 4096 else nu
  -- the parameter of `sbrk` is an `int`
  match sbrk grants (BitVec.ofNat 32 (nu * HEADER)) s with
  | none => some (0, s)
  | some (hp, s) =>
    if hp + 12 ≤ mapped s.brk then
      let s := { s with mem := setSize s.mem hp nu, cores := (hp, nu) :: s.cores }
      (free (hp + HEADER) s).map fun s => (s.freep, s)
    else
      none

/-- Take `nunits` from the block at `p`, all of it or its tail. -/
def take (nunits prevp p : Nat) (s : Heap) : Nat × Heap :=
  let q := p + HEADER * (size s.mem p - nunits)
  if size s.mem p = nunits then
    (p + HEADER, { s with mem := setPtr s.mem prevp (ptr s.mem p), freep := prevp })
  else
    (q + HEADER,
      { s with mem := setSize (setSize s.mem p (size s.mem p - nunits)) q nunits, freep := prevp })

/-- The loop of `malloc`. -/
def mallocLoop (grants : Nat → Bool) (nunits : Nat) :
    (n : Nat) → (s : Heap) → (prevp p : Nat) → Option (Nat × Heap)
  | 0, _, _, _ => none
  | n + 1, s, prevp, p =>
    if size s.mem p ≥ nunits then
      some (take nunits prevp p s)
    else if p = s.freep then
      match morecore grants nunits s with
      | none => none
      | some (0, s) => some (0, s)
      | some (p, s) => mallocLoop grants nunits n s p (ptr s.mem p)
    else
      mallocLoop grants nunits n s p (ptr s.mem p)

/-- The headers for `nbytes` bytes, with the one of the block. -/
def units (nbytes : Nat) : Nat := (nbytes + HEADER - 1) / HEADER + 1

section system

-- where the static `base` is
variable (base : Nat)

def malloc (grants : Nat → Bool) (nbytes : Nat) (s : Heap) : Option (Nat × Heap) :=
  let s :=
    if s.freep = 0 then
      { s with mem := setSize (setPtr s.mem base base) base 0, freep := base }
    else
      s
  mallocLoop grants (units nbytes) turns s s.freep (ptr s.mem s.freep)

/-- A block that `malloc(n)` has returned and that is not freed. -/
structure Block where
  ap : Nat
  n : Nat
  deriving DecidableEq

structure System where
  heap : Heap
  live : List Block

/-- The program may write here: into a block that it has, or outside what the
allocator uses. -/
def System.Writable (s : System) (a : Nat) : Prop :=
  (∃ b ∈ s.live, b.ap ≤ a ∧ a < b.ap + b.n) ∨
    ((∀ c ∈ s.heap.cores, a < c.1 ∨ c.1 + HEADER * c.2 ≤ a) ∧ (a < base ∨ base + HEADER ≤ a))

/-- The request to `sbrk` fits in an `int`. -/
def Fits (n : Nat) : Prop := max 4096 (units n) * HEADER < 2 ^ 31

/-- What a program does. -/
inductive Step : System → System → Prop
  | malloc {s : System} {grants : Nat → Bool} {n ap : Nat} {h : Heap} (hn : Fits n)
      (heq : malloc base grants n s.heap = some (ap, h)) :
      Step s ⟨h, if ap = 0 then s.live else ⟨ap, n⟩ :: s.live⟩
  | free {s : System} {b : Block} {h : Heap} (hb : b ∈ s.live)
      (heq : free b.ap s.heap = some h) : Step s ⟨h, s.live.erase b⟩
  | sbrk {s : System} {grants : Nat → Bool} {n : BitVec 32} {p : Nat} {h : Heap}
      (hn : 0 ≤ n.toInt) (heq : sbrk grants n s.heap = some (p, h)) : Step s ⟨h, s.live⟩
  | write {s : System} {m : Words.Mem} (hm : ∀ a, m a = s.heap.mem a ∨ s.Writable base a) :
      Step s ⟨{ s.heap with mem := m }, s.live⟩

/-- The program starts with its data below the break. -/
def Start (s : System) : Prop :=
  s.heap.freep = 0 ∧ s.heap.cores = [] ∧ s.live = [] ∧ 0 < base ∧ base + HEADER ≤ s.heap.brk ∧
    s.heap.brk ≤ MEMORY

inductive Reachable : System → Prop
  | start {s : System} (h : Start base s) : Reachable s
  | step {s s' : System} (hs : Reachable s) (h : Step base s s') : Reachable s'

end system

end Xv6.Umalloc
