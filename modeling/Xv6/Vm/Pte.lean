import Xv6.Vm.PageTable
import Xv6.Radix.Tree
import Xv6.Pool.Moves

/-!
# Page-table entries and page tables in memory

What `riscv.h` does to the bits of an address and of an entry, and the shape of a page table: a
radix tree of depth 2 whose nodes are pages.  `Mem.pte` is the entry that
`walk` leads to.
-/

namespace Xv6

/-! ## Pages -/

theorem toNat_and_not_mask (a : U64) : (a &&& ~~~(4095 : U64)).toNat = a.toNat / 4096 * 4096 := by
  have hshift : a &&& ~~~(4095 : U64) = (a >>> 12) <<< 12 := by
    have hmask : ∀ i < 64, (4095 : U64).getLsbD i = decide (i < 12) := by decide
    apply BitVec.eq_of_getLsbD_eq
    intro i hi
    rw [BitVec.getLsbD_and, BitVec.getLsbD_not, hmask i hi, BitVec.getLsbD_shiftLeft,
      BitVec.getLsbD_ushiftRight]
    by_cases h : i < 12
    · simp [h]
    · simp [h, hi, show 12 + (i - 12) = i by omega]
  have hlt := a.isLt
  rw [hshift, BitVec.toNat_shiftLeft, BitVec.toNat_ushiftRight, Nat.shiftRight_eq_div_pow,
    Nat.shiftLeft_eq]
  omega

theorem toNat_PGROUNDDOWN (a : U64) : (PGROUNDDOWN a).toNat = a.toNat / 4096 * 4096 :=
  toNat_and_not_mask a

theorem toNat_sub_PGROUNDDOWN (a : U64) : (a - PGROUNDDOWN a).toNat = a.toNat % 4096 := by
  have hlt := a.isLt
  rw [BitVec.toNat_sub, toNat_PGROUNDDOWN]
  omega

theorem toNat_PGSIZE_sub (a : U64) :
    (PGSIZE - (a - PGROUNDDOWN a)).toNat = 4096 - a.toNat % 4096 := by
  rw [BitVec.toNat_sub, toNat_sub_PGROUNDDOWN, show PGSIZE.toNat = 4096 from rfl]
  omega

/-- The addresses up to the end of a page lie on that page. -/
theorem PGROUNDDOWN_add {a : U64} {i : Nat} (h : a.toNat % 4096 + i < 4096) :
    PGROUNDDOWN (a + BitVec.ofNat 64 i) = PGROUNDDOWN a := by
  have hlt := a.isLt
  apply BitVec.eq_of_toNat_eq
  rw [toNat_PGROUNDDOWN, toNat_PGROUNDDOWN, BitVec.toNat_add, BitVec.toNat_ofNat]
  omega

theorem mod_add {a : U64} {i : Nat} (h : a.toNat % 4096 + i < 4096) :
    (a + BitVec.ofNat 64 i).toNat % 4096 = a.toNat % 4096 + i := by
  have hlt := a.isLt
  rw [BitVec.toNat_add, BitVec.toNat_ofNat]
  omega

/-- The page after that of `a`. -/
theorem PGROUNDDOWN_add_PGSIZE (a : U64) :
    PGROUNDDOWN a + PGSIZE = a + BitVec.ofNat 64 (4096 - a.toNat % 4096) := by
  have hlt := a.isLt
  apply BitVec.eq_of_toNat_eq
  rw [BitVec.toNat_add, BitVec.toNat_add, toNat_PGROUNDDOWN, BitVec.toNat_ofNat,
    show PGSIZE.toNat = 4096 from rfl]
  omega

/-! ## Entries -/

theorem shift_page {pa : U64} (h : pa.toNat % 4096 = 0) : (pa >>> 12) <<< 12 = pa := by
  apply BitVec.eq_of_toNat_eq
  have hlt := pa.isLt
  simp only [BitVec.toNat_shiftLeft, BitVec.toNat_ushiftRight, Nat.shiftLeft_eq,
    Nat.shiftRight_eq_div_pow]
  omega

/-- Encoding an address and flags, and decoding the address. -/
theorem PTE2PA_PA2PTE {pa f : U64} (h : pa.toNat % 4096 = 0) (hf : f.toNat < 1024) :
    PTE2PA (PA2PTE pa ||| f) = pa := by
  have hshift : (pa >>> 12) <<< 10 >>> 10 = pa >>> 12 := by
    apply BitVec.eq_of_toNat_eq
    have hlt := pa.isLt
    simp only [BitVec.toNat_shiftLeft, BitVec.toNat_ushiftRight, Nat.shiftLeft_eq,
      Nat.shiftRight_eq_div_pow]
    omega
  have hzero : f >>> 10 = 0 := by
    apply BitVec.eq_of_toNat_eq
    rw [BitVec.toNat_ushiftRight, Nat.shiftRight_eq_div_pow]
    show f.toNat / 2 ^ 10 = 0
    omega
  unfold PTE2PA PA2PTE
  rw [BitVec.ushiftRight_or_distrib, hshift, hzero]
  simp [shift_page h]

/-- Encoding an address and flags, and decoding the flags. -/
theorem PTE_FLAGS_PA2PTE {pa f : U64} (hf : f.toNat < 1024) :
    PTE_FLAGS (PA2PTE pa ||| f) = f := by
  apply BitVec.eq_of_toNat_eq
  have hmask : (0x3FF : U64).toNat = 2 ^ 10 - 1 := rfl
  have hzero : ((pa >>> 12) <<< 10).toNat % 2 ^ 10 = 0 := by
    simp only [BitVec.toNat_shiftLeft, BitVec.toNat_ushiftRight, Nat.shiftLeft_eq]
    omega
  unfold PTE_FLAGS PA2PTE
  rw [BitVec.toNat_and, hmask, Nat.and_two_pow_sub_one_eq_mod, BitVec.toNat_or,
    Nat.or_mod_two_pow, Nat.mod_eq_of_lt hf, hzero, Nat.zero_or]

theorem or_and_absorb (x v : U64) : (x ||| v) &&& v = v := by
  apply BitVec.eq_of_getLsbD_eq
  intro i _
  rw [BitVec.getLsbD_and, BitVec.getLsbD_or]
  cases x.getLsbD i <;> cases v.getLsbD i <;> rfl

/-- The entry is in use. -/
def Valid (e : U64) : Prop := e &&& PTE_V ≠ 0

instance (e : U64) : Decidable (Valid e) := inferInstanceAs (Decidable (_ ≠ _))

theorem valid_or (x : U64) : Valid (x ||| PTE_V) := by
  unfold Valid
  rw [or_and_absorb]
  decide

theorem not_valid_zero : ¬ Valid 0 := by decide

/-- The flags decide which kind of entry it is. -/
theorem and_PTE_FLAGS (e f : U64) (hf : f.toNat < 1024) : PTE_FLAGS e &&& f = e &&& f := by
  apply BitVec.eq_of_toNat_eq
  have hmask : (0x3FF : U64).toNat = 2 ^ 10 - 1 := rfl
  unfold PTE_FLAGS
  rw [BitVec.toNat_and, BitVec.toNat_and, BitVec.toNat_and, hmask,
    Nat.and_two_pow_sub_one_eq_mod]
  calc e.toNat % 2 ^ 10 &&& f.toNat
      = e.toNat % 2 ^ 10 &&& f.toNat % 2 ^ 10 := by rw [Nat.mod_eq_of_lt hf]
    _ = (e.toNat &&& f.toNat) % 2 ^ 10 := Nat.and_mod_two_pow.symm
    _ = e.toNat &&& f.toNat := Nat.mod_eq_of_lt (Nat.lt_of_le_of_lt Nat.and_le_right hf)

/-! ## Indices -/

theorem PX_val (l : Nat) (va : U64) : (PX l va).val = va.toNat / 2 ^ (12 + 9 * l) % 512 := by
  unfold PX
  simp only [Fin.val_ofNat, BitVec.toNat_ushiftRight, Nat.shiftRight_eq_div_pow]

/-- The number of a virtual page: what the three indices make. -/
def vpn (va : U64) : Nat := va.toNat / 4096 % 2 ^ 27

/-- The path to the page-table page for an address, below level `l`. -/
def vpath : Nat → U64 → List (Fin 512)
  | 0, _ => []
  | l + 1, va => PX (l + 1) va :: vpath l va

theorem vpn_eq_iff {va vb : U64} : vpn va = vpn vb ↔
    vpath 2 va = vpath 2 vb ∧ PX 0 va = PX 0 vb := by
  unfold vpn vpath vpath vpath
  simp only [List.cons.injEq, and_true, Fin.ext_iff, PX_val, Nat.reduceAdd, Nat.reduceMul,
    Nat.reducePow]
  omega

theorem vpn_eq_iff_div {va vb : U64} (ha : va.toNat < 2 ^ 39) (hb : vb.toNat < 2 ^ 39) :
    vpn va = vpn vb ↔ va.toNat / 4096 = vb.toNat / 4096 := by
  unfold vpn
  omega

/-! ## Page tables -/

/-- The page that a valid entry refers to. -/
def pteChild (e : U64) : Option U64 := if Valid e then some (PTE2PA e) else none

theorem pteChild_of_valid {e : U64} (h : Valid e) : pteChild e = some (PTE2PA e) := if_pos h

theorem pteChild_of_not_valid {e : U64} (h : ¬ Valid e) : pteChild e = none := if_neg h

theorem pteChild_eq_none {e : U64} : pteChild e = none ↔ ¬ Valid e := by
  unfold pteChild
  split <;> simp_all

/-- The page-table page at the end of a path. -/
abbrev Mem.node (m : Mem) (root : U64) (p : List (Fin 512)) : Option U64 :=
  Radix.node pteChild m.page root p

/-- The entry for `va`, 0 when there is none. -/
def Mem.pte (m : Mem) (root va : U64) : U64 :=
  match m.node root (vpath 2 va) with
  | none => 0
  | some a => m.page a (PX 0 va)

theorem Mem.pte_eq {m : Mem} {root va a : U64} (h : m.node root (vpath 2 va) = some a) :
    m.pte root va = m.page a (PX 0 va) := by
  unfold Mem.pte
  rw [h]

theorem Mem.pte_of_none {m : Mem} {root va : U64} (h : m.node root (vpath 2 va) = none) :
    m.pte root va = 0 := by
  unfold Mem.pte
  rw [h]

theorem Mem.pte_vpn {m : Mem} {root va vb : U64} (h : vpn va = vpn vb) :
    m.pte root va = m.pte root vb := by
  obtain ⟨hpath, hindex⟩ := vpn_eq_iff.1 h
  unfold Mem.pte
  rw [hpath, hindex]

/-- A page that the allocator may own, as `kfree` checks it. -/
def Page (pa : U64) : Prop := pa.toNat % 4096 = 0 ∧ kernelEnd ≤ pa ∧ pa < PHYSTOP

instance (pa : U64) : Decidable (Page pa) := inferInstanceAs (Decidable (_ ∧ _ ∧ _))

/-- The entry of a page that a process, or the kernel for it, maps. -/
def Leaf (e : U64) : Prop := e &&& (PTE_R ||| PTE_W ||| PTE_X) ≠ 0

instance (e : U64) : Decidable (Leaf e) := inferInstanceAs (Decidable (_ ≠ _))

/-- There is a page table at `root`, and it consists of the pages `ts`. -/
structure Pagetable (m : Mem) (root : U64) (ts : List U64) : Prop where
  tree : Radix.Tree pteChild m.page root 2
  mem : ∀ a, a ∈ ts ↔ Radix.IsNode pteChild m.page root 2 a
  nodup : ts.Nodup
  page : ∀ a ∈ ts, Page a
  inner : ∀ p a i, p.length < 2 → m.node root p = some a → Valid (m.page a i) →
    PTE_FLAGS (m.page a i) = PTE_V
  leaf : ∀ p a i, p.length = 2 → m.node root p = some a → Valid (m.page a i) → Leaf (m.page a i)

/-- The pages `own` are handed out, and the others are free. -/
structure Held (m : Mem) (own : List U64) : Prop where
  apart : Pool.Apart m.freelist own
  page : ∀ a ∈ m.freelist ++ own, Page a

/-- A step that takes the holdings `own` to `own'`. -/
abbrev Mem.Moves (m m' : Mem) (own own' : List U64) : Prop :=
  Pool.Moves m.page m'.page m.freelist m'.freelist own own'

end Xv6
