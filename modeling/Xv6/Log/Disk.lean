import Mathlib.Data.BitVec
import Mathlib.Data.List.GetD
import Mathlib.Logic.Function.Basic

/-!
# Disk blocks and the log area

A block is 1024 bytes, seen as the 256 ints that `struct logheader` lays over
it.  `LogArea` is where the superblock puts the log: a header block, and the
log blocks behind it.  All other blocks are home blocks.
-/

namespace Xv6.Log

/-! ## Constants of `param.h` and `fs.h` -/

abbrev MAXOPBLOCKS : Nat := 10
abbrev LOGSIZE : Nat := MAXOPBLOCKS * 3
abbrev BSIZE : Nat := 1024

/-- The number of a block. -/
abbrev BlockNo := BitVec 32

instance neZero_256 : NeZero 256 := ⟨by decide⟩

/-- The contents of a block, as ints. -/
abbrev Block := Fin 256 → BitVec 32

abbrev Disk := BlockNo → Block

/-! ## The log area -/

/-- The fields of the superblock that `initlog` reads. -/
structure LogArea where
  logstart : BlockNo
  nlog : Nat
  pos : 1 ≤ nlog
  noWrap : logstart.toNat + nlog ≤ 2 ^ 32

/-- The superblock that `mkfs` writes. -/
def mkfsArea : LogArea := ⟨2, LOGSIZE, by decide, by decide⟩

namespace LogArea

variable (A : LogArea)

/-- The block lies outside the log. -/
def Home (b : BlockNo) : Prop :=
  b.toNat < A.logstart.toNat ∨ A.logstart.toNat + A.nlog ≤ b.toNat

instance (b : BlockNo) : Decidable (A.Home b) := inferInstanceAs (Decidable (_ ∨ _))

/-- `log.start+tail+1`. -/
def slot (tail : Nat) : BlockNo := A.logstart + BitVec.ofNat 32 tail + 1

theorem toNat_slot {tail : Nat} (h : tail + 1 < A.nlog) :
    (A.slot tail).toNat = A.logstart.toNat + tail + 1 := by
  have hwrap := A.noWrap
  unfold slot
  rw [BitVec.toNat_add, BitVec.toNat_add, BitVec.toNat_ofNat, show (1 : BlockNo).toNat = 1 from rfl]
  omega

theorem slot_ne_logstart {tail : Nat} (h : tail + 1 < A.nlog) : A.slot tail ≠ A.logstart := by
  intro heq
  have hslot := A.toNat_slot h
  rw [heq] at hslot
  omega

theorem slot_inj {tail tail' : Nat} (h : tail + 1 < A.nlog) (h' : tail' + 1 < A.nlog)
    (heq : A.slot tail = A.slot tail') : tail = tail' := by
  have hslot := A.toNat_slot h
  rw [heq, A.toNat_slot h'] at hslot
  omega

variable {A}

theorem Home.ne_slot {b : BlockNo} (hb : A.Home b) {tail : Nat} (h : tail + 1 < A.nlog) :
    A.slot tail ≠ b := by
  intro heq
  have hslot := A.toNat_slot h
  rw [heq] at hslot
  rcases hb with hb | hb <;> omega

theorem Home.ne_logstart {b : BlockNo} (hb : A.Home b) : b ≠ A.logstart := by
  intro heq
  have hpos := A.pos
  rw [heq] at hb
  rcases hb with hb | hb <;> omega

end LogArea

/-- A block outside the log. -/
abbrev HomeBlock (A : LogArea) := { b : BlockNo // A.Home b }

/-! ## The header -/

/-- The list `lh->block[0 .. lh->n)` of a header block. -/
def readHeader (hb : Block) : List BlockNo :=
  (List.range (hb 0).toInt.toNat).map fun i => hb (Fin.ofNat 256 (i + 1))

/-- The header block `hb` with a list stored in it. -/
def storeHeader (hb : Block) (lh : List BlockNo) : Block := fun w =>
  if w = 0 then BitVec.ofNat 32 lh.length else lh.getD (w.val - 1) (hb w)

theorem readHeader_storeHeader (hb : Block) {lh : List BlockNo} (h : lh.length ≤ LOGSIZE) :
    readHeader (storeHeader hb lh) = lh := by
  have hlt : lh.length ≤ 30 := h
  have hlen : (storeHeader hb lh 0).toInt.toNat = lh.length := by
    show (BitVec.ofNat 32 lh.length).toInt.toNat = lh.length
    rw [BitVec.toInt_eq_toNat_of_lt] <;> rw [BitVec.toNat_ofNat] <;> omega
  apply List.ext_getElem
  · rw [readHeader, List.length_map, List.length_range, hlen]
  · intro i h₁ h₂
    have hi : (i + 1) % 256 = i + 1 := by omega
    have hne : Fin.ofNat 256 (i + 1) ≠ 0 := by
      intro heq
      have := congrArg Fin.val heq
      simp [Fin.ofNat, hi] at this
    simp only [readHeader, List.getElem_map, List.getElem_range, storeHeader, if_neg hne]
    rw [show (Fin.ofNat 256 (i + 1)).val - 1 = i by simp [Fin.ofNat, hi]]
    exact List.getD_eq_getElem _ _ h₂

theorem readHeader_of_zero {hb : Block} (h : hb 0 = 0) : readHeader hb = [] := by
  simp [readHeader, h]

/-! ## Logged writes -/

/-- A file-system operation: the boot in which it ran, and its number. -/
abbrev OpId := Nat × Nat

/-- What one call of `log_write` is about. -/
structure LoggedWrite (A : LogArea) where
  op : OpId
  block : HomeBlock A
  data : Block

/-- The blocks after some logged writes. -/
def after {A : LogArea} (base : Disk) (ws : List (LoggedWrite A)) : Disk :=
  ws.foldl (fun D w => Function.update D w.block.val w.data) base

section

variable {A : LogArea} {base : Disk} {ws ws' : List (LoggedWrite A)} {w : LoggedWrite A}

@[simp] theorem after_nil : after base ([] : List (LoggedWrite A)) = base := rfl

theorem after_append : after base (ws ++ ws') = after (after base ws) ws' := List.foldl_append

theorem after_concat :
    after base (ws ++ [w]) = Function.update (after base ws) w.block.val w.data := by
  rw [after_append]
  rfl

/-- A block that nobody writes keeps its contents. -/
theorem after_of_not_written {b : BlockNo} (h : ∀ w ∈ ws, w.block.val ≠ b) :
    after base ws b = base b := by
  induction ws generalizing base with
  | nil => rfl
  | cons w ws ih =>
    have hw : w.block.val ≠ b := h w List.mem_cons_self
    calc after base (w :: ws) b
        = after (Function.update base w.block.val w.data) ws b := rfl
      _ = Function.update base w.block.val w.data b := ih fun w' hw' =>
          h w' (List.mem_cons_of_mem _ hw')
      _ = base b := Function.update_of_ne hw.symm _ _

end

end Xv6.Log
