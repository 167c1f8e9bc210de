import Mathlib.Data.BitVec
import Mathlib.Data.Nat.ModEq

/-!
# A ring with free-running counters

A ring of `N` cells with a read and a write counter of `w` bits that only ever
go up, and wrap.  The cell that a counter means is its value modulo `N`, which
the wrap does not disturb because `N` divides `2 ^ w`.
-/

namespace Ring

variable {A : Type} {w N : Nat} [NeZero N] {data : Fin N → A} {rd wr : BitVec w}
  {contents rest : List A} {a : A}

/-- The cell that a counter means. -/
def cell (N : Nat) [NeZero N] (i : BitVec w) : Fin N := Fin.ofNat N i.toNat

/-- The ring holds `contents`, the oldest first. -/
structure Holds (data : Fin N → A) (rd wr : BitVec w) (contents : List A) : Prop where
  length : contents.length = (wr - rd).toNat
  le : contents.length ≤ N
  get : ∀ j (h : j < contents.length), data (cell N (rd + BitVec.ofNat w j)) = contents[j]

/-- A ring has fewer cells than its counters have values, and their numbers
fit. -/
structure Fits (N w : Nat) : Prop where
  dvd : N ∣ 2 ^ w
  lt : N < 2 ^ w

theorem cell_add (hf : Fits N w) (i : BitVec w) (j : Nat) :
    cell N (i + BitVec.ofNat w j) = Fin.ofNat N (i.toNat + j) := by
  apply Fin.ext
  show (i + BitVec.ofNat w j).toNat % N = (i.toNat + j) % N
  rw [BitVec.toNat_add, BitVec.toNat_ofNat, Nat.add_mod_mod, Nat.mod_mod_of_dvd _ hf.dvd]

theorem ofNat_ne {i j k : Nat} (hjk : j < k) (hk : k < j + N) :
    Fin.ofNat N (i + j) ≠ Fin.ofNat N (i + k) := by
  intro heq
  have hmod : (i + j) % N = (i + k) % N := congrArg Fin.val heq
  have hdvd : N ∣ (i + k) - (i + j) := (Nat.modEq_iff_dvd' (by omega)).1 hmod
  have hle := Nat.le_of_dvd (by omega) hdvd
  omega

namespace Holds

theorem wr_eq (h : Holds data rd wr contents) : wr = rd + BitVec.ofNat w contents.length := by
  rw [h.length, BitVec.ofNat_toNat, BitVec.setWidth_eq, BitVec.add_comm, BitVec.sub_add_cancel]

theorem empty (data : Fin N → A) (rd : BitVec w) : Holds data rd rd [] where
  length := by
    rw [BitVec.sub_self]
    rfl
  le := Nat.zero_le N
  get _ h := absurd h (Nat.not_lt_zero _)

/-- The counters are equal exactly when the ring is empty. -/
theorem eq_iff (h : Holds data rd wr contents) : rd = wr ↔ contents = [] := by
  constructor
  · rintro rfl
    have hlength := h.length
    rw [BitVec.sub_self] at hlength
    exact List.length_eq_zero_iff.1 hlength
  · rintro rfl
    have heq := h.wr_eq
    rw [heq]
    simp

/-- The write counter is ahead by the size of the ring exactly when that is
full. -/
theorem full_iff (hf : Fits N w) (h : Holds data rd wr contents) :
    wr = rd + BitVec.ofNat w N ↔ contents.length = N := by
  constructor
  · intro hfull
    rw [h.length, hfull, BitVec.add_comm, BitVec.add_sub_cancel, BitVec.toNat_ofNat,
      Nat.mod_eq_of_lt hf.lt]
  · intro hlength
    rw [h.wr_eq, hlength]

/-- A byte goes in behind the others. -/
theorem push (hf : Fits N w) (h : Holds data rd wr contents) (hroom : contents.length < N) (a : A) :
    Holds (fun j => if j = cell N wr then a else data j) rd (wr + 1) (contents ++ [a]) where
  length := by
    have hlt := hf.lt
    have hsub : wr + 1 - rd = BitVec.ofNat w (contents.length + 1) := by
      rw [h.wr_eq, BitVec.add_assoc, BitVec.add_comm rd, BitVec.add_sub_cancel, BitVec.ofNat_add]
      rfl
    rw [hsub, BitVec.toNat_ofNat, Nat.mod_eq_of_lt (by omega), List.length_append]
    rfl
  le := by
    rw [List.length_append]
    exact hroom
  get j hj := by
    have hwr : cell N wr = Fin.ofNat N (rd.toNat + contents.length) := by
      conv => lhs; rw [h.wr_eq]
      exact cell_add hf _ _
    rw [hwr, cell_add hf]
    rw [List.length_append, List.length_singleton] at hj
    by_cases hlast : j < contents.length
    · rw [if_neg (ofNat_ne hlast (by omega)), List.getElem_append_left hlast, ← cell_add hf]
      exact h.get j hlast
    · obtain rfl : j = contents.length := by omega
      rw [if_pos rfl, List.getElem_append_right (Nat.le_refl _)]
      simp

/-- The oldest byte comes out. -/
theorem pop (hf : Fits N w) (h : Holds data rd wr (a :: rest)) :
    data (cell N rd) = a ∧ Holds data (rd + 1) wr rest := by
  have hlt := hf.lt
  have hle := h.le
  rw [List.length_cons] at hle
  constructor
  · have hget := h.get 0 (Nat.succ_pos _)
    rw [BitVec.add_zero] at hget
    exact hget
  · have hnext : ∀ j, rd + 1 + BitVec.ofNat w j = rd + BitVec.ofNat w (j + 1) := by
      intro j
      rw [BitVec.add_assoc, BitVec.ofNat_add, BitVec.add_comm 1]
      rfl
    refine ⟨?_, Nat.le_of_succ_le hle, fun j hj => ?_⟩
    · rw [h.wr_eq, List.length_cons, ← hnext, BitVec.add_comm, BitVec.add_sub_cancel,
        BitVec.toNat_ofNat, Nat.mod_eq_of_lt (by omega)]
    · rw [hnext]
      exact h.get (j + 1) (Nat.succ_lt_succ hj)

/-- The newest byte is taken back. -/
theorem pop_back (hf : Fits N w) {xs : List A} (h : Holds data rd wr (xs ++ [a])) :
    data (cell N (wr - 1)) = a ∧ Holds data rd (wr - 1) xs := by
  have hlt := hf.lt
  have hle := h.le
  have hwr := h.wr_eq
  rw [List.length_append, List.length_singleton] at hle hwr
  have hback : wr - 1 = rd + BitVec.ofNat w xs.length := by
    rw [hwr, BitVec.ofNat_add, ← BitVec.add_assoc]
    exact BitVec.add_sub_cancel _ _
  rw [hback]
  constructor
  · have hget := h.get xs.length (by simp)
    rw [hget]
    simp
  · refine ⟨?_, by omega, fun j hj => ?_⟩
    · rw [BitVec.add_comm, BitVec.add_sub_cancel, BitVec.toNat_ofNat, Nat.mod_eq_of_lt (by omega)]
    · have hget := h.get j (by simp; omega)
      rw [hget]
      exact List.getElem_append_left hj

/-- The oldest ones come out. -/
theorem drop (hf : Fits N w) {xs ys : List A} (h : Holds data rd wr (xs ++ ys)) :
    Holds data (rd + BitVec.ofNat w xs.length) wr ys := by
  induction xs generalizing rd with
  | nil => simpa using h
  | cons x xs ih =>
    have hstep : rd + 1 + BitVec.ofNat w xs.length = rd + BitVec.ofNat w (x :: xs).length := by
      rw [List.length_cons, BitVec.ofNat_add, BitVec.add_assoc, BitVec.add_comm 1]
      rfl
    rw [← hstep]
    exact ih (h.pop hf).2

end Holds

end Ring
