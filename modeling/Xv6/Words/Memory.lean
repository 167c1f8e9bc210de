import Mathlib.Logic.Function.Basic
import Mathlib.Algebra.Ring.Nat

/-!
# Words in a memory of bytes

A word is a few bytes at an address, with the least one first.  What is stored
is loaded again, and a store leaves the words alone that it does not overlap.
-/

namespace Words

open Function (update)

abbrev Mem := Nat → BitVec 8

/-- The number that the `n` bytes at `p` make. -/
def load (m : Mem) : (n p : Nat) → Nat
  | 0, _ => 0
  | n + 1, p => (m p).toNat + 256 * load m n (p + 1)

/-- Write the last `n` bytes of a number at `p`. -/
def store (m : Mem) : (n p v : Nat) → Mem
  | 0, _, _ => m
  | n + 1, p, v => store (update m p (BitVec.ofNat 8 v)) n (p + 1) (v / 256)

variable {m m' : Mem} {n k p q v : Nat}

/-- Only the bytes of the word matter. -/
theorem load_congr (h : ∀ a, p ≤ a → a < p + n → m' a = m a) : load m' n p = load m n p := by
  induction n generalizing p with
  | zero => rfl
  | succ n ih =>
    rw [load, load, h p (Nat.le_refl _) (by omega), ih fun a ha hlt => h a (by omega) (by omega)]

theorem store_of_not_mem (h : q < p ∨ p + n ≤ q) : store m n p v q = m q := by
  induction n generalizing m p v with
  | zero => rfl
  | succ n ih =>
    rw [store, ih (by omega), Function.update_of_ne (by omega)]

theorem load_store_of_disjoint (h : p + n ≤ q ∨ q + k ≤ p) :
    load (store m n p v) k q = load m k q :=
  load_congr fun a ha hlt => store_of_not_mem (by omega)

theorem load_store_self (m : Mem) (n p v : Nat) : load (store m n p v) n p = v % 256 ^ n := by
  induction n generalizing m p v with
  | zero => rw [load, Nat.pow_zero, Nat.mod_one]
  | succ n ih =>
    rw [load, store, ih, store_of_not_mem (by omega), Function.update_self, BitVec.toNat_ofNat,
      Nat.pow_succ' (n := n), Nat.mod_mul]

theorem load_store_of_lt (h : v < 256 ^ n) : load (store m n p v) n p = v := by
  rw [load_store_self, Nat.mod_eq_of_lt h]

end Words
