import Xv6.Words.Memory

/-!
# Records of words

A record is a list of words, each with its length in bytes and its number, one
behind the other.  What is written as a record is read again field by field,
and a record leaves the bytes around it alone.
-/

namespace Words

open Function (update)

/-- The lengths and the numbers of the fields. -/
abbrev Record := List (Nat × Nat)

/-- How many bytes a record has. -/
def width : Record → Nat
  | [] => 0
  | f :: fs => f.1 + width fs

/-- Write a record at `p`. -/
def put (m : Mem) : (p : Nat) → (fs : Record) → Mem
  | _, [] => m
  | p, f :: fs => store (put m (p + f.1) fs) f.1 p f.2

variable {m m' : Mem} {n k p q v i : Nat} {fs : Record}

theorem load_lt (m : Mem) (n p : Nat) : load m n p < 256 ^ n := by
  induction n generalizing p with
  | zero => exact Nat.one_pos
  | succ n ih =>
    have hbyte := (m p).isLt
    have hrest := ih (p + 1)
    rw [load, Nat.pow_succ]
    omega

theorem width_append (fs gs : Record) : width (fs ++ gs) = width fs + width gs := by
  induction fs with
  | nil => simp [width]
  | cons f fs ih => rw [List.cons_append, width, width, ih, Nat.add_assoc]

/-- A table of words of one length. -/
theorem width_table {α : Type} (n : Nat) (f : α → Nat) (l : List α) :
    width (l.map fun a => (n, f a)) = n * l.length := by
  induction l with
  | nil => rfl
  | cons a l ih => rw [List.map_cons, width, ih, List.length_cons, Nat.mul_succ, Nat.add_comm]

theorem put_of_not_mem (h : q < p ∨ p + width fs ≤ q) : put m p fs q = m q := by
  induction fs generalizing p with
  | nil => rfl
  | cons f fs ih =>
    rw [width] at h
    rw [put, store_of_not_mem (by omega), ih (by omega)]

theorem load_put_of_disjoint (h : p + width fs ≤ q ∨ q + k ≤ p) :
    load (put m p fs) k q = load m k q :=
  load_congr fun a ha hlt => put_of_not_mem (by omega)

/-- A field is read again. -/
theorem load_put (h : fs[i]? = some (n, v)) :
    load (put m p fs) n (p + width (fs.take i)) = v % 256 ^ n := by
  induction fs generalizing p i with
  | nil => cases h
  | cons f fs ih =>
    cases i with
    | zero =>
      obtain rfl : f = (n, v) := by simpa using h
      exact load_store_self _ n p v
    | succ i =>
      rw [List.getElem?_cons_succ] at h
      rw [put, List.take_succ_cons, width, load_store_of_disjoint (by omega), ← Nat.add_assoc, ih h]

end Words
