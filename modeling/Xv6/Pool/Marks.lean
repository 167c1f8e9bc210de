import Mathlib.Logic.Function.Basic

/-!
# A bitmap allocator

The units from `first` on are handed out, one at a time, to places that hold
one unit each, or 0 for none.  `Marks` says that the bitmap has marked exactly
the units that are reserved or in a place, and that no unit is in two places.
-/

namespace Pool

open Function (update)

variable {κ : Type} {first size : Nat} {used : Nat → Bool} {f : κ → Nat} {x y : κ} {b : Nat}

/-- The bitmap `used` and the places `f` agree. -/
structure Marks (first size : Nat) (used : Nat → Bool) (f : κ → Nat) : Prop where
  pos : 0 < first
  inj : ∀ {x y}, f x ≠ 0 → f x = f y → x = y
  range : ∀ {x}, f x ≠ 0 → first ≤ f x ∧ f x < size
  reserved : ∀ {b}, b < first → b < size → used b = true
  bit : ∀ {b}, first ≤ b → b < size → (used b = true ↔ ∃ x, f x = b)

namespace Marks

section marks

variable (h : Marks first size used f)

include h

theorem used_of_place (hx : f x ≠ 0) : used (f x) = true :=
  (h.bit (h.range hx).1 (h.range hx).2).2 ⟨x, rfl⟩

/-- An unmarked unit is not reserved, and in no place. -/
theorem fresh (hb : b < size) (hfree : used b = false) : first ≤ b ∧ ∀ x, f x ≠ b := by
  have hfirst : first ≤ b := by
    by_contra hlt
    simp [h.reserved (by omega) hb] at hfree
  refine ⟨hfirst, fun x hx => ?_⟩
  simp [(h.bit hfirst hb).2 ⟨x, hx⟩] at hfree

theorem ne_zero_of_unmarked (hb : b < size) (hfree : used b = false) : b ≠ 0 := by
  have hfirst := (h.fresh hb hfree).1
  have hpos := h.pos
  omega

variable [DecidableEq κ]

/-- An unmarked unit is put into an empty place. -/
theorem take (hb : b < size) (hfree : used b = false) (hx : f x = 0) :
    Marks first size (update used b true) (update f x b) := by
  obtain ⟨hfirst, hnone⟩ := h.fresh hb hfree
  have hpos := h.pos
  refine ⟨h.pos, fun {y z} hy hyz => ?_, fun {y} hy => ?_, fun {c} hc hlt => ?_,
    fun {c} hc hlt => ?_⟩
  · by_cases hyx : y = x <;> by_cases hzx : z = x
    · rw [hyx, hzx]
    · rw [hyx, Function.update_self, Function.update_of_ne hzx] at hyz
      exact absurd hyz.symm (hnone z)
    · rw [hzx, Function.update_self, Function.update_of_ne hyx] at hyz
      exact absurd hyz (hnone y)
    · rw [Function.update_of_ne hyx] at hy hyz
      rw [Function.update_of_ne hzx] at hyz
      exact h.inj hy hyz
  · by_cases hyx : y = x
    · rw [hyx, Function.update_self]
      exact ⟨hfirst, hb⟩
    · rw [Function.update_of_ne hyx] at hy ⊢
      exact h.range hy
  · rw [Function.update_of_ne (by omega)]
    exact h.reserved hc hlt
  · by_cases hcb : c = b
    · rw [hcb, Function.update_self]
      exact iff_of_true rfl ⟨x, Function.update_self ..⟩
    · rw [Function.update_of_ne hcb, h.bit hc hlt]
      refine exists_congr fun y => ?_
      by_cases hyx : y = x
      · -- an empty place holds 0, which is reserved
        rw [hyx, Function.update_self, hx]
        omega
      · rw [Function.update_of_ne hyx]

/-- A unit comes back from its place. -/
theorem give (hx : f x ≠ 0) : Marks first size (update used (f x) false) (update f x 0) := by
  have hrange := h.range hx
  refine ⟨h.pos, fun {y z} hy hyz => ?_, fun {y} hy => ?_, fun {c} hc hlt => ?_,
    fun {c} hc hlt => ?_⟩
  · by_cases hyx : y = x
    · simp [hyx] at hy
    · by_cases hzx : z = x
      · rw [hzx, Function.update_self] at hyz
        exact absurd hyz hy
      · rw [Function.update_of_ne hyx] at hy hyz
        rw [Function.update_of_ne hzx] at hyz
        exact h.inj hy hyz
  · by_cases hyx : y = x
    · simp [hyx] at hy
    · rw [Function.update_of_ne hyx] at hy ⊢
      exact h.range hy
  · rw [Function.update_of_ne (by omega)]
    exact h.reserved hc hlt
  · have hpos := h.pos
    by_cases hcx : c = f x
    · rw [hcx, Function.update_self]
      refine iff_of_false (by simp) fun ⟨y, hy⟩ => ?_
      by_cases hyx : y = x
      · rw [hyx, Function.update_self] at hy
        omega
      · rw [Function.update_of_ne hyx] at hy
        exact hyx (h.inj (hy ▸ hx) hy)
    · rw [Function.update_of_ne hcx, h.bit hc hlt]
      refine exists_congr fun y => ?_
      by_cases hyx : y = x
      · rw [hyx, Function.update_self]
        omega
      · rw [Function.update_of_ne hyx]

/-- A place is emptied, whether or not it holds a unit. -/
theorem empty (x : κ) :
    Marks first size (if f x = 0 then used else update used (f x) false) (update f x 0) := by
  by_cases hx : f x = 0
  · rwa [if_pos hx, ← hx, Function.update_eq_self]
  · rw [if_neg hx]
    exact h.give hx

end marks

end Marks

end Pool
