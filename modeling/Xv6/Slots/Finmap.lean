import Mathlib.Data.List.Find
import Mathlib.Logic.Function.Basic

/-!
# An array of slots as a finite map

Each slot is free or holds a key and its value.  While no two slots hold the
same key, the array is a finite map; a free slot takes a new key, and a slot
that becomes free takes its key away.
-/

namespace Slots

open Function (update)

variable {K V : Type} {e e' : Nat → Option (K × V)} {n n' i j : Nat} {k : K} {v : V}

/-- No two slots hold the same key. -/
def Unique (e : Nat → Option (K × V)) (n : Nat) : Prop :=
  ∀ i j k v w, i < n → j < n → e i = some (k, v) → e j = some (k, w) → i = j

variable [DecidableEq K]

/-- The slot that holds a key. -/
def find (e : Nat → Option (K × V)) (n : Nat) (k : K) : Option Nat :=
  (List.range n).find? fun i => (e i).any fun x => x.1 = k

/-- The finite map. -/
def toMap (e : Nat → Option (K × V)) (n : Nat) (k : K) : Option V :=
  (find e n k).bind fun i => (e i).map Prod.snd

theorem find_eq_none : find e n k = none ↔ ∀ i < n, ∀ v, e i ≠ some (k, v) := by
  unfold find
  rw [List.find?_eq_none]
  constructor
  · intro h i hi v hv
    simpa [hv] using h i (List.mem_range.2 hi)
  · intro h i hi
    cases hv : e i with
    | none => simp
    | some x =>
      obtain ⟨k', v⟩ := x
      have hne : k' ≠ k := fun hk => h i (List.mem_range.1 hi) v (hk ▸ hv)
      simpa using hne

theorem find_spec (h : find e n k = some i) : i < n ∧ ∃ v, e i = some (k, v) := by
  unfold find at h
  have hi := List.mem_range.1 (List.mem_of_find?_eq_some h)
  have hk := List.find?_some h
  refine ⟨hi, ?_⟩
  cases hv : e i with
  | none => simp [hv] at hk
  | some x =>
    obtain ⟨k', v⟩ := x
    obtain rfl : k' = k := by simpa [hv] using hk
    exact ⟨v, rfl⟩

theorem find_eq_some (hu : Unique e n) :
    find e n k = some i ↔ i < n ∧ ∃ v, e i = some (k, v) := by
  refine ⟨find_spec, fun ⟨hi, v, hv⟩ => ?_⟩
  cases hfind : find e n k with
  | none => exact absurd hv (find_eq_none.1 hfind i hi v)
  | some j =>
    obtain ⟨hj, w, hw⟩ := find_spec hfind
    rw [hu j i k w v hj hi hw hv]

theorem toMap_eq_some (hu : Unique e n) :
    toMap e n k = some v ↔ ∃ i < n, e i = some (k, v) := by
  unfold toMap
  constructor
  · intro h
    obtain ⟨i, hi, hv⟩ := Option.bind_eq_some_iff.1 h
    obtain ⟨hlt, w, hw⟩ := find_spec hi
    rw [hw, Option.map_some] at hv
    obtain rfl : w = v := Option.some.inj hv
    exact ⟨i, hlt, hw⟩
  · intro ⟨i, hi, hv⟩
    rw [(find_eq_some hu).2 ⟨hi, v, hv⟩]
    simp [hv]

theorem toMap_eq_none : toMap e n k = none ↔ ∀ i < n, ∀ v, e i ≠ some (k, v) := by
  rw [← find_eq_none]
  unfold toMap
  cases hfind : find e n k with
  | none => simp
  | some i =>
    obtain ⟨-, v, hv⟩ := find_spec hfind
    simp [hv]

/-- Two maps with the same entries are the same. -/
theorem toMap_congr_of_iff (hu' : Unique e' n') {f : K → Option V}
    (h : ∀ k v, (∃ i < n', e' i = some (k, v)) ↔ f k = some v) : toMap e' n' = f := by
  funext k
  refine Option.ext fun v => ?_
  rw [toMap_eq_some hu', h]

/-- The array with a key put into a free slot, which may be one behind the
end. -/
structure Put (e : Nat → Option (K × V)) (n i : Nat) (k : K) (v : V)
    (e' : Nat → Option (K × V)) (n' : Nat) : Prop where
  le : n ≤ n'
  lt : i < n'
  free : i < n → e i = none
  gap : ∀ j, n ≤ j → j < n' → j = i
  at' : e' i = some (k, v)
  rest : ∀ j < n, j ≠ i → e' j = e j

omit [DecidableEq K] in
theorem Put.cases (h : Put e n i k v e' n') (hj : j < n') : j = i ∨ j < n ∧ j ≠ i ∧ e' j = e j := by
  by_cases hji : j = i
  · exact .inl hji
  · have hlt : j < n := by
      by_contra hge
      exact hji (h.gap j (by omega) hj)
    exact .inr ⟨hlt, hji, h.rest j hlt hji⟩

theorem Put.unique (h : Put e n i k v e' n') (hu : Unique e n) (hnew : toMap e n k = none) :
    Unique e' n' := by
  have hnone := toMap_eq_none.1 hnew
  intro a b l x y ha hb hx hy
  rcases h.cases ha with rfl | ⟨ha', -, hea⟩ <;> rcases h.cases hb with rfl | ⟨hb', -, heb⟩
  · rfl
  · rw [h.at'] at hx
    obtain ⟨rfl, -⟩ := Prod.mk.inj (Option.some.inj hx)
    exact absurd (heb.symm.trans hy) (hnone b hb' y)
  · rw [h.at'] at hy
    obtain ⟨rfl, -⟩ := Prod.mk.inj (Option.some.inj hy)
    exact absurd (hea.symm.trans hx) (hnone a ha' x)
  · exact hu a b l x y ha' hb' (hea.symm.trans hx) (heb.symm.trans hy)

theorem Put.toMap (h : Put e n i k v e' n') (hu : Unique e n) (hnew : toMap e n k = none) :
    Slots.toMap e' n' = update (Slots.toMap e n) k (some v) := by
  refine toMap_congr_of_iff (h.unique hu hnew) fun l x => ?_
  by_cases hl : l = k
  · subst hl
    rw [Function.update_self]
    constructor
    · intro ⟨j, hj, hx⟩
      rcases h.cases hj with rfl | ⟨hj', -, hej⟩
      · rw [h.at'] at hx
        rw [(Prod.mk.inj (Option.some.inj hx)).2]
      · exact absurd (hej.symm.trans hx) (toMap_eq_none.1 hnew j hj' x)
    · intro hx
      rw [← Option.some.inj hx]
      exact ⟨i, h.lt, h.at'⟩
  · rw [Function.update_of_ne hl, toMap_eq_some hu]
    constructor
    · intro ⟨j, hj, hx⟩
      rcases h.cases hj with rfl | ⟨hj', -, hej⟩
      · rw [h.at'] at hx
        exact absurd (Prod.mk.inj (Option.some.inj hx)).1.symm hl
      · exact ⟨j, hj', hej.symm.trans hx⟩
    · intro ⟨j, hj, hx⟩
      refine ⟨j, Nat.lt_of_lt_of_le hj h.le, ?_⟩
      rw [h.rest j hj, hx]
      rintro rfl
      rw [h.free hj] at hx
      cases hx

/-- The array with a slot made free. -/
structure Drop (e : Nat → Option (K × V)) (n i : Nat) (k : K) (e' : Nat → Option (K × V)) :
    Prop where
  lt : i < n
  held : ∃ v, e i = some (k, v)
  at' : e' i = none
  rest : ∀ j < n, j ≠ i → e' j = e j

omit [DecidableEq K] in
theorem Drop.of_some (h : Drop e n i k e') (hj : j < n) {x : K × V} (hx : e' j = some x) :
    j ≠ i ∧ e j = some x := by
  have hne : j ≠ i := by
    rintro rfl
    rw [h.at'] at hx
    cases hx
  exact ⟨hne, (h.rest j hj hne).symm.trans hx⟩

omit [DecidableEq K] in
theorem Drop.unique (h : Drop e n i k e') (hu : Unique e n) : Unique e' n :=
  fun a b l x y ha hb hx hy => hu a b l x y ha hb (h.of_some ha hx).2 (h.of_some hb hy).2

theorem Drop.toMap (h : Drop e n i k e') (hu : Unique e n) :
    Slots.toMap e' n = update (Slots.toMap e n) k none := by
  refine toMap_congr_of_iff (h.unique hu) fun l x => ?_
  obtain ⟨v, hv⟩ := h.held
  by_cases hl : l = k
  · subst hl
    rw [Function.update_self]
    refine iff_of_false (fun ⟨j, hj, hx⟩ => ?_) fun hx => by cases hx
    obtain ⟨hne, hx⟩ := h.of_some hj hx
    exact hne (hu j i l x v hj h.lt hx hv)
  · rw [Function.update_of_ne hl, toMap_eq_some hu]
    constructor
    · intro ⟨j, hj, hx⟩
      exact ⟨j, hj, (h.of_some hj hx).2⟩
    · intro ⟨j, hj, hx⟩
      refine ⟨j, hj, ?_⟩
      rw [h.rest j hj, hx]
      rintro rfl
      rw [hv] at hx
      exact hl (Prod.mk.inj (Option.some.inj hx)).1.symm

/-- The same slots hold the same. -/
theorem toMap_congr (h : ∀ i < n, e' i = e i) : Slots.toMap e' n = Slots.toMap e n := by
  have hfind : find e' n = find e n := by
    funext k
    unfold find
    refine List.find?_congr fun i hi => ?_
    rw [h i (List.mem_range.1 hi)]
  funext k
  unfold Slots.toMap
  rw [hfind]
  cases hf : find e n k with
  | none => rfl
  | some i =>
    rw [Option.bind_some, Option.bind_some, h i (find_spec hf).1]

end Slots
