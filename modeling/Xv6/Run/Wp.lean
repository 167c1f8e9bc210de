import Mathlib.Logic.Basic

/-!
# Code that runs alone

A computation on a state, which may stop with an error.  `Wp m Q E s` says that
`m`, started in `s`, returns as `Q` says or stops with an error in `E`.  The
lemmas tagged `simp` push `Wp` through the steps of a `do` block; a function
that has a rule of its own is used by `Wp.bind`.
-/

namespace Run

variable {σ ε α β ι : Type}

/-- The weakest precondition of `m`. -/
def Wp (m : StateT σ (Except ε) α) (Q : α → σ → Prop) (E : ε → Prop) (s : σ) : Prop :=
  match m s with
  | .ok r => Q r.1 r.2
  | .error e => E e

variable {m : StateT σ (Except ε) α} {f : α → StateT σ (Except ε) β} {Q Q' : α → σ → Prop}
  {R : β → σ → Prop} {E E' : ε → Prop} {s : σ}

@[simp] theorem wp_pure (a : α) : Wp (pure a : StateT σ (Except ε) α) Q E s ↔ Q a s := Iff.rfl

@[simp] theorem wp_get (Q : σ → σ → Prop) :
    Wp (get : StateT σ (Except ε) σ) Q E s ↔ Q s s := Iff.rfl

@[simp] theorem wp_modify (g : σ → σ) (Q : PUnit → σ → Prop) :
    Wp (modify g : StateT σ (Except ε) PUnit) Q E s ↔ Q ⟨⟩ (g s) := Iff.rfl

@[simp] theorem wp_throw (e : ε) : Wp (throw e : StateT σ (Except ε) α) Q E s ↔ E e := Iff.rfl

@[simp] theorem wp_bind :
    Wp (m >>= f) R E s ↔ Wp m (fun a s' => Wp (f a) R E s') E s := by
  have hbind : (m >>= f) s = (m s).bind fun r => f r.1 r.2 := rfl
  unfold Wp
  rw [hbind]
  cases m s <;> rfl

theorem Wp.mono (h : Wp m Q E s) (hQ : ∀ a s', Q a s' → Q' a s') (hE : ∀ e, E e → E' e) :
    Wp m Q' E' s := by
  unfold Wp at h ⊢
  cases hm : m s with
  | ok r =>
    rw [hm] at h
    exact hQ r.1 r.2 h
  | error e =>
    rw [hm] at h
    exact hE e h

theorem Wp.post (h : Wp m Q E s) (hQ : ∀ a s', Q a s' → Q' a s') : Wp m Q' E s :=
  h.mono hQ fun _ he => he

theorem Wp.and (h : Wp m Q E s) (h' : Wp m Q' E' s) :
    Wp m (fun a s' => Q a s' ∧ Q' a s') (fun e => E e ∧ E' e) s := by
  unfold Wp at h h' ⊢
  cases hm : m s with
  | ok r =>
    rw [hm] at h h'
    exact ⟨h, h'⟩
  | error e =>
    rw [hm] at h h'
    exact ⟨h, h'⟩

/-- A step by its rule, and then the rest. -/
theorem Wp.bind (h : Wp m Q E s) (hf : ∀ a s', Q a s' → Wp (f a) R E s') :
    Wp (m >>= f) R E s :=
  wp_bind.2 (h.post hf)

theorem Wp.ite {φ : Prop} [Decidable φ] {m' : StateT σ (Except ε) α}
    (h : φ → Wp m Q E s) (h' : ¬ φ → Wp m' Q E s) : Wp (if φ then m else m') Q E s := by
  by_cases hφ : φ
  · rw [if_pos hφ]
    exact h hφ
  · rw [if_neg hφ]
    exact h' hφ

/-- What a computation returns. -/
theorem Wp.of_run {r : α × σ} (h : Wp m Q E s) (hr : m.run s = .ok r) : Q r.1 r.2 := by
  have hr : m s = .ok r := hr
  unfold Wp at h
  rw [hr] at h
  exact h

/-- A computation that does not stop with an error returns. -/
theorem Wp.run (h : Wp m Q (fun _ => False) s) : ∃ r, m.run s = .ok r ∧ Q r.1 r.2 := by
  unfold Wp at h
  cases hm : m s with
  | ok r =>
    rw [hm] at h
    exact ⟨r, hm, h⟩
  | error e =>
    rw [hm] at h
    exact h.elim

/-- A computation that stops with an error exactly when `φ` fails. -/
theorem wp_total_iff {φ : Prop} (h : Wp m (fun a s' => φ ∧ Q a s') (fun _ => ¬ φ) s) :
    Wp m Q (fun _ => False) s ↔ φ := by
  unfold Wp at h ⊢
  cases hm : m s with
  | ok r =>
    rw [hm] at h
    exact iff_of_true h.2 h.1
  | error e =>
    rw [hm] at h
    exact iff_of_false id h

/-- `for` over a list, by an invariant indexed by what is still to visit. -/
theorem Wp.forM {g : ι → StateT σ (Except ε) PUnit} (J : List ι → σ → Prop) {is : List ι}
    (hs : J is s) (h : ∀ i is s, J (i :: is) s → Wp (g i) (fun _ => J is) E s) :
    Wp (is.forM g) (fun _ => J []) E s := by
  induction is generalizing s with
  | nil => exact hs
  | cons i is ih => exact Wp.bind (h i is s hs) fun _ s' hs' => ih hs'

/-- `for` over the numbers below `n`, by an invariant indexed by how many are
done. -/
theorem Wp.forM_range {g : Nat → StateT σ (Except ε) PUnit} (J : Nat → σ → Prop) {n : Nat}
    (hs : J 0 s) (h : ∀ i < n, ∀ s, J i s → Wp (g i) (fun _ => J (i + 1)) E s) :
    Wp ((List.range n).forM g) (fun _ => J n) E s := by
  have hloop : ∀ k i s, J i s → i + k = n →
      Wp ((List.range' i k).forM g) (fun _ => J n) E s := by
    intro k
    induction k with
    | zero =>
      intro i s hi hn
      have hin : i = n := by omega
      exact hin ▸ hi
    | succ k ih =>
      intro i s hi hn
      exact Wp.bind (h i (by omega) s hi) fun _ s' hs' => ih (i + 1) s' hs' (by omega)
  rw [List.range_eq_range']
  exact hloop n 0 s hs (Nat.zero_add n)

/-- `for` over a list of places, left at the first `some`. -/
def findM? (g : ι → StateT σ (Except ε) (Option α)) : List ι → StateT σ (Except ε) (Option α)
  | [] => pure none
  | i :: is => do
    match ← g i with
    | some a => pure (some a)
    | none => findM? g is

/-- The loop `findM?`, by an invariant indexed by what has been visited and
what is still to visit. -/
theorem Wp.findM? {g : ι → StateT σ (Except ε) (Option α)} (J : List ι → List ι → σ → Prop)
    (pre : List ι) {Q : Option α → σ → Prop} {is : List ι} (hs : J pre is s)
    (h : ∀ pre i is s, J pre (i :: is) s →
      Wp (g i) (fun r s' => (∀ a, r = some a → Q (some a) s') ∧ (r = none → J (pre ++ [i]) is s'))
        E s)
    (hend : ∀ pre s, J pre [] s → Q none s) : Wp (Run.findM? g is) Q E s := by
  induction is generalizing s pre with
  | nil => exact hend pre s hs
  | cons i is ih =>
    refine Wp.bind (h pre i is s hs) fun r s' hr => ?_
    cases r with
    | some a => exact hr.1 a rfl
    | none => exact ih _ (hr.2 rfl)

end Run
