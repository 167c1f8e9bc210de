import Xv6.Conc.Machine
import Mathlib.Logic.Relation

/-!
# Reasoning about threads one at a time

A rely-guarantee logic for `Machine`.  A `Logic` fixes an invariant of the
shared memory, a condition `assume` that the run is known to meet at every
operation, and an obligation `must` that the code has to meet at every
operation.  `wp t m Q s` says: from `s` on, while other threads meet their
obligations, thread `t` that runs `m` meets its own, and `Q` holds when `m`
returns.  A loop needs an invariant that the other threads keep.

`sound` is the result: when the code of every thread has a weakest
precondition that holds at the start, every reachable state satisfies the
invariant, and every operation that a processor is about to perform meets
its obligation.
-/

namespace Conc

open Machine

variable {Op : Type → Type 1} {σ Cpu Tid Input : Type}

/-- What is shown about a machine. -/
structure Logic (M : Machine Op σ Cpu Tid Input) where
  inv : σ → Prop
  assume : OpPred Op σ Cpu
  must : OpPred Op σ Cpu
  /-- An operation that meets its obligation keeps the invariant. -/
  inv_step : ∀ {β : Type} {c : Cpu} {i : Input} {s s' : σ} {o : Op β} {b : β},
    inv s → assume β c o s → must β c o s → M.exec c i s o = some (b, s') → inv s'

namespace Logic

variable {M : Machine Op σ Cpu Tid Input} (L : Logic M)

/-- One operation of another thread than `t`. -/
def EnvStep (t : Tid) (s s' : σ) : Prop :=
  ∃ (β : Type) (c : Cpu) (i : Input) (o : Op β) (b : β),
    M.running s c ≠ t ∧ L.inv s ∧ L.assume β c o s ∧ L.must β c o s ∧
      M.exec c i s o = some (b, s')

/-- What the other threads do until `t` performs its next operation. -/
def Env (t : Tid) : σ → σ → Prop := Relation.ReflTransGen (L.EnvStep t)

/-- The other threads keep `P`. -/
def Stable (t : Tid) (P : σ → Prop) : Prop := ∀ s s', L.EnvStep t s s' → P s → P s'

theorem Stable.env {t : Tid} {P : σ → Prop} (h : L.Stable t P) {s s' : σ} (he : L.Env t s s')
    (hs : P s) : P s' := by
  induction he with
  | refl => exact hs
  | tail _ hstep ih => exact h _ _ hstep ih

theorem Stable.and {t : Tid} {P P' : σ → Prop} (h : L.Stable t P) (h' : L.Stable t P') :
    L.Stable t fun s => P s ∧ P' s :=
  fun s s' he hs => ⟨h s s' he hs.1, h' s s' he hs.2⟩

theorem Stable.const (t : Tid) (p : Prop) : L.Stable t fun _ => p := fun _ _ _ h => h

/-- The weakest precondition of `m` in thread `t`. -/
def wp (t : Tid) : {α : Type} → Prog Op α → (α → σ → Prop) → σ → Prop
  | _, .ret a, Q, s => Q a s
  | _, .op o k, Q, s =>
    ∀ s', L.Env t s s' → L.inv s' → ∀ c, M.running s' c = t → L.assume _ c o s' →
      L.must _ c o s' ∧ ∀ i b s'', M.exec c i s' o = some (b, s'') → wp t (k b) Q s''
  | _, .iter body b k, Q, s =>
    ∃ J : _ → σ → Prop, (∀ b, L.Stable t (J b)) ∧ J b s ∧
      ∀ b s, J b s → wp t (body b)
        (Sum.elim J fun x => wp t (k x) Q) s

/-- `m`, run in thread `t` from a state with `P`, ends in one with `Q`. -/
def Triple {α : Type} (t : Tid) (P : σ → Prop) (m : Prog Op α) (Q : α → σ → Prop) : Prop :=
  ∀ s, P s → L.wp t m Q s

variable {L} {t : Tid} {α β γ : Type}

theorem wp_mono {m : Prog Op α} {Q Q' : α → σ → Prop} (hQ : ∀ a s, Q a s → Q' a s) {s : σ}
    (h : L.wp t m Q s) : L.wp t m Q' s := by
  induction m generalizing s with
  | ret a => exact hQ a s h
  | op o k ih =>
    intro s' he hi c hc ha
    obtain ⟨hm, hk⟩ := h s' he hi c hc ha
    exact ⟨hm, fun i b s'' hx => ih b hQ (hk i b s'' hx)⟩
  | iter body b k ihb ihk =>
    obtain ⟨J, hstable, hJ, hbody⟩ := h
    refine ⟨J, hstable, hJ, fun b s hb => ?_⟩
    refine ihb b (fun r s hr => ?_) (hbody b s hb)
    cases r with
    | inl b' => exact hr
    | inr x => exact ihk x hQ hr

/-- The other threads keep the weakest precondition of code that does not
return at once. -/
theorem wp_env {m : Prog Op α} {Q : α → σ → Prop} (hQ : ∀ a, L.Stable t (Q a)) {s s' : σ}
    (he : L.Env t s s') (h : L.wp t m Q s) : L.wp t m Q s' := by
  cases m with
  | ret a => exact Stable.env L (hQ a) he h
  | op o k => exact fun s'' he' => h s'' (he.trans he')
  | iter body b k =>
    obtain ⟨J, hstable, hJ, hbody⟩ := h
    exact ⟨J, hstable, Stable.env L (hstable b) he hJ, hbody⟩

theorem wp_bind {m : Prog Op α} {f : α → Prog Op β} {Q : β → σ → Prop} {s : σ}
    (h : L.wp t m (fun a s => L.wp t (f a) Q s) s) : L.wp t (m.bind f) Q s := by
  induction m generalizing s with
  | ret a => exact h
  | op o k ih =>
    intro s' he hi c hc ha
    obtain ⟨hm, hk⟩ := h s' he hi c hc ha
    exact ⟨hm, fun i b s'' hx => ih b (hk i b s'' hx)⟩
  | iter body b k _ ihk =>
    obtain ⟨J, hstable, hJ, hbody⟩ := h
    refine ⟨J, hstable, hJ, fun b s hb => ?_⟩
    refine wp_mono (fun r s hr => ?_) (hbody b s hb)
    cases r with
    | inl b' => exact hr
    | inr x => exact ihk x hr

/-- The next turn of a loop meets the weakest precondition of the loop. -/
theorem wp_unfoldIter {body : β → Prog Op (β ⊕ γ)} {b : β} {k : γ → Prog Op α}
    {Q : α → σ → Prop} {s : σ} (h : L.wp t (.iter body b k) Q s) :
    L.wp t (Prog.unfoldIter body b k) Q s := by
  obtain ⟨J, hstable, hJ, hbody⟩ := h
  refine wp_bind (wp_mono (fun r s hr => ?_) (hbody b s hJ))
  cases r with
  | inl b' => exact ⟨J, hstable, hr, hbody⟩
  | inr x => exact hr

/-! ## The rules -/

namespace Triple

theorem ret (a : α) (Q : α → σ → Prop) : L.Triple t (Q a) (.ret a) Q := fun _ h => h

theorem bind {P : σ → Prop} {m : Prog Op α} {R : α → σ → Prop} {f : α → Prog Op β}
    {Q : β → σ → Prop} (hm : L.Triple t P m R) (hf : ∀ a, L.Triple t (R a) (f a) Q) :
    L.Triple t P (m.bind f) Q :=
  fun s hs => wp_bind (wp_mono (fun a s hr => hf a s hr) (hm s hs))

theorem conseq {P P' : σ → Prop} {m : Prog Op α} {Q Q' : α → σ → Prop}
    (h : L.Triple t P' m Q') (hP : ∀ s, P s → P' s) (hQ : ∀ a s, Q' a s → Q a s) :
    L.Triple t P m Q :=
  fun s hs => wp_mono hQ (h s (hP s hs))

theorem pre {P P' : σ → Prop} {m : Prog Op α} {Q : α → σ → Prop}
    (h : L.Triple t P' m Q) (hP : ∀ s, P s → P' s) : L.Triple t P m Q :=
  fun s hs => h s (hP s hs)

theorem post {P : σ → Prop} {m : Prog Op α} {Q Q' : α → σ → Prop}
    (h : L.Triple t P m Q') (hQ : ∀ a s, Q' a s → Q a s) : L.Triple t P m Q :=
  h.conseq (fun _ hs => hs) hQ

/-- A test. -/
theorem ite {φ : Prop} [Decidable φ] {P : σ → Prop} {m m' : Prog Op α}
    {Q : α → σ → Prop} (hm : φ → L.Triple t P m Q) (hm' : ¬ φ → L.Triple t P m' Q) :
    L.Triple t P (if φ then m else m') Q := by
  by_cases hφ : φ
  · rw [if_pos hφ]
    exact hm hφ
  · rw [if_neg hφ]
    exact hm' hφ

/-- What is known before a step that does not depend on the state. -/
theorem of_pure {φ : Prop} {P : σ → Prop} {m : Prog Op α} {Q : α → σ → Prop}
    (h : φ → L.Triple t P m Q) : L.Triple t (fun s => φ ∧ P s) m Q :=
  fun s hs => h hs.1 s hs.2

/-- One operation. -/
theorem perform {P : σ → Prop} {o : Op α} {Q : α → σ → Prop} (hP : L.Stable t P)
    (h : ∀ s c, P s → L.inv s → M.running s c = t → L.assume α c o s →
      L.must α c o s ∧ ∀ i b s', M.exec c i s o = some (b, s') → Q b s') :
    L.Triple t P (.perform o) Q := by
  intro s hs s' he hi c hc ha
  exact h s' c (Stable.env L hP he hs) hi hc ha

/-- A thread that waits to run learns `P'` when it does. -/
theorem resume_op {P P' : σ → Prop} {o : Op β} {k : β → Prog Op α} {Q : α → σ → Prop}
    (hP : L.Stable t P) (hP' : ∀ s c, P s → L.inv s → M.running s c = t → P' s)
    (h : L.Triple t P' (.op o k) Q) : L.Triple t P (.op o k) Q := by
  intro s hs s' he hi c hc ha
  exact h s' (hP' s' c (Stable.env L hP he hs) hi hc) s' .refl hi c hc ha

theorem resume {P P' : σ → Prop} {o : Op α} {Q : α → σ → Prop} (hP : L.Stable t P)
    (hP' : ∀ s c, P s → L.inv s → M.running s c = t → P' s)
    (h : L.Triple t P' (.perform o) Q) : L.Triple t P (.perform o) Q := resume_op hP hP' h

/-- A loop, by an invariant that the other threads keep. -/
theorem loop {body : β → Prog Op (β ⊕ γ)} {b : β} {Q : γ → σ → Prop} (J : β → σ → Prop)
    (hJ : ∀ b, L.Stable t (J b))
    (hbody : ∀ b, L.Triple t (J b) (body b) (Sum.elim J Q)) :
    L.Triple t (J b) (.loop body b) Q := by
  intro s hs
  refine ⟨J, hJ, hs, fun b s hb => wp_mono (fun r s hr => ?_) (hbody b s hb)⟩
  cases r <;> exact hr

/-- A loop that never ends, by an invariant that the other threads keep. -/
theorem forever {body : Prog Op Unit} {Q : Empty → σ → Prop} {J : σ → Prop}
    (hJ : L.Stable t J) (hbody : L.Triple t J body fun _ => J) :
    L.Triple t J (.forever body) Q := by
  refine loop (fun _ => J) (fun _ => hJ) fun _ => ?_
  exact bind hbody fun _ s hs => hs

/-- `for` over a list, by an invariant indexed by what is still to visit. -/
theorem foldM {ι : Type} {f : α → ι → Prog Op α} {is : List ι} {a : α}
    (J : List ι → α → σ → Prop)
    (h : ∀ i is a, L.Triple t (J (i :: is) a) (f a i) (J is)) :
    L.Triple t (J is a) (Prog.foldM f a is) (J []) := by
  induction is generalizing a with
  | nil => exact ret a (J [])
  | cons i is ih => exact bind (h i is a) fun a' => ih

/-- `for` over the numbers below `n`, by an invariant indexed by the number. -/
theorem forRange {n : Nat} {f : Nat → Prog Op Unit} (J : Nat → σ → Prop)
    (h : ∀ i < n, L.Triple t (J i) (f i) fun _ => J (i + 1)) :
    L.Triple t (J 0) (Prog.foldM (fun () i => f i) () (List.range n)) fun _ => J n := by
  have hfrom : ∀ m i, i + m = n →
      L.Triple t (J i) (Prog.foldM (fun () i => f i) () (List.range' i m)) fun _ => J n := by
    intro m
    induction m with
    | zero =>
      intro i hi
      rw [← hi]
      exact ret () fun _ => J i
    | succ m ih => exact fun i hi => bind (h i (by omega)) fun _ => ih (i + 1) (by omega)
  rw [List.range_eq_range']
  exact hfrom n 0 (Nat.zero_add n)

/-- `for` over a list that is left at the first `some`. -/
theorem findM? {ι : Type} {f : ι → Prog Op (Option α)} {is : List ι} {J : List ι → σ → Prop}
    {Q : α → σ → Prop}
    (h : ∀ i is, L.Triple t (J (i :: is)) (f i) fun r =>
      match r with
      | some a => Q a
      | none => J is) :
    L.Triple t (J is) (Prog.findM? f is) fun r =>
      match r with
      | some a => Q a
      | none => J [] := by
  induction is with
  | nil => exact fun s hs => hs
  | cons i is ih =>
    refine bind (h i is) fun r => ?_
    cases r with
    | none => exact ih
    | some a => exact fun s hs => hs

end Triple

/-! ## Soundness -/

variable [DecidableEq Tid]

/-- The code of a thread meets its obligations from `s` on. -/
def Ok (L : Logic M) (t : Tid) (m : Prog Op Empty) (s : σ) : Prop :=
  L.wp t m (fun a _ => nomatch a) s

omit [DecidableEq Tid] in
theorem Ok.env {m : Prog Op Empty} {s s' : σ} (he : L.EnvStep t s s') (h : L.Ok t m s) :
    L.Ok t m s' :=
  wp_env (fun a => nomatch a) (.single he) h

/-- In every reachable state the invariant holds and every thread is `Ok`. -/
theorem sound {A : OpPred Op σ Cpu}
    (hA : ∀ {β : Type} {c : Cpu} {o : Op β} {s : σ}, A β c o s → L.assume β c o s)
    (hrestart : ∀ {β : Type} {c : Cpu} {i : Input} {s s' : σ} {o : Op β} {b : β} {u : Tid},
      L.inv s → L.assume β c o s → L.must β c o s → M.exec c i s o = some (b, s') →
      M.restarts o = some u → L.Ok u (M.main u) s')
    {g₀ g : Config Op σ Tid} (hinv : L.inv g₀.mem) (hok : ∀ u, L.Ok u (g₀.code u) g₀.mem)
    (h : M.Reach A g₀ g) : L.inv g.mem ∧ ∀ u, L.Ok u (g.code u) g.mem := by
  induction h with
  | start => exact ⟨hinv, hok⟩
  | @step g g' c i _ hcond hs ih =>
    obtain ⟨hinv, hok⟩ := ih
    obtain ⟨β, γ, body, b, k, hcode, rfl⟩ | ⟨β, o, k, b, mem, hcode, hexec, rfl⟩ :=
      M.step_cases hs
    · -- a silent turn of a loop changes the code of one thread only
      refine ⟨hinv, fun u => ?_⟩
      by_cases hu : u = M.running g.mem c
      · subst hu
        have := hok (M.running g.mem c)
        rw [hcode] at this
        simpa [Ok, setCode] using wp_unfoldIter this
      · simpa [setCode, hu] using hok u
    · have hassume : L.assume β c o g.mem := hA (hcond β o ⟨k, hcode⟩)
      have hrun := hok (M.running g.mem c)
      rw [hcode] at hrun
      obtain ⟨hmust, hnext⟩ := hrun g.mem .refl hinv c rfl hassume
      have hother : ∀ u, u ≠ M.running g.mem c → L.Ok u (g.code u) mem := fun u hu =>
        (hok u).env ⟨β, c, i, o, b, Ne.symm hu, hinv, hassume, hmust, hexec⟩
      have hset : ∀ u, L.Ok u (setCode g.code (M.running g.mem c) (k b) u) mem := by
        intro u
        by_cases hu : u = M.running g.mem c
        · subst hu
          simpa [Ok, setCode] using hnext i b mem hexec
        · simpa [setCode, hu] using hother u hu
      refine ⟨L.inv_step hinv hassume hmust hexec, fun u => ?_⟩
      unfold nextCode
      split
      · exact hset u
      · rename_i v hv
        by_cases hu : u = v
        · subst hu
          simpa [setCode] using hrestart hinv hassume hmust hexec hv
        · simpa [setCode, hu] using hset u

omit [DecidableEq Tid] in
/-- Every operation that a processor is about to perform meets its
obligation. -/
theorem must_of_ok {g : Config Op σ Tid} {c : Cpu} {o : Op β} (hinv : L.inv g.mem)
    (hok : ∀ u, L.Ok u (g.code u) g.mem) (hn : M.Next g c o) (ha : L.assume β c o g.mem) :
    L.must β c o g.mem := by
  obtain ⟨k, hcode⟩ := hn
  have hrun := hok (M.running g.mem c)
  rw [hcode] at hrun
  exact (hrun g.mem .refl hinv c rfl ha).1

end Logic

end Conc
