import Xv6.Conc.Machine

/-!
# One processor alone

What a thread does while its processor takes all the steps.  A `Path` leads
from a program and a state to what is left of the program and the state then.
-/

namespace Conc

variable {Op : Type → Type 1} {σ Cpu Tid Input : Type} {α β γ δ : Type}

namespace Prog

theorem bind_assoc (m : Prog Op α) (f : α → Prog Op β) (g : β → Prog Op γ) :
    (m.bind f).bind g = m.bind fun a => (f a).bind g := by
  induction m with
  | ret a => rfl
  | op o k ih =>
    simp only [bind]
    congr 1
    funext b
    exact ih b f
  | iter body b k _ ih =>
    simp only [bind]
    congr 1
    funext x
    exact ih x f

theorem unfoldIter_bind (body : β → Prog Op (β ⊕ γ)) (b : β) (k : γ → Prog Op α)
    (f : α → Prog Op δ) :
    (unfoldIter body b k).bind f = unfoldIter body b fun x => (k x).bind f := by
  unfold unfoldIter
  rw [bind_assoc]
  congr 1
  funext r
  cases r <;> rfl

end Prog

open Prog

variable (M : Machine Op σ Cpu Tid Input) (c : Cpu) (t : Tid)

/-- Thread `t` on processor `c` comes from `m` in `s` to `m'` in `s'`. -/
inductive Path {α : Type} : Prog Op α → σ → Prog Op α → σ → Prop
  | refl {m : Prog Op α} {s : σ} : Path m s m s
  | op {β : Type} {o : Op β} {k : β → Prog Op α} {m' : Prog Op α} {s s' s'' : σ} {b : β}
      (i : Input) (ht : M.running s c = t) (hx : M.exec c i s o = some (b, s'))
      (hr : M.restarts o = none) (h : Path (k b) s' m' s'') : Path (.op o k) s m' s''
  | iter {β γ : Type} {body : β → Prog Op (β ⊕ γ)} {b : β} {k : γ → Prog Op α}
      {m' : Prog Op α} {s s' : σ} (i : Input) (ht : M.running s c = t)
      (h : Path (unfoldIter body b k) s m' s') : Path (.iter body b k) s m' s'

namespace Path

variable {M c t} {m m' m'' : Prog Op α} {s s' s'' : σ}

theorem trans (h : Path M c t m s m' s') (h' : Path M c t m' s' m'' s'') :
    Path M c t m s m'' s'' := by
  induction h with
  | refl => exact h'
  | op i ht hx hr _ ih => exact .op i ht hx hr (ih h')
  | iter i ht _ ih => exact .iter i ht (ih h')

/-- Code that goes on later does the same. -/
theorem andThen (h : Path M c t m s m' s') (f : α → Prog Op β) :
    Path M c t (m.bind f) s (m'.bind f) s' := by
  induction h with
  | refl => exact .refl
  | op i ht hx hr _ ih => exact .op i ht hx hr ih
  | iter i ht _ ih =>
    refine .iter i ht ?_
    rw [← unfoldIter_bind]
    exact ih

theorem bind {a : α} {f : α → Prog Op β} {n : Prog Op β} (h : Path M c t m s (.ret a) s')
    (h' : Path M c t (f a) s' n s'') : Path M c t (m.bind f) s n s'' :=
  (h.andThen f).trans h'

theorem perform {o : Op α} {a : α} (i : Input) (ht : M.running s c = t)
    (hx : M.exec c i s o = some (a, s')) (hr : M.restarts o = none) :
    Path M c t (.perform o) s (.ret a) s' :=
  .op i ht hx hr .refl

theorem ite {φ : Prop} [Decidable φ] (hφ : φ) (h : Path M c t m s m'' s') :
    Path M c t (if φ then m else m') s m'' s' := by
  rw [if_pos hφ]
  exact h

theorem ite_not {φ : Prop} [Decidable φ] (hφ : ¬ φ) (h : Path M c t m' s m'' s') :
    Path M c t (if φ then m else m') s m'' s' := by
  rw [if_neg hφ]
  exact h

end Path

/-! ## Paths of the machine -/

namespace Machine

variable {M c t} [DecidableEq Tid]

omit t in
theorem setCode_same (code : Tid → Prog Op Empty) (t : Tid) (m : Prog Op Empty) :
    setCode code t m t = m :=
  if_pos rfl

omit t in
theorem setCode_self (code : Tid → Prog Op Empty) (t : Tid) : setCode code t (code t) = code := by
  funext u
  unfold setCode
  by_cases hu : u = t
  · rw [if_pos hu, hu]
  · rw [if_neg hu]

theorem setCode_setCode (code : Tid → Prog Op Empty) (t : Tid) (m m' : Prog Op Empty) :
    setCode (setCode code t m) t m' = setCode code t m' := by
  funext u
  unfold setCode
  by_cases hu : u = t <;> simp [hu]

/-- The machine takes the path. -/
theorem Reach.path {g₀ : Config Op σ Tid} {code : Tid → Prog Op Empty} {m m' : Prog Op Empty}
    {s s' : σ} (hp : Path M c t m s m' s')
    (h : M.Reach always g₀ ⟨s, setCode code t m⟩) :
    M.Reach always g₀ ⟨s', setCode code t m'⟩ := by
  induction hp with
  | refl => exact h
  | @op β o k m' s s' s'' b i ht hx hr _ ih =>
    refine ih (h.step (c := c) (i := i) (fun _ _ _ => trivial) ?_)
    simp only [Machine.step, ht, setCode_same, hx, nextCode, hr, setCode_setCode]
  | @iter β γ body b k m' s s' i ht _ ih =>
    refine ih (h.step (c := c) (i := i) (fun _ _ _ => trivial) ?_)
    simp only [Machine.step, ht, setCode_same, setCode_setCode]

/-! ## Threads that do not run -/

/-- The code of all threads but `u` is the same. -/
def AgreeExcept (u : Tid) (g g' : Config Op σ Tid) : Prop :=
  g.mem = g'.mem ∧ ∀ t, t ≠ u → g.code t = g'.code t

variable (M) in
/-- The run that follows a schedule in which thread `u` takes no step. -/
def runWithout (u : Tid) : List (Cpu × Input) → Config Op σ Tid → Option (Config Op σ Tid)
  | [], g => some g
  | (c, i) :: sched, g =>
    if M.running g.mem c = u then none else (M.step c i g).bind (runWithout u sched)

theorem AgreeExcept.setCode {u : Tid} {g g' : Config Op σ Tid} (h : AgreeExcept u g g')
    (mem : σ) (t : Tid) (m : Prog Op Empty) :
    AgreeExcept u ⟨mem, setCode g.code t m⟩ ⟨mem, setCode g'.code t m⟩ := by
  refine ⟨rfl, fun v hv => ?_⟩
  show (if v = t then m else g.code v) = if v = t then m else g'.code v
  rw [h.2 v hv]

theorem AgreeExcept.step {u : Tid} {g g' g'' : Config Op σ Tid} {i : Input}
    (h : AgreeExcept u g g') (hu : M.running g'.mem c ≠ u) (hs : M.step c i g' = some g'') :
    ∃ g₁, M.step c i g = some g₁ ∧ AgreeExcept u g₁ g'' := by
  obtain ⟨hmem, hcode⟩ := h
  have hrun := hcode _ hu
  unfold Machine.step at hs ⊢
  rw [hmem, hrun]
  split at hs
  · rename_i a _
    exact a.elim
  · obtain rfl := Option.some.inj hs
    exact ⟨_, rfl, AgreeExcept.setCode ⟨hmem, hcode⟩ _ _ _⟩
  · split at hs
    · cases hs
    · rename_i b mem _
      obtain rfl := Option.some.inj hs
      refine ⟨_, rfl, ?_⟩
      unfold nextCode
      split
      · exact AgreeExcept.setCode ⟨hmem, hcode⟩ _ _ _
      · exact AgreeExcept.setCode (AgreeExcept.setCode ⟨hmem, hcode⟩ mem _ _) _ _ _

/-- What such a schedule leads to does not depend on the code of `u`. -/
theorem reach_of_runWithout {u : Tid} {g₀ g g' g'' : Config Op σ Tid}
    {sched : List (Cpu × Input)} (hag : AgreeExcept u g g') (h : M.Reach always g₀ g)
    (hr : M.runWithout u sched g' = some g'') :
    ∃ g₁, M.Reach always g₀ g₁ ∧ AgreeExcept u g₁ g'' := by
  induction sched generalizing g g' with
  | nil =>
    obtain rfl := Option.some.inj hr
    exact ⟨g, h, hag⟩
  | cons ci sched ih =>
    obtain ⟨c, i⟩ := ci
    simp only [runWithout, Option.ite_none_left_eq_some, Option.bind_eq_some_iff] at hr
    obtain ⟨hu, g₂, hs, hr⟩ := hr
    obtain ⟨g₁, hs', hag'⟩ := hag.step hu hs
    exact ih hag' (h.step (fun _ _ _ => trivial) hs') hr

omit [DecidableEq Tid] in
theorem AgreeExcept.next {u : Tid} {g g' : Config Op σ Tid} (h : AgreeExcept u g g') {β : Type}
    {o : Op β} (hu : M.running g'.mem c ≠ u) (hn : M.Next g' c o) : M.Next g c o := by
  obtain ⟨k, hk⟩ := hn
  refine ⟨k, ?_⟩
  rw [h.1, h.2 _ hu, hk]

end Machine

end Conc
