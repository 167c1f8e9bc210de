import Xv6.Conc.Logic

/-!
# One call among others

What one thread does in a call, while the other threads take any steps that a
condition allows.  `Prog.All` says that every operation that a program can come
to is of some kind, whatever the operations answer.
-/

namespace Conc

open Machine

variable {Op : Type → Type 1} {σ Cpu Tid Input : Type} {α β γ : Type}

/-! ## Every operation of a program -/

namespace Prog

/-- Every operation that `m` can perform satisfies `P`. -/
def All (P : (β : Type) → Op β → Prop) : {α : Type} → Prog Op α → Prop
  | _, .ret _ => True
  | _, .op o k => P _ o ∧ ∀ b, (k b).All P
  | _, .iter body _ k => (∀ b, (body b).All P) ∧ ∀ x, (k x).All P

namespace All

variable {P : (β : Type) → Op β → Prop}

@[simp] theorem ret (a : α) : (Prog.ret a : Prog Op α).All P := trivial

theorem bind {m : Prog Op α} {f : α → Prog Op β} (hm : m.All P) (hf : ∀ a, (f a).All P) :
    (m.bind f).All P := by
  induction m with
  | ret a => exact hf a
  | op o k ih => exact ⟨hm.1, fun b => ih b (hm.2 b) hf⟩
  | iter body b k _ ih => exact ⟨hm.1, fun x => ih x (hm.2 x) hf⟩

theorem mono {P' : (β : Type) → Op β → Prop} {m : Prog Op α} (hm : m.All P)
    (h : ∀ β o, P β o → P' β o) : m.All P' := by
  induction m with
  | ret a => exact trivial
  | op o k ih => exact ⟨h _ o hm.1, fun b => ih b (hm.2 b)⟩
  | iter body b k ihb ihk => exact ⟨fun b => ihb b (hm.1 b), fun x => ihk x (hm.2 x)⟩

theorem perform {o : Op α} (ho : P α o) : (Prog.perform o).All P := ⟨ho, fun _ => trivial⟩

theorem ite {φ : Prop} [Decidable φ] {m m' : Prog Op α} (hm : m.All P) (hm' : m'.All P) :
    (if φ then m else m').All P := by
  split
  · exact hm
  · exact hm'

theorem loop {body : β → Prog Op (β ⊕ γ)} (h : ∀ b, (body b).All P) (b : β) :
    (Prog.loop body b).All P :=
  ⟨h, fun _ => trivial⟩

theorem foldM {ι : Type} {f : α → ι → Prog Op α} (h : ∀ a i, (f a i).All P) (is : List ι) (a : α) :
    (Prog.foldM f a is).All P := by
  induction is generalizing a with
  | nil => exact trivial
  | cons i is ih => exact bind (h a i) ih

end All

end Prog

namespace Logic

variable {M : Machine Op σ Cpu Tid Input} {L : Logic M} {t : Tid}

/-- A program whose operations all keep `K`. -/
theorem Triple.all {P : (β : Type) → Op β → Prop} {K : σ → Prop} (hK : L.Stable t K)
    (hstep : ∀ (β : Type) (o : Op β) (s : σ) (c : Cpu), P β o → K s → L.inv s →
      M.running s c = t → L.assume β c o s →
        L.must β c o s ∧ ∀ i b s', M.exec c i s o = some (b, s') → K s')
    {m : Prog Op α} (hm : m.All P) : L.Triple t K m fun _ => K := by
  intro s hs
  induction m generalizing s with
  | ret a => exact hs
  | op o k ih =>
    intro s' he hi c hc ha
    obtain ⟨hmust, hnext⟩ := hstep _ o s' c hm.1 (Stable.env L hK he hs) hi hc ha
    exact ⟨hmust, fun i b s'' hx => ih b (hm.2 b) s'' (hnext i b s'' hx)⟩
  | iter body b k ihb ihk =>
    refine ⟨fun _ => K, fun _ => hK, hs, fun b s hs => ?_⟩
    refine wp_mono (fun r s hs => ?_) (ihb b (hm.1 b) s hs)
    cases r with
    | inl b' => exact hs
    | inr x => exact ihk x (hm.2 x) s hs

end Logic

/-! ## Calls -/

/-- Thread `t` comes from `m` in `s` to `m'` in `s'`, while the others take
steps too.  Every operation meets `A`. -/
inductive Call (M : Machine Op σ Cpu Tid Input) (A : OpPred Op σ Cpu) (t : Tid) (m : Prog Op α)
    (s : σ) : Prog Op α → σ → Prop
  | start : Call M A t m s m s
  | other {β : Type} {m' : Prog Op α} {s' s'' : σ} {o : Op β} {b : β} (c : Cpu) (i : Input)
      (h : Call M A t m s m' s') (hc : M.running s' c ≠ t) (hA : A β c o s')
      (hx : M.exec c i s' o = some (b, s'')) : Call M A t m s m' s''
  | own {β : Type} {k : β → Prog Op α} {s' s'' : σ} {o : Op β} {b : β} (c : Cpu) (i : Input)
      (h : Call M A t m s (.op o k) s') (hc : M.running s' c = t) (hA : A β c o s')
      (hx : M.exec c i s' o = some (b, s'')) : Call M A t m s (k b) s''
  | turn {β γ : Type} {body : β → Prog Op (β ⊕ γ)} {b : β} {k : γ → Prog Op α} {s' : σ}
      (h : Call M A t m s (.iter body b k) s') : Call M A t m s (Prog.unfoldIter body b k) s'

namespace Logic

variable {M : Machine Op σ Cpu Tid Input} {L : Logic M} {t : Tid}

/-- In a call by code with a weakest precondition, the invariant holds at
every moment, if nothing is asked of the other threads. -/
theorem inv_of_call {m m' : Prog Op α} {s s' : σ}
    (hothers : ∀ (β : Type) (c : Cpu) (o : Op β) (s : σ), M.running s c ≠ t → L.must β c o s)
    (hinv : L.inv s) (hwp : L.Triple t (fun _ => True) m fun _ _ => True)
    (h : Call M L.assume t m s m' s') : L.inv s' ∧ L.wp t m' (fun _ _ => True) s' := by
  induction h with
  | start => exact ⟨hinv, hwp s trivial⟩
  | @other β m' s' s'' o b c i _ hc hA hx ih =>
    obtain ⟨hinv, hwp⟩ := ih
    have hmust := hothers β c o s' hc
    have hstep : L.EnvStep t s' s'' := ⟨β, c, i, o, b, hc, hinv, hA, hmust, hx⟩
    exact ⟨L.inv_step hinv hA hmust hx, wp_env (fun _ => Stable.const L t True) (.single hstep) hwp⟩
  | own c i _ hc hA hx ih =>
    obtain ⟨hinv, hwp⟩ := ih
    obtain ⟨hmust, hnext⟩ := hwp _ .refl hinv c hc hA
    exact ⟨L.inv_step hinv hA hmust hx, hnext i _ _ hx⟩
  | turn _ ih => exact ⟨ih.1, wp_unfoldIter ih.2⟩

end Logic

end Conc
