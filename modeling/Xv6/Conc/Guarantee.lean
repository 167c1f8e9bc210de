import Xv6.Conc.Logic

/-!
# Threads that may run at any time

In some machines a thread needs no processor: it has one of its own, which
bears its name.  What a thread may do is then best said as a relation
`guar t s s'` between the states before and after a step of `t`; what the
others rely on follows from it.  What an operation needs of the state it meets
is its `safe` condition.
-/

namespace Conc.Logic

open Machine

variable {Op : Type → Type 1} {σ Tid Input : Type} {M : Machine Op σ Tid Tid Input}

/-- The logic in which every step of a thread `t` is safe and stays in
`guar t`. -/
def ofGuarantee (M : Machine Op σ Tid Tid Input) (inv : σ → Prop) (assume safe : OpPred Op σ Tid)
    (guar : Tid → σ → σ → Prop) (h : ∀ t s s', inv s → guar t s s' → inv s') : Logic M where
  inv := inv
  assume := assume
  must β c o s := safe β c o s ∧ ∀ i b s', M.exec c i s o = some (b, s') → guar c s s'
  inv_step hinv _ hmust hx := h _ _ _ hinv (hmust.2 _ _ _ hx)

variable {inv : σ → Prop} {assume safe : OpPred Op σ Tid} {guar : Tid → σ → σ → Prop}
  {h : ∀ t s s', inv s → guar t s s' → inv s'} {t : Tid} {α : Type}

/-- What the steps of all other threads keep is stable. -/
theorem stable_of_guarantee (hrun : ∀ s c, M.running s c = c) {P : σ → Prop}
    (hP : ∀ u s s', u ≠ t → inv s → guar u s s' → P s → P s') :
    (ofGuarantee M inv assume safe guar h).Stable t P := by
  rintro s s' ⟨β, c, i, o, b, hc, hinv, -, hmust, hx⟩ hs
  rw [hrun] at hc
  exact hP c s s' hc hinv (hmust.2 i b s' hx) hs

/-- One operation. -/
theorem Triple.act (hrun : ∀ s c, M.running s c = c) {P : σ → Prop} {o : Op α} {Q : α → σ → Prop}
    (hP : (ofGuarantee M inv assume safe guar h).Stable t P)
    (hsafe : ∀ s, P s → inv s → assume α t o s → safe α t o s)
    (hstep : ∀ s i b s', P s → inv s → assume α t o s → M.exec t i s o = some (b, s') →
      guar t s s' ∧ Q b s') :
    (ofGuarantee M inv assume safe guar h).Triple t P (.perform o) Q := by
  refine Triple.perform hP fun s c hs hinv hc ha => ?_
  rw [hrun] at hc
  subst hc
  exact ⟨⟨hsafe s hs hinv ha, fun i b s' hx => (hstep s i b s' hs hinv ha hx).1⟩,
    fun i b s' hx => (hstep s i b s' hs hinv ha hx).2⟩

/-- In every reachable state the invariant holds, and every operation that
comes next is safe, when the code of every thread keeps its guarantee. -/
theorem inv_of_reach [DecidableEq Tid] {A : OpPred Op σ Tid}
    (hA : ∀ {β : Type} {c : Tid} {o : Op β} {s : σ}, A β c o s → assume β c o s)
    (hrestart : ∀ {β : Type} (o : Op β), M.restarts o = none) {g₀ g : Config Op σ Tid}
    (hinv : inv g₀.mem)
    (hok : ∀ u, (ofGuarantee M inv assume safe guar h).Ok u (g₀.code u) g₀.mem)
    (hg : M.Reach A g₀ g) :
    inv g.mem ∧ ∀ (β : Type) (c : Tid) (o : Op β), M.Next g c o → assume β c o g.mem →
      safe β c o g.mem := by
  obtain ⟨hinv', hok'⟩ := sound (L := ofGuarantee M inv assume safe guar h) hA
    (fun _ _ _ _ hu => by
      rw [hrestart] at hu
      cases hu) hinv hok hg
  refine ⟨hinv', fun β c o hn ha => ?_⟩
  exact (must_of_ok (L := ofGuarantee M inv assume safe guar h) hinv' hok' hn ha).1

/-- Every step from a reachable state leaves the memory alone or stays in the
guarantee of the thread that takes it. -/
theorem guar_of_step [DecidableEq Tid] {A : OpPred Op σ Tid}
    (hA : ∀ {β : Type} {c : Tid} {o : Op β} {s : σ}, A β c o s → assume β c o s)
    (hrestart : ∀ {β : Type} (o : Op β), M.restarts o = none)
    {g₀ g g' : Config Op σ Tid} {c : Tid} {i : Input} (hinv : inv g₀.mem)
    (hok : ∀ u, (ofGuarantee M inv assume safe guar h).Ok u (g₀.code u) g₀.mem)
    (hg : M.Reach A g₀ g) (hnext : ∀ (β : Type) (o : Op β), M.Next g c o → assume β c o g.mem)
    (hs : M.step c i g = some g') : g'.mem = g.mem ∨ guar c g.mem g'.mem := by
  obtain ⟨hinv', hok'⟩ := sound (L := ofGuarantee M inv assume safe guar h) hA
    (fun _ _ _ _ hu => by
      rw [hrestart] at hu
      cases hu) hinv hok hg
  obtain ⟨β, γ, body, b, k, -, rfl⟩ | ⟨β, o, k, b, mem, hcode, hexec, rfl⟩ := M.step_cases hs
  · exact .inl rfl
  · have hn : M.Next g c o := ⟨k, hcode⟩
    have hmust := must_of_ok (L := ofGuarantee M inv assume safe guar h) hinv' hok' hn
      (hnext β o hn)
    exact .inr (hmust.2 i b mem hexec)

end Conc.Logic
