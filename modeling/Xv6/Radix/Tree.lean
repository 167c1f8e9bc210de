import Mathlib.Data.List.Induction

/-!
# Radix trees in a heap

A heap maps the addresses of nodes to their entries.  An entry of an inner
node may refer to a child node, as `child` says.  `node` follows a path of
indices from the root.  In a `Tree` of some depth no node is reached by two
paths, so that a store into one node changes no other path.
-/

namespace Radix

variable {A I E : Type} (child : E → Option A)

/-- The node at the end of a path. -/
def node (h : A → I → E) : A → List I → Option A
  | a, [] => some a
  | a, i :: p => (child (h a i)).bind fun b => node h b p

/-- `a` is a node at depth `d` at most. -/
def IsNode (h : A → I → E) (root : A) (d : Nat) (a : A) : Prop :=
  ∃ p, p.length ≤ d ∧ node child h root p = some a

/-- Down to depth `d` there is one path to every node. -/
def Tree (h : A → I → E) (root : A) (d : Nat) : Prop :=
  ∀ p q a, p.length ≤ d → q.length ≤ d → node child h root p = some a →
    node child h root q = some a → p = q

variable {child} {h h' : A → I → E} {root a b : A} {i : I} {p q : List I} {d : Nat}

@[simp] theorem node_nil : node child h a [] = some a := rfl

theorem node_cons : node child h a (i :: p) = (child (h a i)).bind fun b => node child h b p := rfl

theorem node_append : node child h a (p ++ q) = (node child h a p).bind fun b =>
    node child h b q := by
  induction p generalizing a with
  | nil => rfl
  | cons i p ih =>
    rw [List.cons_append, node_cons, node_cons, Option.bind_assoc]
    exact congrArg _ (funext fun b => ih)

theorem node_concat : node child h a (p ++ [i]) = (node child h a p).bind fun b =>
    child (h b i) := by
  rw [node_append]
  refine congrArg _ (funext fun b => ?_)
  rw [node_cons]
  cases child (h b i) <;> rfl

theorem isNode_root : IsNode child h root d root := ⟨[], Nat.zero_le d, rfl⟩

theorem IsNode.mono {d' : Nat} (ha : IsNode child h root d a) (hd : d ≤ d') :
    IsNode child h root d' a := by
  obtain ⟨p, hp, hnode⟩ := ha
  exact ⟨p, Nat.le_trans hp hd, hnode⟩

/-! ## Stores that change no path -/

/-- A path depends on the nodes above its end. -/
theorem node_congr (hp : p.length ≤ d)
    (heq : ∀ q a, q.length < d → node child h root q = some a → ∀ i, h' a i = h a i) :
    node child h' root p = node child h root p := by
  induction p using List.reverseRecOn with
  | nil => rfl
  | append_singleton p i ih =>
    rw [List.length_append, List.length_singleton] at hp
    rw [node_concat, node_concat, ih (by omega)]
    cases hnode : node child h root p with
    | none => rfl
    | some a => exact congrArg child (heq p a (by omega) hnode i)

theorem isNode_congr (heq : ∀ q a, q.length < d → node child h root q = some a →
    ∀ i, h' a i = h a i) : IsNode child h' root d a ↔ IsNode child h root d a := by
  constructor
  · intro ⟨p, hp, hnode⟩
    exact ⟨p, hp, node_congr hp heq ▸ hnode⟩
  · intro ⟨p, hp, hnode⟩
    exact ⟨p, hp, (node_congr hp heq).trans hnode⟩

theorem Tree.congr (ht : Tree child h root d)
    (heq : ∀ q a, q.length < d → node child h root q = some a → ∀ i, h' a i = h a i) :
    Tree child h' root d := by
  intro p q a hp hq hpa hqa
  rw [node_congr hp heq] at hpa
  rw [node_congr hq heq] at hqa
  exact ht p q a hp hq hpa hqa

/-- A store into a node at the lowest level is not seen above it. -/
theorem Tree.above_leaf (h' : A → I → E) (ht : Tree child h root d) (hp : p.length = d)
    (ha : node child h root p = some a) (hout : ∀ b, b ≠ a → ∀ i, h' b i = h b i) :
    ∀ q b, q.length < d → node child h root q = some b → ∀ i, h' b i = h b i := by
  intro q b hq hb
  refine hout b fun hba => ?_
  rw [hba] at hb
  have hlen := congrArg List.length (ht p q a (Nat.le_of_eq hp) (Nat.le_of_lt hq) ha hb)
  omega

/-! ## A new node -/

/-- What a new empty node, put into a free entry, changes. -/
structure Grafted (child : E → Option A) (h h' : A → I → E) (root : A) (d : Nat) (p : List I)
    (a : A) (i : I) (b : A) : Prop where
  parent : node child h root p = some a
  above : p.length < d
  free : child (h a i) = none
  link : child (h' a i) = some b
  fresh : ¬ IsNode child h root d b
  empty : ∀ j, child (h' b j) = none
  same : ∀ c j, c ≠ b → (c = a → j ≠ i) → h' c j = h c j

/-- Below a free entry there is nothing. -/
theorem node_below_free (ha : node child h root p = some a) (hfree : child (h a i) = none) :
    node child h root (p ++ i :: q) = none := by
  rw [node_append, ha]
  show node child h a (i :: q) = none
  rw [node_cons, hfree]
  rfl

namespace Grafted

/-- A path that does not pass through the new entry leads where it did. -/
theorem node_old (hg : Grafted child h h' root d p a i b) (ht : Tree child h root d)
    (hq : q.length ≤ d) (hthrough : ¬ (p ++ [i]) <+: q) :
    node child h' root q = node child h root q := by
  induction q using List.reverseRecOn with
  | nil => rfl
  | append_singleton q j ih =>
    rw [List.length_append, List.length_singleton] at hq
    have hq' : ¬ (p ++ [i]) <+: q := fun hpre => hthrough (hpre.trans (List.prefix_append q [j]))
    rw [node_concat, node_concat, ih (by omega) hq']
    cases hnode : node child h root q with
    | none => rfl
    | some c =>
      refine congrArg child (hg.same c j ?_ ?_)
      · intro hcb
        exact hg.fresh ⟨q, by omega, hcb ▸ hnode⟩
      · intro hca hji
        rw [hca] at hnode
        have hqp := ht q p a (by omega) (Nat.le_of_lt hg.above) hnode hg.parent
        exact hthrough (hqp ▸ hji ▸ List.prefix_rfl)

theorem node_new (hg : Grafted child h h' root d p a i b) (ht : Tree child h root d) :
    node child h' root (p ++ [i]) = some b := by
  have hp : node child h' root p = some a := by
    rw [hg.node_old ht (Nat.le_of_lt hg.above) fun hpre => ?_, hg.parent]
    have := hpre.length_le
    rw [List.length_append, List.length_singleton] at this
    omega
  rw [node_concat, hp]
  exact hg.link

theorem node_below (hg : Grafted child h h' root d p a i b) (ht : Tree child h root d) (j : I)
    (q : List I) : node child h' root (p ++ [i] ++ j :: q) = none := by
  rw [node_append, hg.node_new ht]
  show node child h' b (j :: q) = none
  rw [node_cons, hg.empty]
  rfl

/-- The paths to a node after the graft. -/
theorem node_cases (hg : Grafted child h h' root d p a i b) (ht : Tree child h root d)
    (hq : q.length ≤ d) {c : A} (hc : node child h' root q = some c) :
    q = p ++ [i] ∧ c = b ∨ ¬ (p ++ [i]) <+: q ∧ node child h root q = some c := by
  by_cases hthrough : (p ++ [i]) <+: q
  · left
    obtain ⟨r, rfl⟩ := hthrough
    cases r with
    | nil =>
      rw [List.append_nil] at hc ⊢
      rw [hg.node_new ht] at hc
      exact ⟨rfl, (Option.some.inj hc).symm⟩
    | cons j r =>
      rw [hg.node_below ht] at hc
      cases hc
  · exact .inr ⟨hthrough, hg.node_old ht hq hthrough ▸ hc⟩

/-- What was a node still is, by the same path. -/
theorem node_kept (hg : Grafted child h h' root d p a i b) (ht : Tree child h root d)
    (hq : q.length ≤ d) {c : A} (hc : node child h root q = some c) :
    node child h' root q = some c := by
  rw [hg.node_old ht hq fun hthrough => ?_, hc]
  obtain ⟨r, rfl⟩ := hthrough
  rw [List.append_assoc, List.singleton_append, node_below_free hg.parent hg.free] at hc
  cases hc

theorem tree (hg : Grafted child h h' root d p a i b) (ht : Tree child h root d) :
    Tree child h' root d := by
  intro q r c hq hr hqc hrc
  obtain ⟨hq', hcb⟩ | ⟨-, hqc⟩ := hg.node_cases ht hq hqc
  · obtain ⟨hr', -⟩ | ⟨-, hrc⟩ := hg.node_cases ht hr hrc
    · rw [hq', hr']
    · exact absurd ⟨r, hr, hcb ▸ hrc⟩ hg.fresh
  · obtain ⟨-, hcb⟩ | ⟨-, hrc⟩ := hg.node_cases ht hr hrc
    · exact absurd ⟨q, hq, hcb ▸ hqc⟩ hg.fresh
    · exact ht q r c hq hr hqc hrc

theorem isNode_iff (hg : Grafted child h h' root d p a i b) (ht : Tree child h root d) {c : A} :
    IsNode child h' root d c ↔ c = b ∨ IsNode child h root d c := by
  constructor
  · intro ⟨q, hq, hc⟩
    obtain ⟨-, hcb⟩ | ⟨-, hc⟩ := hg.node_cases ht hq hc
    · exact .inl hcb
    · exact .inr ⟨q, hq, hc⟩
  · intro hc
    obtain rfl | ⟨q, hq, hc⟩ := hc
    · refine ⟨p ++ [i], ?_, hg.node_new ht⟩
      rw [List.length_append, List.length_singleton]
      exact hg.above
    · exact ⟨q, hq, hg.node_kept ht hq hc⟩

end Grafted

end Radix
