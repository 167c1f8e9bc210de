import Xv6.Radix.Tree
import Mathlib.Data.List.Perm.Basic
import Mathlib.Data.List.Nodup

/-!
# The nodes of a radix tree

`nodes` lists the nodes of a tree in the order in which a recursive traversal
leaves them.  `idx` lists the indices of a node.
-/

namespace Radix

variable {A I E : Type} (child : E → Option A) (idx : List I)

/-- The nodes below the entry `i` of `a`, where `nodes` lists those of a
child. -/
def entryNodes (nodes : A → List A) (h : A → I → E) (a : A) (i : I) : List A :=
  ((child (h a i)).map nodes).getD []

/-- The nodes below the entries `is` of `a`. -/
def nodesBelow (nodes : A → List A) (h : A → I → E) (a : A) (is : List I) : List A :=
  is.flatMap (entryNodes child nodes h a)

/-- The nodes down to depth `d`, a node after those below it. -/
def nodes (h : A → I → E) : Nat → A → List A
  | 0, a => [a]
  | d + 1, a => nodesBelow child (nodes h d) h a idx ++ [a]

variable {child idx} {h h' : A → I → E} {a b : A} {d : Nat}

theorem mem_entryNodes {f : A → List A} {i : I} :
    b ∈ entryNodes child f h a i ↔ ∃ c, child (h a i) = some c ∧ b ∈ f c := by
  unfold entryNodes
  cases child (h a i) with
  | none => simp
  | some c => simp

theorem mem_nodesBelow {f : A → List A} {is : List I} :
    b ∈ nodesBelow child f h a is ↔ ∃ i ∈ is, ∃ c, child (h a i) = some c ∧ b ∈ f c := by
  unfold nodesBelow
  rw [List.mem_flatMap]
  exact exists_congr fun i => and_congr_right fun _ => mem_entryNodes

theorem mem_nodes_self : a ∈ nodes child idx h d a := by
  cases d with
  | zero => exact List.mem_singleton_self a
  | succ d => exact List.mem_append_right _ (List.mem_singleton_self a)

theorem mem_nodes (hidx : ∀ i, i ∈ idx) :
    b ∈ nodes child idx h d a ↔ IsNode child h a d b := by
  induction d generalizing a with
  | zero =>
    rw [nodes, List.mem_singleton]
    constructor
    · rintro rfl
      exact isNode_root
    · rintro ⟨p, hp, hb⟩
      cases p with
      | nil => exact (Option.some.inj hb).symm
      | cons i p => exact absurd hp (by simp)
  | succ d ih =>
    rw [nodes, List.mem_append, mem_nodesBelow, List.mem_singleton]
    constructor
    · rintro (⟨i, -, c, hc, hb⟩ | rfl)
      · obtain ⟨p, hp, hnode⟩ := ih.1 hb
        refine ⟨i :: p, Nat.succ_le_succ hp, ?_⟩
        rw [node_cons, hc]
        exact hnode
      · exact isNode_root
    · rintro ⟨p, hp, hb⟩
      cases p with
      | nil => exact .inr (Option.some.inj hb).symm
      | cons i p =>
        rw [node_cons] at hb
        cases hc : child (h a i) with
        | none =>
          rw [hc] at hb
          cases hb
        | some c =>
          rw [hc] at hb
          exact .inl ⟨i, hidx i, c, hc, ih.2 ⟨p, Nat.le_of_succ_le_succ hp, hb⟩⟩

/-- The part of a tree below one entry. -/
theorem Tree.below {i : I} {c : A} (ht : Tree child h a (d + 1)) (hc : child (h a i) = some c) :
    Tree child h c d := by
  intro p q b hp hq hpb hqb
  have hcons : ∀ r : List I, node child h c r = some b → node child h a (i :: r) = some b := by
    intro r hr
    rw [node_cons, hc]
    exact hr
  exact (List.cons.inj (ht _ _ b (Nat.succ_le_succ hp) (Nat.succ_le_succ hq) (hcons p hpb)
    (hcons q hqb))).2

/-- Each node is listed once. -/
theorem nodup_nodes (hidx : ∀ i, i ∈ idx) (hnodup : idx.Nodup) (ht : Tree child h a d) :
    (nodes child idx h d a).Nodup := by
  induction d generalizing a with
  | zero => exact List.nodup_singleton a
  | succ d ih =>
    have hpath : ∀ i c b, child (h a i) = some c → b ∈ nodes child idx h d c →
        ∃ p : List I, p.length ≤ d ∧ node child h a (i :: p) = some b := by
      intro i c b hc hb
      obtain ⟨p, hp, hnode⟩ := (mem_nodes hidx).1 hb
      refine ⟨p, hp, ?_⟩
      rw [node_cons, hc]
      exact hnode
    rw [nodes, List.nodup_append]
    refine ⟨?_, List.nodup_singleton a, ?_⟩
    · unfold nodesBelow
      refine List.nodup_flatMap.2 ⟨fun i _ => ?_, ?_⟩
      · unfold entryNodes
        cases hc : child (h a i) with
        | none => exact List.nodup_nil
        | some c => exact ih (ht.below hc)
      · refine hnodup.imp_of_mem fun {i j} _ _ hij b hbi hbj => ?_
        -- a node below two entries would have two paths
        obtain ⟨c, hci, hbi⟩ := mem_entryNodes.1 hbi
        obtain ⟨e, hcj, hbj⟩ := mem_entryNodes.1 hbj
        obtain ⟨p, hp, hpb⟩ := hpath i c b hci hbi
        obtain ⟨q, hq, hqb⟩ := hpath j e b hcj hbj
        exact hij (List.cons.inj (ht _ _ b (Nat.succ_le_succ hp) (Nat.succ_le_succ hq) hpb
          hqb)).1
    · intro b hb c hc hbc
      rw [List.mem_singleton.1 hc] at hbc
      obtain ⟨i, -, e, he, hb⟩ := mem_nodesBelow.1 hb
      obtain ⟨p, hp, hpb⟩ := hpath i e b he hb
      have hroot : node child h a [] = some b := congrArg some hbc.symm
      cases ht (i :: p) [] b (Nat.succ_le_succ hp) (Nat.zero_le _) hpb hroot

theorem nodesBelow_congr {f g : A → List A} {is : List I}
    (hentry : ∀ i ∈ is, h' a i = h a i)
    (hfg : ∀ i ∈ is, ∀ c, child (h a i) = some c → g c = f c) :
    nodesBelow child g h' a is = nodesBelow child f h a is := by
  refine List.flatMap_congr fun i hi => ?_
  unfold entryNodes
  rw [hentry i hi]
  cases hc : child (h a i) with
  | none => rfl
  | some c => exact hfg i hi c hc

/-- The nodes are found in the nodes. -/
theorem nodes_congr (heq : ∀ b ∈ nodes child idx h d a, ∀ i, h' b i = h b i) :
    nodes child idx h' d a = nodes child idx h d a := by
  induction d generalizing a with
  | zero => rfl
  | succ d ih =>
    have hself := heq a mem_nodes_self
    rw [nodes, nodes]
    congr 1
    refine nodesBelow_congr (fun i _ => hself i) fun i hi c hc => ih fun b hb => heq b ?_
    rw [nodes]
    exact List.mem_append_left _ (mem_nodesBelow.2 ⟨i, hi, c, hc, hb⟩)

end Radix
