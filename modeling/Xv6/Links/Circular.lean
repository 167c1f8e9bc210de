import Mathlib.Data.List.Nodup
import Mathlib.Logic.Function.Basic

/-!
# Circular linked lists

Nodes with a link to the next one.  `Path next a l b` says that from `a` the
links lead through the nodes of `l` to `b`; a circular list leads from its
head back to its head.  In a doubly linked list the other links lead back.
-/

namespace Links

open Function (update)

variable {α : Type}

/-- From `a` the links lead through `l` to `b`. -/
def Path (next : α → α) : α → List α → α → Prop
  | a, [], b => next a = b
  | a, x :: l, b => next a = x ∧ Path next x l b

/-- The first of `l`, or `b`. -/
def first (l : List α) (b : α) : α := l.headD b

/-- The last of `l`, or `a`. -/
def last (a : α) (l : List α) : α := l.getLastD a

theorem last_cons (a x : α) (l : List α) : last a (x :: l) = last x l :=
  List.getLastD_cons ..

/-- The last node is one of the nodes. -/
theorem last_mem (a : α) (l : List α) : last a l ∈ a :: l := List.getLastD_mem_cons ..

theorem last_append (a : α) (l l' : List α) : last a (l ++ l') = last (last a l) l' := by
  induction l generalizing a with
  | nil => rfl
  | cons x l ih => rw [List.cons_append, last_cons, last_cons, ih]

theorem last_reverse (a : α) (l : List α) : last a l.reverse = first l a := by
  cases l with
  | nil => rfl
  | cons x l =>
    show (x :: l).reverse.getLastD a = x
    rw [List.reverse_cons, List.getLastD_concat]

theorem first_reverse (a : α) (l : List α) : first l.reverse a = last a l := by
  rw [← last_reverse, List.reverse_reverse]

/-- Every node of `l` leads to the one behind it, and the last one to `b`. -/
def Chain (next : α → α) : List α → α → Prop
  | [], _ => True
  | x :: l, b => next x = first l b ∧ Chain next l b

theorem first_append (l l' : List α) (b : α) : first (l ++ l') b = first l (first l' b) := by
  cases l <;> rfl

namespace Chain

variable {next next' : α → α} {a b : α} {l l' : List α}

theorem append : Chain next (l ++ l') b ↔ Chain next l (Links.first l' b) ∧ Chain next l' b := by
  induction l with
  | nil => exact ⟨fun h => ⟨trivial, h⟩, fun h => h.2⟩
  | cons x l ih =>
    show next x = Links.first (l ++ l') b ∧ Chain next (l ++ l') b ↔ (next x = _ ∧ Chain next l _) ∧ _
    rw [ih, first_append, and_assoc]

/-- Only the links of the nodes matter. -/
theorem congr (h : Chain next l b) (hl : ∀ z ∈ l, next' z = next z) : Chain next' l b := by
  induction l with
  | nil => trivial
  | cons x l ih =>
    refine ⟨(hl x List.mem_cons_self).trans h.1, ih h.2 fun z hz => ?_⟩
    exact hl z (List.mem_cons_of_mem _ hz)

theorem path : Chain next (a :: l) b ↔ Path next a l b := by
  induction l generalizing a with
  | nil => exact ⟨fun h => h.1, fun h => ⟨h, trivial⟩⟩
  | cons x l ih => exact and_congr_right fun _ => ih

end Chain

namespace Path

variable {next next' : α → α} {a b c x : α} {l l' : List α}

theorem first (h : Path next a l b) : next a = Links.first l b := by
  cases l with
  | nil => exact h
  | cons x l => exact h.1

theorem append : Path next a (l ++ x :: l') b ↔ Path next a l x ∧ Path next x l' b := by
  induction l generalizing a with
  | nil => rfl
  | cons y l ih =>
    show next a = y ∧ Path next y (l ++ x :: l') b ↔ (next a = y ∧ Path next y l x) ∧ _
    rw [ih, and_assoc]

theorem split : Path next a (l ++ l') b ↔
    Path next a l (Links.first l' b) ∧ Path next (last a l) l' b := by
  induction l generalizing a with
  | nil => exact ⟨fun h => ⟨h.first, h⟩, fun h => h.2⟩
  | cons y l ih =>
    show next a = y ∧ Path next y (l ++ l') b ↔ (next a = y ∧ Path next y l _) ∧ _
    rw [ih, last_cons, and_assoc]

theorem next_last (h : Path next a l b) : next (Links.last a l) = b := by
  induction l generalizing a with
  | nil => exact h
  | cons x l ih =>
    rw [last_cons]
    exact ih h.2

/-- The links lead through all the nodes. -/
theorem map_next (h : Path next a l b) : (a :: l).map next = l ++ [b] := by
  induction l generalizing a with
  | nil => exact congrArg (fun x => [x]) h
  | cons x l ih =>
    rw [List.map_cons, h.1, ih h.2]
    rfl

/-- A circle can be followed from any of its nodes. -/
theorem rotate (h : Path next a (l ++ x :: l') a) : Path next x (l' ++ a :: l) x :=
  append.2 (append.1 h).symm

/-- A circle begins at any of its nodes. -/
theorem exists_rotation (h : Path next a l a) (hx : x ∈ a :: l) :
    ∃ l', Path next x l' x ∧ (x :: l').Perm (a :: l) := by
  rcases List.mem_cons.1 hx with rfl | hx
  · exact ⟨l, h, .refl _⟩
  · obtain ⟨l₁, l₂, rfl⟩ := List.append_of_mem hx
    refine ⟨l₂ ++ a :: l₁, h.rotate, ?_⟩
    rw [← List.cons_append, ← List.cons_append]
    exact List.perm_append_comm

/-- Only the links of the nodes on the way matter. -/
theorem congr (h : Path next a l b) (ha : next' c = next a)
    (hl : ∀ z ∈ l, next' z = next z) : Path next' c l b := by
  induction l generalizing a c with
  | nil => exact ha.trans h
  | cons y l ih =>
    refine ⟨ha.trans h.1, ih h.2 (hl y (List.mem_cons_self ..)) fun z hz => ?_⟩
    exact hl z (List.mem_cons_of_mem _ hz)

variable [DecidableEq α]

/-- The last link is turned to another node. -/
theorem retarget (h : Path next a l b) (hnodup : (a :: l).Nodup) (c : α) :
    Path (update next (last a l) c) a l c := by
  induction l generalizing a with
  | nil => exact Function.update_self ..
  | cons y l ih =>
    rw [last_cons]
    obtain ⟨hout, hrest⟩ := List.nodup_cons.1 hnodup
    refine ⟨?_, ih h.2 hrest⟩
    rw [Function.update_of_ne]
    · exact h.1
    · rintro rfl
      refine hout ?_
      unfold last
      cases l with
      | nil => exact List.mem_cons_self ..
      | cons z l =>
        rw [List.getLastD_cons]
        exact List.mem_cons_of_mem _ (List.getLastD_mem_cons ..)

theorem update_of_not_mem (h : Path next a l b) (hx : x ∉ a :: l) (c : α) :
    Path (update next x c) a l b := by
  have hne : ∀ z ∈ a :: l, update next x c z = next z := by
    intro z hz
    rw [Function.update_of_ne]
    rintro rfl
    exact hx hz
  exact h.congr (hne a (List.mem_cons_self ..)) fun z hz => hne z (List.mem_cons_of_mem _ hz)

/-- A node is taken out: the link before it is turned to the node behind it. -/
theorem unlink (h : Path next a (l ++ x :: l') b) (hnodup : (a :: l ++ x :: l').Nodup) :
    Path (update next (last a l) (next x)) a (l ++ l') b := by
  obtain ⟨h₁, h₂⟩ := append.1 h
  obtain ⟨hn₁, hn₂, hdis⟩ := List.nodup_append.1 hnodup
  rw [h₂.first]
  cases l' with
  | nil =>
    rw [List.append_nil]
    exact h₁.retarget hn₁ b
  | cons y l₃ =>
    refine append.2 ⟨h₁.retarget hn₁ y, h₂.2.update_of_not_mem ?_ _⟩
    intro hmem
    exact hdis _ (last_mem a l) _ (List.mem_cons_of_mem _ hmem) rfl

/-- A node is put in between two nodes. -/
theorem insert (h : Path next a (l ++ l') b) (hnodup : (a :: l ++ x :: l').Nodup) :
    Path (update (update next x (next (last a l))) (last a l) x) a (l ++ x :: l') b := by
  obtain ⟨h₁, h₂⟩ := split.1 h
  obtain ⟨hn₁, hn₂, hdis⟩ := List.nodup_append.1 hnodup
  have hx : x ∉ a :: l := fun hmem => hdis x hmem x (List.mem_cons_self ..) rfl
  have hlast : ∀ z ∈ x :: l', z ≠ last a l := fun z hz heq =>
    hdis _ (last_mem a l) z hz heq.symm
  refine append.2 ⟨(h₁.update_of_not_mem hx _).retarget hn₁ x, h₂.congr ?_ fun z hz => ?_⟩
  · rw [Function.update_of_ne (hlast x (List.mem_cons_self ..)), Function.update_self]
  · have hzx : z ≠ x := fun heq => (List.nodup_cons.1 hn₂).1 (heq ▸ hz)
    rw [Function.update_of_ne (hlast z (List.mem_cons_of_mem _ hz)), Function.update_of_ne hzx]

end Path

/-! ## Searching -/

section walk

variable [DecidableEq α]

/-- Follow the links from `a` to the first node that `stop` accepts, or to the
head; `none` when `n` steps do not get there. -/
def walk (next : α → α) (head : α) (stop : α → Bool) : (n : Nat) → (a : α) → Option (Option α)
  | 0, _ => none
  | n + 1, a =>
    if a = head then some none
    else if stop a then some (some a)
    else walk next head stop n (next a)

/-- The search finds what `List.find?` finds. -/
theorem Path.walk {next : α → α} {a head : α} {l : List α} (h : Path next a l head)
    (hhead : head ∉ l) (stop : α → Bool) {n : Nat} (hn : l.length < n) :
    walk next head stop n (next a) = some (l.find? stop) := by
  induction l generalizing a n with
  | nil =>
    obtain ⟨n, rfl⟩ := Nat.exists_eq_add_of_lt hn
    have hnext : next a = head := h
    rw [hnext]
    exact if_pos rfl
  | cons x l ih =>
    obtain ⟨n, rfl⟩ : ∃ m, n = m + 1 := ⟨n - 1, by omega⟩
    have hne : x ≠ head := fun heq => hhead (heq ▸ List.mem_cons_self ..)
    rw [h.1]
    show (if x = head then _ else _) = _
    rw [if_neg hne, List.find?_cons]
    cases hstop : stop x with
    | true => rfl
    | false =>
      rw [if_neg Bool.false_ne_true]
      refine ih h.2 (fun hmem => hhead (List.mem_cons_of_mem _ hmem)) ?_
      rw [List.length_cons] at hn
      omega

end walk

/-! ## Doubly linked lists -/

/-- The nodes of `l` in a circle with `head`. -/
structure Circle (next prev : α → α) (head : α) (l : List α) : Prop where
  forth : Path next head l head
  back : Path prev head l.reverse head
  nodup : (head :: l).Nodup

namespace Circle

variable {next prev : α → α} {head x : α} {l l₁ l₂ : List α}

theorem symm (h : Circle next prev head l) : Circle prev next head l.reverse where
  forth := h.back
  back := by
    rw [List.reverse_reverse]
    exact h.forth
  nodup := by
    rw [List.nodup_cons, List.mem_reverse, List.nodup_reverse]
    exact List.nodup_cons.1 h.nodup

/-- What the links of a node in the list are. -/
theorem next_eq (h : Circle next prev head (l₁ ++ x :: l₂)) : next x = first l₂ head :=
  (Path.append.1 h.forth).2.first

theorem reverse_split (l₁ l₂ : List α) (x : α) :
    (l₁ ++ x :: l₂).reverse = l₂.reverse ++ x :: l₁.reverse := by
  rw [List.reverse_append, List.reverse_cons, List.append_assoc, List.singleton_append]

theorem prev_eq (h : Circle next prev head (l₁ ++ x :: l₂)) : prev x = last head l₁ := by
  have hs := h.symm
  rw [reverse_split] at hs
  rw [hs.next_eq, ← last_reverse, List.reverse_reverse]

variable [DecidableEq α]

theorem unlink_forth (h : Circle next prev head (l₁ ++ x :: l₂)) :
    Path (update next (last head l₁) (first l₂ head)) head (l₁ ++ l₂) head := by
  rw [← h.next_eq]
  exact h.forth.unlink h.nodup

/-- A node is taken out. -/
theorem unlink (h : Circle next prev head (l₁ ++ x :: l₂)) :
    Circle (update next (prev x) (next x)) (update prev (next x) (prev x)) head (l₁ ++ l₂) where
  forth := by
    rw [h.next_eq, h.prev_eq]
    exact h.unlink_forth
  back := by
    have hs := h.symm
    rw [reverse_split] at hs
    have hback := hs.unlink_forth
    rw [last_reverse, first_reverse, ← List.reverse_append] at hback
    rw [h.next_eq, h.prev_eq]
    exact hback
  nodup := by
    have hsub : (head :: (l₁ ++ l₂)).Sublist (head :: (l₁ ++ x :: l₂)) :=
      (List.Sublist.append (List.Sublist.refl l₁) (List.sublist_cons_self x l₂)).cons_cons head
    exact h.nodup.sublist hsub

/-- A node is put in behind the head. -/
theorem push (h : Circle next prev head l) (hx : x ∉ head :: l) :
    Circle (update (update next x (next head)) head x)
      (update (update prev x head) (next head) x) head (x :: l) where
  forth := by
    have hne : x ≠ head := fun heq => hx (heq ▸ List.mem_cons_self ..)
    refine ⟨Function.update_self .., h.forth.congr ?_ fun z hz => ?_⟩
    · rw [Function.update_of_ne hne, Function.update_self]
    · have hzh : z ≠ head := fun heq => (List.nodup_cons.1 h.nodup).1 (heq ▸ hz)
      have hzx : z ≠ x := fun heq => hx (heq ▸ List.mem_cons_of_mem _ hz)
      rw [Function.update_of_ne hzh, Function.update_of_ne hzx]
  back := by
    have hfirst : next head = last head l.reverse := by
      rw [h.forth.first, last_reverse]
    have hmem : ∀ z, z ∈ head :: l.reverse ↔ z ∈ head :: l := fun z => by
      rw [List.mem_cons, List.mem_cons, List.mem_reverse]
    have hlast : last head l.reverse ∈ head :: l := (hmem _).1 (last_mem ..)
    have hne : x ≠ last head l.reverse := fun heq => hx (heq ▸ hlast)
    have hback := (h.back.update_of_not_mem (x := x) (fun hz => hx ((hmem x).1 hz)) head).retarget
      h.symm.nodup x
    rw [List.reverse_cons, hfirst]
    refine Path.append.2 ⟨hback, ?_⟩
    show update (update prev x head) (last head l.reverse) x x = head
    rw [Function.update_of_ne hne, Function.update_self]
  nodup := by
    obtain ⟨hhead, hl⟩ := List.nodup_cons.1 h.nodup
    refine List.nodup_cons.2 ⟨?_, List.nodup_cons.2 ⟨?_, hl⟩⟩
    · intro hmem
      rcases List.mem_cons.1 hmem with rfl | hmem
      · exact hx (List.mem_cons_self ..)
      · exact hhead hmem
    · exact fun hmem => hx (List.mem_cons_of_mem _ hmem)

end Circle

end Links
