import Xv6.Bio.Code
import Mathlib.Data.Finset.Card
import Mathlib.Data.Fintype.Basic
import Mathlib.Data.Fintype.Card

/-!
# What the operations of the buffer cache keep

The count of a buffer is the number of its uses: the process that has it
locked, those that wait for it or have just unlocked it, and its pins.  The
list is in the order in which the unused buffers were released.
-/

namespace Xv6.Bio

open Function (update)

variable {D : Type} {s s' : State D} {p : Slot} {b : Buf}

/-! ## The list -/

theorem pushFront_circle {l : List Buf} (h : Links.Circle s.next s.prev none (l.map some))
    (hb : b ∉ l) : Links.Circle (s.pushFront b).next (s.pushFront b).prev none
      ((b :: l).map some) := by
  refine h.push ?_
  intro hmem
  rcases List.mem_cons.1 hmem with heq | hmem
  · cases heq
  · obtain ⟨c, hc, heq⟩ := List.mem_map.1 hmem
    rw [← Option.some.inj heq] at hb
    exact hb hc

theorem unlink_circle {l₁ l₂ : List Buf}
    (h : Links.Circle s.next s.prev none ((l₁ ++ b :: l₂).map some)) :
    Links.Circle (s.unlink b).next (s.unlink b).prev none ((l₁ ++ l₂).map some) := by
  rw [List.map_append, List.map_cons] at h
  have hprev : update s.prev (s.next b) (s.prev b) b = s.prev b := by
    by_cases hself : (b : Node) = s.next b
    · rw [← hself, Function.update_self]
    · rw [Function.update_of_ne hself]
  rw [List.map_append]
  show Links.Circle (update s.next (update s.prev (s.next b) (s.prev b) b) (s.next b)) _ _ _
  rw [hprev]
  exact h.unlink

theorem foldl_pushFront {bs l : List Buf} (h : Links.Circle s.next s.prev none (l.map some))
    (hnodup : (bs.reverse ++ l).Nodup) :
    Links.Circle (bs.foldl State.pushFront s).next (bs.foldl State.pushFront s).prev none
      ((bs.reverse ++ l).map some) := by
  induction bs generalizing s l with
  | nil => exact h
  | cons b bs ih =>
    rw [List.reverse_cons, List.append_assoc, List.singleton_append] at hnodup ⊢
    refine ih (pushFront_circle h fun hmem => ?_) hnodup
    exact (List.nodup_cons.1 (List.nodup_append.1 hnodup).2.1).1 hmem

/-! ## Uses -/

/-- The processes that are about to lock `b`, or have just unlocked it. -/
def State.transits (s : State D) (b : Buf) : Finset Slot :=
  Finset.univ.filter fun p => s.transit p = some b

def State.uses (s : State D) (b : Buf) : Nat :=
  (if s.lock b = none then 0 else 1) + (s.transits b).card + s.pins b

theorem mem_transits : p ∈ s.transits b ↔ s.transit p = some b := by
  unfold State.transits
  rw [Finset.mem_filter]
  exact ⟨fun h => h.2, fun h => ⟨Finset.mem_univ p, h⟩⟩

theorem card_transits_le (s : State D) (b : Buf) : (s.transits b).card ≤ NPROC := by
  have hle := Finset.card_le_univ (s.transits b)
  rwa [Fintype.card_fin] at hle

/-- A process that is on its way to no buffer sets out for `b`. -/
theorem transits_set {s : State D} (s' : State D) (h : s.transit p = none)
    (htransit : s'.transit = update s.transit p (some b)) (c : Buf) :
    (s'.transits c).card = (s.transits c).card + if c = b then 1 else 0 := by
  by_cases hc : c = b
  · have hins : s'.transits c = insert p (s.transits c) := by
      ext q
      rw [Finset.mem_insert, mem_transits, mem_transits, htransit]
      by_cases hq : q = p
      · rw [hq, Function.update_self, hc]
        exact ⟨fun _ => .inl rfl, fun _ => rfl⟩
      · rw [Function.update_of_ne hq]
        exact ⟨.inr, fun h => h.resolve_left hq⟩
    have hout : p ∉ s.transits c := by
      rw [mem_transits, h]
      exact fun h => by cases h
    rw [hins, Finset.card_insert_of_notMem hout, if_pos hc]
  · have hsame : s'.transits c = s.transits c := by
      ext q
      rw [mem_transits, mem_transits, htransit]
      by_cases hq : q = p
      · rw [hq, Function.update_self, h]
        exact ⟨fun h => absurd (Option.some.inj h).symm hc, fun h => by cases h⟩
      · rw [Function.update_of_ne hq]
    rw [hsame, if_neg hc]
    rfl

/-- A process arrives. -/
theorem transits_clear {s : State D} (s' : State D) (h : s.transit p = some b)
    (htransit : s'.transit = update s.transit p none) (c : Buf) :
    (s.transits c).card = (s'.transits c).card + if c = b then 1 else 0 := by
  refine transits_set (p := p) s ?_ ?_ c
  · rw [htransit, Function.update_self]
  · rw [htransit, Function.update_idem, ← h, Function.update_eq_self]

theorem transits_congr {s : State D} (s' : State D) (h : s'.transit = s.transit) (c : Buf) : s'.transits c = s.transits c := by
  ext q
  rw [mem_transits, mem_transits, h]

theorem toNat_add_one {x : I32} (h : x.toNat + 1 < 2 ^ 32) : (x + 1).toNat = x.toNat + 1 := by
  rw [BitVec.toNat_add]
  exact Nat.mod_eq_of_lt h

theorem toNat_sub_one {x : I32} (h : x.toNat ≠ 0) : (x - 1).toNat = x.toNat - 1 := by
  rw [BitVec.toNat_sub_of_le]
  · rfl
  · exact Nat.one_le_iff_ne_zero.2 h

theorem toNat_ne_zero {x : I32} : x ≠ 0 ↔ x.toNat ≠ 0 := by
  rw [Ne, Ne, ← BitVec.toNat_inj]
  rfl

/-! ## The invariant -/

/-- The list holds all buffers, and the unused ones in the order of their last
release, the latest first. -/
structure Listed (s : State D) (l : List Buf) : Prop where
  circle : Links.Circle s.next s.prev none (l.map some)
  all : ∀ b, b ∈ l
  sorted : l.Pairwise fun a b => s.refcnt a = 0 → s.refcnt b = 0 → s.released b ≤ s.released a

structure Inv (s : State D) : Prop where
  list : ∃ l, Listed s l
  unique : ∀ b c, s.dev b ≠ 0 → s.key b = s.key c → b = c
  count : ∀ b, (s.refcnt b).toNat = s.uses b
  fits : ∀ b, s.pins b + NPROC + 1 < 2 ^ 32
  named : ∀ b, s.lock b ≠ none ∨ (∃ p, s.transit p = some b) → s.dev b ≠ 0
  valid : ∀ b, s.valid b = true → s.dev b ≠ 0 ∧ s.data b = s.contents (s.key b)
  written : ∀ k, s.written k ≠ none → ∃ b, s.valid b = true ∧ s.key b = k
  past : ∀ b, s.released b ≤ s.clock

theorem Listed.nodup {l : List Buf} (h : Listed s l) : l.Nodup :=
  List.Nodup.of_map some (List.nodup_cons.1 h.circle.nodup).2

theorem Listed.length {l : List Buf} (h : Listed s l) : l.length < NBUF + 1 := by
  have hle := h.nodup.length_le_card
  rw [Fintype.card_fin] at hle
  exact Nat.lt_succ_of_le hle

/-- The counts of some buffers change, but none becomes 0. -/
theorem Listed.congr {l : List Buf} (h : Listed s l) (hnext : s'.next = s.next)
    (hprev : s'.prev = s.prev) (hreleased : ∀ b, s'.refcnt b = 0 → s'.released b = s.released b)
    (hzero : ∀ b, s'.refcnt b = 0 → s.refcnt b = 0) : Listed s' l where
  circle := by
    rw [hnext, hprev]
    exact h.circle
  all := h.all
  sorted := h.sorted.imp fun {a b} hab ha hb => by
    rw [hreleased a ha, hreleased b hb]
    exact hab (hzero a ha) (hzero b hb)

theorem Inv.uses_lt (h : Inv s) (b : Buf) : s.uses b < 2 ^ 32 := by
  have hfits := h.fits b
  have hcard := card_transits_le s b
  unfold State.uses
  split_ifs <;> omega

theorem Inv.refcnt_ne_zero (h : Inv s) : s.refcnt b ≠ 0 ↔
    s.lock b ≠ none ∨ (∃ p, s.transit p = some b) ∨ s.pins b ≠ 0 := by
  have hcard : (s.transits b).card ≠ 0 ↔ ∃ p, s.transit p = some b := by
    rw [Finset.card_ne_zero]
    exact ⟨fun ⟨p, hp⟩ => ⟨p, mem_transits.1 hp⟩, fun ⟨p, hp⟩ => ⟨p, mem_transits.2 hp⟩⟩
  rw [toNat_ne_zero, h.count, ← hcard]
  unfold State.uses
  by_cases hlock : s.lock b = none
  · rw [if_pos hlock]
    simp only [hlock, ne_eq, not_true, false_or]
    omega
  · rw [if_neg hlock]
    exact ⟨fun _ => .inl hlock, fun _ => by omega⟩

/-- The search forwards finds the buffer that caches the block, if there is
one. -/
theorem Listed.walk_next {l : List Buf} (h : Listed s l) (f : Buf → Bool) :
    Links.walk s.next none (onBuf f) (NBUF + 1) (s.next none) = some ((l.find? f).map some) := by
  have hnone : none ∉ l.map some := (List.nodup_cons.1 h.circle.nodup).1
  rw [h.circle.forth.walk hnone (onBuf f) (by rw [List.length_map]; exact h.length),
    List.find?_map]
  rfl

/-- The search backwards. -/
theorem Listed.walk_prev {l : List Buf} (h : Listed s l) (f : Buf → Bool) :
    Links.walk s.prev none (onBuf f) (NBUF + 1) (s.prev none) =
      some ((l.reverse.find? f).map some) := by
  have hback := h.circle.back
  rw [← List.map_reverse] at hback
  have hnone : none ∉ l.reverse.map some := by
    rw [List.map_reverse, List.mem_reverse]
    exact (List.nodup_cons.1 h.circle.nodup).1
  rw [hback.walk hnone (onBuf f) (by rw [List.length_map, List.length_reverse]; exact h.length),
    List.find?_map]
  rfl

end Xv6.Bio
