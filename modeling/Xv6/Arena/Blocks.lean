import Mathlib.Data.List.Perm.Basic
import Mathlib.Data.List.Pairwise
import Mathlib.Data.List.Range

/-!
# Blocks of an arena

An arena is divided into blocks, and a block is a number of units of `w` bytes.
A list of free blocks is kept in the order of the addresses, and no two of its
blocks touch: where a block is released it is joined to its neighbours.  No
operation makes or loses a unit.
-/

namespace Arena

/-- Where it begins, and its number of units. -/
structure Block where
  addr : Nat
  count : Nat
  deriving DecidableEq

variable (w : Nat)

/-- Where it ends. -/
def Block.stop (b : Block) : Nat := b.addr + w * b.count

/-- Where its units begin. -/
def Block.units (b : Block) : List Nat := (List.range b.count).map fun k => b.addr + w * k

/-- The units of some blocks. -/
def units (l : List Block) : List Nat := l.flatMap (Block.units w)

/-- Two blocks without a byte in common. -/
def Apart (b b' : Block) : Prop := b.stop w ≤ b'.addr ∨ b'.stop w ≤ b.addr

/-- There is a byte between a block and the next one. -/
def Ordered (l : List Block) : Prop := l.Pairwise fun b b' => b.stop w < b'.addr

/-- Put a block before the others, joined to the first if they touch. -/
def link (b : Block) : List Block → List Block
  | [] => [b]
  | b' :: l => if b.stop w = b'.addr then ⟨b.addr, b.count + b'.count⟩ :: l else b :: b' :: l

/-- Put a block where it belongs. -/
def release (b : Block) : List Block → List Block
  | [] => [b]
  | b' :: l => if b.addr < b'.addr then link w b (b' :: l) else link w b' (release b l)

/-- What is left of a block when `n` units are taken from its end. -/
def Block.rest (n : Nat) (b : Block) : List Block :=
  if b.count = n then [] else [⟨b.addr, b.count - n⟩]

/-- The last `n` units of a block. -/
def Block.tail (n : Nat) (b : Block) : Block := ⟨b.addr + w * (b.count - n), n⟩

variable {w : Nat} {b b' x : Block} {l l' : List Block} {n a : Nat}

theorem link_of_touch (h : b.stop w = b'.addr) :
    link w b (b' :: l) = ⟨b.addr, b.count + b'.count⟩ :: l := if_pos h

theorem link_of_gap (h : ¬ b.stop w = b'.addr) : link w b (b' :: l) = b :: b' :: l := if_neg h

theorem link_of_far (h : ∀ c ∈ l, b.stop w < c.addr) : link w b l = b :: l := by
  cases l with
  | nil => rfl
  | cons b' l => exact link_of_gap (Nat.ne_of_lt (h b' List.mem_cons_self))

theorem release_of_lt (h : b.addr < b'.addr) : release w b (b' :: l) = link w b (b' :: l) :=
  if_pos h

theorem release_of_ge (h : ¬ b.addr < b'.addr) :
    release w b (b' :: l) = link w b' (release w b l) := if_neg h

/-! ## Units -/

@[simp] theorem units_nil : units w [] = [] := rfl

@[simp] theorem units_cons : units w (b :: l) = b.units w ++ units w l := rfl

@[simp] theorem units_append : units w (l ++ l') = units w l ++ units w l' :=
  List.flatMap_append

theorem units_perm (h : l.Perm l') : (units w l).Perm (units w l') := h.flatMap_right _

/-- A block is made of two that touch. -/
theorem units_join (h : b.stop w = b'.addr) :
    Block.units w ⟨b.addr, b.count + b'.count⟩ = b.units w ++ b'.units w := by
  unfold Block.units
  rw [List.range_add, List.map_append, List.map_map]
  congr 1
  refine List.map_congr_left fun k _ => ?_
  simp only [Function.comp_apply, ← h, Block.stop, Nat.mul_add, Nat.add_assoc]

theorem units_rest (h : n ≤ b.count) :
    units w (b.rest n) ++ (b.tail w n).units w = b.units w := by
  have htouch : (⟨b.addr, b.count - n⟩ : Block).stop w = (b.tail w n).addr := rfl
  have hjoin := units_join htouch
  rw [Block.tail, Nat.sub_add_cancel h] at hjoin
  rw [Block.tail, hjoin, Block.rest]
  by_cases heq : b.count = n
  · rw [if_pos heq, heq, Nat.sub_self]
    rfl
  · rw [if_neg heq, units_cons, units_nil, List.append_nil]

theorem units_link : units w (link w b l) = b.units w ++ units w l := by
  cases l with
  | nil => rfl
  | cons b' l =>
    by_cases h : b.stop w = b'.addr
    · rw [link_of_touch h, units_cons, units_join h, units_cons, List.append_assoc]
    · rw [link_of_gap h, units_cons]

/-- No unit is made or lost. -/
theorem units_release : (units w (release w b l)).Perm (b.units w ++ units w l) := by
  induction l with
  | nil => exact .refl _
  | cons b' l ih =>
    by_cases h : b.addr < b'.addr
    · rw [release_of_lt h, units_link]
    · rw [release_of_ge h, units_link, units_cons]
      refine (ih.append_left _).trans ?_
      rw [← List.append_assoc, ← List.append_assoc]
      exact List.perm_append_comm.append_right _

theorem mem_units (h : a ∈ b.units w) : b.addr ≤ a ∧ a + w ≤ b.stop w := by
  obtain ⟨k, hk, rfl⟩ := List.mem_map.1 h
  have hle : w * (k + 1) ≤ w * b.count := Nat.mul_le_mul_left w (List.mem_range.1 hk)
  rw [Nat.mul_add, Nat.mul_one] at hle
  unfold Block.stop
  omega

/-- Every byte of a block is in one of its units. -/
theorem exists_unit (h : b.addr ≤ a ∧ a < b.stop w) : ∃ u ∈ b.units w, u ≤ a ∧ a < u + w := by
  have hlt : a - b.addr < w * b.count := by
    unfold Block.stop at h
    omega
  have hw : 0 < w := Nat.pos_of_ne_zero fun h0 => by simp [h0] at hlt
  refine ⟨b.addr + w * ((a - b.addr) / w), ?_, ?_⟩
  · exact List.mem_map.2 ⟨_, List.mem_range.2 (Nat.div_lt_of_lt_mul hlt), rfl⟩
  · have hdiv := Nat.div_add_mod (a - b.addr) w
    have hmod := Nat.mod_lt (a - b.addr) hw
    omega

/-! ## Blocks apart -/

/-- Two units of `w` bytes that do not overlap. -/
def Clear (w u v : Nat) : Prop := u + w ≤ v ∨ v + w ≤ u

theorem Apart.symm (h : Apart w b b') : Apart w b' b := Or.symm h

instance : Std.Symm (Apart w) := ⟨fun _ _ => Apart.symm⟩

theorem clear_units (b : Block) : (b.units w).Pairwise (Clear w) := by
  unfold Block.units
  rw [List.pairwise_map]
  refine List.pairwise_lt_range.imp fun {i j} hij => .inl ?_
  have hle : w * (i + 1) ≤ w * j := Nat.mul_le_mul_left w hij
  rw [Nat.mul_add, Nat.mul_one] at hle
  omega

theorem Apart.clear (h : Apart w b b') {u v : Nat} (hu : u ∈ b.units w) (hv : v ∈ b'.units w) :
    Clear w u v := by
  have hub := mem_units hu
  have hvb := mem_units hv
  unfold Apart at h
  unfold Clear
  omega

/-- Blocks are apart if their units are. -/
theorem apart_of_clear (hb : 0 < b.count) (hb' : 0 < b'.count) (hw : 0 < w)
    (h : ∀ u ∈ b.units w, ∀ v ∈ b'.units w, Clear w u v) : Apart w b b' := by
  have hpos := Nat.mul_pos hw hb
  have hpos' := Nat.mul_pos hw hb'
  by_contra hover
  simp only [Apart, not_or, Nat.not_le, Block.stop] at hover
  obtain ⟨u, hu, hua⟩ := exists_unit (w := w) (b := b) (a := max b.addr b'.addr) (by
    unfold Block.stop
    omega)
  obtain ⟨v, hv, hva⟩ := exists_unit (w := w) (b := b') (a := max b.addr b'.addr) (by
    unfold Block.stop
    omega)
  have hclear := h u hu v hv
  unfold Clear at hclear
  omega

theorem clear_of_apart (h : l.Pairwise (Apart w)) : (units w l).Pairwise (Clear w) := by
  refine List.pairwise_flatMap.2 ⟨fun b _ => clear_units b, ?_⟩
  refine h.imp ?_
  intro b b' hbb u hu v hv
  exact hbb.clear hu hv

/-- Whoever shares out the units of blocks that are apart has blocks that are
apart. -/
theorem apart_of_perm (hw : 0 < w) (h : l.Pairwise (Apart w)) (hpos : ∀ b ∈ l', 0 < b.count)
    (hperm : (units w l').Perm (units w l)) : l'.Pairwise (Apart w) := by
  have hclear : (units w l').Pairwise (Clear w) :=
    ((hperm.pairwise_iff fun {u v} huv => Or.symm huv).2 (clear_of_apart h))
  refine (List.pairwise_flatMap.1 hclear).2.imp_of_mem fun {b b'} hb hb' hbb => ?_
  exact apart_of_clear (hpos b hb) (hpos b' hb') hw hbb

/-! ## The order of the free blocks -/

theorem Ordered.link (h : Ordered w l) (hb : ∀ b' ∈ l, b.stop w ≤ b'.addr) :
    Ordered w (link w b l) := by
  cases l with
  | nil => exact List.pairwise_singleton ..
  | cons b' l =>
    obtain ⟨hb', hl⟩ := List.pairwise_cons.1 h
    have hle := hb b' List.mem_cons_self
    by_cases heq : b.stop w = b'.addr
    · rw [link_of_touch heq]
      refine List.pairwise_cons.2 ⟨fun c hc => ?_, hl⟩
      have hlt := hb' c hc
      simp only [Block.stop, Nat.mul_add] at heq hlt ⊢
      omega
    · rw [link_of_gap heq]
      refine List.pairwise_cons.2 ⟨fun c hc => ?_, h⟩
      rcases List.mem_cons.1 hc with rfl | hc
      · omega
      · have hlt := hb' c hc
        unfold Block.stop at *
        omega

theorem forall_link {P : Block → Prop} (hb : P b) (hl : ∀ c ∈ l, P c)
    (hjoin : ∀ c ∈ l, b.stop w = c.addr → P ⟨b.addr, b.count + c.count⟩) :
    ∀ c ∈ link w b l, P c := by
  cases l with
  | nil => simpa [link] using hb
  | cons b' l =>
    intro c hc
    by_cases heq : b.stop w = b'.addr
    · rw [link_of_touch heq] at hc
      rcases List.mem_cons.1 hc with rfl | hc
      · exact hjoin b' List.mem_cons_self heq
      · exact hl c (List.mem_cons_of_mem _ hc)
    · rw [link_of_gap heq] at hc
      rcases List.mem_cons.1 hc with rfl | hc
      · exact hb
      · exact hl c hc

theorem le_link (hb : a ≤ b.addr) (hl : ∀ b' ∈ l, a ≤ b'.addr) : ∀ c ∈ link w b l, a ≤ c.addr :=
  forall_link hb hl fun _ _ _ => hb

theorem le_release (hb : a ≤ b.addr) (hl : ∀ b' ∈ l, a ≤ b'.addr) :
    ∀ c ∈ release w b l, a ≤ c.addr := by
  induction l with
  | nil => simpa [release] using hb
  | cons b' l ih =>
    have hrest : ∀ c ∈ l, a ≤ c.addr := fun c hc => hl c (List.mem_cons_of_mem _ hc)
    by_cases hlt : b.addr < b'.addr
    · rw [release_of_lt hlt]
      exact le_link hb hl
    · rw [release_of_ge hlt]
      exact le_link (hl b' List.mem_cons_self) (ih hrest)

/-- The blocks stay in order, and no two of them touch. -/
theorem Ordered.release (h : Ordered w l) (hb : ∀ b' ∈ l, Apart w b b') (hpos : 0 < b.count)
    (hw : 0 < w) : Ordered w (release w b l) := by
  induction l with
  | nil => exact List.pairwise_singleton ..
  | cons b' l ih =>
    obtain ⟨hb', hl⟩ := List.pairwise_cons.1 h
    have hap := hb b' List.mem_cons_self
    have hlen := Nat.mul_pos hw hpos
    by_cases hlt : b.addr < b'.addr
    · rw [release_of_lt hlt]
      have hle : b.stop w ≤ b'.addr := by
        unfold Apart Block.stop at *
        omega
      refine h.link fun c hc => ?_
      rcases List.mem_cons.1 hc with rfl | hc
      · exact hle
      · have := hb' c hc
        unfold Block.stop at *
        omega
    · rw [release_of_ge hlt]
      have hle : b'.stop w ≤ b.addr := by
        unfold Apart Block.stop at *
        omega
      refine (ih hl fun c hc => hb c (List.mem_cons_of_mem _ hc)).link ?_
      exact le_release hle fun c hc => Nat.le_of_lt (hb' c hc)

/-- The place of a block in a list in order: behind the blocks before it. -/
theorem release_append (h : Ordered w (l ++ b' :: l')) (hlow : b'.addr ≤ b.addr)
    (hhigh : ∀ c ∈ l', b.addr < c.addr) :
    release w b (l ++ b' :: l') = l ++ link w b' (link w b l') := by
  have hrest : release w b l' = link w b l' := by
    cases l' with
    | nil => rfl
    | cons c l' => exact release_of_lt (hhigh c List.mem_cons_self)
  induction l with
  | nil =>
    rw [List.nil_append, release_of_ge (Nat.not_lt.2 hlow), hrest]
    rfl
  | cons c l ih =>
    obtain ⟨hc, hl⟩ := List.pairwise_cons.1 h
    have hcb := hc b' (List.mem_append_right _ List.mem_cons_self)
    have hfar : ∀ d ∈ l ++ link w b' (link w b l'), c.stop w < d.addr := by
      intro d hd
      rcases List.mem_append.1 hd with hd | hd
      · exact hc d (List.mem_append_left _ hd)
      · refine le_link (a := c.stop w + 1) hcb (le_link ?_ fun e he => ?_) d hd
        · omega
        · exact hc e (List.mem_append_right _ (List.mem_cons_of_mem _ he))
    rw [List.cons_append, release_of_ge (by unfold Block.stop at hcb; omega), ih hl]
    rw [link_of_far hfar]
    rfl

/-- There is a place for a block that is not below the first one. -/
theorem exists_place (h : Ordered w (b' :: l)) (hle : b'.addr ≤ a) :
    ∃ l₁ p l₂, b' :: l = l₁ ++ p :: l₂ ∧ p.addr ≤ a ∧ ∀ c ∈ l₂, a < c.addr := by
  induction l generalizing b' with
  | nil => exact ⟨[], b', [], rfl, hle, by simp⟩
  | cons c l ih =>
    obtain ⟨hc, hl⟩ := List.pairwise_cons.1 h
    by_cases hca : c.addr ≤ a
    · obtain ⟨l₁, p, l₂, heq, hp, hl₂⟩ := ih hl hca
      exact ⟨b' :: l₁, p, l₂, by rw [heq]; rfl, hp, hl₂⟩
    · refine ⟨[], b', c :: l, rfl, hle, fun d hd => ?_⟩
      rcases List.mem_cons.1 hd with rfl | hd
      · omega
      · have hcd := (List.pairwise_cons.1 hl).1 d hd
        unfold Block.stop at hcd
        omega

/-- The first block of the list starts where the new one does. -/
theorem exists_link (b : Block) (l : List Block) :
    ∃ n l', link w b l = ⟨b.addr, n⟩ :: l' ∧ b.count ≤ n := by
  cases l with
  | nil => exact ⟨b.count, [], rfl, Nat.le_refl _⟩
  | cons b' l =>
    by_cases h : b.stop w = b'.addr
    · exact ⟨_, l, link_of_touch h, Nat.le_add_right ..⟩
    · exact ⟨b.count, b' :: l, link_of_gap h, Nat.le_refl _⟩

theorem stop_link (hb : b.stop w ≤ a) (hl : ∀ c ∈ l, c.stop w ≤ a) :
    ∀ c ∈ link w b l, c.stop w ≤ a := by
  refine forall_link hb hl fun c hc heq => ?_
  have hle := hl c hc
  simp only [Block.stop, Nat.mul_add] at heq hle ⊢
  omega

/-- What is released is in a block that is at least as large. -/
theorem exists_large (b : Block) (l : List Block) : ∃ c ∈ release w b l, b.count ≤ c.count := by
  have hlink : ∀ b l, ∀ c ∈ l, ∃ d ∈ link w b l, Block.count c ≤ d.count := by
    intro b l c hc
    cases l with
    | nil => simp at hc
    | cons b' l =>
      by_cases heq : b.stop w = b'.addr
      · rw [link_of_touch heq]
        rcases List.mem_cons.1 hc with rfl | hc
        · exact ⟨_, List.mem_cons_self, Nat.le_add_left ..⟩
        · exact ⟨c, List.mem_cons_of_mem _ hc, Nat.le_refl _⟩
      · rw [link_of_gap heq]
        exact ⟨c, List.mem_cons_of_mem _ hc, Nat.le_refl _⟩
  induction l with
  | nil => exact ⟨b, List.mem_cons_self, Nat.le_refl _⟩
  | cons b' l ih =>
    by_cases hlt : b.addr < b'.addr
    · obtain ⟨n, l', heq, hle⟩ := exists_link (w := w) b (b' :: l)
      rw [release_of_lt hlt, heq]
      exact ⟨_, List.mem_cons_self, hle⟩
    · rw [release_of_ge hlt]
      obtain ⟨c, hc, hle⟩ := ih
      obtain ⟨d, hd, hcd⟩ := hlink b' _ c hc
      exact ⟨d, hd, Nat.le_trans hle hcd⟩

theorem pos_link (hb : 0 < b.count) (hl : ∀ c ∈ l, 0 < c.count) :
    ∀ c ∈ link w b l, 0 < c.count :=
  forall_link hb hl fun _ _ _ => Nat.add_pos_left hb _

theorem pos_release (hb : 0 < b.count) (hl : ∀ c ∈ l, 0 < c.count) :
    ∀ c ∈ release w b l, 0 < c.count := by
  induction l with
  | nil => simpa [release] using hb
  | cons b' l ih =>
    by_cases hlt : b.addr < b'.addr
    · rw [release_of_lt hlt]
      exact pos_link hb hl
    · rw [release_of_ge hlt]
      exact pos_link (hl b' List.mem_cons_self) (ih fun c hc => hl c (List.mem_cons_of_mem _ hc))

theorem stop_release (hb : b.stop w ≤ a) (hl : ∀ c ∈ l, c.stop w ≤ a) :
    ∀ c ∈ release w b l, c.stop w ≤ a := by
  induction l with
  | nil => simpa [release] using hb
  | cons b' l ih =>
    by_cases hlt : b.addr < b'.addr
    · rw [release_of_lt hlt]
      exact stop_link hb hl
    · rw [release_of_ge hlt]
      exact stop_link (hl b' List.mem_cons_self) (ih fun c hc => hl c (List.mem_cons_of_mem _ hc))

/-! ## Taking the end of a block -/

theorem Ordered.rest (h : Ordered w (l ++ b :: l')) :
    Ordered w (l ++ (b.rest n ++ l')) := by
  obtain ⟨hl, hbl, hcross⟩ := List.pairwise_append.1 h
  obtain ⟨hb, hl'⟩ := List.pairwise_cons.1 hbl
  unfold Block.rest
  by_cases heq : b.count = n
  · rw [if_pos heq]
    exact List.pairwise_append.2 ⟨hl, hl', fun c hc d hd =>
      hcross c hc d (List.mem_cons_of_mem _ hd)⟩
  · rw [if_neg heq]
    have hle : w * (b.count - n) ≤ w * b.count := Nat.mul_le_mul_left w (Nat.sub_le ..)
    refine List.pairwise_append.2 ⟨hl, List.pairwise_cons.2 ⟨fun d hd => ?_, hl'⟩, fun c hc d hd => ?_⟩
    · have hlt := hb d hd
      simp only [Block.stop] at *
      omega
    · rcases List.mem_cons.1 hd with rfl | hd
      · exact hcross c hc b List.mem_cons_self
      · exact hcross c hc d (List.mem_cons_of_mem _ hd)

theorem mem_rest (h : x ∈ b.rest n) (hn : n ≤ b.count) :
    x.addr = b.addr ∧ x.count = b.count - n ∧ n < b.count := by
  unfold Block.rest at h
  by_cases heq : b.count = n
  · rw [if_pos heq] at h
    cases h
  · rw [if_neg heq] at h
    obtain rfl := List.mem_singleton.1 h
    exact ⟨rfl, rfl, Nat.lt_of_le_of_ne hn (Ne.symm heq)⟩

/-- What is taken and what is left are what there was. -/
theorem units_take (hn : n ≤ b.count) :
    (units w (b.tail w n :: (l ++ (b.rest n ++ l')))).Perm (units w (l ++ b :: l')) := by
  simp only [units_cons, units_append, ← units_rest hn]
  refine List.perm_append_comm.trans ?_
  rw [List.append_assoc, List.append_assoc]
  refine List.Perm.append_left _ ?_
  rw [List.append_assoc]
  exact List.Perm.append_left _ List.perm_append_comm

theorem stop_tail (hn : n ≤ b.count) : (b.tail w n).stop w = b.stop w := by
  obtain ⟨k, hk⟩ := Nat.exists_eq_add_of_le hn
  simp only [Block.tail, Block.stop, hk, Nat.add_sub_cancel_left, Nat.mul_add]
  omega

end Arena
