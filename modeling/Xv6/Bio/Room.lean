import Xv6.Bio.Calls
import Xv6.Bio.Host

/-!
# Room in the buffer cache

Each block that the log has pinned has a buffer with one pin, and no other
buffer has any.  So the buffers in use are as many as the blocks that the log
has pinned, or that processes hold or wait for.
-/

namespace Xv6.Bio

open Function (update)

variable {D : Type} {s s' : State D} {p : Slot} {dev blockno : I32}

/-- `bget` needs the block in the cache, or a buffer that nobody uses. -/
theorem Inv.bget_iff (h : Inv s) : (∃ b s', Bio.bget p dev blockno s = some (some b, s')) ↔
    (∃ b, s.key b = (dev, blockno)) ∨ ∃ b, s.refcnt b = 0 := by
  obtain ⟨l, hl⟩ := h.list
  unfold Bio.bget
  rw [hl.walk_next]
  cases hfind : l.find? (fun b => s.dev b = dev && s.blockno b = blockno) with
  | some b =>
    have hmatch := List.find?_some hfind
    simp only [Bool.and_eq_true, decide_eq_true_eq] at hmatch
    exact ⟨fun _ => .inl ⟨b, Prod.ext hmatch.1 hmatch.2⟩, fun _ => ⟨b, _, rfl⟩⟩
  | none =>
    have hnot := not_cached hl hfind
    show (∃ b s', (Links.walk s.prev none _ _ _).bind _ = _) ↔ _
    rw [hl.walk_prev]
    cases hunused : l.reverse.find? (fun b => s.refcnt b = 0) with
    | none =>
      constructor
      · rintro ⟨b, s', heq⟩
        cases heq
      · rintro (⟨b, hb⟩ | ⟨b, hb⟩)
        · exact absurd hb (hnot b)
        · have hnone := List.find?_eq_none.1 hunused b (List.mem_reverse.2 (hl.all b))
          rw [hb] at hnone
          exact absurd rfl hnone
    | some b =>
      have hzero := List.find?_some hunused
      simp only [decide_eq_true_eq] at hzero
      exact ⟨fun _ => .inr ⟨b, hzero⟩, fun _ => ⟨b, _, rfl⟩⟩

theorem bget_keeps {r : Option Buf} (hx : bget p dev blockno s = some (r, s')) :
    s'.pins = s.pins ∧ ∀ b, s'.dev b = s.dev b ∨ s'.dev b = dev := by
  obtain ⟨found, -, hx⟩ := Option.bind_eq_some_iff.1 hx
  cases hjoin : found.join with
  | some b =>
    rw [hjoin] at hx
    obtain ⟨-, rfl⟩ := Prod.mk.inj (Option.some.inj hx)
    exact ⟨rfl, fun _ => .inl rfl⟩
  | none =>
    rw [hjoin] at hx
    obtain ⟨unused, -, hx⟩ := Option.bind_eq_some_iff.1 hx
    cases hjoin' : unused.join with
    | none =>
      rw [hjoin'] at hx
      obtain ⟨-, rfl⟩ := Prod.mk.inj (Option.some.inj hx)
      exact ⟨rfl, fun _ => .inl rfl⟩
    | some b =>
      rw [hjoin'] at hx
      obtain ⟨-, rfl⟩ := Prod.mk.inj (Option.some.inj hx)
      refine ⟨rfl, fun c => ?_⟩
      show update s.dev b dev c = _ ∨ update s.dev b dev c = _
      by_cases hc : c = b
      · rw [hc, Function.update_self]
        exact .inr rfl
      · rw [Function.update_of_ne hc]
        exact .inl rfl

namespace Calls

/-- The operations on the cache that pin nothing. -/
def Light {β : Type} (o : Bio.Op D β) : Prop :=
  match o with
  | .bget dev _ => dev = ROOTDEV
  | .bpin _ | .bunpin _ | .next => False
  | _ => True

theorem light_of_plain {β : Type} (o : Bio.Op D β) (h : Plain ROOTDEV o) : Light o := by
  cases o with
  | bget => exact h
  | bpin => exact h
  | bunpin => exact h
  | next => exact h
  | _ => trivial

theorem put_keeps {b : Buf} : (put p b s).pins = s.pins ∧ (put p b s).dev = s.dev := by
  rw [put_eq]
  split_ifs <;> exact ⟨rfl, rfl⟩

theorem Light.keeps {β : Type} {o : Bio.Op D β} {i : Bio.Call D} {r : β} (h : Light o)
    (hx : Bio.exec p i s o = some (r, s')) :
    s'.pins = s.pins ∧ ∀ b, s'.dev b = s.dev b ∨ s'.dev b = ROOTDEV := by
  cases o with
  | bget dev blockno =>
    obtain rfl : dev = ROOTDEV := h
    exact bget_keeps hx
  | acquiresleep b =>
    have hx : (if s.lock b = none then _ else none) = some (r, s') := hx
    by_cases hlock : s.lock b = none
    · rw [if_pos hlock] at hx
      obtain ⟨-, rfl⟩ := Prod.mk.inj (Option.some.inj hx)
      exact ⟨rfl, fun _ => .inl rfl⟩
    · rw [if_neg hlock] at hx
      cases hx
  | put b =>
    obtain ⟨-, rfl⟩ := Prod.mk.inj (Option.some.inj hx)
    exact ⟨put_keeps.1, fun c => .inl (congrFun put_keeps.2 c)⟩
  | bpin => exact h.elim
  | bunpin => exact h.elim
  | next => exact h.elim
  | panic => cases hx
  | releasesleep | holdingsleep | valid | load | setValid | got | store | flush =>
    obtain ⟨-, rfl⟩ := Prod.mk.inj (Option.some.inj hx)
    exact ⟨rfl, fun _ => .inl rfl⟩

/-! ## The invariant -/

variable {s s' : Fs D}

/-- The blocks that the log has pinned. -/
def Fs.pinned (s : Fs D) : List BlockNo := s.log.lh.drop s.installed

structure Tracked (s : Fs D) : Prop where
  cache : Bio.Inv s.cache
  dev : ∀ b, s.cache.dev b = 0 ∨ s.cache.dev b = ROOTDEV
  nodup : s.log.lh.Nodup
  one : ∀ b, ∀ k ∈ s.pinned, s.cache.key b = (ROOTDEV, k) → s.cache.pins b = 1
  zero : ∀ b, (∀ k ∈ s.pinned, s.cache.key b ≠ (ROOTDEV, k)) → s.cache.pins b = 0
  cached : ∀ k ∈ s.pinned, ∃ b, s.cache.key b = (ROOTDEV, k)
  outstanding : s.log.outstanding = (Finset.univ.filter fun p => s.inOp p = true).card
  committing : s.log.committing = true ↔ s.committer ≠ none
  alone : s.log.committing = true → s.log.outstanding = 0
  installed : s.log.committing = false → s.installed = 0

theorem Tracked.refcnt_of_pin (h : Tracked s) {b : Buf} {k : BlockNo} (hk : k ∈ s.pinned)
    (hb : s.cache.key b = (ROOTDEV, k)) : s.cache.refcnt b ≠ 0 := by
  refine h.cache.refcnt_ne_zero.2 (.inr (.inr ?_))
  rw [h.one b k hk hb]
  exact Nat.one_ne_zero

/-- Blocks come and go in the cache, but not the pinned ones. -/
theorem Tracked.onCache (h : Tracked s) {c : State D} (hinv : Bio.Inv c)
    (hothers : Others p s.cache c) (hpins : c.pins = s.cache.pins)
    (hdev : ∀ b, c.dev b = s.cache.dev b ∨ c.dev b = ROOTDEV) :
    Tracked { s with cache := c } where
  cache := hinv
  dev b := by
    rcases hdev b with heq | heq
    · show c.dev b = 0 ∨ c.dev b = ROOTDEV
      rw [heq]
      exact h.dev b
    · exact .inr heq
  nodup := h.nodup
  one b k hk hb := by
    obtain ⟨b', hb'⟩ := h.cached k hk
    have hkey := (hothers.key b' (h.refcnt_of_pin hk hb')).trans hb'
    have hne : c.dev b' ≠ 0 := by
      rw [show c.dev b' = ROOTDEV from congrArg Prod.fst hkey]
      decide
    obtain rfl := hinv.unique b' b hne (hkey.trans hb.symm)
    rw [hpins]
    exact h.one b' k hk hb'
  zero b hb := by
    rw [hpins]
    by_contra hne
    have hkey := hothers.key b (h.cache.refcnt_ne_zero.2 (.inr (.inr hne)))
    exact hne (h.zero b fun k hk heq => hb k hk (hkey.trans heq))
  cached k hk := by
    obtain ⟨b, hb⟩ := h.cached k hk
    exact ⟨b, (hothers.key b (h.refcnt_of_pin hk hb)).trans hb⟩
  outstanding := h.outstanding
  committing := h.committing
  alone := h.alone
  installed := h.installed

/-! ## Room -/

/-- The buffers that processes hold or wait for. -/
def Fs.taken (s : Fs D) : Finset Buf :=
  Finset.univ.filter fun b => s.cache.lock b ≠ none ∨ ∃ p, s.cache.transit p = some b

/-- The blocks that the log has pinned, or that processes hold or wait for. -/
def Fs.busy (s : Fs D) : Finset BlockNo := s.pinned.toFinset ∪ s.taken.image s.cache.blockno

/-- The block is cached, or fewer blocks are busy than there are buffers. -/
def Fs.Room (s : Fs D) (k : Key) : Prop := (∃ b, s.cache.key b = k) ∨ s.busy.card < NBUF

instance (s : Fs D) (k : Key) : Decidable (s.Room k) := inferInstanceAs (Decidable (_ ∨ _))

def Fs.used (s : Fs D) : Finset Buf := Finset.univ.filter fun b => s.cache.refcnt b ≠ 0

theorem mem_used {b : Buf} : b ∈ s.used ↔ s.cache.refcnt b ≠ 0 := by
  unfold Fs.used
  rw [Finset.mem_filter]
  exact ⟨fun h => h.2, fun h => ⟨Finset.mem_univ b, h⟩⟩

theorem mem_taken {b : Buf} :
    b ∈ s.taken ↔ s.cache.lock b ≠ none ∨ ∃ p, s.cache.transit p = some b := by
  unfold Fs.taken
  rw [Finset.mem_filter]
  exact ⟨fun h => h.2, fun h => ⟨Finset.mem_univ b, h⟩⟩

/-- A buffer with a pin stands for a block of the log. -/
theorem Tracked.block_of_pin (h : Tracked s) {b : Buf} (hb : s.cache.pins b ≠ 0) :
    ∃ k ∈ s.pinned, s.cache.key b = (ROOTDEV, k) := by
  by_contra hno
  exact hb (h.zero b fun k hk heq => hno ⟨k, hk, heq⟩)

theorem Tracked.dev_of_used (h : Tracked s) {b : Buf} (hb : s.cache.refcnt b ≠ 0) :
    s.cache.dev b = ROOTDEV := by
  rcases h.cache.refcnt_ne_zero.1 hb with hlock | htransit | hpins
  · exact (h.dev b).resolve_left (h.cache.named b (.inl hlock))
  · exact (h.dev b).resolve_left (h.cache.named b (.inr htransit))
  · obtain ⟨k, -, hk⟩ := h.block_of_pin hpins
    exact congrArg Prod.fst hk

/-- The buffers in use stand for different blocks, the busy ones. -/
theorem Tracked.card_used (h : Tracked s) : s.used.card = s.busy.card := by
  have hinj : Set.InjOn s.cache.blockno s.used := by
    intro b hb c hc heq
    have hdb := h.dev_of_used (mem_used.1 hb)
    have hdc := h.dev_of_used (mem_used.1 hc)
    refine h.cache.unique b c ?_ (Prod.ext (hdb.trans hdc.symm) heq)
    rw [hdb]
    decide
  have himage : s.used.image s.cache.blockno = s.busy := by
    unfold Fs.busy
    ext k
    rw [Finset.mem_image, Finset.mem_union, Finset.mem_image, List.mem_toFinset]
    constructor
    · rintro ⟨b, hb, rfl⟩
      rcases h.cache.refcnt_ne_zero.1 (mem_used.1 hb) with hlock | htransit | hpins
      · exact .inr ⟨b, mem_taken.2 (.inl hlock), rfl⟩
      · exact .inr ⟨b, mem_taken.2 (.inr htransit), rfl⟩
      · obtain ⟨k, hk, heq⟩ := h.block_of_pin hpins
        rw [show s.cache.blockno b = k from congrArg Prod.snd heq]
        exact .inl hk
    · rintro (hk | ⟨b, hb, rfl⟩)
      · obtain ⟨b, hb⟩ := h.cached k hk
        exact ⟨b, mem_used.2 (h.refcnt_of_pin hk hb), congrArg Prod.snd hb⟩
      · refine ⟨b, mem_used.2 (h.cache.refcnt_ne_zero.2 ?_), rfl⟩
        exact (mem_taken.1 hb).imp (fun h => h) .inl
  rw [← himage, Finset.card_image_of_injOn hinj]

/-- `bget` finds a buffer if and only if there is room. -/
theorem Tracked.found_iff (h : Tracked s) {dev blockno : I32} :
    (∃ b c, bget p dev blockno s.cache = some (some b, c)) ↔ s.Room (dev, blockno) := by
  have hunused : (∃ b, s.cache.refcnt b = 0) ↔ s.used.card < NBUF := by
    have hall : NBUF = Fintype.card Buf := (Fintype.card_fin NBUF).symm
    rw [hall, Finset.card_lt_iff_ne_univ, Ne, Finset.eq_univ_iff_forall, not_forall]
    exact exists_congr fun b => by rw [mem_used, not_not]
  rw [h.cache.bget_iff, hunused, h.card_used]
  rfl

end Calls

end Xv6.Bio
