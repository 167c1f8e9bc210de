import Xv6.Bio.Rules

/-!
# One operation on the buffer cache

Each operation keeps the invariant, the block of every buffer in use, and what
other processes have locked.
-/

namespace Xv6.Bio

open Function (update)

variable {D : Type} {s s' : State D} {p : Slot} {b : Buf} {dev blockno : I32} {k : Key}

/-- What process `p` leaves alone. -/
structure Others (p : Slot) (s s' : State D) : Prop where
  transit : ∀ q, q ≠ p → s'.transit q = s.transit q
  lock : ∀ q b, q ≠ p → (s'.lock b = some q ↔ s.lock b = some q)
  locked : ∀ q b, q ≠ p → s.lock b = some q → s'.valid b = s.valid b ∧
    s'.data b = s.data b ∧ s'.contents (s.key b) = s.contents (s.key b) ∧ s'.pins b = s.pins b
  key : ∀ b, s.refcnt b ≠ 0 → s'.key b = s.key b

/-! ## Looking a block up -/

theorem not_cached {l : List Buf} (h : Listed s l)
    (hnone : l.find? (fun b => s.dev b = dev && s.blockno b = blockno) = none) (b : Buf) :
    s.key b ≠ (dev, blockno) := by
  intro heq
  obtain ⟨rfl, rfl⟩ := Prod.mk.inj heq
  exact List.find?_eq_none.1 hnone b (h.all b) (by simp)

/-- The block is cached: the buffer gets one more use. -/
theorem Inv.hit (h : Inv s) (hp : s.transit p = none) (hdev : s.dev b ≠ 0)
    (hs : s' = { s with
      refcnt := update s.refcnt b (s.refcnt b + 1)
      transit := update s.transit p (some b) }) : Inv s' ∧ Others p s s' := by
  have huses : ∀ c, s'.uses c = s.uses c + if c = b then 1 else 0 := by
    intro c
    have hcard := transits_set (b := b) s' hp (by rw [hs]) c
    unfold State.uses
    rw [hcard]
    have hlock : s'.lock = s.lock := by rw [hs]
    have hpins : s'.pins = s.pins := by rw [hs]
    rw [hlock, hpins]
    omega
  have hfits' : ∀ c, s'.uses c < 2 ^ 32 := by
    intro c
    have hfits := h.fits c
    have hcard := card_transits_le s' c
    have hpins : s'.pins = s.pins := by rw [hs]
    unfold State.uses
    rw [hpins]
    split_ifs <;> omega
  have hcount : ∀ c, (s'.refcnt c).toNat = s'.uses c := by
    intro c
    have hlt := hfits' c
    rw [huses] at hlt ⊢
    rw [hs]
    show (update s.refcnt b (s.refcnt b + 1) c).toNat = _
    by_cases hc : c = b
    · subst hc
      rw [if_pos rfl] at hlt ⊢
      rw [Function.update_self, toNat_add_one, h.count]
      rw [h.count]
      exact hlt
    · rw [if_neg hc, Function.update_of_ne hc, h.count]
      rfl
  have hzero : ∀ c, s'.refcnt c = 0 → s.refcnt c = 0 := by
    intro c hc
    have hcount' := hcount c
    rw [hc, huses] at hcount'
    by_contra hne
    have hpos := toNat_ne_zero.1 hne
    rw [h.count] at hpos
    have hz : (0 : I32).toNat = 0 := rfl
    omega
  subst hs
  obtain ⟨l, hl⟩ := h.list
  refine ⟨⟨⟨l, hl.congr rfl rfl (fun _ _ => rfl) hzero⟩, h.unique, hcount, h.fits, fun c hc => ?_,
    h.valid, h.written, h.past⟩, fun q hq => Function.update_of_ne hq .., fun _ _ _ => Iff.rfl,
      fun _ _ _ _ => ⟨rfl, rfl, rfl, rfl⟩, fun _ _ => rfl⟩
  rcases hc with hc | ⟨q, hq⟩
  · exact h.named c (.inl hc)
  · have hq : update s.transit p (some b) q = some c := hq
    by_cases hqp : q = p
    · rw [hqp, Function.update_self] at hq
      rw [← Option.some.inj hq]
      exact hdev
    · rw [Function.update_of_ne hqp] at hq
      exact h.named c (.inr ⟨q, hq⟩)

/-- The block is not cached: an unused buffer stands for it from now on. -/
theorem Inv.miss (h : Inv s) (hp : s.transit p = none) (hdev : dev ≠ 0)
    (hnot : ∀ c, s.key c ≠ (dev, blockno)) (hunused : s.refcnt b = 0)
    (hs : s' = { s with
      dev := update s.dev b dev
      blockno := update s.blockno b blockno
      valid := update s.valid b false
      refcnt := update s.refcnt b 1
      transit := update s.transit p (some b)
      written := update s.written (s.key b) none }) : Inv s' ∧ Others p s s' := by
  have hfree := (not_congr h.refcnt_ne_zero).1 (not_not.2 hunused)
  simp only [not_or, not_exists, not_not] at hfree
  obtain ⟨hlock, htransit, hpins⟩ := hfree
  have hkey : ∀ c, c ≠ b → s'.key c = s.key c := by
    intro c hc
    rw [hs]
    show (update s.dev b dev c, update s.blockno b blockno c) = _
    rw [Function.update_of_ne hc, Function.update_of_ne hc]
    rfl
  have hself : s'.key b = (dev, blockno) := by
    rw [hs]
    show (update s.dev b dev b, update s.blockno b blockno b) = _
    rw [Function.update_self, Function.update_self]
  have hsame : s'.dev b ≠ 0 := by
    rw [hs]
    show update s.dev b dev b ≠ 0
    rw [Function.update_self]
    exact hdev
  have hdevs : ∀ c, c ≠ b → s'.dev c = s.dev c := fun c hc => congrArg Prod.fst (hkey c hc)
  have huses : ∀ c, s'.uses c = s.uses c + if c = b then 1 else 0 := by
    intro c
    have hcard := transits_set (b := b) s' hp (by rw [hs]) c
    have hlocks : s'.lock = s.lock := by rw [hs]
    have hpins : s'.pins = s.pins := by rw [hs]
    unfold State.uses
    rw [hcard, hlocks, hpins]
    omega
  have hcontents : ∀ c, s.valid c = true → c ≠ b → s'.contents (s.key c) = s.contents (s.key c) := by
    intro c hc hcb
    have hne : s.key c ≠ s.key b := fun heq => hcb (h.unique c b (h.valid c hc).1 heq)
    rw [hs]
    show (update s.written (s.key b) none (s.key c)).getD _ = _
    rw [Function.update_of_ne hne]
    rfl
  have hlocked : ∀ q c, s.lock c = some q → c ≠ b := by
    rintro q c hc rfl
    rw [hlock] at hc
    cases hc
  have hinuse : ∀ c, s.refcnt c ≠ 0 → c ≠ b := by
    rintro c hc rfl
    exact hc hunused
  refine ⟨⟨?_, ?_, ?_, ?_, ?_, ?_, ?_, ?_⟩, ?_, fun _ _ _ => by rw [hs], ?_, ?_⟩
  · obtain ⟨l, hl⟩ := h.list
    refine ⟨l, hl.congr (by rw [hs]) (by rw [hs]) (fun _ _ => by rw [hs]) fun c hc => ?_⟩
    rw [hs] at hc
    have hc : update s.refcnt b 1 c = 0 := hc
    by_cases hcb : c = b
    · rw [hcb, Function.update_self] at hc
      cases hc
    · rwa [Function.update_of_ne hcb] at hc
  · intro c c' hc heq
    by_cases hcb : c = b
    · by_cases hcb' : c' = b
      · rw [hcb, hcb']
      · rw [hcb, hself, hkey c' hcb'] at heq
        exact absurd heq.symm (hnot c')
    · by_cases hcb' : c' = b
      · rw [hcb', hself, hkey c hcb] at heq
        exact absurd heq (hnot c)
      · rw [hkey c hcb, hkey c' hcb'] at heq
        rw [hdevs c hcb] at hc
        exact h.unique c c' hc heq
  · intro c
    rw [huses, hs]
    show (update s.refcnt b 1 c).toNat = _
    by_cases hcb : c = b
    · subst hcb
      rw [Function.update_self, if_pos rfl, ← h.count, hunused]
      rfl
    · rw [Function.update_of_ne hcb, if_neg hcb, h.count]
      rfl
  · rw [hs]
    exact h.fits
  · intro c hc
    by_cases hcb : c = b
    · rw [hcb]
      exact hsame
    · rw [hdevs c hcb]
      rw [hs] at hc
      refine h.named c (hc.imp (fun h => h) fun ⟨q, hq⟩ => ⟨q, ?_⟩)
      have hq : update s.transit p (some b) q = some c := hq
      by_cases hqp : q = p
      · rw [hqp, Function.update_self] at hq
        exact absurd (Option.some.inj hq).symm hcb
      · rwa [Function.update_of_ne hqp] at hq
  · intro c hc
    have hcb : c ≠ b := by
      rintro rfl
      rw [hs] at hc
      have hc : update s.valid c false c = true := hc
      rw [Function.update_self] at hc
      cases hc
    have hvalid : s.valid c = true := by
      rw [hs] at hc
      exact (Function.update_of_ne hcb false s.valid).symm.trans hc
    rw [hdevs c hcb, hkey c hcb, hcontents c hvalid hcb]
    rw [show s'.data = s.data by rw [hs]]
    exact h.valid c hvalid
  · intro k' hk
    rw [hs] at hk
    have hk : update s.written (s.key b) none k' ≠ none := hk
    have hne : k' ≠ s.key b := by
      rintro rfl
      rw [Function.update_self] at hk
      exact hk rfl
    rw [Function.update_of_ne hne] at hk
    obtain ⟨c, hc, rfl⟩ := h.written k' hk
    have hcb : c ≠ b := fun heq => hne (heq ▸ rfl)
    refine ⟨c, ?_, hkey c hcb⟩
    rw [hs]
    exact (Function.update_of_ne hcb ..).trans hc
  · rw [hs]
    exact h.past
  · intro q hq
    rw [hs]
    exact Function.update_of_ne hq ..
  · intro q c _ hc
    have hcb := hlocked q c hc
    have hne : s.key c ≠ s.key b := fun heq => hcb (h.unique c b
      (h.named c (.inl (by rw [hc]; exact Option.some_ne_none q))) heq)
    rw [hs]
    refine ⟨Function.update_of_ne hcb .., rfl, ?_, rfl⟩
    show (update s.written (s.key b) none (s.key c)).getD _ = _
    rw [Function.update_of_ne hne]
    rfl
  · exact fun c hc => hkey c (hinuse c hc)

/-- `bget` finds the buffer of a cached block; else it takes the unused buffer
that was released first. -/
theorem Inv.bget (h : Inv s) (hp : s.transit p = none) (hdev : dev ≠ 0) (blockno : I32) :
    ∃ r s', bget p dev blockno s = some (r, s') ∧ Inv s' ∧ Others p s s' ∧ s'.lock = s.lock ∧
      (∀ c q, s.lock c = some q → s'.valid c = s.valid c) ∧
      (r = none → s' = s) ∧
      ∀ b, r = some b → s'.transit p = some b ∧ s'.key b = (dev, blockno) ∧
        (s.key b ≠ (dev, blockno) → s.refcnt b = 0 ∧
          ∀ c, s.refcnt c = 0 → s.released b ≤ s.released c) := by
  obtain ⟨l, hl⟩ := h.list
  unfold Bio.bget
  rw [hl.walk_next]
  cases hfind : l.find? (fun b => s.dev b = dev && s.blockno b = blockno) with
  | some b =>
    have hmatch := List.find?_some hfind
    simp only [Bool.and_eq_true, decide_eq_true_eq] at hmatch
    obtain ⟨rfl, rfl⟩ := hmatch
    obtain ⟨hinv, hothers⟩ := h.hit hp hdev rfl
    refine ⟨some b, _, rfl, hinv, hothers, rfl, fun _ _ _ => rfl,
      fun hnone => (Option.some_ne_none b hnone).elim, fun c hc => ?_⟩
    obtain rfl := Option.some.inj hc
    exact ⟨Function.update_self .., rfl, fun hne => absurd rfl hne⟩
  | none =>
    have hnot := not_cached hl hfind
    show ∃ r s', (Links.walk s.prev none _ _ _).bind _ = _ ∧ _
    rw [hl.walk_prev]
    cases hunused : l.reverse.find? (fun b => s.refcnt b = 0) with
    | none =>
      refine ⟨none, s, rfl, h, ⟨fun _ _ => rfl, fun _ _ _ => Iff.rfl, fun _ _ _ _ => ⟨rfl, rfl, rfl, rfl⟩,
        fun _ _ => rfl⟩, rfl, fun _ _ _ => rfl, fun _ => rfl, fun b hb => by cases hb⟩
    | some b =>
      have hzero := List.find?_some hunused
      simp only [decide_eq_true_eq] at hzero
      obtain ⟨hinv, hothers⟩ := h.miss hp hdev hnot hzero rfl
      refine ⟨some b, _, rfl, hinv, hothers, rfl, fun c q hc => ?_,
        fun hnone => (Option.some_ne_none b hnone).elim, fun c hc => ?_⟩
      · refine Function.update_of_ne ?_ ..
        rintro rfl
        exact h.refcnt_ne_zero.2 (.inl (by rw [hc]; exact Option.some_ne_none q)) hzero
      · obtain rfl := Option.some.inj hc
        refine ⟨Function.update_self .., ?_, fun _ => ⟨hzero, fun c hc => ?_⟩⟩
        · show (update s.dev b dev b, update s.blockno b blockno b) = _
          rw [Function.update_self, Function.update_self]
        · -- behind `b` in the list there are buffers in use only
          obtain ⟨-, as, bs, hrev, has⟩ := List.find?_eq_some_iff_append.1 hunused
          have hsplit : l = bs.reverse ++ b :: as.reverse := by
            rw [← List.reverse_reverse l, hrev, List.reverse_append, List.reverse_cons,
              List.append_assoc, List.singleton_append]
          have hmem := hl.all c
          have hsorted := hl.sorted
          rw [hsplit] at hmem hsorted
          rcases List.mem_append.1 hmem with hbs | hmem
          · exact (List.pairwise_append.1 hsorted).2.2 c hbs b (List.mem_cons_self ..) hc hzero
          · rcases List.mem_cons.1 hmem with rfl | has'
            · exact Nat.le_refl _
            · have hnot := has c (List.mem_reverse.1 has')
              rw [hc] at hnot
              cases hnot

/-! ## Locking and unlocking -/

theorem Inv.acquiresleep (h : Inv s) (hp : s.transit p = some b) (hlock : s.lock b = none)
    (hs : s' = { s with
      lock := update s.lock b (some p)
      transit := update s.transit p none }) : Inv s' ∧ Others p s s' := by
  have huses : ∀ c, s'.uses c = s.uses c := by
    intro c
    have hcard := transits_clear s' hp (by rw [hs]) c
    have hpins : s'.pins = s.pins := by rw [hs]
    have hlocks : s'.lock = update s.lock b (some p) := by rw [hs]
    unfold State.uses
    rw [hcard, hpins, hlocks]
    by_cases hc : c = b
    · subst hc
      rw [Function.update_self, hlock, if_pos rfl, if_pos rfl, if_neg (Option.some_ne_none p)]
      omega
    · rw [Function.update_of_ne hc, if_neg hc]
      rfl
  subst hs
  refine ⟨⟨h.list.imp fun _ hl => hl.congr rfl rfl (fun _ _ => rfl) fun _ hc => hc, h.unique,
    fun c => (h.count c).trans (huses c).symm, h.fits, fun c hc => ?_,
    h.valid, h.written, h.past⟩, fun q hq => Function.update_of_ne hq .., fun q c hq => ?_,
      fun _ _ _ _ => ⟨rfl, rfl, rfl, rfl⟩, fun _ _ => rfl⟩
  · by_cases hcb : c = b
    · subst hcb
      exact h.named c (.inr ⟨p, hp⟩)
    · refine h.named c (hc.imp (fun hc => ?_) fun ⟨q, hq⟩ => ⟨q, ?_⟩)
      · exact (Function.update_of_ne hcb (some p) s.lock) ▸ hc
      · have hq : update s.transit p none q = some c := hq
        by_cases hqp : q = p
        · rw [hqp, Function.update_self] at hq
          cases hq
        · rwa [Function.update_of_ne hqp] at hq
  · show update s.lock b (some p) c = some q ↔ _
    by_cases hcb : c = b
    · rw [hcb, Function.update_self, hlock]
      exact ⟨fun heq => absurd (Option.some.inj heq).symm hq, fun heq => by cases heq⟩
    · rw [Function.update_of_ne hcb]

theorem Inv.releasesleep (h : Inv s) (hp : s.transit p = none) (hlock : s.lock b = some p)
    (hs : s' = { s with
      lock := update s.lock b none
      transit := update s.transit p (some b) }) : Inv s' ∧ Others p s s' := by
  have huses : ∀ c, s'.uses c = s.uses c := by
    intro c
    have hcard := transits_set (b := b) s' hp (by rw [hs]) c
    have hpins : s'.pins = s.pins := by rw [hs]
    have hlocks : s'.lock = update s.lock b none := by rw [hs]
    unfold State.uses
    rw [hcard, hpins, hlocks]
    by_cases hc : c = b
    · subst hc
      rw [Function.update_self, hlock, if_pos rfl, if_pos rfl, if_neg (Option.some_ne_none p)]
      omega
    · rw [Function.update_of_ne hc, if_neg hc]
      rfl
  have hdev : s.dev b ≠ 0 := h.named b (.inl (by rw [hlock]; exact Option.some_ne_none p))
  subst hs
  refine ⟨⟨h.list.imp fun _ hl => hl.congr rfl rfl (fun _ _ => rfl) fun _ hc => hc, h.unique,
    fun c => (h.count c).trans (huses c).symm, h.fits, fun c hc => ?_,
    h.valid, h.written, h.past⟩, fun q hq => Function.update_of_ne hq .., fun q c hq => ?_,
      fun _ _ _ _ => ⟨rfl, rfl, rfl, rfl⟩, fun _ _ => rfl⟩
  · by_cases hcb : c = b
    · rw [hcb]
      exact hdev
    · refine h.named c (hc.imp (fun hc => ?_) fun ⟨q, hq⟩ => ⟨q, ?_⟩)
      · exact (Function.update_of_ne hcb none s.lock) ▸ hc
      · have hq : update s.transit p (some b) q = some c := hq
        by_cases hqp : q = p
        · rw [hqp, Function.update_self] at hq
          exact absurd (Option.some.inj hq).symm hcb
        · rwa [Function.update_of_ne hqp] at hq
  · show update s.lock b none c = some q ↔ _
    by_cases hcb : c = b
    · rw [hcb, Function.update_self, hlock]
      exact ⟨fun heq => (Option.some_ne_none q heq.symm).elim,
        fun heq => absurd (Option.some.inj heq).symm hq⟩
    · rw [Function.update_of_ne hcb]

/-! ## Counts -/

/-- A use of `b` ends, or moves; the count of no other buffer changes. -/
theorem count_sub {s : State D} (h : Inv s) (s' : State D)
    (hrefcnt : s'.refcnt = update s.refcnt b (s.refcnt b - 1))
    (huses : ∀ c, s.uses c = s'.uses c + if c = b then 1 else 0) (c : Buf) :
    (s'.refcnt c).toNat = s'.uses c := by
  have hc := huses c
  rw [hrefcnt]
  by_cases hcb : c = b
  · subst hcb
    rw [if_pos rfl] at hc
    rw [Function.update_self, toNat_sub_one, h.count]
    · omega
    · rw [h.count]
      omega
  · rw [if_neg hcb] at hc
    rw [Function.update_of_ne hcb, h.count]
    exact hc

theorem Inv.other_ne (hlock : s.lock b = some p) {q : Slot} {c : Buf} (hq : q ≠ p)
    (hc : s.lock c = some q) : c ≠ b := by
  rintro rfl
  rw [hlock] at hc
  exact hq (Option.some.inj hc).symm

theorem Inv.bpin (h : Inv s) (hlock : s.lock b = some p) (hfits : s.pins b + NPROC + 2 < 2 ^ 32)
    (hs : s' = { s with
      refcnt := update s.refcnt b (s.refcnt b + 1)
      pins := update s.pins b (s.pins b + 1) }) : Inv s' ∧ Others p s s' := by
  have huses : ∀ c, s'.uses c = s.uses c + if c = b then 1 else 0 := by
    intro c
    have hcard := transits_congr (s := s) s' (by rw [hs]) c
    have hlocks : s'.lock = s.lock := by rw [hs]
    have hpins : s'.pins = update s.pins b (s.pins b + 1) := by rw [hs]
    unfold State.uses
    rw [hcard, hlocks, hpins]
    by_cases hc : c = b
    · subst hc
      rw [Function.update_self, if_pos rfl]
      omega
    · rw [Function.update_of_ne hc, if_neg hc]
      rfl
  have hcount : ∀ c, (s'.refcnt c).toNat = s'.uses c := by
    intro c
    rw [huses, hs]
    show (update s.refcnt b (s.refcnt b + 1) c).toNat = _
    by_cases hc : c = b
    · subst hc
      have hcard := card_transits_le s c
      have hle : s.uses c ≤ 1 + NPROC + s.pins c := by
        unfold State.uses
        split_ifs <;> omega
      rw [if_pos rfl, Function.update_self, toNat_add_one, h.count]
      rw [h.count]
      omega
    · rw [if_neg hc, Function.update_of_ne hc, h.count]
      rfl
  have hnonzero : ∀ c, s'.refcnt c = 0 → c ≠ b := by
    rintro c hc rfl
    have hcount' := hcount c
    rw [hc, huses, if_pos rfl] at hcount'
    cases hcount'
  subst hs
  obtain ⟨l, hl⟩ := h.list
  refine ⟨⟨⟨l, hl.congr rfl rfl (fun _ _ => rfl) fun c hc => ?_⟩, h.unique, hcount, fun c => ?_,
    h.named, h.valid, h.written, h.past⟩, fun _ _ => rfl, fun _ _ _ => Iff.rfl,
      fun q c hq hc => ⟨rfl, rfl, rfl, Function.update_of_ne (Inv.other_ne hlock hq hc) ..⟩,
      fun _ _ => rfl⟩
  · exact (Function.update_of_ne (hnonzero c hc) ..).symm.trans hc
  · show update s.pins b (s.pins b + 1) c + NPROC + 1 < 2 ^ 32
    by_cases hc : c = b
    · rw [hc, Function.update_self]
      omega
    · rw [Function.update_of_ne hc]
      exact h.fits c

theorem Inv.bunpin (h : Inv s) (hlock : s.lock b = some p) (hpins : s.pins b ≠ 0)
    (hs : s' = { s with
      refcnt := update s.refcnt b (s.refcnt b - 1)
      pins := update s.pins b (s.pins b - 1) }) : Inv s' ∧ Others p s s' := by
  have huses : ∀ c, s.uses c = s'.uses c + if c = b then 1 else 0 := by
    intro c
    have hcard := transits_congr (s := s) s' (by rw [hs]) c
    have hlocks : s'.lock = s.lock := by rw [hs]
    have hpins' : s'.pins = update s.pins b (s.pins b - 1) := by rw [hs]
    unfold State.uses
    rw [hcard, hlocks, hpins']
    by_cases hc : c = b
    · subst hc
      rw [Function.update_self, if_pos rfl]
      omega
    · rw [Function.update_of_ne hc, if_neg hc]
      rfl
  have hcount := count_sub h s' (by rw [hs]) huses
  -- the buffer is locked, so it stays in use
  have hnonzero : ∀ c, s'.refcnt c = 0 → c ≠ b := by
    rintro c hc rfl
    have hcount' := hcount c
    have hlocks : s'.lock = s.lock := by rw [hs]
    have hpos : s'.uses c ≠ 0 := by
      unfold State.uses
      rw [hlocks, hlock, if_neg (Option.some_ne_none p)]
      omega
    rw [hc] at hcount'
    exact hpos hcount'.symm
  subst hs
  obtain ⟨l, hl⟩ := h.list
  refine ⟨⟨⟨l, hl.congr rfl rfl (fun _ _ => rfl) fun c hc => ?_⟩, h.unique, hcount, fun c => ?_,
    h.named, h.valid, h.written, h.past⟩, fun _ _ => rfl, fun _ _ _ => Iff.rfl,
      fun q c hq hc => ⟨rfl, rfl, rfl, Function.update_of_ne (Inv.other_ne hlock hq hc) ..⟩,
      fun _ _ => rfl⟩
  · exact (Function.update_of_ne (hnonzero c hc) ..).symm.trans hc
  · show update s.pins b (s.pins b - 1) c + NPROC + 1 < 2 ^ 32
    have hfits := h.fits c
    by_cases hc : c = b
    · rw [hc, Function.update_self]
      rw [hc] at hfits
      omega
    · rw [Function.update_of_ne hc]
      exact hfits

/-! ## The end of a use -/

/-- The use ends, but the list is as before. -/
def State.leave (s : State D) (p : Slot) (b : Buf) : State D :=
  { s with
    refcnt := update s.refcnt b (s.refcnt b - 1)
    transit := update s.transit p none
    clock := s.clock + 1
    released := update s.released b (s.clock + 1) }

theorem put_eq (p : Slot) (b : Buf) (s : State D) :
    put p b s = if (s.leave p b).refcnt b = 0 then ((s.leave p b).unlink b).pushFront b
      else s.leave p b := rfl

theorem leave_count (h : Inv s) (hp : s.transit p = some b) (c : Buf) :
    ((s.leave p b).refcnt c).toNat = (s.leave p b).uses c := by
  refine count_sub h (s.leave p b) rfl (fun c => ?_) c
  have hcard := transits_clear (s.leave p b) hp rfl c
  show (if s.lock c = none then 0 else 1) + (s.transits c).card + s.pins c =
    (if s.lock c = none then 0 else 1) + ((s.leave p b).transits c).card + s.pins c + _
  rw [hcard]
  omega

/-- A buffer that nobody uses any more goes to the head of the list. -/
theorem Inv.put (h : Inv s) (hp : s.transit p = some b) :
    Inv (put p b s) ∧ Others p s (Bio.put p b s) ∧ (Bio.put p b s).lock = s.lock ∧
      (Bio.put p b s).valid = s.valid ∧ (Bio.put p b s).transit p = none := by
  have hcount := leave_count h hp
  have hnamed : ∀ c, (s.leave p b).lock c ≠ none ∨ (∃ q, (s.leave p b).transit q = some c) →
      s.dev c ≠ 0 := by
    intro c hc
    refine h.named c (hc.imp (fun hc => hc) fun ⟨q, hq⟩ => ⟨q, ?_⟩)
    have hq : update s.transit p none q = some c := hq
    by_cases hqp : q = p
    · rw [hqp, Function.update_self] at hq
      cases hq
    · rwa [Function.update_of_ne hqp] at hq
  have hpast : ∀ c, (s.leave p b).released c ≤ (s.leave p b).clock := by
    intro c
    show update s.released b (s.clock + 1) c ≤ s.clock + 1
    by_cases hc : c = b
    · rw [hc, Function.update_self]
    · rw [Function.update_of_ne hc]
      exact Nat.le_succ_of_le (h.past c)
  have hothers : Others p s (s.leave p b) :=
    ⟨fun q hq => Function.update_of_ne hq .., fun _ _ _ => Iff.rfl,
      fun _ _ _ _ => ⟨rfl, rfl, rfl, rfl⟩, fun _ _ => rfl⟩
  obtain ⟨l, hl⟩ := h.list
  rw [put_eq]
  by_cases hzero : (s.leave p b).refcnt b = 0
  · rw [if_pos hzero]
    obtain ⟨l₁, l₂, rfl⟩ := List.append_of_mem (hl.all b)
    have hb : b ∉ l₁ ++ l₂ :=
      (List.nodup_cons.1 (List.perm_middle.nodup_iff.1 hl.nodup)).1
    have hcircle := pushFront_circle (unlink_circle (s := s.leave p b) hl.circle) hb
    refine ⟨⟨⟨b :: (l₁ ++ l₂), hcircle, fun c => ?_, ?_⟩, h.unique, hcount, h.fits, hnamed,
      h.valid, h.written, hpast⟩, ⟨hothers.transit, hothers.lock, hothers.locked, hothers.key⟩, rfl, rfl,
        Function.update_self ..⟩
    · exact List.perm_middle.mem_iff.1 (hl.all c)
    · have hsub : (l₁ ++ l₂).Sublist (l₁ ++ b :: l₂) :=
        List.Sublist.append (List.Sublist.refl l₁) (List.sublist_cons_self b l₂)
      refine List.pairwise_cons.2 ⟨fun c _ _ _ => ?_, ?_⟩
      · show (s.leave p b).released c ≤ update s.released b (s.clock + 1) b
        rw [Function.update_self]
        exact hpast c
      · refine (hl.sorted.sublist hsub).imp_of_mem fun {c d} hc hd hcd hc0 hd0 => ?_
        have hcb : c ≠ b := fun heq => hb (heq ▸ hc)
        have hdb : d ≠ b := fun heq => hb (heq ▸ hd)
        show update s.released b (s.clock + 1) d ≤ update s.released b (s.clock + 1) c
        rw [Function.update_of_ne hcb, Function.update_of_ne hdb]
        have hc0 : update s.refcnt b (s.refcnt b - 1) c = 0 := hc0
        have hd0 : update s.refcnt b (s.refcnt b - 1) d = 0 := hd0
        rw [Function.update_of_ne hcb] at hc0
        rw [Function.update_of_ne hdb] at hd0
        exact hcd hc0 hd0
  · rw [if_neg hzero]
    have hother : ∀ c, (s.leave p b).refcnt c = 0 → c ≠ b := by
      rintro c hc rfl
      exact hzero hc
    refine ⟨⟨⟨l, hl.congr rfl rfl (fun c hc => Function.update_of_ne (hother c hc) ..)
      fun c hc => ?_⟩, h.unique, hcount, h.fits, hnamed, h.valid, h.written, hpast⟩, hothers, rfl,
        rfl, Function.update_self ..⟩
    exact (Function.update_of_ne (hother c hc) ..).symm.trans hc

/-! ## Contents -/

/-- Different buffers in use stand for different blocks. -/
theorem Inv.key_ne (h : Inv s) {q : Slot} {c : Buf} (hc : s.lock c = some q) (hcb : c ≠ b) :
    s.key c ≠ s.key b := fun heq =>
  hcb (h.unique c b (h.named c (.inl (by rw [hc]; exact Option.some_ne_none q))) heq)

/-- A block is read from the disk into a buffer that has no data yet. -/
theorem Inv.load (h : Inv s) (hlock : s.lock b = some p) (hvalid : s.valid b = false)
    (hs : s' = { s with data := update s.data b (s.disk (s.key b)) }) :
    Inv s' ∧ Others p s s' ∧ s'.data b = s'.contents (s'.key b) := by
  have hdata : ∀ c, c ≠ b → s'.data c = s.data c := fun c hc => by
    rw [hs]
    exact Function.update_of_ne hc ..
  have hdev : s.dev b ≠ 0 := h.named b (.inl (by rw [hlock]; exact Option.some_ne_none p))
  have hwritten : s.written (s.key b) = none := by
    by_contra hne
    obtain ⟨c, hc, heq⟩ := h.written _ hne
    rw [← h.unique b c hdev heq.symm, hvalid] at hc
    cases hc
  have hself : s'.data b = s'.contents (s'.key b) := by
    rw [hs]
    show update s.data b (s.disk (s.key b)) b = (s.written (s.key b)).getD (s.disk (s.key b))
    rw [Function.update_self, hwritten]
    rfl
  refine ⟨⟨?_, ?_, ?_, ?_, ?_, fun c hc => ?_, ?_, ?_⟩, ⟨fun _ _ => by rw [hs],
    fun _ _ _ => by rw [hs], fun q c hq hc => ?_, fun _ _ => by rw [hs]; rfl⟩, hself⟩
  · obtain ⟨l, hl⟩ := h.list
    rw [hs]
    exact ⟨l, hl.congr rfl rfl (fun _ _ => rfl) fun _ hc => hc⟩
  · rw [hs]
    exact h.unique
  · rw [hs]
    exact h.count
  · rw [hs]
    exact h.fits
  · rw [hs]
    exact h.named
  · have hcv : s.valid c = true := by
      rw [hs] at hc
      exact hc
    have hcb : c ≠ b := by
      rintro rfl
      rw [hvalid] at hcv
      cases hcv
    rw [hdata c hcb, hs]
    exact h.valid c hcv
  · rw [hs]
    exact h.written
  · rw [hs]
    exact h.past
  · have hcb := Inv.other_ne hlock hq hc
    refine ⟨?_, hdata c hcb, ?_, ?_⟩
    · rw [hs]
    · rw [hs]
      rfl
    · rw [hs]

theorem Inv.setValid (h : Inv s) (hlock : s.lock b = some p)
    (hdata : s.data b = s.contents (s.key b)) (hs : s' = { s with valid := update s.valid b true }) :
    Inv s' ∧ Others p s s' := by
  subst hs
  have hdev : s.dev b ≠ 0 := h.named b (.inl (by rw [hlock]; exact Option.some_ne_none p))
  refine ⟨⟨h.list.imp fun _ hl => hl.congr rfl rfl (fun _ _ => rfl) fun _ hc => hc, h.unique,
    h.count, h.fits, h.named, fun c hc => ?_, fun k hk => ?_, h.past⟩, fun _ _ => rfl,
      fun _ _ _ => Iff.rfl, fun q c hq hc => ?_, fun _ _ => rfl⟩
  · by_cases hcb : c = b
    · rw [hcb]
      exact ⟨hdev, hdata⟩
    · have hc : update s.valid b true c = true := hc
      rw [Function.update_of_ne hcb] at hc
      exact h.valid c hc
  · obtain ⟨c, hc, heq⟩ := h.written k hk
    refine ⟨c, ?_, heq⟩
    show update s.valid b true c = true
    by_cases hcb : c = b
    · rw [hcb, Function.update_self]
    · rw [Function.update_of_ne hcb, hc]
  · exact ⟨Function.update_of_ne (Inv.other_ne hlock hq hc) .., rfl, rfl, rfl⟩

/-- The process that has a buffer locked changes its data. -/
theorem Inv.store (h : Inv s) (hlock : s.lock b = some p) (hvalid : s.valid b = true) (d : D)
    (hs : s' = { s with
      data := update s.data b d
      written := update s.written (s.key b) (some d) }) : Inv s' ∧ Others p s s' := by
  have hcontents : ∀ k, k ≠ s.key b → s'.contents k = s.contents k := fun k hk => by
    rw [hs]
    show (update s.written (s.key b) (some d) k).getD _ = _
    rw [Function.update_of_ne hk]
    rfl
  have hself : s'.contents (s.key b) = d := by
    rw [hs]
    show (update s.written (s.key b) (some d) (s.key b)).getD _ = _
    rw [Function.update_self]
    rfl
  have hdata : ∀ c, c ≠ b → s'.data c = s.data c := fun c hc => by
    rw [hs]
    exact Function.update_of_ne hc ..
  have hkey : s'.key = s.key := by
    rw [hs]
    rfl
  refine ⟨⟨?_, ?_, ?_, ?_, ?_, fun c hc => ?_, fun k hk => ?_, ?_⟩,
    ⟨fun _ _ => by rw [hs], fun _ _ _ => by rw [hs], fun q c hq hc => ?_,
      fun _ _ => by rw [hkey]⟩⟩
  · obtain ⟨l, hl⟩ := h.list
    rw [hs]
    exact ⟨l, hl.congr rfl rfl (fun _ _ => rfl) fun _ hc => hc⟩
  · rw [hs]
    exact h.unique
  · rw [hs]
    exact h.count
  · rw [hs]
    exact h.fits
  · rw [hs]
    exact h.named
  · have hcv : s.valid c = true := by
      rw [hs] at hc
      exact hc
    obtain ⟨hdev, heq⟩ := h.valid c hcv
    refine ⟨by rw [hs]; exact hdev, ?_⟩
    rw [hkey]
    by_cases hcb : c = b
    · rw [hcb, hself, hs]
      exact Function.update_self ..
    · rw [hdata c hcb, hcontents _ fun heq => hcb (h.unique c b hdev heq)]
      exact heq
  · by_cases hkb : k = s.key b
    · exact ⟨b, by rw [hs]; exact hvalid, by rw [hkey, hkb]⟩
    · rw [hs] at hk
      have hk : update s.written (s.key b) (some d) k ≠ none := hk
      rw [Function.update_of_ne hkb] at hk
      obtain ⟨c, hc, heq⟩ := h.written k hk
      exact ⟨c, by rw [hs]; exact hc, by rw [hkey, heq]⟩
  · rw [hs]
    exact h.past
  · have hcb := Inv.other_ne hlock hq hc
    exact ⟨by rw [hs], hdata c hcb, hcontents _ (h.key_ne hc hcb), by rw [hs]⟩

/-- Writing a buffer to the disk does not change what the block contains. -/
theorem Inv.flush (h : Inv s) (hvalid : s.valid b = true)
    (hs : s' = { s with disk := update s.disk (s.key b) (s.data b) }) :
    Inv s' ∧ Others p s s' := by
  have hcontents : ∀ k, s'.contents k = s.contents k := by
    intro k
    rw [hs]
    show (s.written k).getD (update s.disk (s.key b) (s.data b) k) = _
    by_cases hk : k = s.key b
    · rw [hk, Function.update_self]
      cases hw : s.written (s.key b) with
      | some d =>
        unfold State.contents
        rw [hw]
        rfl
      | none =>
        rw [← (h.valid b hvalid).2]
        rfl
    · rw [Function.update_of_ne hk]
      rfl
  have hkey : s'.key = s.key := by
    rw [hs]
    rfl
  refine ⟨⟨?_, ?_, ?_, ?_, ?_, fun c hc => ?_, ?_, ?_⟩, ⟨fun _ _ => by rw [hs],
    fun _ _ _ => by rw [hs], fun _ _ _ _ => ⟨by rw [hs], by rw [hs], hcontents _, by rw [hs]⟩,
      fun _ _ => by rw [hkey]⟩⟩
  · obtain ⟨l, hl⟩ := h.list
    rw [hs]
    exact ⟨l, hl.congr rfl rfl (fun _ _ => rfl) fun _ hc => hc⟩
  · rw [hs]
    exact h.unique
  · rw [hs]
    exact h.count
  · rw [hs]
    exact h.fits
  · rw [hs]
    exact h.named
  · rw [hkey, hcontents]
    rw [hs] at hc ⊢
    exact h.valid c hc
  · rw [hs]
    exact h.written
  · rw [hs]
    exact h.past

end Xv6.Bio
