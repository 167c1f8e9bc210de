import Xv6.Bio.Room

/-!
# One step of a file-system call

Each step keeps the pins those of the log.  A transaction starts only while
nobody commits, and the process that commits is alone with the log.
-/

namespace Xv6.Bio.Calls

open Function (update)

variable {D : Type} {s s' : Fs D} {p : Slot} {b : Buf} {k : BlockNo}

/-- What the others rely on when process `p` takes a step. -/
structure Guar (p : Slot) (s s' : Fs D) : Prop where
  inv : Tracked s → Tracked s'
  others : Others p s.cache s'.cache
  inOp : ∀ q, q ≠ p → s'.inOp q = s.inOp q
  committer : ∀ q, q ≠ p → (s'.committer = some q ↔ s.committer = some q)
  log : ∀ q, q ≠ p → s.committer = some q →
    s'.log.lh = s.log.lh ∧ s'.installed = s.installed

/-- A step that keeps the invariant, and changes the cache and its process's
own history at most. -/
theorem Guar.of_cache (hinv : Tracked s') (hothers : Others p s.cache s'.cache)
    (hinOp : ∀ q, q ≠ p → s'.inOp q = s.inOp q) (hcommitter : s'.committer = s.committer)
    (hlog : ∀ q, q ≠ p → s.committer = some q →
      s'.log.lh = s.log.lh ∧ s'.installed = s.installed) : Guar p s s' :=
  ⟨fun _ => hinv, hothers, hinOp, fun q _ => by rw [hcommitter], hlog⟩

/-! ## Transactions -/

/-- A process enters a transaction. -/
theorem card_inOp_set (inOp : Slot → Bool) (h : inOp p = false) :
    (Finset.univ.filter fun q => update inOp p true q = true).card =
      (Finset.univ.filter fun q => inOp q = true).card + 1 := by
  have hins : (Finset.univ.filter fun q => update inOp p true q = true) =
      insert p (Finset.univ.filter fun q => inOp q = true) := by
    ext q
    simp only [Finset.mem_insert, Finset.mem_filter, Finset.mem_univ, true_and]
    by_cases hq : q = p
    · rw [hq, Function.update_self]
      exact ⟨fun _ => .inl rfl, fun _ => rfl⟩
    · rw [Function.update_of_ne hq]
      exact ⟨.inr, fun h => h.resolve_left hq⟩
  rw [hins, Finset.card_insert_of_notMem]
  rw [Finset.mem_filter, h]
  exact fun hno => Bool.noConfusion hno.2

/-- A process leaves a transaction. -/
theorem card_inOp_clear {inOp : Slot → Bool} (h : inOp p = true) :
    (Finset.univ.filter fun q => inOp q = true).card =
      (Finset.univ.filter fun q => update inOp p false q = true).card + 1 := by
  have hcard := card_inOp_set (p := p) (update inOp p false) (Function.update_self ..)
  have hself : update inOp p true = inOp := by rw [← h, Function.update_eq_self]
  rwa [Function.update_idem, hself] at hcard

/-- While a process is in a transaction nobody commits. -/
theorem Tracked.not_committing (h : Tracked s) (hp : s.inOp p = true) :
    s.log.committing = false := by
  rcases Bool.eq_false_or_eq_true s.log.committing with hc | hc
  · have hcard := card_inOp_clear hp
    rw [← h.outstanding, h.alone hc] at hcard
    cases hcard
  · exact hc

theorem Tracked.no_committer (h : Tracked s) (hc : s.log.committing = false) :
    s.committer = none := by
  by_contra hne
  rw [h.committing.2 hne] at hc
  cases hc

theorem beginOp_eq_some {l l' : Log.LogState} (h : l.beginOp = some l') :
    l.committing = false ∧ l' = { l with outstanding := l.outstanding + 1 } := by
  unfold Log.LogState.beginOp at h
  split_ifs at h with hc hfull
  exact ⟨Bool.eq_false_iff.2 hc, (Option.some.inj h).symm⟩

theorem Tracked.beginOp (h : Tracked s) (hp : s.inOp p = false)
    (hc : s.log.committing = false) (hs : s' = { s with
      log := { s.log with outstanding := s.log.outstanding + 1 }
      inOp := update s.inOp p true }) : Guar p s s' := by
  subst hs
  refine Guar.of_cache ⟨h.cache, h.dev, h.nodup, h.one, h.zero, h.cached, ?_, h.committing,
    fun hc' => ?_, h.installed⟩ (.refl p s.cache) (fun q hq => Function.update_of_ne hq ..) rfl
      fun _ _ _ => ⟨rfl, rfl⟩
  · show s.log.outstanding + 1 = _
    rw [h.outstanding]
    exact (card_inOp_set s.inOp hp).symm
  · rw [hc] at hc'
    cases hc'

/-- `end_op` never finds that somebody commits. -/
theorem Tracked.endOp_eq (h : Tracked s) (hp : s.inOp p = true) :
    s.log.endOp = if s.log.outstanding - 1 = 0 then
        .ok (true, { s.log with outstanding := s.log.outstanding - 1, committing := true })
      else .ok (false, { s.log with outstanding := s.log.outstanding - 1 }) := by
  unfold Log.LogState.endOp
  have hc : ¬ { s.log with outstanding := s.log.outstanding - 1 }.committing = true :=
    Bool.eq_false_iff.1 (h.not_committing hp)
  rw [if_neg hc]

theorem Tracked.outstanding_sub (h : Tracked s) (hp : s.inOp p = true) :
    s.log.outstanding - 1 = (Finset.univ.filter fun q => update s.inOp p false q = true).card := by
  rw [h.outstanding, card_inOp_clear hp]
  rfl

theorem Tracked.endOp_false (h : Tracked s) (hp : s.inOp p = true) (hs : s' = { s with
      log := { s.log with outstanding := s.log.outstanding - 1 }
      inOp := update s.inOp p false }) : Guar p s s' := by
  subst hs
  refine Guar.of_cache ⟨h.cache, h.dev, h.nodup, h.one, h.zero, h.cached, h.outstanding_sub hp,
    h.committing, fun hc' => ?_, h.installed⟩ (.refl p s.cache)
      (fun q hq => Function.update_of_ne hq ..) rfl fun _ _ _ => ⟨rfl, rfl⟩
  rw [h.not_committing hp] at hc'
  cases hc'

theorem Tracked.endOp_true (h : Tracked s) (hp : s.inOp p = true)
    (hlast : s.log.outstanding - 1 = 0) (hs : s' = { s with
      log := { s.log with outstanding := s.log.outstanding - 1, committing := true }
      inOp := update s.inOp p false
      committer := some p }) : Guar p s s' := by
  have hnone := h.no_committer (h.not_committing hp)
  subst hs
  refine ⟨fun _ => ⟨h.cache, h.dev, h.nodup, h.one, h.zero, h.cached, h.outstanding_sub hp,
    ⟨fun _ => Option.some_ne_none p, fun _ => rfl⟩, fun _ => hlast, fun hc => Bool.noConfusion hc⟩,
      .refl p s.cache, fun q hq => Function.update_of_ne hq .., fun q hq => ?_, fun q hq hq' => ?_⟩
  · rw [hnone]
    exact ⟨fun heq => absurd (Option.some.inj heq).symm hq, fun heq => by cases heq⟩
  · rw [hnone] at hq'
    cases hq'

/-! ## Pins -/

theorem logWrite_eq_ok {l l' : Log.LogState} {size : Nat} (h : l.logWrite size k = .ok l') :
    l' = if k ∈ l.lh then l else { l with lh := l.lh ++ [k] } := by
  unfold Log.LogState.logWrite at h
  split_ifs at h with hbig hout hmem
  · rw [if_pos hmem]
    exact (Except.ok.inj h).symm
  · rw [if_neg hmem]
    exact (Except.ok.inj h).symm

/-- The pins move with the list of blocks that are pinned. -/
theorem Tracked.repin (h : Tracked s) (hinv : Bio.Inv s'.cache) (hnodup : s'.log.lh.Nodup)
    (hdev : s'.cache.dev = s.cache.dev) (hblockno : s'.cache.blockno = s.cache.blockno)
    (hone : ∀ b, ∀ k ∈ s'.pinned, s.cache.key b = (ROOTDEV, k) → s'.cache.pins b = 1)
    (hzero : ∀ b, (∀ k ∈ s'.pinned, s.cache.key b ≠ (ROOTDEV, k)) → s'.cache.pins b = 0)
    (hcached : ∀ k ∈ s'.pinned, ∃ b, s.cache.key b = (ROOTDEV, k))
    (hinOp : s'.inOp = s.inOp) (hcommitter : s'.committer = s.committer)
    (hcommitting : s'.log.committing = s.log.committing)
    (houtstanding : s'.log.outstanding = s.log.outstanding)
    (hinstalled : s'.log.committing = false → s'.installed = 0) : Tracked s' := by
  have hkey : s'.cache.key = s.cache.key := by
    unfold State.key
    rw [hdev, hblockno]
  refine ⟨hinv, ?_, hnodup, ?_, ?_, ?_, ?_, ?_, ?_, hinstalled⟩
  · rw [hdev]
    exact h.dev
  · rw [hkey]
    exact hone
  · rw [hkey]
    exact hzero
  · rw [hkey]
    exact hcached
  · rw [houtstanding, hinOp]
    exact h.outstanding
  · rw [hcommitting, hcommitter]
    exact h.committing
  · rw [hcommitting, houtstanding]
    exact h.alone

/-- A block is added to the log, and its buffer is pinned. -/
theorem Tracked.logWrite (h : Tracked s) (hp : s.inOp p = true) (hlock : s.cache.lock b = some p)
    (hnew : s.cache.blockno b ∉ s.log.lh) (hs : s' = { s with
      cache := { s.cache with
        refcnt := update s.cache.refcnt b (s.cache.refcnt b + 1)
        pins := update s.cache.pins b (s.cache.pins b + 1) }
      log := { s.log with lh := s.log.lh ++ [s.cache.blockno b] } }) : Guar p s s' := by
  have hc := h.not_committing hp
  have hinstalled := h.installed hc
  have hpinned : s.pinned = s.log.lh := by
    unfold Fs.pinned
    rw [hinstalled, List.drop_zero]
  have hpinned' : s'.pinned = s.log.lh ++ [s.cache.blockno b] := by
    rw [hs]
    show (s.log.lh ++ [s.cache.blockno b]).drop s.installed = _
    rw [hinstalled, List.drop_zero]
  have hkeyb : s.cache.key b = (ROOTDEV, s.cache.blockno b) := by
    have hused := h.cache.refcnt_of_lock hlock
    exact Prod.ext (h.dev_of_used hused) rfl
  have hblock : ∀ c k, s.cache.key c = (ROOTDEV, k) → (c = b ↔ k = s.cache.blockno b) := by
    intro c k hkey
    constructor
    · rintro rfl
      exact (congrArg Prod.snd hkey).symm
    · rintro rfl
      refine h.cache.unique c b ?_ (hkey.trans hkeyb.symm)
      rw [show s.cache.dev c = ROOTDEV from congrArg Prod.fst hkey]
      decide
  have hpins : s.cache.pins b = 0 := by
    refine h.zero b fun k hk heq => hnew ?_
    rw [hkeyb] at heq
    rw [show s.cache.blockno b = k from congrArg Prod.snd heq, ← hpinned]
    exact hk
  have hpins' : s'.cache.pins = update s.cache.pins b 1 := by
    rw [hs]
    show update s.cache.pins b (s.cache.pins b + 1) = _
    rw [hpins]
  obtain ⟨hinv, hothers⟩ := h.cache.bpin hlock (by rw [hpins]; decide)
    (show s'.cache = _ by rw [hs])
  refine Guar.of_cache (h.repin hinv ?_ (by rw [hs]) (by rw [hs]) (fun c k hk hkey => ?_)
    (fun c hc => ?_) (fun k hk => ?_) (by rw [hs]) (by rw [hs]) (by rw [hs]) (by rw [hs])
    fun _ => by rw [hs]; exact hinstalled) hothers (fun _ _ => by rw [hs]) (by rw [hs])
      fun q _ hq => ?_
  · rw [hs]
    exact List.nodup_append.2 ⟨h.nodup, List.nodup_singleton _, fun k hk l hl heq =>
      hnew (List.mem_singleton.1 hl ▸ heq ▸ hk)⟩
  · rw [hpins']
    by_cases hcb : c = b
    · rw [hcb, Function.update_self]
    · rw [Function.update_of_ne hcb]
      rw [hpinned', List.mem_append, List.mem_singleton] at hk
      refine h.one c k ?_ hkey
      rw [hpinned]
      exact hk.resolve_right fun heq => hcb ((hblock c k hkey).2 heq)
  · rw [hpins']
    have hcb : c ≠ b := by
      rintro rfl
      refine hc _ ?_ hkeyb
      rw [hpinned']
      exact List.mem_append_right _ (List.mem_singleton_self _)
    rw [Function.update_of_ne hcb]
    refine h.zero c fun k hk => hc k ?_
    rw [hpinned']
    rw [hpinned] at hk
    exact List.mem_append_left _ hk
  · rw [hpinned', List.mem_append, List.mem_singleton] at hk
    rcases hk with hk | rfl
    · exact h.cached k (by rw [hpinned]; exact hk)
    · exact ⟨b, hkeyb⟩
  · rw [h.no_committer hc] at hq
    cases hq

/-- `install_trans` takes the pin of the next block back. -/
theorem Tracked.bunpin (h : Tracked s) (hp : s.committer = some p)
    (hlock : s.cache.lock b = some p) (hlt : s.installed < s.log.lh.length)
    (hkey : s.cache.key b = (ROOTDEV, s.log.lh.getD s.installed 0)) (hs : s' = { s with
      cache := { s.cache with
        refcnt := update s.cache.refcnt b (s.cache.refcnt b - 1)
        pins := update s.cache.pins b (s.cache.pins b - 1) }
      installed := s.installed + 1 }) : Guar p s s' := by
  have hpinned : s.pinned = s.log.lh.getD s.installed 0 :: s'.pinned := by
    rw [hs]
    show s.log.lh.drop s.installed = _ :: s.log.lh.drop (s.installed + 1)
    rw [List.drop_eq_getElem_cons hlt, List.getD_eq_getElem _ _ hlt]
  have hnodup : s.pinned.Nodup := h.nodup.sublist (List.drop_sublist ..)
  rw [hpinned] at hnodup
  have hpins : s.cache.pins b = 1 := h.one b _ (hpinned ▸ List.mem_cons_self ..) hkey
  have hpins' : s'.cache.pins = update s.cache.pins b 0 := by
    rw [hs]
    show update s.cache.pins b (s.cache.pins b - 1) = _
    rw [hpins]
  obtain ⟨hinv, hothers⟩ := h.cache.bunpin hlock (by rw [hpins]; exact Nat.one_ne_zero)
    (show s'.cache = _ by rw [hs])
  refine Guar.of_cache (h.repin hinv ?_ (by rw [hs]) (by rw [hs]) (fun c k hk hc => ?_)
    (fun c hc => ?_) (fun k hk => ?_) (by rw [hs]) (by rw [hs]) (by rw [hs]) (by rw [hs])
    fun hno => ?_) hothers (fun _ _ => by rw [hs]) (by rw [hs]) fun q hq hq' => ?_
  · rw [hs]
    exact h.nodup
  · rw [hpins']
    have hcb : c ≠ b := by
      rintro rfl
      rw [hkey] at hc
      rw [← show s.log.lh.getD s.installed 0 = k from congrArg Prod.snd hc] at hk
      exact (List.nodup_cons.1 hnodup).1 hk
    rw [Function.update_of_ne hcb]
    exact h.one c k (hpinned ▸ List.mem_cons_of_mem _ hk) hc
  · rw [hpins']
    by_cases hcb : c = b
    · rw [hcb, Function.update_self]
    · rw [Function.update_of_ne hcb]
      refine h.zero c fun k hk heq => ?_
      rw [hpinned] at hk
      rcases List.mem_cons.1 hk with rfl | hk
      · refine hcb (h.cache.unique c b ?_ (heq.trans hkey.symm))
        rw [show s.cache.dev c = ROOTDEV from congrArg Prod.fst heq]
        decide
      · exact hc k hk heq
  · exact h.cached k (hpinned ▸ List.mem_cons_of_mem _ hk)
  · have hc : s.log.committing = true := h.committing.2 (by rw [hp]; exact Option.some_ne_none p)
    rw [hs] at hno
    rw [hc] at hno
    cases hno
  · rw [hp] at hq'
    exact absurd (Option.some.inj hq').symm hq

/-- All blocks are installed: the log is empty. -/
theorem Tracked.clear (h : Tracked s) (hp : s.committer = some p)
    (hall : s.installed = s.log.lh.length)
    (hs : s' = { s with log := { s.log with lh := [] }, installed := 0 }) : Guar p s s' := by
  have hpinned : s.pinned = [] := by
    unfold Fs.pinned
    rw [hall, List.drop_length]
  have hpinned' : s'.pinned = [] := by
    rw [hs]
    rfl
  refine Guar.of_cache (h.repin ?_ ?_ (by rw [hs]) (by rw [hs]) (fun c k hk => ?_) (fun c _ => ?_)
    (fun k hk => ?_) (by rw [hs]) (by rw [hs]) (by rw [hs]) (by rw [hs]) fun _ => by rw [hs]) ?_
      (fun _ _ => by rw [hs]) (by rw [hs]) fun q hq hq' => ?_
  · rw [hs]
    exact h.cache
  · rw [hs]
    exact List.nodup_nil
  · rw [hpinned'] at hk
    cases hk
  · rw [hs]
    refine h.zero c fun k hk => ?_
    rw [hpinned] at hk
    cases hk
  · rw [hpinned'] at hk
    cases hk
  · rw [hs]
    exact .refl p s.cache
  · rw [hp] at hq'
    exact absurd (Option.some.inj hq').symm hq

theorem Tracked.endCommit (h : Tracked s) (hp : s.committer = some p) (hzero : s.installed = 0)
    (hs : s' = { s with log := { s.log with committing := false }, committer := none }) :
    Guar p s s' := by
  subst hs
  refine ⟨fun _ => ⟨h.cache, h.dev, h.nodup, h.one, h.zero, h.cached, h.outstanding,
    ⟨fun hc => Bool.noConfusion hc, fun hne => absurd rfl hne⟩, fun hc => Bool.noConfusion hc,
      fun _ => hzero⟩, .refl p s.cache, fun _ _ => rfl, fun q hq => ?_, fun _ _ _ => ⟨rfl, rfl⟩⟩
  rw [hp]
  exact ⟨fun heq => (Option.some_ne_none q heq.symm).elim,
    fun heq => absurd (Option.some.inj heq).symm hq⟩

end Xv6.Bio.Calls
