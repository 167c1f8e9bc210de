import Xv6.Vm.Map

/-!
# A page table is a finite map

`PageMap` says what is mapped at each virtual page number.  `Built` follows a
page table from `uvmcreate` through the calls of `mappages` and `uvmunmap`
with the map that they are for, and lets the rest of the kernel take and free
pages in between; `walk` and `walkaddr` then read that map.
-/

namespace Xv6

/-- The physical page and the flags that each virtual page number is mapped
to. -/
abbrev PageMap := Nat → Option (U64 × U64)

namespace PageMap

/-- Map `n` pages from number `v` on. -/
def map (f : PageMap) (v n : Nat) (pa perm : U64) : PageMap :=
  fun k => if v ≤ k ∧ k < v + n then some (pa + pageAt (k - v), perm ||| PTE_V) else f k

/-- Unmap `n` pages from number `v` on. -/
def unmap (f : PageMap) (v n : Nat) : PageMap :=
  fun k => if v ≤ k ∧ k < v + n then none else f k

/-- The physical page of a user address. -/
def user (f : PageMap) (va : U64) : Option U64 :=
  if va < MAXVA then
    (f (vpn va)).bind fun r => if r.2 &&& PTE_U = 0 ∨ r.1 = 0 then none else some r.1
  else
    none

end PageMap

/-- What a caller finds through `walk`. -/
def lookup (pagetable va : U64) : Vm (Option (U64 × U64)) := do
  match ← walk pagetable va false with
  | none => return none
  | some ref =>
    let pte ← loadPte ref
    if pte &&& PTE_V = 0 then
      return none
    return some (PTE2PA pte, PTE_FLAGS pte)

/-! ## Calls -/

/-- A call of `mappages` on pages that are not mapped. -/
structure MapCall (f : PageMap) (va size pa perm : U64) : Prop where
  aligned : va.toNat % 4096 = 0
  positive : 0 < size.toNat
  bound : va.toNat + size.toNat ≤ MAXVA.toNat
  physical : pa.toNat % 4096 = 0
  perm_bits : perm.toNat < 1024
  perm : perm &&& (PTE_R ||| PTE_W ||| PTE_X) ≠ 0
  fresh : ∀ k, vpn va ≤ k → k < vpn va + pages size → f k = none

/-- A call of `uvmunmap` on `n` pages that are mapped.  The caller that has
them freed owns them: they are pages of the allocator, all different, and
neither free nor part of the page table. -/
structure UnmapCall (m : Mem) (root : U64) (f : PageMap) (va : U64) (n : Nat) (doFree : Bool) :
    Prop where
  aligned : va.toNat % 4096 = 0
  below : va < MAXVA
  bound : va.toNat + 4096 * n ≤ MAXVA.toNat
  mapped : ∀ k, vpn va ≤ k → k < vpn va + n → f k ≠ none
  page : doFree = true → ∀ k < n, ∀ r, f (vpn va + k) = some r → Page r.1 ∧
    r.1 ∉ m.freelist ∧ ∀ p, p.length ≤ 2 → m.node root p ≠ some r.1
  apart : doFree = true → ∀ j < n, ∀ k < n, ∀ r s, f (vpn va + j) = some r →
    f (vpn va + k) = some s → r.1 = s.1 → j = k

/-- The page table at `root` has been built in the memory `m`, and the calls
that built it make up the map `f`. -/
inductive Built (root : U64) : Mem → PageMap → Prop
  | create {m m' : Mem} : m.freelist.Nodup → (∀ a ∈ m.freelist, Page a) →
      uvmcreate m = .ok (some root, m') → Built root m' fun _ => none
  | map {m m' : Mem} {f : PageMap} {va size pa perm : U64} : Built root m f →
      MapCall f va size pa perm → mappages root va size pa perm m = .ok (some (), m') →
      Built root m' (f.map (vpn va) (pages size) pa perm)
  /-- The pages that were mapped before the memory ran out stay mapped. -/
  | mapFail {m m' : Mem} {f : PageMap} {va size pa perm : U64} {n : Nat} : Built root m f →
      MapCall f va size pa perm → mappages root va size pa perm m = .ok (none, m') →
      n < pages size →
      (∀ k < pages size, lookup root (va + pageAt k) m' ≠ .ok (none, m') ↔ k < n) →
      Built root m' (f.map (vpn va) n pa perm)
  | unmap {m m' : Mem} {f : PageMap} {va : U64} {n : Nat} {doFree : Bool} : Built root m f →
      UnmapCall m root f va n doFree →
      uvmunmap root va (BitVec.ofNat 64 n) doFree m = .ok ((), m') →
      Built root m' (f.unmap (vpn va) n)
  /-- Other code of the kernel: it leaves the pages of the page table alone,
  and they are not free after it. -/
  | other {m m' : Mem} {f : PageMap} : Built root m f →
      (∀ p a, p.length ≤ 2 → m.node root p = some a → m'.page a = m.page a ∧ a ∉ m'.freelist) →
      m'.freelist.Nodup → (∀ a ∈ m'.freelist, Page a) → Built root m' f

/-! ## The simulation -/

variable {m m' : Mem} {root va pa perm : U64} {f : PageMap} {ts : List U64}

theorem decode_mapped (hpa : pa.toNat % 4096 = 0) (hperm : perm.toNat < 1024) :
    decode (mapped pa perm) = some (pa, perm ||| PTE_V) := by
  unfold decode
  rw [if_pos valid_mapped, PTE2PA_mapped hpa hperm, PTE_FLAGS_mapped hperm]

/-- The page table at `root` consists of the pages `ts`, and its entries are
those of the map `f`. -/
structure Represents (m : Mem) (root : U64) (ts : List U64) (f : PageMap) : Prop where
  table : Pagetable m root ts
  held : Held m ts
  entry : ∀ va, decode (m.pte root va) = f (vpn va)

theorem lookup_eq (hva : va < MAXVA) :
    lookup root va m = .ok (decode (m.pte root va), m) := by
  unfold lookup
  refine (Vm.bind_ok (walk_find hva)).trans ?_
  cases ha : m.node root (vpath 2 va) with
  | none =>
    rw [Mem.pte_of_none ha, decode_zero]
    rfl
  | some a =>
    rw [Mem.pte_eq ha]
    show (if m.page a (PX 0 va) &&& PTE_V = 0 then _ else _ : Vm _) m = _
    unfold decode
    by_cases hvalid : Valid (m.page a (PX 0 va))
    · rw [if_neg hvalid, if_pos hvalid]
      rfl
    · rw [if_pos (not_not.1 hvalid), if_neg hvalid]
      rfl

theorem toNat_pageAt_mod (k : Nat) : (pageAt k).toNat % 4096 = 0 := by
  unfold pageAt
  rw [BitVec.toNat_mul, show PGSIZE.toNat = 4096 from rfl]
  omega

theorem aligned_add_pageAt (hpa : pa.toNat % 4096 = 0) (k : Nat) :
    (pa + pageAt k).toNat % 4096 = 0 := by
  have hk := toNat_pageAt_mod k
  rw [BitVec.toNat_add]
  omega

theorem decode_mapRange {v n : Nat} (hentry : ∀ va, decode (m.pte root va) = f (vpn va))
    (hpa : pa.toNat % 4096 = 0) (hperm : perm.toNat < 1024) (vb : U64) :
    decode (mapRange (m.pte root) v pa perm n vb) = f.map v n pa perm (vpn vb) := by
  unfold mapRange PageMap.map
  split
  · exact decode_mapped (aligned_add_pageAt hpa _) hperm
  · exact hentry vb

theorem lookup_pageAt {k : Nat} (h : Represents m root ts f) (hk : k < 2 ^ 26) :
    lookup root (pageAt k) m = .ok (f k, m) := by
  rw [lookup_eq (pageAt_lt_MAXVA hk), h.entry, vpn_pageAt (by omega)]

/-- Where a call of `mappages` starts and ends. -/
theorem MapCall.range {size : U64} (hcall : MapCall f va size pa perm) :
    va = pageAt (vpn va) ∧ vpn va + pages size ≤ 2 ^ 26 := by
  have hbound := hcall.bound
  have haligned := hcall.aligned
  rw [MAXVA_toNat] at hbound
  have hvpn : vpn va = va.toNat / 4096 := by
    unfold vpn
    omega
  constructor
  · rw [hvpn]
    exact eq_pageAt haligned
  · rw [hvpn]
    unfold pages
    omega

theorem Represents.map {size : U64} (h : Represents m root ts f)
    (hcall : MapCall f va size pa perm) :
    ∃ r m' n ts', mappages root va size pa perm m = .ok (r, m') ∧
      Represents m' root ts' (f.map (vpn va) n pa perm) ∧
      (r = some () ∧ n = pages size ∨ r = none ∧ n < pages size ∧ m'.freelist = []) := by
  obtain ⟨hva, hrange⟩ := hcall.range
  have hbound := hcall.bound
  rw [MAXVA_toNat] at hbound
  have hfree : ∀ k, vpn va ≤ k → k < vpn va + pages size → ¬ Valid (m.pte root (pageAt k)) := by
    intro k hk hk'
    rw [← decode_eq_none, h.entry, vpn_pageAt (by omega)]
    exact hcall.fresh k hk hk'
  obtain ⟨r, m', ts', hrun, hdone⟩ := mappages_spec pa h.held h.table hcall.aligned
    hcall.positive hbound hcall.perm hfree
  obtain ⟨hr, hpte⟩ | ⟨hr, hnil, n, hn, hpte⟩ := hdone.result
  · refine ⟨r, m', pages size, ts', hrun, ⟨hdone.table, h.held.moves hdone.moves, fun vb => ?_⟩,
      .inl ⟨hr, rfl⟩⟩
    rw [hpte, decode_mapRange h.entry hcall.physical hcall.perm_bits]
  · refine ⟨r, m', n, ts', hrun, ⟨hdone.table, h.held.moves hdone.moves, fun vb => ?_⟩,
      .inr ⟨hr, hn, hnil⟩⟩
    rw [hpte, decode_mapRange h.entry hcall.physical hcall.perm_bits]

/-- How far a call of `mappages` got shows in what `walk` finds. -/
theorem Represents.mapped_iff {size : U64} {n : Nat} (hcall : MapCall f va size pa perm)
    (h : Represents m root ts (f.map (vpn va) n pa perm)) {k : Nat} (hk : k < pages size) :
    lookup root (va + pageAt k) m ≠ .ok (none, m) ↔ k < n := by
  obtain ⟨hva, hrange⟩ := hcall.range
  have hsum : va + pageAt k = pageAt (vpn va + k) := by
    rw [← pageAt_add, ← hva]
  rw [hsum, lookup_pageAt h (by omega)]
  unfold PageMap.map
  by_cases hkn : k < n
  · rw [if_pos (by omega)]
    simp [hkn]
  · rw [if_neg (by omega), hcall.fresh _ (by omega) (by omega)]
    simp [hkn]

theorem Represents.other (h : Represents m root ts f)
    (hkeep : ∀ p a, p.length ≤ 2 → m.node root p = some a →
      m'.page a = m.page a ∧ a ∉ m'.freelist)
    (hnodup : m'.freelist.Nodup) (hpage : ∀ a ∈ m'.freelist, Page a) :
    Represents m' root ts f := by
  have hts : ∀ a ∈ ts, m'.page a = m.page a ∧ a ∉ m'.freelist := by
    intro a ha
    obtain ⟨p, hp, hnode⟩ := (h.table.mem a).1 ha
    exact hkeep p a hp hnode
  obtain ⟨htable, hpte⟩ := h.table.frame fun a ha => (hts a ha).1
  refine ⟨htable, ⟨List.nodup_append.2 ⟨hnodup, h.table.nodup, ?_⟩, ?_⟩, fun va => ?_⟩
  · intro a ha b hb hab
    exact (hts b hb).2 (hab ▸ ha)
  · intro a ha
    exact (List.mem_append.1 ha).elim (hpage a) (h.table.page a)
  · rw [hpte, h.entry]

/-- The pages that `uvmunmap` frees are the caller's. -/
theorem UnmapCall.held {n : Nat} {doFree : Bool} (h : Represents m root ts f)
    (hcall : UnmapCall m root f va n doFree) (hrange : vpn va + n ≤ 2 ^ 26) :
    Held m (m.givenBack root doFree (vpages (vpn va) n) ++ ts) := by
  cases doFree with
  | false => exact h.held
  | true =>
    have hentry : ∀ k < n, ∃ r, f (vpn va + k) = some r ∧
        PTE2PA (m.pte root (pageAt (vpn va + k))) = r.1 := by
      intro k hk
      have hdecode := h.entry (pageAt (vpn va + k))
      rw [vpn_pageAt (by omega)] at hdecode
      have hvalid : Valid (m.pte root (pageAt (vpn va + k))) := by
        by_contra hnot
        rw [decode_eq_none.2 hnot] at hdecode
        exact hcall.mapped (vpn va + k) (by omega) (by omega) hdecode.symm
      exact ⟨_, hdecode.symm.trans (decode_eq_some hvalid), rfl⟩
    have hmem : ∀ a ∈ m.givenBack root true (vpages (vpn va) n), Page a ∧ a ∉ m.freelist ∧
        a ∉ ts := by
      intro a ha
      obtain ⟨w, hw, rfl⟩ := List.mem_map.1 ha
      obtain ⟨j, hj, rfl⟩ := List.mem_map.1 hw
      rw [List.mem_range'_1] at hj
      obtain ⟨r, hr, hpa⟩ := hentry (j - vpn va) (by omega)
      rw [Nat.add_sub_cancel' hj.1] at hr hpa
      have hpage := hcall.page rfl (j - vpn va) (by omega) r
        (by rw [Nat.add_sub_cancel' hj.1]; exact hr)
      rw [hpa]
      refine ⟨hpage.1, hpage.2.1, fun hts => ?_⟩
      obtain ⟨p, hp, hnode⟩ := (h.table.mem _).1 hts
      exact hpage.2.2 p hp hnode
    have hnodup : (m.givenBack root true (vpages (vpn va) n)).Nodup := by
      show (((List.range' (vpn va) n).map pageAt).map fun w => PTE2PA (m.pte root w)).Nodup
      rw [List.map_map]
      refine List.Nodup.map_on (fun i hi j hj hij => ?_) List.nodup_range'
      rw [List.mem_range'_1] at hi hj
      obtain ⟨r, hr, hpr⟩ := hentry (i - vpn va) (by omega)
      obtain ⟨s, hs, hps⟩ := hentry (j - vpn va) (by omega)
      have hsame := hcall.apart rfl _ (by omega) _ (by omega) r s hr hs
      rw [Nat.add_sub_cancel' hi.1] at hpr
      rw [Nat.add_sub_cancel' hj.1] at hps
      have := hsame (hpr.symm.trans (hij.trans hps))
      omega
    constructor
    · refine List.nodup_append.2 ⟨h.held.apart.nodup_free, List.nodup_append.2 ⟨hnodup,
        h.table.nodup, fun a ha b hb hab => (hmem a ha).2.2 (hab ▸ hb)⟩, ?_⟩
      intro a ha b hb hab
      rcases List.mem_append.1 hb with hb | hb
      · exact (hmem b hb).2.1 (hab ▸ ha)
      · exact h.held.apart.not_mem hb (hab ▸ ha)
    · intro a ha
      rcases List.mem_append.1 ha with ha | ha
      · exact h.held.page a (List.mem_append_left ts ha)
      · rcases List.mem_append.1 ha with ha | ha
        · exact (hmem a ha).1
        · exact h.table.page a ha

theorem Represents.unmap {n : Nat} {doFree : Bool} (h : Represents m root ts f)
    (hcall : UnmapCall m root f va n doFree) :
    ∃ m', uvmunmap root va (BitVec.ofNat 64 n) doFree m = .ok ((), m') ∧
      Represents m' root ts (f.unmap (vpn va) n) := by
  have hbound := hcall.bound
  have haligned := hcall.aligned
  rw [MAXVA_toNat] at hbound
  have hlow : va.toNat < 2 ^ 38 := MAXVA_toNat ▸ BitVec.lt_def.1 hcall.below
  have hvpn : vpn va = va.toNat / 4096 := by
    unfold vpn
    omega
  have hrange : vpn va + n ≤ 2 ^ 26 := by omega
  have hva : va = pageAt (vpn va) := hvpn ▸ eq_pageAt haligned
  have hvalid : ∀ k, vpn va ≤ k → k < vpn va + n → Valid (m.pte root (pageAt k)) := by
    intro k hk hk'
    by_contra hnot
    rw [← decode_eq_none, h.entry, vpn_pageAt (by omega)] at hnot
    exact hcall.mapped k hk hk' hnot
  have hheld := hcall.held h hrange
  obtain ⟨m', hrun, htable, hmoves, hpte⟩ := uvmunmap_spec doFree hrange hheld h.table hvalid
  rw [← hva] at hrun
  refine ⟨m', hrun, htable, (hheld.moves hmoves), fun vb => ?_⟩
  rw [hpte]
  unfold PageMap.unmap
  split
  · exact decode_zero
  · exact h.entry vb

/-- The calls so far are in the page table. -/
theorem Built.represents (h : Built root m f) : ∃ ts, Represents m root ts f := by
  induction h with
  | @create m m' hnodup hpage hrun =>
    have hheld : Held m [] := by
      refine ⟨?_, ?_⟩
      · show (m.freelist ++ []).Nodup
        rw [List.append_nil]
        exact hnodup
      · rw [List.append_nil]
        exact hpage
    obtain ⟨hnone, -⟩ | ⟨r, m₁, hcreate, htable, hpte, hmoves⟩ := uvmcreate_spec hheld
    · rw [hnone] at hrun
      simp at hrun
    · rw [hcreate] at hrun
      obtain ⟨rfl, rfl⟩ : r = root ∧ m₁ = m' := by simpa using hrun
      refine ⟨[r], htable, hheld.moves hmoves, fun va => ?_⟩
      rw [hpte]
      exact decode_zero
  | map _ hcall hrun ih =>
    obtain ⟨ts, ih⟩ := ih
    obtain ⟨r, m₁, n, ts', hmap, hrep, hr⟩ := ih.map hcall
    rw [hrun] at hmap
    obtain ⟨rfl, rfl⟩ : some () = r ∧ _ = m₁ := by simpa using hmap
    obtain ⟨-, rfl⟩ | ⟨hr, -⟩ := hr
    · exact ⟨ts', hrep⟩
    · cases hr
  | mapFail _ hcall hrun hn hfound ih =>
    obtain ⟨ts, ih⟩ := ih
    obtain ⟨r, m₁, k, ts', hmap, hrep, hr⟩ := ih.map hcall
    rw [hrun] at hmap
    obtain ⟨rfl, rfl⟩ : none = r ∧ _ = m₁ := by simpa using hmap
    obtain ⟨hr, -⟩ | ⟨-, hk, -⟩ := hr
    · cases hr
    · -- the pages that are found are those of both maps
      rename_i n _
      have hiff : ∀ j < pages _, (j < k ↔ j < n) := fun j hj =>
        (hrep.mapped_iff hcall hj).symm.trans (hfound j hj)
      obtain rfl : k = n := by
        have h₁ := hiff k hk
        have h₂ := hiff n hn
        omega
      exact ⟨ts', hrep⟩
  | unmap _ hcall hrun ih =>
    obtain ⟨ts, ih⟩ := ih
    obtain ⟨m₁, hunmap, hrep⟩ := ih.unmap hcall
    rw [hrun] at hunmap
    obtain rfl : _ = m₁ := by simpa using hunmap
    exact ⟨ts, hrep⟩
  | other _ hkeep hnodup hpage ih =>
    obtain ⟨ts, ih⟩ := ih
    exact ⟨ts, ih.other hkeep hnodup hpage⟩

/-- A page table refines a finite map: `walk` and `walkaddr` find what was
last mapped and nothing else, no call panics, and each call does to the map
what it is for. -/
theorem pagetable_refines (h : Built root m f) :
    (∀ va, va < MAXVA → lookup root va m = .ok (f (vpn va), m)) ∧
    (∀ va, walkaddr root va m = .ok (f.user va, m)) ∧
    (∀ va size pa perm, MapCall f va size pa perm →
      ∃ r m' n, mappages root va size pa perm m = .ok (r, m') ∧
        Built root m' (f.map (vpn va) n pa perm) ∧
        (r = some () ∧ n = pages size ∨ r = none ∧ n < pages size ∧ m'.freelist = [])) ∧
    (∀ va size pa perm m', MapCall f va size pa perm → pages size = 1 →
      mappages root va size pa perm m = .ok (none, m') → Built root m' f) ∧
    (∀ va n doFree, UnmapCall m root f va n doFree →
      ∃ m', uvmunmap root va (BitVec.ofNat 64 n) doFree m = .ok ((), m') ∧
        Built root m' (f.unmap (vpn va) n)) := by
  obtain ⟨ts, hrep⟩ := h.represents
  have hmap : ∀ va size pa perm, MapCall f va size pa perm →
      ∃ r m' n, mappages root va size pa perm m = .ok (r, m') ∧
        Built root m' (f.map (vpn va) n pa perm) ∧
        (r = some () ∧ n = pages size ∨ r = none ∧ n < pages size ∧ m'.freelist = []) := by
    intro va size pa perm hcall
    obtain ⟨r, m', n, ts', hrun, hrep', hr⟩ := hrep.map hcall
    refine ⟨r, m', n, hrun, ?_, hr⟩
    obtain ⟨rfl, rfl⟩ | ⟨rfl, hn, -⟩ := hr
    · exact h.map hcall hrun
    · exact h.mapFail hcall hrun hn fun k hk => hrep'.mapped_iff hcall hk
  refine ⟨fun va hva => ?_, fun va => ?_, hmap, ?_, ?_⟩
  · rw [lookup_eq hva, hrep.entry]
  · rw [walkaddr_eq]
    unfold Mem.userPage
    rw [hrep.entry]
    rfl
  · intro va size pa perm m' hcall hone hrun
    obtain ⟨r, m₁, n, hrun', hbuilt, hr⟩ := hmap va size pa perm hcall
    rw [hrun] at hrun'
    obtain ⟨rfl, rfl⟩ : none = r ∧ m' = m₁ := by simpa using hrun'
    obtain ⟨hr, -⟩ | ⟨-, hn, -⟩ := hr
    · cases hr
    · obtain rfl : n = 0 := by omega
      have hsame : f.map (vpn va) 0 pa perm = f := by
        funext k
        exact if_neg fun hk => by omega
      rw [hsame] at hbuilt
      exact hbuilt
  · intro va n doFree hcall
    obtain ⟨m', hrun, -⟩ := hrep.unmap hcall
    exact ⟨m', hrun, h.unmap hcall hrun⟩

theorem built_fourFree : ∃ m, Built 0x80023000 m fun _ => none := by
  have hheld := held_fourFree
  refine ⟨_, .create (m := fourFree) ?_ (fun a ha => ?_) (uvmcreate_cons rfl)⟩
  · exact hheld.apart.nodup_free
  · exact hheld.page a (List.mem_append_left [] ha)

theorem pagetable_refines_fourFree : ∃ m, Built 0x80023000 m (fun _ => none) ∧
    ∃ r m' n, mappages 0x80023000 0 PGSIZE 0x80026000 PTE_R m = .ok (r, m') ∧
      Built 0x80023000 m' (PageMap.map (fun _ => none) (vpn 0) n 0x80026000 PTE_R) := by
  obtain ⟨m, hm⟩ := built_fourFree
  have hcall : MapCall (fun _ => none) 0 PGSIZE 0x80026000 PTE_R :=
    ⟨by decide, by decide, by decide, by decide, by decide, by decide, fun _ _ _ => rfl⟩
  obtain ⟨r, m', n, hrun, hbuilt, -⟩ := (pagetable_refines hm).2.2.1 _ _ _ _ hcall
  exact ⟨m, hm, r, m', n, hrun, hbuilt⟩

end Xv6
