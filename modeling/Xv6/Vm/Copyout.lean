import Xv6.Vm.Space
import Xv6.Vm.Bytes
import Xv6.Vm.Strings

/-!
# Writing user memory

`copyout` writes the bytes of a range up to the first page that is not a
user's, and `userStore` writes one byte.  Neither touches a page that the
address space does not map.
-/

namespace Xv6

variable {m m' : Mem} {root va : U64} {ts own : List U64} {n : Nat} {top : Nat → U64}

/-! ## User pages -/

theorem vpn_PGROUNDDOWN (va : U64) : vpn (PGROUNDDOWN va) = vpn va := by
  unfold vpn
  rw [toNat_PGROUNDDOWN]
  omega

theorem PGROUNDDOWN_lt_MAXVA : PGROUNDDOWN va < MAXVA ↔ va < MAXVA := by
  rw [BitVec.lt_def, BitVec.lt_def, toNat_PGROUNDDOWN, MAXVA_toNat]
  omega

theorem userPage_PGROUNDDOWN : m.userPage root (PGROUNDDOWN va) = m.userPage root va := by
  unfold Mem.userPage
  rw [Mem.pte_vpn (vpn_PGROUNDDOWN va)]
  simp only [PGROUNDDOWN_lt_MAXVA]

theorem userByte_eq : userByte m root va =
    (m.userPage root va).map fun pa => m.byte pa (va.toNat % 4096) := by
  unfold userByte
  rw [walkaddr_eq, userPage_PGROUNDDOWN]
  cases m.userPage root va <;> rfl

theorem userPage_congr (h : ∀ va, m'.pte root va = m.pte root va) (va : U64) :
    m'.userPage root va = m.userPage root va := by
  unfold Mem.userPage
  rw [h]

/-- No entry above the user's pages is for the user. -/
def NoUser (top : Nat → U64) : Prop := ∀ k, top k &&& PTE_U = 0

theorem noUser_zero : NoUser fun _ => 0 := fun _ => BitVec.zero_and

/-- What a user reaches is one of the pages of the address space. -/
theorem Space.userPage_eq_some {pa : U64} (hs : Space m root ts n top) (htop : NoUser top)
    (h : m.userPage root va = some pa) :
    va < MAXVA ∧ vpn va < n ∧ pa = PTE2PA (m.pte root (pageAt (vpn va))) := by
  unfold Mem.userPage at h
  by_cases hva : va < MAXVA
  · rw [if_pos hva] at h
    unfold decode at h
    by_cases hvalid : Valid (m.pte root va)
    · rw [if_pos hvalid] at h
      have h : (if PTE_FLAGS (m.pte root va) &&& PTE_U = 0 ∨ PTE2PA (m.pte root va) = 0 then none
        else some (PTE2PA (m.pte root va))) = some pa := h
      rw [and_PTE_FLAGS _ _ (by decide)] at h
      by_cases huser : m.pte root va &&& PTE_U = 0 ∨ PTE2PA (m.pte root va) = 0
      · rw [if_pos huser] at h
        cases h
      · rw [if_neg huser] at h
        have hlt : vpn va < n := by
          refine Nat.lt_of_not_le fun hle => huser (.inl ?_)
          rw [hs.above va hle]
          exact htop _
        rw [pte_pageAt hlt hs.fits] at h
        exact ⟨hva, hlt, (Option.some.inj h).symm⟩
    · rw [if_neg hvalid] at h
      cases h
  · rw [if_neg hva] at h
    cases h

theorem mem_upages {k : Nat} (hk : k < n) : PTE2PA (m.pte root (pageAt k)) ∈ m.upages root n :=
  List.mem_map.2 ⟨k, List.mem_range.2 hk, rfl⟩

/-- The pages of an address space are all different. -/
theorem upages_inj {j k : Nat} (hnodup : (m.upages root n).Nodup) (hj : j < n) (hk : k < n)
    (h : PTE2PA (m.pte root (pageAt j)) = PTE2PA (m.pte root (pageAt k))) : j = k :=
  List.inj_on_of_nodup_map hnodup (List.mem_range.2 hj) (List.mem_range.2 hk) h

/-- The pages that the user reaches are not part of the page table, and those
of different virtual pages are different. -/
structure UserPages (m : Mem) (root : U64) : Prop where
  distinct : ∀ va vb pa, m.userPage root va = some pa → m.userPage root vb = some pa →
    vpn va = vpn vb
  outside : ∀ va pa, m.userPage root va = some pa → ¬ Radix.IsNode pteChild m.page root 2 pa

theorem Space.userPages (hs : Space m root ts n top) (htop : NoUser top)
    (hh : Held m (m.upages root n ++ ts)) : UserPages m root := by
  obtain ⟨hnodup, -, happart⟩ := List.nodup_append.1 hh.apart.nodup_own
  constructor
  · intro va vb pa hva hvb
    obtain ⟨-, hlt, heq⟩ := hs.userPage_eq_some htop hva
    obtain ⟨-, hlt', heq'⟩ := hs.userPage_eq_some htop hvb
    exact upages_inj hnodup hlt hlt' (heq.symm.trans heq')
  · intro va pa hva hnode
    obtain ⟨-, hlt, rfl⟩ := hs.userPage_eq_some htop hva
    exact happart _ (mem_upages hlt) _ ((hs.table.mem _).2 hnode) rfl

/-! ## Writes that keep the address space -/

/-- `m'` comes from `m` by writes to the pages `us`. -/
structure Wrote (m m' : Mem) (us : List U64) : Prop where
  free : m'.freelist = m.freelist
  other : ∀ a, a ∉ us → m'.page a = m.page a

theorem Wrote.refl {us : List U64} : Wrote m m us := ⟨rfl, fun _ _ => rfl⟩

theorem Wrote.trans {m'' : Mem} {us : List U64} (h : Wrote m m' us) (h' : Wrote m' m'' us) :
    Wrote m m'' us :=
  ⟨h'.free.trans h.free, fun a ha => (h'.other a ha).trans (h.other a ha)⟩

theorem Wrote.moves {us : List U64} (h : Wrote m m' us) (hsub : ∀ a ∈ us, a ∈ own) :
    m.Moves m' own own where
  perm := h.free ▸ .rfl
  frame a _ ha := h.other a fun hus => ha (hsub a hus)

theorem Stored.wrote {pa : U64} {off : Nat} {bs : List (BitVec 8)} {us : List U64}
    (h : Stored m m' pa off bs) (hpa : pa ∈ us) : Wrote m m' us :=
  ⟨h.free, fun a ha => h.other a fun hap => ha (hap ▸ hpa)⟩

/-- Writes to the pages of an address space keep it. -/
theorem Space.wrote (hs : Space m root ts n top) (hh : Held m (m.upages root n ++ ts))
    (hw : Wrote m m' (m.upages root n)) :
    Space m' root ts n top ∧ (∀ va, m'.pte root va = m.pte root va) ∧
      m'.upages root n = m.upages root n ∧ Held m' (m'.upages root n ++ ts) := by
  have hout : ∀ b ∈ ts, m'.page b = m.page b := fun b hb => hw.other b fun hmem =>
    (List.nodup_append.1 hh.apart.nodup_own).2.2 b hmem b hb rfl
  obtain ⟨hs', hpte⟩ := hs.frame hout
  have hup : m'.upages root n = m.upages root n := upages_congr fun k _ => hpte _
  refine ⟨hs', hpte, hup, ?_⟩
  rw [hup]
  exact hh.moves (hw.moves fun a ha => List.mem_append_left ts ha)

/-- `m'` comes from `m` by writes to pages that the user at `root` reaches. -/
structure UserWrote (m m' : Mem) (root : U64) : Prop where
  free : m'.freelist = m.freelist
  other : ∀ a, (∀ va, m.userPage root va ≠ some a) → m'.page a = m.page a

theorem UserWrote.refl : UserWrote m m root := ⟨rfl, fun _ _ => rfl⟩

theorem UserPages.pte (hu : UserPages m root) (hw : UserWrote m m' root) (va : U64) :
    m'.pte root va = m.pte root va := by
  have hsame : ∀ q a, q.length < 3 → m.node root q = some a → ∀ i, m'.page a i = m.page a i := by
    intro q a hq ha i
    rw [hw.other a fun vb hvb => hu.outside vb a hvb ⟨q, by omega, ha⟩]
  have hnode : m'.node root (vpath 2 va) = m.node root (vpath 2 va) :=
    Radix.node_congr (Nat.le_of_eq (vpath_length 2 va))
      fun q a hq => hsame q a (Nat.lt_succ_of_lt hq)
  cases ha : m.node root (vpath 2 va) with
  | none => rw [Mem.pte_of_none ha, Mem.pte_of_none (hnode.trans ha)]
  | some a =>
    rw [Mem.pte_eq ha, Mem.pte_eq (hnode.trans ha),
      hsame _ a (by rw [vpath_length]; omega) ha]

theorem UserPages.wrote (hu : UserPages m root) (hw : UserWrote m m' root) :
    UserPages m' root := by
  have hpage := userPage_congr (hu.pte hw)
  constructor
  · intro va vb pa hva hvb
    exact hu.distinct va vb pa (hpage va ▸ hva) (hpage vb ▸ hvb)
  · intro va pa hva hnode
    refine hu.outside va pa (hpage va ▸ hva) ((Radix.isNode_congr fun q a hq ha i => ?_).1 hnode)
    rw [hw.other a fun vb hvb => hu.outside vb a hvb ⟨q, Nat.le_of_lt hq, ha⟩]

theorem UserWrote.trans {m'' : Mem} (hu : UserPages m root) (hw : UserWrote m m' root)
    (hw' : UserWrote m' m'' root) : UserWrote m m'' root := by
  refine ⟨hw'.free.trans hw.free, fun a ha => ?_⟩
  rw [hw'.other a fun va hva => ha va (userPage_congr (hu.pte hw) va ▸ hva), hw.other a ha]

theorem Stored.userWrote {pa : U64} {off : Nat} {bs : List (BitVec 8)}
    (h : Stored m m' pa off bs) (hpa : m.userPage root va = some pa) : UserWrote m m' root :=
  ⟨h.free, fun a ha => h.other a fun hap => ha va (hap ▸ hpa)⟩

/-! ## `copyout` -/

/-- The bytes that `copyout` can write at `dstva` before it meets a page that
is not a user's. -/
def Reaches (m : Mem) (root dstva : U64) (i : Nat) : Prop :=
  ∀ j ≤ i, m.userPage root (dstva + BitVec.ofNat 64 j) ≠ none

theorem userPage_lt (h : m.userPage root va ≠ none) : va.toNat < 2 ^ 38 := by
  unfold Mem.userPage at h
  by_cases hva : va < MAXVA
  · rw [BitVec.lt_def, MAXVA_toNat] at hva
    exact hva
  · rw [if_neg hva] at h
    exact absurd rfl h

/-- A range that is reached does not wrap. -/
theorem Reaches.lt {dstva : U64} {i : Nat} (h : Reaches m root dstva i) :
    dstva.toNat + i < 2 ^ 38 := by
  induction i with
  | zero =>
    have h0 := userPage_lt (h 0 (Nat.le_refl 0))
    rw [BitVec.toNat_add, BitVec.toNat_ofNat] at h0
    omega
  | succ i ih =>
    have hprev := ih fun j hj => h j (Nat.le_succ_of_le hj)
    have hlast := userPage_lt (h (i + 1) (Nat.le_refl _))
    rw [BitVec.toNat_add, BitVec.toNat_ofNat] at hlast
    omega

/-- What `copyout` leaves, whatever the page table. -/
structure CopiedTo (m m' : Mem) (root dstva : U64) (src : List (BitVec 8)) (r : Option Unit) :
    Prop where
  pages : UserWrote m m' root
  result : r = some () ↔ ∀ i < src.length, Reaches m root dstva i
  wrote : ∀ i (h : i < src.length), Reaches m root dstva i →
    userByte m' root (dstva + BitVec.ofNat 64 i) = some src[i]
  kept : ∀ va, (∀ i < src.length, Reaches m root dstva i → va ≠ dstva + BitVec.ofNat 64 i) →
    userByte m' root va = userByte m root va

/-- What `copyout` leaves of the `n` pages of an address space. -/
structure CopiedOut (m m' : Mem) (root : U64) (n : Nat) (dstva : U64) (src : List (BitVec 8))
    (r : Option Unit) : Prop where
  pages : Wrote m m' (m.upages root n)
  result : r = some () ↔ ∀ i < src.length, Reaches m root dstva i
  wrote : ∀ i (h : i < src.length), Reaches m root dstva i →
    userByte m' root (dstva + BitVec.ofNat 64 i) = some src[i]
  kept : ∀ va, (∀ i < src.length, Reaches m root dstva i → va ≠ dstva + BitVec.ofNat 64 i) →
    userByte m' root va = userByte m root va

section round

variable {dstva pa : U64} {src : List (BitVec 8)} {c : Nat}

/-- The addresses of one chunk are on one page. -/
theorem userPage_add {i : Nat} (hi : dstva.toNat % 4096 + i < 4096) :
    m.userPage root (dstva + BitVec.ofNat 64 i) = m.userPage root dstva := by
  rw [← userPage_PGROUNDDOWN, PGROUNDDOWN_add hi, userPage_PGROUNDDOWN]

theorem userByte_stored (hu : UserPages m root) (hpa : m.userPage root dstva = some pa)
    (hc : dstva.toNat % 4096 + c ≤ 4096) (hlen : c ≤ src.length)
    (hst : Stored m m' pa (dstva.toNat % 4096) (src.take c)) :
    (∀ i (h : i < src.length), i < c →
      userByte m' root (dstva + BitVec.ofNat 64 i) = some src[i]) ∧
    ∀ va, (∀ i < c, va ≠ dstva + BitVec.ofNat 64 i) →
      userByte m' root va = userByte m root va := by
  have hpage := userPage_congr (hu.pte (hst.userWrote hpa))
  have htake : (src.take c).length = c := by
    rw [List.length_take]
    omega
  constructor
  · intro i hi hic
    rw [userByte_eq, hpage, userPage_add (by omega), hpa, mod_add (by omega)]
    show some (m'.byte pa (dstva.toNat % 4096 + i)) = _
    rw [hst.bytes i (by omega), List.getElem_take]
  · intro va hva
    rw [userByte_eq, userByte_eq, hpage]
    cases hq : m.userPage root va with
    | none => rfl
    | some qa =>
      show some (m'.byte qa _) = some (m.byte qa _)
      by_cases hqa : qa = pa
      · -- the same page, but outside the chunk
        have hva' := userPage_lt (fun hnone => Option.some_ne_none qa (hq.symm.trans hnone))
        have hdst := userPage_lt (fun hnone => Option.some_ne_none pa (hpa.symm.trans hnone))
        have hsame : vpn va = vpn dstva := hu.distinct va dstva pa (hqa ▸ hq) hpa
        rw [vpn_eq_iff_div (by omega) (by omega)] at hsame
        rw [hqa, hst.rest _ (Nat.mod_lt _ (by decide))]
        by_contra hin
        refine hva (va.toNat % 4096 - dstva.toNat % 4096) (by omega) ?_
        apply BitVec.eq_of_toNat_eq
        rw [BitVec.toNat_add, BitVec.toNat_ofNat]
        omega
      · unfold Mem.byte
        rw [hst.other qa hqa]

theorem copyoutLoop_cons {fuel : Nat} {b : BitVec 8} {bs : List (BitVec 8)} {m₁ : Mem}
    (hpa : m.userPage root dstva = some pa)
    (hst : storeBytes pa (dstva.toNat % 4096)
      ((b :: bs).take (min (4096 - dstva.toNat % 4096) (b :: bs).length)) m = .ok ((), m₁)) :
    copyoutLoop root (fuel + 1) dstva (b :: bs) m =
      copyoutLoop root fuel (PGROUNDDOWN dstva + PGSIZE)
        ((b :: bs).drop (min (4096 - dstva.toNat % 4096) (b :: bs).length)) m₁ := by
  have hwalk : walkaddr root (PGROUNDDOWN dstva) m = .ok (some pa, m) := by
    rw [walkaddr_eq, userPage_PGROUNDDOWN, hpa]
  rw [← toNat_PGSIZE_sub, ← toNat_sub_PGROUNDDOWN] at hst
  rw [← toNat_PGSIZE_sub]
  conv => lhs; unfold copyoutLoop
  refine (Vm.bind_ok hwalk).trans ?_
  exact Vm.bind_ok hst

theorem copyoutLoop_none {fuel : Nat} {b : BitVec 8} {bs : List (BitVec 8)}
    (hpa : m.userPage root dstva = none) :
    copyoutLoop root (fuel + 1) dstva (b :: bs) m = .ok (none, m) := by
  have hwalk : walkaddr root (PGROUNDDOWN dstva) m = .ok (none, m) := by
    rw [walkaddr_eq, userPage_PGROUNDDOWN, hpa]
  unfold copyoutLoop
  exact Vm.bind_ok hwalk

theorem copyoutLoop_nil {fuel : Nat} : copyoutLoop root fuel dstva [] m = .ok (some (), m) := by
  cases fuel <;> rfl

end round

/-- After the first chunk, what is reached is the chunk and what the rest of
the loop reaches. -/
theorem reaches_iff {dstva : U64} {c i : Nat} (hc : c = 4096 - dstva.toNat % 4096)
    (hpte : ∀ va, m'.pte root va = m.pte root va) (hpa : m.userPage root dstva ≠ none)
    (hi : c ≤ i) :
    Reaches m root dstva i ↔ Reaches m' root (PGROUNDDOWN dstva + PGSIZE) (i - c) := by
  have hpage := userPage_congr hpte
  have hshift : ∀ k, PGROUNDDOWN dstva + PGSIZE + BitVec.ofNat 64 k =
      dstva + BitVec.ofNat 64 (c + k) := by
    intro k
    rw [PGROUNDDOWN_add_PGSIZE, BitVec.add_assoc, ← BitVec.ofNat_add, ← hc]
  constructor
  · intro h j hj
    rw [hshift, hpage]
    exact h (c + j) (by omega)
  · intro h j hj
    rcases Nat.lt_or_ge j c with hlt | hge
    · rw [userPage_add (by omega)]
      exact hpa
    · have := h (j - c) (by omega)
      rw [hshift, hpage, Nat.add_sub_cancel' hge] at this
      exact this

theorem copyoutLoop_spec (fuel : Nat) : ∀ {m : Mem} (dstva : U64) {src : List (BitVec 8)},
    src.length ≤ fuel → UserPages m root →
    ∃ r m', copyoutLoop root fuel dstva src m = .ok (r, m') ∧
      CopiedTo m m' root dstva src r := by
  induction fuel with
  | zero =>
    intro m dstva src hsrc hu
    obtain rfl := List.length_eq_zero_iff.1 (Nat.le_zero.1 hsrc)
    exact ⟨some (), m, copyoutLoop_nil, .refl, ⟨fun _ i hi => absurd hi (Nat.not_lt_zero i),
      fun _ => rfl⟩, fun i hi => absurd hi (Nat.not_lt_zero i), fun _ _ => rfl⟩
  | succ fuel ih =>
    intro m dstva src hsrc hu
    cases src with
    | nil =>
      exact ⟨some (), m, copyoutLoop_nil, .refl, ⟨fun _ i hi => absurd hi (Nat.not_lt_zero i),
        fun _ => rfl⟩, fun i hi => absurd hi (Nat.not_lt_zero i), fun _ _ => rfl⟩
    | cons b bs =>
      have hzero : dstva + BitVec.ofNat 64 0 = dstva := BitVec.add_zero dstva
      cases hpa : m.userPage root dstva with
      | none =>
        have hnot : ∀ i, ¬ Reaches m root dstva i := fun i h => by
          have := h 0 (Nat.zero_le i)
          rw [hzero] at this
          exact this hpa
        exact ⟨none, m, copyoutLoop_none hpa, .refl, ⟨fun h => by simp at h,
          fun h => absurd (h 0 (Nat.succ_pos _)) (hnot 0)⟩, fun i _ h => absurd h (hnot i),
          fun _ _ => rfl⟩
      | some pa =>
        have hmapped : m.userPage root dstva ≠ none := by
          rw [hpa]
          exact Option.some_ne_none pa
        obtain ⟨c, hc⟩ : ∃ c, c = min (4096 - dstva.toNat % 4096) (b :: bs).length := ⟨_, rfl⟩
        have hpos : 0 < (b :: bs).length := Nat.succ_pos _
        have hlen : c ≤ (b :: bs).length := by omega
        have hoff : dstva.toNat % 4096 + c ≤ 4096 := by omega
        obtain ⟨m₁, hstore, hst⟩ := storeBytes_spec pa (dstva.toNat % 4096) ((b :: bs).take c) m
          (by rw [List.length_take]; omega)
        obtain ⟨hnew, hold⟩ := userByte_stored hu hpa hoff hlen hst
        have hwrote : UserWrote m m₁ root := hst.userWrote hpa
        have hpte₁ := hu.pte hwrote
        have hdrop : ((b :: bs).drop c).length ≤ fuel := by
          rw [List.length_drop]
          omega
        obtain ⟨r, m', hrun, hdone⟩ := ih (PGROUNDDOWN dstva + PGSIZE) hdrop (hu.wrote hwrote)
        have hfirst : ∀ i < c, Reaches m root dstva i := by
          intro i hi j hj
          rw [userPage_add (by omega)]
          exact hmapped
        have hlater : ∀ i, c ≤ i → i < (b :: bs).length →
            (Reaches m root dstva i ↔ Reaches m₁ root (PGROUNDDOWN dstva + PGSIZE) (i - c)) :=
          fun i hi hi' => reaches_iff (by omega) hpte₁ hmapped hi
        have hshift : ∀ i, c ≤ i → i < (b :: bs).length →
            PGROUNDDOWN dstva + PGSIZE + BitVec.ofNat 64 (i - c) = dstva + BitVec.ofNat 64 i := by
          intro i hi hi'
          have hfull : c = 4096 - dstva.toNat % 4096 := by omega
          rw [PGROUNDDOWN_add_PGSIZE, BitVec.add_assoc, ← BitVec.ofNat_add, ← hfull,
            Nat.add_sub_cancel' hi]
        refine ⟨r, m', ?_, ?_, ?_, fun i hi hreach => ?_, fun va hva => ?_⟩
        · rw [hc] at hstore hrun
          exact (copyoutLoop_cons hpa hstore).trans hrun
        · exact hwrote.trans hu hdone.pages
        · rw [hdone.result, List.length_drop]
          constructor
          · intro h i hi
            rcases Nat.lt_or_ge i c with hlt | hge
            · exact hfirst i hlt
            · exact (hlater i hge hi).2 (h (i - c) (by omega))
          · intro h i hi
            have := (hlater (c + i) (by omega) (by omega)).1 (h (c + i) (by omega))
            rwa [Nat.add_sub_cancel_left] at this
        · rcases Nat.lt_or_ge i c with hlt | hge
          · rw [hdone.kept _ fun j hj hrest heq => ?_]
            · exact hnew i hi hlt
            · rw [List.length_drop] at hj
              have hr := (hlater (c + j) (by omega) (by omega)).2
                (by rw [Nat.add_sub_cancel_left]; exact hrest)
              have hs' := hshift (c + j) (by omega) (by omega)
              rw [Nat.add_sub_cancel_left] at hs'
              have hbound := hr.lt
              rw [hs'] at heq
              have := congrArg BitVec.toNat heq
              rw [BitVec.toNat_add, BitVec.toNat_add, BitVec.toNat_ofNat, BitVec.toNat_ofNat] at this
              omega
          · have hreach' := (hlater i hge hi).1 hreach
            have hlt : i - c < ((b :: bs).drop c).length := by
              rw [List.length_drop]
              omega
            have := hdone.wrote (i - c) hlt hreach'
            rw [hshift i hge hi, List.getElem_drop] at this
            simp only [Nat.add_sub_cancel' hge] at this
            exact this
        · rw [hdone.kept va fun j hj hreach heq => ?_]
          · exact hold va fun i hi heq => hva i (by omega) (hfirst i hi) heq
          · rw [List.length_drop] at hj
            have hr := (hlater (c + j) (by omega) (by omega)).2
              (by rw [Nat.add_sub_cancel_left]; exact hreach)
            refine hva (c + j) (by omega) hr ?_
            rw [heq, ← hshift (c + j) (by omega) (by omega), Nat.add_sub_cancel_left]

theorem copyout_copiedTo (hu : UserPages m root) (dstva : U64) (src : List (BitVec 8)) :
    ∃ r m', copyout root dstva src m = .ok (r, m') ∧ CopiedTo m m' root dstva src r :=
  copyoutLoop_spec src.length dstva (Nat.le_refl _) hu

theorem copyout_spec (hs : Space m root ts n top) (htop : NoUser top)
    (hh : Held m (m.upages root n ++ ts)) (dstva : U64) (src : List (BitVec 8)) :
    ∃ r m', copyout root dstva src m = .ok (r, m') ∧ CopiedOut m m' root n dstva src r := by
  obtain ⟨r, m', hrun, hdone⟩ := copyout_copiedTo (hs.userPages htop hh) dstva src
  refine ⟨r, m', hrun, ⟨hdone.pages.free, fun a ha => ?_⟩, hdone.result, hdone.wrote, hdone.kept⟩
  refine hdone.pages.other a fun va hva => ?_
  obtain ⟨-, hlt, rfl⟩ := hs.userPage_eq_some htop hva
  exact ha (mem_upages hlt)

/-! ## Stores of user code -/

theorem userStore_spec (hs : Space m root ts n top) (htop : NoUser top) (va : U64)
    (b : BitVec 8) :
    ∃ r m', userStore root va b m = .ok (r, m') ∧ Wrote m m' (m.upages root n) := by
  unfold userStore
  by_cases hva : va < MAXVA
  · rw [if_neg (BitVec.not_le.2 hva)]
    cases ha : m.node root (vpath 2 va) with
    | none =>
      have hwalk : walk root va false m = .ok (none, m) := by
        rw [walk_find hva, ha]
        rfl
      exact ⟨none, m, Vm.bind_ok hwalk, .refl⟩
    | some a =>
      have hwalk : walk root va false m = .ok (some (a, PX 0 va), m) := by
        rw [walk_find hva, ha]
        rfl
      by_cases hpte : m.page a (PX 0 va) &&& PTE_V = 0 ∨ m.page a (PX 0 va) &&& PTE_U = 0 ∨
          m.page a (PX 0 va) &&& PTE_W = 0
      · refine ⟨none, m, (Vm.bind_ok hwalk).trans ?_, .refl⟩
        show (if m.page a (PX 0 va) &&& PTE_V = 0 ∨ m.page a (PX 0 va) &&& PTE_U = 0 ∨
          m.page a (PX 0 va) &&& PTE_W = 0 then _ else _ : Vm _) m = _
        rw [if_pos hpte]
        rfl
      · refine ⟨some (), m.setByte (PTE2PA (m.page a (PX 0 va))) (va % PGSIZE).toNat b,
          (Vm.bind_ok hwalk).trans ?_, freelist_setByte, fun c hc => page_setByte fun hcp => ?_⟩
        · show (if m.page a (PX 0 va) &&& PTE_V = 0 ∨ m.page a (PX 0 va) &&& PTE_U = 0 ∨
            m.page a (PX 0 va) &&& PTE_W = 0 then _ else _ : Vm _) m = _
          rw [if_neg hpte]
          rfl
        · rw [not_or, not_or] at hpte
          have hvpn : vpn va < n := by
            refine Nat.lt_of_not_le fun hle => hpte.2.1 ?_
            rw [← Mem.pte_eq ha, hs.above va hle]
            exact htop _
          rw [← Mem.pte_eq ha, pte_pageAt hvpn hs.fits] at hcp
          exact hc (hcp ▸ mem_upages hvpn)
  · rw [if_pos (BitVec.not_lt.1 hva)]
    exact ⟨none, m, rfl, .refl⟩

/-! ## Pages that the process may not write -/

/-- `copyout` leaves the pages alone that the process may not write, and fails
when it comes to one, exactly when every page that it comes to is writable:
it never looks at `PTE_W`. -/
theorem copyout_respects_PTE_W_iff (hs : Space m root ts n top) (htop : NoUser top)
    (hh : Held m (m.upages root n ++ ts)) (dstva : U64) (len : Nat) :
    (∀ src : List (BitVec 8), src.length = len → ∃ r m', copyout root dstva src m = .ok (r, m') ∧
      (∀ va, m.pte root va &&& PTE_W = 0 → userByte m' root va = userByte m root va) ∧
      ((∃ i < len, Reaches m root dstva i ∧
        m.pte root (dstva + BitVec.ofNat 64 i) &&& PTE_W = 0) → r = none)) ↔
    ∀ i < len, Reaches m root dstva i →
      m.pte root (dstva + BitVec.ofNat 64 i) &&& PTE_W ≠ 0 := by
  constructor
  · intro h i hi hreach hzero
    -- every byte is to change
    let src := (List.range len).map fun k =>
      (userByte m root (dstva + BitVec.ofNat 64 k)).getD 0 + 1
    have hlen : src.length = len := by
      rw [List.length_map, List.length_range]
    obtain ⟨r, m', hrun, hkept, -⟩ := h src hlen
    obtain ⟨r', m'', hrun', hdone⟩ := copyout_spec hs htop hh dstva src
    rw [hrun] at hrun'
    obtain ⟨rfl, rfl⟩ : r = r' ∧ m' = m'' := by simpa using hrun'
    have hsame := hkept _ hzero
    rw [hdone.wrote i (by rw [hlen]; exact hi) hreach] at hsame
    have hnew : src.get ⟨i, hlen ▸ hi⟩ =
        (userByte m root (dstva + BitVec.ofNat 64 i)).getD 0 + 1 := by
      rw [List.get_eq_getElem, List.getElem_map, List.getElem_range]
    have hold : (userByte m root (dstva + BitVec.ofNat 64 i)).getD 0 =
        src.get ⟨i, hlen ▸ hi⟩ := by
      rw [← hsame]
      rfl
    have hne : ∀ b : BitVec 8, b + 1 ≠ b := by decide
    rw [hold] at hnew
    exact hne _ hnew.symm
  · intro h src hlen
    obtain ⟨r, m', hrun, hdone⟩ := copyout_spec hs htop hh dstva src
    refine ⟨r, m', hrun, fun va hva => hdone.kept va fun i hi hreach heq => ?_, ?_⟩
    · exact h i (hlen ▸ hi) hreach (heq ▸ hva)
    · rintro ⟨i, hi, hreach, hzero⟩
      exact absurd hzero (h i hi hreach)

/-- The address space of a program whose text is one page, as `exec` builds
it: the page is not writable. -/
def textSpace : Vm (Option U64) := do
  match ← uvmcreate with
  | none => return none
  | some pagetable => uvmalloc pagetable 0 PGSIZE PTE_X

/-- The first byte of the text and whether the process may write it, a call of
`copyout` there and the byte after it. -/
def textWrite : Vm (Option (BitVec 8) × Bool × Option Unit × Option (BitVec 8)) := do
  let _ ← textSpace
  let m ← get
  let r ← copyout 0x80023000 0 [1]
  return (userByte m 0x80023000 0, m.pte 0x80023000 0 &&& PTE_W ≠ 0, r,
    userByte (← get) 0x80023000 0)

theorem copyout_writes_text :
    (textWrite fourFree).toOption.map (·.1) = some (some 0, false, some (), some 1) := by
  decide +kernel

theorem textSpace_fourFree : ∃ m ts, textSpace fourFree = .ok (some PGSIZE, m) ∧
    Space m 0x80023000 ts 1 (fun _ => 0) ∧ Held m (m.upages 0x80023000 1 ++ ts) := by
  have hnone : pages 0 = 0 := by decide
  have hone : pages PGSIZE = 1 := by decide
  have hresult : (textSpace fourFree).toOption.map (·.1) = some (some PGSIZE) := by
    decide +kernel
  obtain ⟨h, -⟩ | ⟨root, m₁, hcreate, htable, hpte, hmoves⟩ := uvmcreate_spec held_fourFree
  · rw [uvmcreate_cons rfl] at h
    simp at h
  obtain rfl : 0x80023000 = root := by
    rw [uvmcreate_cons rfl] at hcreate
    simp only [Except.ok.injEq, Prod.mk.injEq, Option.some.injEq] at hcreate
    exact hcreate.1
  have hh := held_fourFree.moves hmoves
  obtain ⟨r, m, ts, halloc, hr⟩ := uvmalloc_spec PGSIZE PTE_X
    (Space.empty htable hpte) (Nat.zero_le _) hnone (by decide) hh
  have hrun : textSpace fourFree = .ok (r, m) := (Vm.bind_ok hcreate).trans halloc
  rw [hrun] at hresult
  obtain rfl : r = some PGSIZE := Option.some.inj hresult
  obtain ⟨hlt, -⟩ | ⟨-, -, hadded, hmoves'⟩ | ⟨hr, -⟩ := hr
  · exact absurd hlt (by decide)
  · rw [hone, List.drop_zero] at hmoves'
    rw [hone] at hadded
    exact ⟨m, ts, hrun, hadded.space, hh.moves hmoves'⟩
  · cases hr

theorem copyout_respects_PTE_W_iff_text : ∃ m, textSpace fourFree = .ok (some PGSIZE, m) ∧
    ((∀ src : List (BitVec 8), src.length = 1 → ∃ r m',
        copyout 0x80023000 0 src m = .ok (r, m') ∧
        (∀ va, m.pte 0x80023000 va &&& PTE_W = 0 →
          userByte m' 0x80023000 va = userByte m 0x80023000 va) ∧
        ((∃ i < 1, Reaches m 0x80023000 0 i ∧
          m.pte 0x80023000 (0 + BitVec.ofNat 64 i) &&& PTE_W = 0) → r = none)) ↔
      ∀ i < 1, Reaches m 0x80023000 0 i →
        m.pte 0x80023000 (0 + BitVec.ofNat 64 i) &&& PTE_W ≠ 0) := by
  obtain ⟨m, ts, hrun, hs, hh⟩ := textSpace_fourFree
  exact ⟨m, hrun, copyout_respects_PTE_W_iff hs noUser_zero hh 0 1⟩

end Xv6
