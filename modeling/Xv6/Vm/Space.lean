import Xv6.Vm.Map
import Mathlib.Data.List.Perm.Subperm

/-!
# User address spaces

A process maps the pages from 0 up to its size, and the trampoline and the
trapframe at the top.  `uvmalloc` and `uvmdealloc` move the end of the lower
part; the pages they take and give back are accounted for as holdings.
-/

namespace Xv6

variable {m m' : Mem} {root va vb pa perm : U64} {ts own : List U64} {n k : Nat} {top : Nat → U64}

/-! ## The shape of an address space -/

/-- The number of virtual pages below the trapframe. -/
def userPages : Nat := 2 ^ 26 - 2

/-- The page table at `root` consists of the pages `ts` and maps the first
`n` virtual pages; `top` are its entries above. -/
structure Space (m : Mem) (root : U64) (ts : List U64) (n : Nat) (top : Nat → U64) : Prop where
  table : Pagetable m root ts
  fits : n ≤ userPages
  user : ∀ k < n, Valid (m.pte root (pageAt k))
  above : ∀ va, n ≤ vpn va → m.pte root va = top (vpn va)
  hole : ∀ k < userPages, top k = 0

/-- The physical pages of the first `n` virtual pages. -/
def Mem.upages (m : Mem) (root : U64) (n : Nat) : List U64 :=
  (List.range n).map fun k => PTE2PA (m.pte root (pageAt k))

@[simp] theorem length_upages : (m.upages root n).length = n := by
  unfold Mem.upages
  rw [List.length_map, List.length_range]

theorem upages_succ : m.upages root (n + 1) =
    m.upages root n ++ [PTE2PA (m.pte root (pageAt n))] := by
  unfold Mem.upages
  rw [List.range_succ, List.map_append]
  rfl

theorem upages_congr (h : ∀ k < n, m'.pte root (pageAt k) = m.pte root (pageAt k)) :
    m'.upages root n = m.upages root n :=
  List.map_congr_left fun k hk => congrArg PTE2PA (h k (List.mem_range.1 hk))

theorem take_upages (hk : k ≤ n) : (m.upages root n).take k = m.upages root k := by
  unfold Mem.upages
  rw [← List.map_take, List.take_range, Nat.min_eq_left hk]

theorem givenBack_vpages :
    m.givenBack root true (vpages k (n - k)) = (m.upages root n).drop k := by
  show ((List.range' k (n - k)).map pageAt).map _ = _
  unfold Mem.upages
  rw [List.map_map, ← List.map_drop, List.range_eq_range', List.drop_range', Nat.zero_add,
    Nat.mul_one]
  rfl

theorem vpn_lt_of_lt (hva : vpn va < n) (hn : n ≤ userPages) : vpn (pageAt (vpn va)) = vpn va :=
  vpn_pageAt (by unfold userPages at hn; omega)

/-- An entry is that of its page number. -/
theorem pte_pageAt (hva : vpn va < n) (hn : n ≤ userPages) :
    m.pte root va = m.pte root (pageAt (vpn va)) :=
  Mem.pte_vpn (vpn_lt_of_lt hva hn).symm

theorem Space.congr {ts' : List U64} (hs : Space m root ts n top) (htable : Pagetable m' root ts')
    (hpte : ∀ va, m'.pte root va = m.pte root va) : Space m' root ts' n top :=
  ⟨htable, hs.fits, fun k hk => hpte _ ▸ hs.user k hk,
    fun va hva => (hpte va).trans (hs.above va hva), hs.hole⟩

theorem Space.frame (hs : Space m root ts n top) (hout : ∀ b ∈ ts, m'.page b = m.page b) :
    Space m' root ts n top ∧ ∀ va, m'.pte root va = m.pte root va := by
  obtain ⟨htable, hpte⟩ := hs.table.frame hout
  exact ⟨hs.congr htable hpte, hpte⟩

theorem Space.empty (htable : Pagetable m root ts) (hpte : ∀ va, m.pte root va = 0) :
    Space m root ts 0 fun _ => 0 :=
  ⟨htable, Nat.zero_le _, fun k hk => absurd hk (Nat.not_lt_zero k), fun va _ => hpte va,
    fun _ _ => rfl⟩

/-! ## Physical memory is small -/

theorem PHYSTOP_toNat : PHYSTOP.toNat = 0x88000000 := by decide

/-- All pages of the allocator together are fewer than the virtual pages of
an address space. -/
theorem Held.length_le (hh : Held m own) : own.length ≤ 32768 := by
  have hpage : ∀ a ∈ own, 0x80000 ≤ a.toNat / 4096 ∧ a.toNat / 4096 < 0x88000 ∧
      a.toNat % 4096 = 0 := by
    intro a ha
    obtain ⟨haligned, hlow, hhigh⟩ := hh.of_mem ha
    rw [BitVec.le_def, show kernelEnd.toNat = 0x80022750 from rfl] at hlow
    rw [BitVec.lt_def, PHYSTOP_toNat] at hhigh
    omega
  have hnodup : (own.map fun a => a.toNat / 4096 - 0x80000).Nodup := by
    refine hh.apart.nodup_own.map_on fun a ha b hb hab => BitVec.eq_of_toNat_eq ?_
    have := hpage a ha
    have := hpage b hb
    omega
  have hsub : (own.map fun a => a.toNat / 4096 - 0x80000) ⊆ List.range 32768 := by
    intro k hk
    obtain ⟨a, ha, rfl⟩ := List.mem_map.1 hk
    have := hpage a ha
    rw [List.mem_range]
    omega
  have hle := (List.subperm_of_subset hnodup hsub).length_le
  rwa [List.length_map, List.length_range] at hle

/-- A memory in which the first `n` pages of the allocator are free. -/
def firstFree (n : Nat) : Mem where
  page _ _ := 0
  freelist := (List.range n).map fun k => pageAt (0x80023 + k)

theorem held_firstFree (hn : n ≤ 32733) : Held (firstFree n) [] := by
  have htoNat : ∀ k < n, (pageAt (0x80023 + k)).toNat = 4096 * (0x80023 + k) := fun k hk =>
    pageAt_toNat (by omega)
  constructor
  · show ((List.range n).map _ ++ []).Nodup
    rw [List.append_nil]
    refine List.nodup_range.map_on fun j hj k hk hjk => ?_
    rw [List.mem_range] at hj hk
    have := congrArg BitVec.toNat hjk
    rw [htoNat j hj, htoNat k hk] at this
    omega
  · rw [List.append_nil]
    intro a ha
    obtain ⟨k, hk, rfl⟩ := List.mem_map.1 ha
    rw [List.mem_range] at hk
    refine ⟨?_, ?_, ?_⟩
    · rw [htoNat k hk]
      omega
    · rw [BitVec.le_def, htoNat k hk, show kernelEnd.toNat = 0x80022750 from rfl]
      omega
    · rw [BitVec.lt_def, htoNat k hk, PHYSTOP_toNat]
      omega

/-! ## Adding and removing pages -/

/-- One more page at the end. -/
theorem Space.push {ts' : List U64} (hs : Space m root ts n top) (hn : n < userPages)
    (htable : Pagetable m' root ts')
    (hpte : ∀ vb, m'.pte root vb = if vpn vb = n then mapped pa perm else m.pte root vb)
    (hpa : pa.toNat % 4096 = 0) (hperm : perm.toNat < 1024) :
    Space m' root ts' (n + 1) top ∧ m'.upages root (n + 1) = m.upages root n ++ [pa] := by
  have hvpn : ∀ k, k ≤ n → vpn (pageAt k) = k := fun k hk =>
    vpn_pageAt (by unfold userPages at hn; omega)
  have hnew : m'.pte root (pageAt n) = mapped pa perm := by
    rw [hpte, if_pos (hvpn n (Nat.le_refl n))]
  have hold : ∀ k < n, m'.pte root (pageAt k) = m.pte root (pageAt k) := by
    intro k hk
    rw [hpte, hvpn k (Nat.le_of_lt hk), if_neg (Nat.ne_of_lt hk)]
  refine ⟨⟨htable, hn, fun k hk => ?_, fun va hva => ?_, hs.hole⟩, ?_⟩
  · rcases Nat.lt_succ_iff_lt_or_eq.1 hk with hk | rfl
    · rw [hold k hk]
      exact hs.user k hk
    · rw [hnew]
      exact valid_mapped
  · rw [hpte, if_neg (by omega)]
    exact hs.above va (by omega)
  · rw [upages_succ, hnew, PTE2PA_mapped hpa hperm, upages_congr hold]

/-- The pages from number `k` on, unmapped and freed. -/
theorem Space.pop (hs : Space m root ts n top) (hk : k ≤ n)
    (hh : Held m ((m.upages root n).drop k ++ ts)) :
    ∃ m', uvmunmap root (pageAt k) (BitVec.ofNat 64 (n - k)) true m = .ok ((), m') ∧
      Space m' root ts k top ∧ m.Moves m' ((m.upages root n).drop k ++ ts) ts ∧
      ∀ va, vpn va < k → m'.pte root va = m.pte root va := by
  have hn := hs.fits
  have hn' : n ≤ 2 ^ 26 - 2 := hs.fits
  rw [← givenBack_vpages] at hh
  obtain ⟨m', hrun, htable, hmoves, hpte⟩ := uvmunmap_spec true (by omega) hh hs.table
    fun j hj hj' => hs.user j (by omega)
  rw [givenBack_vpages] at hmoves
  have hkeep : ∀ va, vpn va < k → m'.pte root va = m.pte root va := by
    intro va hva
    rw [hpte, if_neg (by omega)]
  refine ⟨m', hrun, ⟨htable, by omega, fun j hj => ?_, fun va hva => ?_, hs.hole⟩, hmoves, hkeep⟩
  · rw [hkeep _ (by rw [vpn_pageAt (by omega)]; exact hj)]
    exact hs.user j (by omega)
  · rw [hpte]
    by_cases hin : vpn va < n
    · rw [if_pos (by omega), hs.hole _ (by omega)]
    · rw [if_neg (by omega)]
      exact hs.above va (by omega)

/-- A page mapped above the user's pages. -/
theorem Space.mapTop {ts' : List U64} {v : Nat} (hs : Space m root ts n top)
    (hv : userPages ≤ v) (htable : Pagetable m' root ts')
    (hpte : ∀ vb, m'.pte root vb = if vpn vb = v then perm else m.pte root vb) :
    Space m' root ts' n (Function.update top v perm) ∧
      m'.upages root n = m.upages root n := by
  have hfits := hs.fits
  have huser : ∀ k < n, m'.pte root (pageAt k) = m.pte root (pageAt k) := by
    intro k hk
    have hvpn : vpn (pageAt k) = k := vpn_pageAt (by unfold userPages at hfits; omega)
    rw [hpte, hvpn, if_neg (by omega)]
  refine ⟨⟨htable, hfits, fun k hk => huser k hk ▸ hs.user k hk, fun va hva => ?_, fun k hk => ?_⟩,
    upages_congr huser⟩
  · rw [hpte]
    by_cases heq : vpn va = v
    · rw [if_pos heq, heq, Function.update_self]
    · rw [if_neg heq, Function.update_of_ne heq, hs.above va hva]
  · rw [Function.update_of_ne (by omega)]
    exact hs.hole k hk

/-- A page above the user's pages, unmapped but not freed. -/
theorem Space.unmapTop (v : Nat) (hs : Space m root ts n top) (hv : userPages ≤ v)
    (hv' : v < 2 ^ 26) (hvalid : Valid (top v)) (hh : Held m ts) :
    ∃ m', uvmunmap root (pageAt v) 1 false m = .ok ((), m') ∧
      Space m' root ts n (Function.update top v 0) ∧ m.Moves m' ts ts ∧
      m'.upages root n = m.upages root n := by
  have hfits := hs.fits
  have hvpn : vpn (pageAt v) = v := vpn_pageAt (by omega)
  have hold : ∀ k, v ≤ k → k < v + 1 → Valid (m.pte root (pageAt k)) := by
    intro k hk hk'
    obtain rfl : k = v := by omega
    rw [hs.above _ (by omega), hvpn]
    exact hvalid
  obtain ⟨m', hrun, htable, hmoves, hpte⟩ := uvmunmap_spec false (by omega) hh hs.table hold
  have hpte' : ∀ vb, m'.pte root vb = if vpn vb = v then 0 else m.pte root vb := by
    intro vb
    rw [hpte]
    by_cases heq : vpn vb = v
    · rw [if_pos heq, if_pos (by omega)]
    · rw [if_neg heq, if_neg (by omega)]
  obtain ⟨hs', hupages⟩ := hs.mapTop hv htable hpte'
  exact ⟨m', hrun, hs', hmoves, hupages⟩

/-! ## Growing and shrinking -/

theorem PGROUNDUP_eq {sz : U64} (hsz : sz.toNat ≤ 2 ^ 64 - 4096) :
    PGROUNDUP sz = pageAt (pages sz) := by
  have hsum : (sz + PGSIZE - 1).toNat = sz.toNat + 4095 := by
    rw [BitVec.toNat_sub, BitVec.toNat_add]
    show (2 ^ 64 - 1 + (sz.toNat + 4096) % 2 ^ 64) % 2 ^ 64 = _
    omega
  apply BitVec.eq_of_toNat_eq
  rw [pageAt_toNat (by unfold pages; omega)]
  show ((sz + PGSIZE - 1) &&& ~~~(4095 : U64)).toNat = _
  rw [toNat_and_not_mask, hsum, Nat.mul_comm]
  rfl

theorem pages_le {sz : U64} (hn : pages sz ≤ userPages) : sz.toNat ≤ 2 ^ 64 - 4096 := by
  unfold pages userPages at hn
  omega

theorem pages_mono {a b : U64} (h : a.toNat ≤ b.toNat) : pages a ≤ pages b :=
  Nat.div_le_div_right (Nat.add_le_add_right h 4095)

theorem uvmdealloc_spec {oldsz newsz : U64} (hs : Space m root ts n top) (hold : pages oldsz = n)
    (hlt : newsz < oldsz) (hh : Held m ((m.upages root n).drop (pages newsz) ++ ts)) :
    ∃ m', uvmdealloc root oldsz newsz m = .ok (newsz, m') ∧
      Space m' root ts (pages newsz) top ∧
      m.Moves m' ((m.upages root n).drop (pages newsz) ++ ts) ts ∧
      ∀ va, vpn va < pages newsz → m'.pte root va = m.pte root va := by
  have hlt' : newsz.toNat < oldsz.toNat := BitVec.lt_def.1 hlt
  have hn : pages oldsz ≤ userPages := hold ▸ hs.fits
  have hle : pages newsz ≤ n := hold ▸ pages_mono (Nat.le_of_lt hlt')
  have hup : PGROUNDUP oldsz = pageAt n := hold ▸ PGROUNDUP_eq (pages_le hn)
  have hup' : PGROUNDUP newsz = pageAt (pages newsz) :=
    PGROUNDUP_eq (Nat.le_trans (Nat.le_of_lt hlt') (pages_le hn))
  have hn' : n ≤ 2 ^ 26 - 2 := hs.fits
  unfold uvmdealloc
  rw [if_neg (BitVec.not_le.2 hlt), hup, hup']
  by_cases hless : pages newsz < n
  · have hcond : pageAt (pages newsz) < pageAt n := by
      rw [BitVec.lt_def, pageAt_toNat (by omega), pageAt_toNat (by omega)]
      omega
    have hcount : (((pageAt n - pageAt (pages newsz)) / PGSIZE).setWidth 32).signExtend 64 =
        BitVec.ofNat 64 (n - pages newsz) := by
      have hdiv : (pageAt n - pageAt (pages newsz)) / PGSIZE =
          BitVec.ofNat 64 (n - pages newsz) := by
        apply BitVec.eq_of_toNat_eq
        rw [BitVec.toNat_udiv, BitVec.toNat_sub, pageAt_toNat (by omega), pageAt_toNat (by omega),
          BitVec.toNat_ofNat, show PGSIZE.toNat = 4096 from rfl]
        omega
      have hmsb : ((BitVec.ofNat 64 (n - pages newsz)).setWidth 32).msb = false := by
        rw [BitVec.msb_eq_false_iff_two_mul_lt, BitVec.toNat_setWidth, BitVec.toNat_ofNat]
        omega
      rw [hdiv, BitVec.signExtend_eq_setWidth_of_msb_false hmsb]
      apply BitVec.eq_of_toNat_eq
      rw [BitVec.toNat_setWidth, BitVec.toNat_setWidth, BitVec.toNat_ofNat]
      omega
    obtain ⟨m', hrun, hs', hmoves, hkeep⟩ := hs.pop hle hh
    refine ⟨m', ?_, hs', hmoves, hkeep⟩
    rw [if_pos hcond, hcount]
    exact Vm.bind_ok hrun
  · obtain rfl : pages newsz = n := by omega
    rw [if_neg (BitVec.lt_irrefl _)]
    have hnone : (m.upages root (pages newsz)).drop (pages newsz) = [] :=
      List.drop_of_length_le (Nat.le_of_eq length_upages)
    refine ⟨m, rfl, hs, ?_, fun va _ => rfl⟩
    rw [hnone]
    exact .refl

/-- `uvmdealloc` as `uvmalloc` undoes its work. -/
theorem uvmdealloc_back (hs : Space m root ts n top) (hk : k ≤ n)
    (hh : Held m ((m.upages root n).drop k ++ ts)) :
    ∃ sz m', uvmdealloc root (pageAt n) (pageAt k) m = .ok (sz, m') ∧ Space m' root ts k top ∧
      m.Moves m' ((m.upages root n).drop k ++ ts) ts ∧
      ∀ va, vpn va < k → m'.pte root va = m.pte root va := by
  have hn : n ≤ 2 ^ 26 - 2 := hs.fits
  have hpages : pages (pageAt k) = k := pages_pageAt (by omega)
  by_cases hlt : k < n
  · have hless : pageAt k < pageAt n := by
      rw [BitVec.lt_def, pageAt_toNat (by omega), pageAt_toNat (by omega)]
      omega
    obtain ⟨m', hrun, hs', hmoves, hkeep⟩ := uvmdealloc_spec hs (pages_pageAt (by omega)) hless
      (hpages.symm ▸ hh)
    rw [hpages] at hs' hmoves hkeep
    exact ⟨_, m', hrun, hs', hmoves, hkeep⟩
  · obtain rfl : k = n := by omega
    have hnone : (m.upages root k).drop k = [] :=
      List.drop_of_length_le (Nat.le_of_eq length_upages)
    refine ⟨pageAt k, m, ?_, hs, ?_, fun va _ => rfl⟩
    · unfold uvmdealloc
      rw [if_pos (BitVec.le_refl _)]
      rfl
    · rw [hnone]
      exact .refl

theorem vpages_succ (v j : Nat) : vpages v (j + 1) = pageAt v :: vpages (v + 1) j := rfl

/-- The flags of the pages that `uvmalloc` adds. -/
def allocPerm (xperm : U64) : U64 := PTE_R ||| PTE_U ||| xperm

theorem leaf_allocPerm (xperm : U64) : Leaf (allocPerm xperm) := by
  intro hzero
  unfold allocPerm at hzero
  rw [BitVec.and_or_distrib_right] at hzero
  exact absurd (BitVec.or_eq_zero_iff.1 hzero).1 (by decide)

theorem allocPerm_lt {xperm : U64} (hx : xperm.toNat < 1024) : (allocPerm xperm).toNat < 1024 := by
  unfold allocPerm
  rw [BitVec.toNat_or]
  exact Nat.or_lt_two_pow (n := 10) (by decide) hx

/-- Pages have been added to an address space, from number `n` to `n'`. -/
structure Added (m m' : Mem) (root : U64) (ts' : List U64) (n n' : Nat) (top : Nat → U64)
    (perm : U64) : Prop where
  space : Space m' root ts' n' top
  kept : ∀ va, vpn va < n → m'.pte root va = m.pte root va
  flags : ∀ k, n ≤ k → k < n' → PTE_FLAGS (m'.pte root (pageAt k)) = perm ||| PTE_V

/-- The pages that were there before are still there. -/
theorem Added.take_upages {ts' : List U64} {n' : Nat} (hadded : Added m m' root ts' n n' top perm)
    (hle : n ≤ n') : (m'.upages root n').take n = m.upages root n := by
  have hfits : n' ≤ 2 ^ 26 - 2 := hadded.space.fits
  rw [Xv6.take_upages hle]
  refine upages_congr fun k hk => hadded.kept _ ?_
  rw [vpn_pageAt (by omega)]
  exact hk

/-- The holdings of the user pages, too. -/
theorem Added.moves {ts' : List U64} {n' : Nat} (hadded : Added m m' root ts' n n' top perm)
    (hle : n ≤ n') (hmoves : m.Moves m' ts ((m'.upages root n').drop n ++ ts')) :
    m.Moves m' (m.upages root n ++ ts) (m'.upages root n' ++ ts') := by
  have hperm : (m'.upages root n' ++ ts').Perm
      ((m'.upages root n').drop n ++ ts' ++ m.upages root n) := by
    have hsplit : m'.upages root n' = m.upages root n ++ (m'.upages root n').drop n := by
      rw [← hadded.take_upages hle, List.take_append_drop]
    have hall : m'.upages root n' ++ ts' =
        m.upages root n ++ ((m'.upages root n').drop n ++ ts') := by
      rw [← List.append_assoc, ← hsplit]
    rw [hall]
    exact List.perm_append_comm
  exact (hmoves.extend (m.upages root n)).congr List.perm_append_comm hperm

/-- The first part of a round of `uvmalloc` or `uvmcopy`: it takes a page and
fills it. -/
theorem alloc_page {r : U64} {next : List U64} (ws : Fin 512 → U64) (hs : Space m root ts n top)
    (hh : Held m (own ++ ts)) (hr : m.freelist = r :: next) :
    Page r ∧ Space ((m.taken r next).setPage r ws) root ts n top ∧
      (∀ va, ((m.taken r next).setPage r ws).pte root va = m.pte root va) ∧
      m.Moves ((m.taken r next).setPage r ws) (own ++ ts) (r :: (own ++ ts)) := by
  have hmem : r ∈ m.freelist := hr ▸ List.mem_cons_self
  have hout : ∀ b ∈ ts, ((m.taken r next).setPage r ws).page b = m.page b := by
    intro b hb
    have hne : b ≠ r := fun hbr =>
      hh.apart.not_mem (List.mem_append_right own hb) (hbr ▸ hmem)
    show (if b = r then _ else if b = r then _ else m.page b) = _
    rw [if_neg hne, if_neg hne]
  obtain ⟨hs', hpte⟩ := hs.frame hout
  exact ⟨hh.page r (List.mem_append_left _ hmem), hs', hpte,
    (moves_taken hr).trans (moves_setPage List.mem_cons_self)⟩

/-- The second part: it maps the page, or gives it back. -/
theorem alloc_round {r : U64} {next : List U64} (ws : Fin 512 → U64) (hs : Space m root ts n top)
    (hn : n < userPages) (hperm : perm.toNat < 1024) (hleaf : Leaf perm) (hh : Held m (own ++ ts))
    (hr : m.freelist = r :: next) :
    ∃ res m₂ ts₂, mappages root (pageAt n) PGSIZE r perm ((m.taken r next).setPage r ws) =
        .ok (res, m₂) ∧ Page r ∧
      (res = some () ∧ Added m m₂ root ts₂ n (n + 1) top perm ∧
          m₂.upages root (n + 1) = m.upages root n ++ [r] ∧ m₂.page r = ws ∧
          m.Moves m₂ (own ++ ts) (own ++ [r] ++ ts₂) ∨
        res = none ∧ Space (m₂.freed r) root ts₂ n top ∧
          (∀ va, (m₂.freed r).pte root va = m.pte root va) ∧
          m.Moves (m₂.freed r) (own ++ ts) (own ++ ts₂)) := by
  obtain ⟨hpage, hs₁, hpte₁, hmoves₁⟩ := alloc_page ws hs hh hr
  have hh₁ := hh.moves hmoves₁
  have hn' : n < 2 ^ 26 - 2 := hn
  have hfree : ¬ Valid (((m.taken r next).setPage r ws).pte root (pageAt n)) := by
    rw [hpte₁, hs.above _ (by rw [vpn_pageAt (by omega)]), vpn_pageAt (by omega), hs.hole n hn]
    exact not_valid_zero
  obtain ⟨res, m₂, ts₂, hrun, htable₂, hmoves₂, -, hres⟩ := mapPage_spec r
    (hh₁.sublist ((List.sublist_append_right own ts).trans (List.sublist_cons_self r _)))
    hs₁.table (by omega) hleaf hfree
  have hmoves : m.Moves m₂ (own ++ ts) (r :: (own ++ ts₂)) := by
    refine hmoves₁.trans ((hmoves₂.extend (r :: own)).congr ?_ ?_)
    · show ((r :: own) ++ ts).Perm (ts ++ (r :: own))
      exact List.perm_append_comm
    · show ((r :: own) ++ ts₂).Perm (ts₂ ++ (r :: own))
      exact List.perm_append_comm
  refine ⟨res, m₂, ts₂, hrun, hpage, ?_⟩
  obtain ⟨hsome, hpte₂⟩ | ⟨hnone, -, hpte₂⟩ := hres
  · left
    have hpte : ∀ vb, m₂.pte root vb =
        if vpn vb = n then mapped r perm else m.pte root vb := by
      intro vb
      rw [hpte₂, hpte₁]
    obtain ⟨hs₂, hupages⟩ := hs.push hn htable₂ hpte hpage.1 hperm
    refine ⟨hsome, ⟨hs₂, fun va hva => ?_, fun k hk hk' => ?_⟩, hupages, ?_, ?_⟩
    · rw [hpte, if_neg (by omega)]
    · obtain rfl : k = n := by omega
      rw [hpte, vpn_pageAt (by omega), if_pos rfl, PTE_FLAGS_mapped hperm]
    · have hheld : r ∉ own ++ ts := (List.nodup_cons.1 hh₁.apart.nodup_own).1
      rw [hmoves₂.frame r (hh₁.apart.not_mem List.mem_cons_self)
        fun hts => hheld (List.mem_append_right own hts)]
      exact if_pos rfl
    · refine hmoves.congr .rfl ?_
      rw [List.append_assoc, List.singleton_append]
      exact List.perm_middle
  · right
    have hs₂ := hs.congr htable₂ fun va => (hpte₂ va).trans (hpte₁ va)
    have hout : ∀ b ∈ ts₂, (m₂.freed r).page b = m₂.page b := by
      intro b hb
      have hnot : r ∉ own ++ ts₂ := (List.nodup_cons.1 (hh.moves hmoves).apart.nodup_own).1
      exact if_neg fun (hbr : b = r) => hnot (hbr ▸ List.mem_append_right own hb)
    obtain ⟨hs₃, hpte₃⟩ := hs₂.frame hout
    exact ⟨hnone, hs₃, fun va => by rw [hpte₃, hpte₂, hpte₁], hmoves.trans moves_freed⟩

theorem uvmallocLoop_spec {n₀ : Nat} {xperm : U64} (newsz : U64) (hn₀ : n₀ ≤ 32768)
    (hx : xperm.toNat < 1024) (j : Nat) : ∀ {m : Mem} {ts : List U64} {n : Nat}, n₀ ≤ n →
    Space m root ts n top → Held m ((m.upages root n).drop n₀ ++ ts) →
    ∃ r m' ts', uvmallocLoop root (pageAt n₀) newsz xperm (vpages n j) m = .ok (r, m') ∧
      (r = some newsz ∧ Added m m' root ts' n (n + j) top (allocPerm xperm) ∧
          m.Moves m' ((m.upages root n).drop n₀ ++ ts) ((m'.upages root (n + j)).drop n₀ ++ ts') ∨
        r = none ∧ Added m m' root ts' n₀ n₀ top (allocPerm xperm) ∧
          m.Moves m' ((m.upages root n).drop n₀ ++ ts) ts') := by
  induction j with
  | zero =>
    intro m ts n hn hs hh
    exact ⟨_, m, ts, rfl, .inl ⟨rfl, ⟨hs, fun _ _ => rfl, fun k hk hk' => by omega⟩, .refl⟩⟩
  | succ j ih =>
    intro m ts n hn hs hh
    have hbound : n ≤ 65536 := by
      have := hh.length_le
      rw [List.length_append, List.length_drop, length_upages] at this
      omega
    have hroom : n < userPages := by
      unfold userPages
      omega
    rw [vpages_succ]
    unfold uvmallocLoop
    cases hfree : m.freelist with
    | nil =>
      obtain ⟨sz, m', hrun, hs', hmoves, hkeep⟩ := uvmdealloc_back hs hn hh
      refine ⟨none, m', ts, ?_, .inr ⟨rfl, ⟨hs', hkeep, fun k hk hk' => by omega⟩, hmoves⟩⟩
      exact (Vm.bind_ok (kalloc_nil hfree)).trans (Vm.bind_ok hrun)
    | cons r next =>
      obtain ⟨res, m₂, ts₂, hrun, hpage, hres⟩ := alloc_round (fun _ => 0) hs hroom
        (allocPerm_lt hx) (leaf_allocPerm xperm) hh hfree
      obtain ⟨rfl, hadded, hupages, -, hmoves⟩ | ⟨rfl, hs₃, hpte₃, hmoves⟩ := hres
      · have hdrop : (m₂.upages root (n + 1)).drop n₀ = (m.upages root n).drop n₀ ++ [r] := by
          rw [hupages, List.drop_append_of_le_length (by rw [length_upages]; exact hn)]
        rw [← hdrop] at hmoves
        obtain ⟨ret, m', ts', hloop, hret⟩ := ih (Nat.le_succ_of_le hn) hadded.space
          (hh.moves hmoves)
        refine ⟨ret, m', ts', ?_, ?_⟩
        · refine (Vm.bind_ok (kalloc_cons hfree)).trans ?_
          refine (Vm.bind_ok memsetPage_zero).trans ?_
          exact (Vm.bind_ok hrun).trans hloop
        rw [show n + (j + 1) = n + 1 + j by omega]
        obtain ⟨hr, hadd, hmoves'⟩ | ⟨hr, hadd, hmoves'⟩ := hret
        · refine .inl ⟨hr, ⟨hadd.space, fun va hva => ?_, fun k hk hk' => ?_⟩,
            hmoves.trans hmoves'⟩
          · rw [hadd.kept va (by omega), hadded.kept va hva]
          · rcases Nat.lt_or_ge n k with hlt | hge
            · exact hadd.flags k hlt hk'
            · obtain rfl : k = n := by omega
              have hvpn : vpn (pageAt k) < k + 1 := by
                rw [vpn_pageAt (by omega)]
                omega
              rw [hadd.kept _ hvpn, hadded.flags k hk (by omega)]
        · refine .inr ⟨hr, ⟨hadd.space, fun va hva => ?_, hadd.flags⟩, hmoves.trans hmoves'⟩
          rw [hadd.kept va hva, hadded.kept va (by omega)]
      · have hupages : (m₂.freed r).upages root n = m.upages root n :=
          upages_congr fun k _ => hpte₃ _
        have hh₃ := hh.moves hmoves
        rw [← hupages] at hmoves hh₃
        obtain ⟨sz, m', hback, hs', hmoves', hkeep⟩ := uvmdealloc_back hs₃ hn hh₃
        refine ⟨none, m', ts₂, ?_, .inr ⟨rfl, ⟨hs', fun va hva => ?_,
          fun k hk hk' => by omega⟩, ?_⟩⟩
        · refine (Vm.bind_ok (kalloc_cons hfree)).trans ?_
          refine (Vm.bind_ok memsetPage_zero).trans ?_
          refine (Vm.bind_ok hrun).trans ?_
          exact (Vm.bind_ok (kfree_ok hpage)).trans (Vm.bind_ok hback)
        · rw [hkeep va hva, hpte₃]
        · rw [hupages] at hmoves hmoves'
          exact hmoves.trans hmoves'

/-- `uvmalloc`: nothing to do, or the pages are there, or there are not enough
and the address space is as before. -/
theorem uvmalloc_spec {oldsz : U64} (newsz xperm : U64) (hs : Space m root ts n top) (hn : n ≤ 32768)
    (hold : pages oldsz = n) (hx : xperm.toNat < 1024) (hh : Held m ts) :
    ∃ r m' ts', uvmalloc root oldsz newsz xperm m = .ok (r, m') ∧
      (newsz < oldsz ∧ r = some oldsz ∧ m' = m ∧ ts' = ts ∨
        oldsz ≤ newsz ∧ r = some newsz ∧ Added m m' root ts' n (pages newsz) top (allocPerm xperm) ∧
          m.Moves m' ts ((m'.upages root (pages newsz)).drop n ++ ts') ∨
        r = none ∧ Added m m' root ts' n n top (allocPerm xperm) ∧ m.Moves m' ts ts') := by
  unfold uvmalloc
  by_cases hlt : newsz < oldsz
  · rw [if_pos hlt]
    exact ⟨some oldsz, m, ts, rfl, .inl ⟨hlt, rfl, rfl, rfl⟩⟩
  · have hle : oldsz ≤ newsz := BitVec.not_lt.1 hlt
    have hmono : n ≤ pages newsz := hold ▸ pages_mono (BitVec.le_def.1 hle)
    have hup : PGROUNDUP oldsz = pageAt n := hold ▸ PGROUNDUP_eq (pages_le (hold ▸ hs.fits))
    have hnone : (m.upages root n).drop n = [] :=
      List.drop_of_length_le (Nat.le_of_eq length_upages)
    have hlist : pagesBelow (PGROUNDUP oldsz) newsz = vpages n (pages newsz - n) := by
      rw [hup]
      exact pagesBelow_pageAt newsz (by omega)
    rw [if_neg hlt, hlist, hup]
    obtain ⟨r, m', ts', hrun, hr⟩ := uvmallocLoop_spec newsz hn hx (pages newsz - n)
      (Nat.le_refl n) hs (by rw [hnone]; exact hh)
    rw [hnone, Nat.add_sub_cancel' hmono] at hr
    refine ⟨r, m', ts', hrun, .inr ?_⟩
    obtain ⟨rfl, hadded, hmoves⟩ | ⟨rfl, hadded, hmoves⟩ := hr
    · exact .inl ⟨hle, rfl, hadded, hmoves⟩
    · exact .inr ⟨rfl, hadded, hmoves⟩

end Xv6
