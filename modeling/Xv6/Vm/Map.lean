import Xv6.Vm.Walk

/-!
# Mapping and unmapping pages

`mappages` and `uvmunmap` change the entries of the pages they are given, and
no others.  A `mappages` that runs out of page-table pages has mapped the
pages before.
-/

namespace Xv6

variable {m m' : Mem} {root va vb pa a perm e : U64} {ts : List U64}

/-! ## Storing an entry -/

/-- What only the pages `ts` decide. -/
theorem Pagetable.frame (h : Pagetable m root ts) (hout : ∀ b ∈ ts, m'.page b = m.page b) :
    Pagetable m' root ts ∧ ∀ vb, m'.pte root vb = m.pte root vb := by
  have hsame : ∀ q b, q.length < 3 → m.node root q = some b → ∀ i, m'.page b i = m.page b i := by
    intro q b hq hb i
    rw [hout b ((h.mem b).2 ⟨q, Nat.le_of_lt_succ hq, hb⟩)]
  have habove : ∀ q b, q.length < 2 → m.node root q = some b → ∀ i, m'.page b i = m.page b i :=
    fun q b hq => hsame q b (Nat.lt_succ_of_lt hq)
  have hnode : ∀ q : List (Fin 512), q.length ≤ 2 → m'.node root q = m.node root q :=
    fun q hq => Radix.node_congr hq habove
  refine ⟨⟨h.tree.congr habove, fun b => ?_, h.nodup, h.page, ?_, ?_⟩, fun vb => ?_⟩
  · rw [h.mem, Radix.isNode_congr habove]
  · intro p b i hp hb hvalid
    rw [hnode p (Nat.le_of_lt hp)] at hb
    rw [hsame p b (Nat.lt_succ_of_lt hp) hb] at hvalid ⊢
    exact h.inner p b i hp hb hvalid
  · intro p b i hp hb hvalid
    rw [hnode p (Nat.le_of_eq hp)] at hb
    rw [hsame p b (Nat.lt_succ_of_le (Nat.le_of_eq hp)) hb] at hvalid ⊢
    exact h.leaf p b i hp hb hvalid
  · have hlen : (vpath 2 vb).length = 2 := rfl
    cases hb : m.node root (vpath 2 vb) with
    | none => rw [Mem.pte_of_none hb, Mem.pte_of_none ((hnode _ (Nat.le_of_eq hlen)).trans hb)]
    | some b =>
      rw [Mem.pte_eq hb, Mem.pte_eq ((hnode _ (Nat.le_of_eq hlen)).trans hb)]
      exact hsame _ b (Nat.lt_succ_of_le (Nat.le_of_eq hlen)) hb _

/-- `m'` comes from `m` by a store of `e` into the entry for `va`. -/
theorem Pagetable.store (h : Pagetable m root ts) (ha : m.node root (vpath 2 va) = some a)
    (hleaf : Valid e → Leaf e) :
    Pagetable (m.setWord a (PX 0 va) e) root ts ∧
      ∀ vb, (m.setWord a (PX 0 va) e).pte root vb =
        if vpn vb = vpn va then e else m.pte root vb := by
  have hout : ∀ b, b ≠ a → ∀ i, (m.setWord a (PX 0 va) e).page b i = m.page b i := by
    intro b hba i
    show (if b = a then _ else m.page b : Fin 512 → U64) i = _
    rw [if_neg hba]
  have hin : ∀ i, (m.setWord a (PX 0 va) e).page a i = if i = PX 0 va then e else m.page a i := by
    intro i
    show (if a = a then _ else _ : Fin 512 → U64) i = _
    rw [if_pos rfl]
  have habove := h.tree.above_leaf (m.setWord a (PX 0 va) e).page rfl ha hout
  have hnode : ∀ q : List (Fin 512), q.length ≤ 2 →
      (m.setWord a (PX 0 va) e).node root q = m.node root q :=
    fun q hq => Radix.node_congr hq habove
  refine ⟨⟨h.tree.congr habove, fun b => ?_, h.nodup, h.page, ?_, ?_⟩, fun vb => ?_⟩
  · rw [h.mem, Radix.isNode_congr habove]
  · intro p b i hp hb hvalid
    rw [hnode p (Nat.le_of_lt hp)] at hb
    rw [habove p b hp hb] at hvalid ⊢
    exact h.inner p b i hp hb hvalid
  · intro p b i hp hb hvalid
    rw [hnode p (Nat.le_of_eq hp)] at hb
    by_cases hba : b = a
    · rw [hba, hin] at hvalid ⊢
      by_cases hi : i = PX 0 va
      · rw [if_pos hi] at hvalid ⊢
        exact hleaf hvalid
      · rw [if_neg hi] at hvalid ⊢
        exact h.leaf p a i hp (hba ▸ hb) hvalid
    · rw [hout b hba] at hvalid ⊢
      exact h.leaf p b i hp hb hvalid
  · have hlen : ∀ v, (vpath 2 v).length = 2 := fun _ => rfl
    cases hb : m.node root (vpath 2 vb) with
    | none =>
      have hne : vpn vb ≠ vpn va := by
        intro heq
        rw [(vpn_eq_iff.1 heq).1, ha] at hb
        cases hb
      rw [if_neg hne, Mem.pte_of_none hb, Mem.pte_of_none ((hnode _ (Nat.le_of_eq (hlen vb))).trans hb)]
    | some b =>
      rw [Mem.pte_eq hb, Mem.pte_eq ((hnode _ (Nat.le_of_eq (hlen vb))).trans hb)]
      by_cases hba : b = a
      · have hpath : vpath 2 vb = vpath 2 va :=
          h.tree _ _ a (Nat.le_of_eq (hlen vb)) (Nat.le_of_eq (hlen va)) (hba ▸ hb) ha
        rw [hba, hin]
        by_cases hi : PX 0 vb = PX 0 va
        · rw [if_pos hi, if_pos (vpn_eq_iff.2 ⟨hpath, hi⟩)]
        · rw [if_neg hi, if_neg fun heq => hi (vpn_eq_iff.1 heq).2]
      · rw [hout b hba, if_neg]
        intro heq
        rw [(vpn_eq_iff.1 heq).1, ha] at hb
        exact hba (Option.some.inj hb).symm

/-- The place of a valid entry. -/
theorem node_of_valid (hvalid : Valid (m.pte root va)) :
    ∃ a, m.node root (vpath 2 va) = some a ∧ m.pte root va = m.page a (PX 0 va) := by
  cases ha : m.node root (vpath 2 va) with
  | none =>
    rw [Mem.pte_of_none ha] at hvalid
    exact absurd hvalid not_valid_zero
  | some a => exact ⟨a, rfl, Mem.pte_eq ha⟩

theorem Pagetable.mem_of_path (h : Pagetable m root ts) (ha : m.node root (vpath 2 va) = some a) :
    a ∈ ts := (h.mem a).2 ⟨vpath 2 va, Nat.le_refl 2, ha⟩

/-! ## Page numbers -/

/-- The `k`-th virtual page. -/
def pageAt (k : Nat) : U64 := PGSIZE * BitVec.ofNat 64 k

theorem pageAt_toNat {k : Nat} (hk : k < 2 ^ 52) : (pageAt k).toNat = 4096 * k := by
  unfold pageAt
  rw [BitVec.toNat_mul, BitVec.toNat_ofNat]
  show 4096 * (k % 2 ^ 64) % 2 ^ 64 = 4096 * k
  omega

theorem pageAt_add (j k : Nat) : pageAt j + pageAt k = pageAt (j + k) := by
  apply BitVec.eq_of_toNat_eq
  unfold pageAt
  rw [BitVec.toNat_add, BitVec.toNat_mul, BitVec.toNat_mul, BitVec.toNat_mul, BitVec.toNat_ofNat,
    BitVec.toNat_ofNat, BitVec.toNat_ofNat]
  show (4096 * (j % 2 ^ 64) % 2 ^ 64 + 4096 * (k % 2 ^ 64) % 2 ^ 64) % 2 ^ 64 =
    4096 * ((j + k) % 2 ^ 64) % 2 ^ 64
  omega

theorem add_pageAt_zero (pa : U64) : pa + pageAt 0 = pa := by
  have hzero : pageAt 0 = 0#64 := by decide
  rw [hzero, BitVec.add_zero]

theorem pageAt_one : PGSIZE = pageAt 1 := by decide

theorem vpn_pageAt {k : Nat} (hk : k < 2 ^ 27) : vpn (pageAt k) = k := by
  unfold vpn
  rw [pageAt_toNat (by omega)]
  omega

theorem MAXVA_toNat : MAXVA.toNat = 2 ^ 38 := by decide

theorem pageAt_lt_MAXVA {k : Nat} (hk : k < 2 ^ 26) : pageAt k < MAXVA := by
  rw [BitVec.lt_def, MAXVA_toNat, pageAt_toNat (by omega)]
  omega

theorem eq_pageAt (hva : va.toNat % 4096 = 0) : va = pageAt (va.toNat / 4096) := by
  apply BitVec.eq_of_toNat_eq
  have hlt := va.isLt
  rw [pageAt_toNat (by omega)]
  omega

/-! ## Mapping -/

/-- The entry that `mappages` makes. -/
def mapped (pa perm : U64) : U64 := PA2PTE pa ||| perm ||| PTE_V

theorem valid_mapped : Valid (mapped pa perm) := valid_or _

theorem leaf_mapped (pa : U64) (hperm : Leaf perm) : Leaf (mapped pa perm) := by
  intro hzero
  unfold mapped at hzero
  rw [BitVec.and_or_distrib_right, BitVec.and_or_distrib_right] at hzero
  exact hperm (BitVec.or_eq_zero_iff.1 (BitVec.or_eq_zero_iff.1 hzero).1).2

theorem or_lt (hperm : perm.toNat < 1024) : (perm ||| PTE_V).toNat < 1024 := by
  rw [BitVec.toNat_or]
  exact Nat.or_lt_two_pow (n := 10) hperm (by decide)

theorem PTE2PA_mapped (hpa : pa.toNat % 4096 = 0) (hperm : perm.toNat < 1024) :
    PTE2PA (mapped pa perm) = pa := by
  unfold mapped
  rw [BitVec.or_assoc]
  exact PTE2PA_PA2PTE hpa (or_lt hperm)

theorem PTE_FLAGS_mapped (hperm : perm.toNat < 1024) :
    PTE_FLAGS (mapped pa perm) = perm ||| PTE_V := by
  unfold mapped
  rw [BitVec.or_assoc]
  exact PTE_FLAGS_PA2PTE (or_lt hperm)

/-- The entries `f` with `n` pages mapped from the page number `v` on. -/
def mapRange (f : U64 → U64) (v : Nat) (pa perm : U64) (n : Nat) (vb : U64) : U64 :=
  if v ≤ vpn vb ∧ vpn vb < v + n then mapped (pa + pageAt (vpn vb - v)) perm else f vb

theorem mapRange_zero (f : U64 → U64) (v : Nat) : mapRange f v pa perm 0 vb = f vb :=
  if_neg fun h => by omega

theorem mapRange_one (f : U64 → U64) (v : Nat) :
    mapRange f v pa perm 1 vb = if vpn vb = v then mapped pa perm else f vb := by
  unfold mapRange
  by_cases hv : vpn vb = v
  · rw [if_pos hv, if_pos (by omega), hv, Nat.sub_self, add_pageAt_zero]
  · rw [if_neg hv, if_neg (by omega)]

theorem mapRange_succ (f g : U64 → U64) (v n : Nat)
    (hg : ∀ vb, g vb = mapRange f v pa perm 1 vb) :
    mapRange g (v + 1) (pa + PGSIZE) perm n vb = mapRange f v pa perm (n + 1) vb := by
  unfold mapRange
  by_cases hv : vpn vb = v
  · rw [if_neg (by omega), if_pos (by omega), hg, mapRange_one, if_pos hv, hv, Nat.sub_self, add_pageAt_zero]
  · by_cases hin : v + 1 ≤ vpn vb ∧ vpn vb < v + 1 + n
    · rw [if_pos hin, if_pos (by omega), pageAt_one, BitVec.add_assoc, pageAt_add]
      congr 3
      omega
    · rw [if_neg hin, if_neg (by omega), hg, mapRange_one, if_neg hv]

section mapFrom

variable {n : Nat} {b : U64} {i : Fin 512}

theorem mapFrom_none (hwalk : walk root va true m = .ok (none, m')) :
    mapFrom root perm n va pa m = .ok (none, m') := by
  unfold mapFrom
  exact Vm.bind_ok hwalk

theorem mapFrom_zero (hwalk : walk root va true m = .ok (some (b, i), m'))
    (hfree : ¬ Valid (m'.page b i)) :
    mapFrom root perm 0 va pa m = .ok (some (), m'.setWord b i (mapped pa perm)) := by
  unfold mapFrom
  refine (Vm.bind_ok hwalk).trans ?_
  show (if Valid (m'.page b i) then _ else _ : Vm _) m' = _
  rw [if_neg hfree]
  rfl

theorem mapFrom_succ (hwalk : walk root va true m = .ok (some (b, i), m'))
    (hfree : ¬ Valid (m'.page b i)) :
    mapFrom root perm (n + 1) va pa m =
      mapFrom root perm n (va + PGSIZE) (pa + PGSIZE) (m'.setWord b i (mapped pa perm)) := by
  conv => lhs; unfold mapFrom
  refine (Vm.bind_ok hwalk).trans ?_
  show (if Valid (m'.page b i) then _ else _ : Vm _) m' = _
  rw [if_neg hfree]
  rfl

end mapFrom

/-- What a run of `mapFrom` over the `n` pages from number `v` on leaves: `r`
is its result. -/
structure Mapped (m m' : Mem) (root : U64) (ts ts' : List U64) (v : Nat) (pa perm : U64) (n : Nat)
    (r : Option Unit) : Prop where
  table : Pagetable m' root ts'
  moves : m.Moves m' ts ts'
  small : ts'.length ≤ ts.length + 2 * n
  result : (r = some () ∧ ∀ vb, m'.pte root vb = mapRange (m.pte root) v pa perm n vb) ∨
    (r = none ∧ m'.freelist = [] ∧
      ∃ k, k < n ∧ ∀ vb, m'.pte root vb = mapRange (m.pte root) v pa perm k vb)

/-- The first round of `mapFrom`. -/
theorem map_round (pa : U64) (hh : Held m ts) (h : Pagetable m root ts) (hva : va < MAXVA)
    (hperm : Leaf perm) (hfree : ¬ Valid (m.pte root va)) :
    (∃ m' ts', walk root va true m = .ok (none, m') ∧ m'.freelist = [] ∧
      ts'.length ≤ ts.length + 2 ∧ Grown m m' root ts ts') ∨
    ∃ b m₁ ts', walk root va true m = .ok (some (b, PX 0 va), m₁) ∧
      ts'.length ≤ ts.length + 2 ∧
      ¬ Valid (m₁.page b (PX 0 va)) ∧
      Pagetable (m₁.setWord b (PX 0 va) (mapped pa perm)) root ts' ∧
      m.Moves (m₁.setWord b (PX 0 va) (mapped pa perm)) ts ts' ∧
      ∀ vb, (m₁.setWord b (PX 0 va) (mapped pa perm)).pte root vb =
        mapRange (m.pte root) (vpn va) pa perm 1 vb := by
  obtain ⟨r, m₁, ts', hwalk, hgrown, hlength, ⟨rfl, hnil⟩ | ⟨b, rfl, hb⟩⟩ := walk_alloc hh h hva
  · exact .inl ⟨m₁, ts', hwalk, hnil, hlength, hgrown⟩
  · right
    have hpte : m₁.page b (PX 0 va) = m.pte root va := by
      rw [← hgrown.pte, Mem.pte_eq hb]
    obtain ⟨htable, hstore⟩ := hgrown.table.store hb fun _ => leaf_mapped pa hperm
    refine ⟨b, m₁, ts', hwalk, hlength, hpte ▸ hfree, htable,
      hgrown.moves.trans (moves_setWord (hgrown.table.mem_of_path hb)), fun vb => ?_⟩
    rw [hstore, mapRange_one, hgrown.pte]

theorem mapFrom_spec (n : Nat) : ∀ {m : Mem} {ts : List U64} {v : Nat} (pa : U64),
    Held m ts → Pagetable m root ts → v + n < 2 ^ 26 → Leaf perm →
    (∀ k, v ≤ k → k ≤ v + n → ¬ Valid (m.pte root (pageAt k))) →
    ∃ r m' ts', mapFrom root perm n (pageAt v) pa m = .ok (r, m') ∧
      Mapped m m' root ts ts' v pa perm (n + 1) r := by
  induction n with
  | zero =>
    intro m ts v pa hh h hv hperm hfree
    have hvpn : vpn (pageAt v) = v := vpn_pageAt (by omega)
    obtain ⟨m', ts', hwalk, hnil, hlength, hgrown⟩ |
        ⟨b, m₁, ts', hwalk, hlength, hb, htable, hmoves, hpte⟩ :=
      map_round pa hh h (pageAt_lt_MAXVA (by omega)) hperm
        (hfree v (Nat.le_refl v) (Nat.le_refl v))
    · refine ⟨none, m', ts', mapFrom_none hwalk, hgrown.table, hgrown.moves, hlength,
        .inr ⟨rfl, hnil, 0, Nat.one_pos, fun vb => ?_⟩⟩
      rw [hgrown.pte, mapRange_zero]
    · rw [hvpn] at hpte
      exact ⟨some (), _, ts', mapFrom_zero hwalk hb, htable, hmoves, hlength, .inl ⟨rfl, hpte⟩⟩
  | succ n ih =>
    intro m ts v pa hh h hv hperm hfree
    have hvpn : vpn (pageAt v) = v := vpn_pageAt (by omega)
    obtain ⟨m', ts', hwalk, hnil, hlength, hgrown⟩ |
        ⟨b, m₁, ts', hwalk, hlength, hb, htable, hmoves, hpte⟩ :=
      map_round pa hh h (pageAt_lt_MAXVA (by omega)) hperm
        (hfree v (Nat.le_refl v) (Nat.le_add_right v (n + 1)))
    · refine ⟨none, m', ts', mapFrom_none hwalk, hgrown.table, hgrown.moves, by omega,
        .inr ⟨rfl, hnil, 0, Nat.succ_pos _, fun vb => ?_⟩⟩
      rw [hgrown.pte, mapRange_zero]
    · rw [hvpn] at hpte
      have hfree' : ∀ k, v + 1 ≤ k → k ≤ v + 1 + n →
          ¬ Valid ((m₁.setWord b (PX 0 (pageAt v)) (mapped pa perm)).pte root (pageAt k)) := by
        intro k hk hk'
        rw [hpte, mapRange_one, vpn_pageAt (by omega), if_neg (by omega)]
        exact hfree k (by omega) (by omega)
      obtain ⟨r, m', ts'', hrun, hdone⟩ := ih (pa + PGSIZE) (hh.moves hmoves) htable
        (by omega) hperm hfree'
      have hsmall := hdone.small
      refine ⟨r, m', ts'', ?_, hdone.table, hmoves.trans hdone.moves, by omega, ?_⟩
      · rw [mapFrom_succ hwalk hb, pageAt_one, pageAt_add, ← pageAt_one]
        exact hrun
      · obtain ⟨hr, hres⟩ | ⟨hr, hnil, k, hk, hres⟩ := hdone.result
        · refine .inl ⟨hr, fun vb => ?_⟩
          rw [hres, mapRange_succ (m.pte root) _ v _ hpte]
        · refine .inr ⟨hr, hnil, k + 1, by omega, fun vb => ?_⟩
          rw [hres, mapRange_succ (m.pte root) _ v _ hpte]

/-- The number of pages of `size` bytes. -/
def pages (size : U64) : Nat := (size.toNat + 4095) / 4096

theorem mappages_eq {size : U64} (hva : va.toNat % 4096 = 0) (hsize : 0 < size.toNat)
    (hend : va.toNat + size.toNat ≤ 2 ^ 38) :
    mappages root va size pa perm m = mapFrom root perm (pages size - 1) va pa m := by
  have hdown : PGROUNDDOWN va = va := by
    apply BitVec.eq_of_toNat_eq
    rw [toNat_PGROUNDDOWN]
    omega
  have hlast : (va + size - 1).toNat = va.toNat + size.toNat - 1 := by
    rw [BitVec.toNat_sub, BitVec.toNat_add]
    show (2 ^ 64 - 1 + (va.toNat + size.toNat) % 2 ^ 64) % 2 ^ 64 = _
    omega
  have hcount : ((PGROUNDDOWN (va + size - 1) - va) / PGSIZE).toNat = pages size - 1 := by
    have hlt := va.isLt
    rw [BitVec.toNat_udiv, BitVec.toNat_sub, toNat_PGROUNDDOWN, hlast,
      show PGSIZE.toNat = 4096 from rfl]
    unfold pages
    omega
  have hne : size ≠ 0 := by
    rintro rfl
    exact absurd hsize (by decide)
  unfold mappages
  rw [if_neg hne]
  show mapFrom root perm ((PGROUNDDOWN (va + size - 1) - PGROUNDDOWN va) / PGSIZE).toNat
    (PGROUNDDOWN va) pa m = _
  rw [hdown, hcount]

/-- `mappages` on pages that are not mapped. -/
theorem mappages_spec {size : U64} (pa : U64) (hh : Held m ts) (h : Pagetable m root ts)
    (hva : va.toNat % 4096 = 0) (hsize : 0 < size.toNat) (hend : va.toNat + size.toNat ≤ 2 ^ 38)
    (hperm : Leaf perm)
    (hfree : ∀ k, vpn va ≤ k → k < vpn va + pages size → ¬ Valid (m.pte root (pageAt k))) :
    ∃ r m' ts', mappages root va size pa perm m = .ok (r, m') ∧
      Mapped m m' root ts ts' (vpn va) pa perm (pages size) r := by
  have hvpn : vpn va = va.toNat / 4096 := by
    unfold vpn
    omega
  have hpages : 0 < pages size := by
    unfold pages
    omega
  have hbound : vpn va + (pages size - 1) < 2 ^ 26 := by
    rw [hvpn]
    unfold pages
    omega
  have hpage : va = pageAt (vpn va) := by
    rw [hvpn]
    exact eq_pageAt hva
  obtain ⟨r, m', ts', hrun, hdone⟩ := mapFrom_spec (pages size - 1) pa hh h hbound hperm
    fun k hk hk' => hfree k hk (by omega)
  refine ⟨r, m', ts', ?_, ?_⟩
  · rw [mappages_eq hva hsize hend, hpage]
    rw [← hpage] at hrun
    rw [← hpage]
    exact hrun
  · rw [Nat.sub_add_cancel hpages] at hdone
    exact hdone

theorem pages_PGSIZE : pages PGSIZE = 1 := by decide

/-- `mappages` on one page: it is mapped, or nothing is. -/
theorem mapPage_spec {v : Nat} (pa : U64) (hh : Held m ts) (h : Pagetable m root ts) (hv : v < 2 ^ 26)
    (hperm : Leaf perm) (hfree : ¬ Valid (m.pte root (pageAt v))) :
    ∃ r m' ts', mappages root (pageAt v) PGSIZE pa perm m = .ok (r, m') ∧
      Pagetable m' root ts' ∧ m.Moves m' ts ts' ∧ ts'.length ≤ ts.length + 2 ∧
      (r = some () ∧ (∀ vb, m'.pte root vb =
          if vpn vb = v then mapped pa perm else m.pte root vb) ∨
        r = none ∧ m'.freelist = [] ∧ ∀ vb, m'.pte root vb = m.pte root vb) := by
  have hvpn : vpn (pageAt v) = v := vpn_pageAt (by omega)
  have htoNat : (pageAt v).toNat = 4096 * v := pageAt_toNat (by omega)
  have hsize : 0 < PGSIZE.toNat := by decide
  have hend : (pageAt v).toNat + PGSIZE.toNat ≤ 2 ^ 38 := by
    rw [htoNat, show PGSIZE.toNat = 4096 from rfl]
    omega
  have hnone : ∀ k, vpn (pageAt v) ≤ k → k < vpn (pageAt v) + pages PGSIZE →
      ¬ Valid (m.pte root (pageAt k)) := by
    rw [hvpn, pages_PGSIZE]
    intro k hk hk'
    obtain rfl : k = v := by omega
    exact hfree
  obtain ⟨r, m', ts', hrun, hdone⟩ := mappages_spec pa hh h (by omega) hsize hend hperm hnone
  rw [hvpn, pages_PGSIZE] at hdone
  refine ⟨r, m', ts', hrun, hdone.table, hdone.moves, hdone.small, ?_⟩
  obtain ⟨hr, hpte⟩ | ⟨hr, hnil, k, hk, hpte⟩ := hdone.result
  · exact .inl ⟨hr, fun vb => (hpte vb).trans (mapRange_one _ _)⟩
  · obtain rfl : k = 0 := by omega
    exact .inr ⟨hr, hnil, fun vb => (hpte vb).trans (mapRange_zero _ _)⟩

/-! ## Unmapping -/

theorem unmapPage_eq {doFree : Bool} (h : Pagetable m root ts) (hva : va < MAXVA)
    (hvalid : Valid (m.pte root va)) (ha : m.node root (vpath 2 va) = some a) :
    unmapPage root doFree va m = (do
      if doFree then
        kfree (PTE2PA (m.pte root va))
      storePte (a, PX 0 va) 0 : Vm Unit) m := by
  have hleaf : PTE_FLAGS (m.pte root va) ≠ PTE_V := by
    have hl : Leaf (m.pte root va) := by
      rw [Mem.pte_eq ha] at hvalid ⊢
      exact h.leaf _ a _ rfl ha hvalid
    intro hflags
    unfold Leaf at hl
    rw [← and_PTE_FLAGS _ _ (by decide), hflags] at hl
    exact hl (by decide)
  rw [Mem.pte_eq ha] at hvalid hleaf ⊢
  unfold unmapPage
  have hwalk : walk root va false m = _ := walk_find hva
  rw [ha] at hwalk
  refine (Vm.bind_ok hwalk).trans ?_
  show (if m.page a (PX 0 va) &&& PTE_V = 0 then _ else if PTE_FLAGS (m.page a (PX 0 va)) = PTE_V
    then _ else _ : Vm _) m = _
  rw [if_neg hvalid, if_neg hleaf]

/-- The pages that unmapping `vs` gives back. -/
def Mem.givenBack (m : Mem) (root : U64) (doFree : Bool) (vs : List U64) : List U64 :=
  if doFree then vs.map fun v => PTE2PA (m.pte root v) else []

/-- What unmapping the pages `vs` leaves. -/
structure Unmapped (m m' : Mem) (root : U64) (ts : List U64) (doFree : Bool) (vs : List U64) :
    Prop where
  table : Pagetable m' root ts
  moves : m.Moves m' (m.givenBack root doFree vs ++ ts) ts
  pte : ∀ vb, m'.pte root vb = if vpn vb ∈ vs.map vpn then 0 else m.pte root vb

theorem unmapPage_spec {doFree : Bool} (hh : Held m (m.givenBack root doFree [va] ++ ts))
    (h : Pagetable m root ts) (hva : va < MAXVA) (hvalid : Valid (m.pte root va)) :
    ∃ m', unmapPage root doFree va m = .ok ((), m') ∧ Unmapped m m' root ts doFree [va] := by
  obtain ⟨a, ha, -⟩ := node_of_valid hvalid
  rw [unmapPage_eq h hva hvalid ha]
  have hzero : Valid 0 → Leaf 0 := fun hv => absurd hv not_valid_zero
  have hmem : ∀ vb, vpn vb ∈ [va].map vpn ↔ vpn vb = vpn va := fun vb => List.mem_singleton
  cases doFree with
  | false =>
    obtain ⟨htable, hpte⟩ := h.store ha hzero
    refine ⟨_, rfl, htable, moves_setWord (h.mem_of_path ha), fun vb => ?_⟩
    simp only [hmem, hpte]
  | true =>
    have hpage : Page (PTE2PA (m.pte root va)) := hh.of_mem List.mem_cons_self
    have hnot : PTE2PA (m.pte root va) ∉ ts := (List.nodup_cons.1 hh.apart.nodup_own).1
    have hout : ∀ b ∈ ts, (m.freed (PTE2PA (m.pte root va))).page b = m.page b :=
      fun b hb => if_neg fun (hbpa : b = PTE2PA (m.pte root va)) => hnot (hbpa ▸ hb)
    obtain ⟨htable, hsame⟩ := h.frame hout
    have ha' : (m.freed (PTE2PA (m.pte root va))).node root (vpath 2 va) = some a := by
      obtain ⟨a', ha', -⟩ := node_of_valid ((hsame va).symm ▸ hvalid)
      have habove : ∀ q b, q.length < 2 → m.node root q = some b →
          ∀ i, (m.freed (PTE2PA (m.pte root va))).page b i = m.page b i := by
        intro q b hq hb i
        rw [hout b ((h.mem b).2 ⟨q, Nat.le_of_lt hq, hb⟩)]
      exact (Radix.node_congr (Nat.le_refl 2) habove).trans ha
    obtain ⟨htable', hpte⟩ := htable.store ha' hzero
    refine ⟨_, Vm.bind_ok (kfree_ok hpage), htable',
      moves_freed.trans (moves_setWord (h.mem_of_path ha)), fun vb => ?_⟩
    simp only [hmem]
    rw [hpte, hsame]

theorem unmap_spec (doFree : Bool) (vs : List U64) : ∀ {m : Mem},
    Held m (m.givenBack root doFree vs ++ ts) → Pagetable m root ts → (vs.map vpn).Nodup →
    (∀ v ∈ vs, v < MAXVA ∧ Valid (m.pte root v)) →
    ∃ m', vs.forM (unmapPage root doFree) m = .ok ((), m') ∧
      Unmapped m m' root ts doFree vs := by
  induction vs with
  | nil =>
    intro m _ h _ _
    have hnone : m.givenBack root doFree [] = [] := by
      unfold Mem.givenBack
      split <;> rfl
    refine ⟨m, rfl, h, ?_, fun vb => (if_neg List.not_mem_nil).symm⟩
    rw [hnone]
    exact .refl
  | cons v vs ih =>
    intro m hh h hnodup hvs
    obtain ⟨hv, hnodup'⟩ := List.nodup_cons.1 hnodup
    obtain ⟨hva, hvalid⟩ := hvs v List.mem_cons_self
    have hsplit : m.givenBack root doFree (v :: vs) =
        m.givenBack root doFree [v] ++ m.givenBack root doFree vs := by
      unfold Mem.givenBack
      split <;> rfl
    have hperm : (m.givenBack root doFree (v :: vs) ++ ts).Perm
        (m.givenBack root doFree [v] ++ ts ++ m.givenBack root doFree vs) := by
      rw [hsplit, List.append_assoc, List.append_assoc]
      exact List.perm_append_comm.append_left _
    obtain ⟨m₁, hrun, hone⟩ := unmapPage_spec
      ((hh.perm hperm.symm).sublist (List.sublist_append_left _ _)) h hva hvalid
    have hother : ∀ w ∈ vs, m₁.pte root w = m.pte root w := by
      intro w hw
      rw [hone.pte, if_neg]
      rw [List.map_singleton, List.mem_singleton]
      intro heq
      exact hv (heq ▸ List.mem_map_of_mem hw)
    have hback : m₁.givenBack root doFree vs = m.givenBack root doFree vs := by
      unfold Mem.givenBack
      split
      · exact List.map_congr_left fun w hw => congrArg PTE2PA (hother w hw)
      · rfl
    have hmoves := (hone.moves.extend (m.givenBack root doFree vs)).congr hperm
      List.perm_append_comm
    have hvs' : ∀ w ∈ vs, w < MAXVA ∧ Valid (m₁.pte root w) := by
      intro w hw
      rw [hother w hw]
      exact hvs w (List.mem_cons_of_mem v hw)
    obtain ⟨m₂, hrun', hrest⟩ := ih (hback.symm ▸ hh.moves hmoves) hone.table hnodup' hvs'
    refine ⟨m₂, ?_, hrest.table, hmoves.trans (hback ▸ hrest.moves), fun vb => ?_⟩
    · show ((unmapPage root doFree v) >>= fun _ => vs.forM (unmapPage root doFree)) m = _
      exact (Vm.bind_ok hrun).trans hrun'
    · rw [hrest.pte, hone.pte, List.map_singleton, List.map_cons]
      simp only [List.mem_cons, List.not_mem_nil, or_false]
      by_cases hin : vpn vb ∈ vs.map vpn
      · rw [if_pos hin, if_pos (.inr hin)]
      · rw [if_neg hin]
        by_cases heq : vpn vb = vpn v
        · rw [if_pos heq, if_pos (.inl heq)]
        · rw [if_neg heq, if_neg fun h => h.elim heq hin]

/-- The `n` pages from number `v` on. -/
def vpages (v n : Nat) : List U64 := (List.range' v n).map pageAt

theorem map_vpn_vpages {v n : Nat} (hn : v + n ≤ 2 ^ 26) :
    (vpages v n).map vpn = List.range' v n := by
  unfold vpages
  rw [List.map_map]
  refine (List.map_congr_left fun k hk => ?_).trans (List.map_id _)
  exact vpn_pageAt (by rw [List.mem_range'_1] at hk; omega)

theorem pages_pageAt {k : Nat} (hk : k < 2 ^ 52) : pages (pageAt k) = k := by
  unfold pages
  rw [pageAt_toNat hk]
  omega

theorem pagesBelow_pageAt {v : Nat} (limit : U64) (hv : v < 2 ^ 52) :
    pagesBelow (pageAt v) limit = vpages v (pages limit - v) := by
  have hcount : (limit.toNat - (pageAt v).toNat + 4095) / 4096 = pages limit - v := by
    rw [pageAt_toNat hv]
    unfold pages
    omega
  unfold pagesBelow vpages
  rw [hcount, List.range'_eq_map_range, List.map_map]
  exact List.map_congr_left fun k _ => pageAt_add v k

theorem uvmunmap_spec (doFree : Bool) {v n : Nat} (hn : v + n ≤ 2 ^ 26)
    (hh : Held m (m.givenBack root doFree (vpages v n) ++ ts)) (h : Pagetable m root ts)
    (hvalid : ∀ k, v ≤ k → k < v + n → Valid (m.pte root (pageAt k))) :
    ∃ m', uvmunmap root (pageAt v) (BitVec.ofNat 64 n) doFree m = .ok ((), m') ∧
      Pagetable m' root ts ∧ m.Moves m' (m.givenBack root doFree (vpages v n) ++ ts) ts ∧
      ∀ vb, m'.pte root vb = if v ≤ vpn vb ∧ vpn vb < v + n then 0 else m.pte root vb := by
  have haligned : ¬ pageAt v % PGSIZE ≠ 0 := by
    rw [not_not]
    apply BitVec.eq_of_toNat_eq
    rw [BitVec.toNat_umod, pageAt_toNat (by omega)]
    exact Nat.mul_mod_right 4096 v
  have hlimit : pageAt v + BitVec.ofNat 64 n * PGSIZE = pageAt (v + n) := by
    rw [BitVec.mul_comm]
    exact pageAt_add v n
  have hlist : pagesBelow (pageAt v) (pageAt v + BitVec.ofNat 64 n * PGSIZE) = vpages v n := by
    rw [hlimit, pagesBelow_pageAt _ (by omega), pages_pageAt (by omega), Nat.add_sub_cancel_left]
  have hnodup : ((vpages v n).map vpn).Nodup := by
    rw [map_vpn_vpages hn]
    exact List.nodup_range'
  obtain ⟨m', hrun, hdone⟩ := unmap_spec doFree (vpages v n) hh h hnodup fun va hva => by
    obtain ⟨k, hk, rfl⟩ := List.mem_map.1 hva
    rw [List.mem_range'_1] at hk
    exact ⟨pageAt_lt_MAXVA (by omega), hvalid k hk.1 hk.2⟩
  refine ⟨m', ?_, hdone.table, hdone.moves, fun vb => ?_⟩
  · unfold uvmunmap
    rw [if_neg haligned, hlist]
    exact hrun
  · rw [hdone.pte, map_vpn_vpages hn]
    simp only [List.mem_range'_1]

/-! ## A new page table -/

/-- A page of zeroes is an empty page table. -/
theorem Pagetable.fresh (hroot : Page root) (hzero : m.page root = fun _ => 0) :
    Pagetable m root [root] ∧ ∀ va, m.pte root va = 0 := by
  have hbelow : ∀ i (p : List (Fin 512)), m.node root (i :: p) = none := by
    intro i p
    show ((pteChild (m.page root i)).bind _) = none
    rw [hzero, pteChild_of_not_valid not_valid_zero]
    rfl
  have hnode : ∀ p b, m.node root p = some b → p = [] ∧ root = b := by
    intro p b hb
    cases p with
    | nil => exact ⟨rfl, Option.some.inj hb⟩
    | cons i p => exact absurd (hbelow i p ▸ hb) (by simp)
  refine ⟨⟨?_, ?_, List.nodup_singleton root, ?_, ?_, ?_⟩, fun va => Mem.pte_of_none (hbelow _ _)⟩
  · intro p q b _ _ hp hq
    rw [(hnode p b hp).1, (hnode q b hq).1]
  · intro b
    rw [List.mem_singleton]
    constructor
    · rintro rfl
      exact Radix.isNode_root
    · rintro ⟨p, -, hb⟩
      exact (hnode p b hb).2.symm
  · intro b hb
    exact List.mem_singleton.1 hb ▸ hroot
  · intro p b i _ hb hvalid
    rw [← (hnode p b hb).2, hzero] at hvalid
    exact absurd hvalid not_valid_zero
  · intro p b i _ hb hvalid
    rw [← (hnode p b hb).2, hzero] at hvalid
    exact absurd hvalid not_valid_zero

theorem uvmcreate_cons {r : U64} {next : List U64} (hfree : m.freelist = r :: next) :
    uvmcreate m = .ok (some r, (m.taken r next).setPage r fun _ => 0) := by
  unfold uvmcreate
  exact Vm.bind_ok (kalloc_cons hfree)

theorem uvmcreate_spec {own : List U64} (hh : Held m own) :
    uvmcreate m = .ok (none, m) ∧ m.freelist = [] ∨
      ∃ r m', uvmcreate m = .ok (some r, m') ∧ Pagetable m' r [r] ∧ (∀ va, m'.pte r va = 0) ∧
        m.Moves m' own (r :: own) := by
  cases hfree : m.freelist with
  | nil =>
    unfold uvmcreate
    exact .inl ⟨Vm.bind_ok (kalloc_nil hfree), rfl⟩
  | cons r next =>
    right
    have hr : Page r := hh.page r (List.mem_append_left own (hfree ▸ List.mem_cons_self))
    obtain ⟨htable, hpte⟩ := Pagetable.fresh (m := (m.taken r next).setPage r fun _ => 0) hr
      (if_pos rfl)
    exact ⟨r, _, uvmcreate_cons hfree, htable, hpte,
      (moves_taken hfree).trans (moves_setPage List.mem_cons_self)⟩

/-- A memory with four free pages. -/
def fourFree : Mem where
  page _ _ := 0
  freelist := [0x80023000, 0x80024000, 0x80025000, 0x80026000]

theorem held_fourFree : Held fourFree [] := by
  have hfree : fourFree.freelist = [0x80023000, 0x80024000, 0x80025000, 0x80026000] := rfl
  constructor
  · show (fourFree.freelist ++ []).Nodup
    rw [List.append_nil, hfree]
    decide
  · rw [List.append_nil, hfree]
    intro a ha
    simp only [List.mem_cons, List.not_mem_nil, or_false] at ha
    rcases ha with rfl | rfl | rfl | rfl <;> decide

end Xv6
