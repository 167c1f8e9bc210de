import Xv6.Vm.Free

/-!
# Copying an address space

`uvmcopy` gives the child a fresh page for every page of the parent, with the
same flags and the same bytes, or it takes back what it has copied.
-/

namespace Xv6

variable {m m' : Mem} {old new : U64} {tso tsn own par : List U64} {no n k : Nat}
  {top top' : Nat → U64}

theorem PTE_FLAGS_lt (e : U64) : (PTE_FLAGS e).toNat < 1024 := by
  unfold PTE_FLAGS
  rw [BitVec.toNat_and]
  exact Nat.lt_of_le_of_lt Nat.and_le_right (by decide)

theorem leaf_PTE_FLAGS {e : U64} (hleaf : Leaf e) : Leaf (PTE_FLAGS e) := by
  unfold Leaf
  rw [and_PTE_FLAGS _ _ (by decide)]
  exact hleaf

theorem PTE_FLAGS_or_V {e : U64} (hvalid : Valid e) : PTE_FLAGS e ||| PTE_V = PTE_FLAGS e := by
  have hbit : PTE_FLAGS e &&& PTE_V = PTE_V := by
    rw [and_PTE_FLAGS _ _ (by decide)]
    -- `PTE_V` is one bit
    apply BitVec.eq_of_toNat_eq
    have hne : (e &&& PTE_V).toNat ≠ 0 := fun h => hvalid (BitVec.eq_of_toNat_eq h)
    rw [BitVec.toNat_and, show PTE_V.toNat = 1 from rfl, Nat.and_one_is_mod] at hne ⊢
    omega
  calc PTE_FLAGS e ||| PTE_V
      = PTE_FLAGS e ||| (PTE_FLAGS e &&& PTE_V) := by rw [hbit]
    _ = PTE_FLAGS e := by
      apply BitVec.eq_of_getLsbD_eq
      intro i _
      rw [BitVec.getLsbD_or, BitVec.getLsbD_and]
      cases (PTE_FLAGS e).getLsbD i <;> rfl

/-- `walk` finds the entry of a page of the address space. -/
theorem Space.walk (hs : Space m old tso no top) (hk : k < no) :
    ∃ a, walk old (pageAt k) false m = .ok (some (a, PX 0 (pageAt k)), m) ∧
      m.pte old (pageAt k) = m.page a (PX 0 (pageAt k)) ∧ Valid (m.pte old (pageAt k)) ∧
      Leaf (m.pte old (pageAt k)) := by
  have hfits : no ≤ 2 ^ 26 - 2 := hs.fits
  have hvalid := hs.user k hk
  obtain ⟨a, ha, hpte⟩ := node_of_valid hvalid
  refine ⟨a, ?_, hpte, hvalid, ?_⟩
  · rw [walk_find (pageAt_lt_MAXVA (by omega)), ha]
    rfl
  · rw [hpte] at hvalid ⊢
    exact hs.table.leaf _ a _ rfl ha hvalid

theorem PTE2PA_mem_upages (hk : k < no) : PTE2PA (m.pte old (pageAt k)) ∈ m.upages old no :=
  List.mem_map.2 ⟨k, List.mem_range.2 hk, rfl⟩

/-! ## The rounds -/

section round

variable {rest : List U64} {r : U64} {next : List U64} {m₁ : Mem}

theorem uvmcopyLoop_nil (hs : Space m old tso no top) (hk : k < no) (hfree : m.freelist = [])
    (hback : uvmunmap new 0 (pageAt k / PGSIZE) true m = .ok ((), m')) :
    uvmcopyLoop old new (pageAt k :: rest) m = .ok (none, m') := by
  obtain ⟨a, hwalk, hpte, hvalid, -⟩ := hs.walk hk
  rw [hpte] at hvalid
  unfold uvmcopyLoop
  refine (Vm.bind_ok hwalk).trans ?_
  show (if m.page a (PX 0 (pageAt k)) &&& PTE_V = 0 then _ else _ : Vm _) m = _
  rw [if_neg hvalid]
  refine (Vm.bind_ok (kalloc_nil hfree)).trans ?_
  exact Vm.bind_ok hback

/-- The page that a round has taken and filled. -/
def Mem.copied (m : Mem) (r : U64) (next : List U64) (pa : U64) : Mem :=
  (m.taken r next).setPage r ((m.taken r next).page pa)

theorem memmovePage_ok {dst src : U64} :
    memmovePage dst src m = .ok ((), m.setPage dst (m.page src)) := rfl

theorem uvmcopyLoop_some (hs : Space m old tso no top) (hk : k < no)
    (hfree : m.freelist = r :: next)
    (hrun : mappages new (pageAt k) PGSIZE r (PTE_FLAGS (m.pte old (pageAt k)))
      (m.copied r next (PTE2PA (m.pte old (pageAt k)))) = .ok (some (), m₁)) :
    uvmcopyLoop old new (pageAt k :: rest) m = uvmcopyLoop old new rest m₁ := by
  obtain ⟨a, hwalk, hpte, hvalid, -⟩ := hs.walk hk
  rw [hpte] at hvalid hrun
  conv => lhs; unfold uvmcopyLoop
  refine (Vm.bind_ok hwalk).trans ?_
  show (if m.page a (PX 0 (pageAt k)) &&& PTE_V = 0 then _ else _ : Vm _) m = _
  rw [if_neg hvalid]
  refine (Vm.bind_ok (kalloc_cons hfree)).trans ?_
  refine (Vm.bind_ok memmovePage_ok).trans ?_
  exact Vm.bind_ok hrun

theorem uvmcopyLoop_fail (hs : Space m old tso no top) (hk : k < no)
    (hfree : m.freelist = r :: next) (hr : Page r)
    (hrun : mappages new (pageAt k) PGSIZE r (PTE_FLAGS (m.pte old (pageAt k)))
      (m.copied r next (PTE2PA (m.pte old (pageAt k)))) = .ok (none, m₁))
    (hback : uvmunmap new 0 (pageAt k / PGSIZE) true (m₁.freed r) = .ok ((), m')) :
    uvmcopyLoop old new (pageAt k :: rest) m = .ok (none, m') := by
  obtain ⟨a, hwalk, hpte, hvalid, -⟩ := hs.walk hk
  rw [hpte] at hvalid hrun
  unfold uvmcopyLoop
  refine (Vm.bind_ok hwalk).trans ?_
  show (if m.page a (PX 0 (pageAt k)) &&& PTE_V = 0 then _ else _ : Vm _) m = _
  rw [if_neg hvalid]
  refine (Vm.bind_ok (kalloc_cons hfree)).trans ?_
  refine (Vm.bind_ok memmovePage_ok).trans ?_
  refine (Vm.bind_ok hrun).trans ?_
  exact (Vm.bind_ok (kfree_ok hr)).trans (Vm.bind_ok hback)

end round

/-! ## The loop -/

/-- The pages from number `k` to `no` of the address space at `new` have the
flags and the contents that those at `old` had in `m`. -/
structure CopyOf (m m' : Mem) (old new : U64) (k no : Nat) : Prop where
  flags : ∀ i, k ≤ i → i < no →
    PTE_FLAGS (m'.pte new (pageAt i)) = PTE_FLAGS (m.pte old (pageAt i))
  bytes : ∀ i, k ≤ i → i < no →
    m'.page (PTE2PA (m'.pte new (pageAt i))) = m.page (PTE2PA (m.pte old (pageAt i)))

/-- All pages of the child taken back. -/
theorem Space.pop_all (hs : Space m new tsn k top) (hh : Held m (m.upages new k ++ tsn)) :
    ∃ m', uvmunmap new 0 (pageAt k / PGSIZE) true m = .ok ((), m') ∧ Space m' new tsn 0 top ∧
      m.Moves m' (m.upages new k ++ tsn) tsn := by
  have hfits : k ≤ 2 ^ 26 - 2 := hs.fits
  have hcount : pageAt k / PGSIZE = BitVec.ofNat 64 (k - 0) := by
    apply BitVec.eq_of_toNat_eq
    rw [BitVec.toNat_udiv, pageAt_toNat (by omega), BitVec.toNat_ofNat,
      show PGSIZE.toNat = 4096 from rfl]
    omega
  obtain ⟨m', hrun, hs', hmoves, -⟩ := hs.pop (Nat.zero_le k) hh
  rw [← hcount] at hrun
  exact ⟨m', hrun, hs', hmoves⟩

theorem uvmcopyLoop_spec (j : Nat) : ∀ {m : Mem} {tsn : List U64} {k : Nat}, k + j = no →
    Space m old tso no top → Space m new tsn k top' → no ≤ 32768 →
    Held m (m.upages new k ++ tsn ++ (m.upages old no ++ tso)) →
    ∃ r m' tsn', uvmcopyLoop old new (vpages k j) m = .ok (r, m') ∧
      ((∃ fresh, r = some () ∧ Space m' new tsn' no top' ∧
          m'.upages new no = m.upages new k ++ fresh ∧ m.Moves m' tsn (fresh ++ tsn') ∧
          (∀ va, vpn va < k → m'.pte new va = m.pte new va) ∧ CopyOf m m' old new k no) ∨
        r = none ∧ Space m' new tsn' 0 top' ∧ m.Moves m' (m.upages new k ++ tsn) tsn') := by
  induction j with
  | zero =>
    intro m tsn k hj hso hsn hno hh
    obtain rfl : k = no := hj
    exact ⟨some (), m, tsn, rfl, .inl ⟨[], rfl, hsn, (List.append_nil _).symm, .refl,
      fun _ _ => rfl, fun i hi hi' => by omega, fun i hi hi' => by omega⟩⟩
  | succ j ih =>
    intro m tsn k hj hso hsn hno hh
    have hk : k < no := by omega
    have hown : Held m (m.upages new k ++ tsn) := hh.sublist (List.sublist_append_left _ _)
    rw [vpages_succ]
    cases hfree : m.freelist with
    | nil =>
      obtain ⟨m', hback, hs', hmoves⟩ := hsn.pop_all hown
      exact ⟨none, m', tsn, uvmcopyLoop_nil hso hk hfree hback, .inr ⟨rfl, hs', hmoves⟩⟩
    | cons r next =>
      obtain ⟨-, -, -, hvalid, hleaf⟩ := hso.walk hk
      have hpa : PTE2PA (m.pte old (pageAt k)) ∈ m.upages old no := PTE2PA_mem_upages hk
      have hsrc : (m.taken r next).page (PTE2PA (m.pte old (pageAt k))) =
          m.page (PTE2PA (m.pte old (pageAt k))) := by
        refine if_neg fun (heq : PTE2PA (m.pte old (pageAt k)) = r) => ?_
        have hnot := hh.apart.not_mem (List.mem_append_right _ (List.mem_append_left tso hpa))
        rw [heq, hfree] at hnot
        exact hnot List.mem_cons_self
      have hroom : k < userPages := by
        unfold userPages
        omega
      -- what the child has so far and what the parent has is not touched
      have hall : Held m (tsn ++ (m.upages new k ++ (m.upages old no ++ tso))) := by
        refine hh.perm ?_
        rw [← List.append_assoc]
        exact List.perm_append_comm.append_right _
      have htsn : Held m ([] ++ tsn) := hall.sublist (List.sublist_append_left tsn _)
      obtain ⟨res, m₂, ts₂, hrun, hpage, hres⟩ := alloc_round
        ((m.taken r next).page (PTE2PA (m.pte old (pageAt k)))) hsn hroom (PTE_FLAGS_lt _)
        (leaf_PTE_FLAGS hleaf) htsn hfree
      obtain ⟨rfl, hadded, hupages, hbytes, hmoves⟩ | ⟨rfl, hs₃, hpte₃, hmoves⟩ := hres
      · have hmoves : m.Moves m₂ tsn ([r] ++ ts₂) := hmoves
        have hkeep : ∀ a ∈ m.upages new k ++ (m.upages old no ++ tso), m₂.page a = m.page a :=
          fun a ha => hmoves.keeps hall.apart ha
        obtain ⟨hso₂, hpte₂⟩ := hso.frame fun a ha =>
          hkeep a (List.mem_append_right _ (List.mem_append_right _ ha))
        have hupold : m₂.upages old no = m.upages old no := upages_congr fun i _ => hpte₂ _
        have hmoves₂ : m.Moves m₂ (m.upages new k ++ tsn) (m₂.upages new (k + 1) ++ ts₂) := by
          refine (hmoves.extend (m.upages new k)).congr List.perm_append_comm ?_
          rw [hupages, List.append_assoc]
          exact List.perm_append_comm
        have hh₂ : Held m₂ (m₂.upages new (k + 1) ++ ts₂ ++ (m₂.upages old no ++ tso)) := by
          rw [hupold]
          exact hh.moves (hmoves₂.extend _)
        obtain ⟨r', m', tsn', hloop, hret⟩ := ih (by omega) hso₂ hadded.space hno hh₂
        refine ⟨r', m', tsn', (uvmcopyLoop_some hso hk hfree hrun).trans hloop, ?_⟩
        obtain ⟨fresh, hr', hs', hup', hmoves', hkept', hcopy⟩ | ⟨hr', hs', hmoves'⟩ := hret
        · have hnew : PTE2PA (m₂.pte new (pageAt k)) = r := by
            have hsame : m₂.upages new k = m.upages new k := upages_congr fun i hi =>
              hadded.kept _ (by rw [vpn_pageAt (by omega)]; exact hi)
            rw [upages_succ, hsame] at hupages
            exact (List.cons.inj (List.append_cancel_left hupages)).1
          have hlast : m'.pte new (pageAt k) = m₂.pte new (pageAt k) :=
            hkept' _ (by rw [vpn_pageAt (by omega)]; omega)
          have hheld₂ : Held m₂ (ts₂ ++ m₂.upages new (k + 1)) :=
            (hh₂.sublist (List.sublist_append_left _ _)).perm List.perm_append_comm
          have hstay : m'.page r = m₂.page r := by
            refine hmoves'.keeps hheld₂.apart ?_
            rw [hupages]
            exact List.mem_append_right _ (List.mem_singleton_self r)
          refine .inl ⟨[r] ++ fresh, hr', hs', ?_, ?_, fun va hva => ?_, fun i hi hi' => ?_,
            fun i hi hi' => ?_⟩
          · rw [hup', hupages, List.append_assoc]
          · refine hmoves.trans ((hmoves'.extend [r]).congr List.perm_append_comm ?_)
            rw [List.append_assoc]
            exact List.perm_append_comm
          · rw [hkept' va (by omega), hadded.kept va hva]
          · rcases Nat.lt_or_ge k i with hlt | hge
            · rw [hcopy.flags i hlt hi', hpte₂]
            · obtain rfl : i = k := by omega
              rw [hlast, hadded.flags i (Nat.le_refl i) (Nat.lt_succ_self i),
                PTE_FLAGS_or_V hvalid]
          · rcases Nat.lt_or_ge k i with hlt | hge
            · rw [hcopy.bytes i hlt hi', hpte₂]
              exact hkeep _ (List.mem_append_right _ (List.mem_append_left _
                (PTE2PA_mem_upages hi')))
            · obtain rfl : i = k := by omega
              rw [hlast, hnew, hstay, hbytes, hsrc]
        · exact .inr ⟨hr', hs', hmoves₂.trans hmoves'⟩
      · have hmoves : m.Moves (m₂.freed r) tsn ts₂ := hmoves
        have hsame : (m₂.freed r).upages new k = m.upages new k :=
          upages_congr fun i _ => hpte₃ _
        have hmoves₂ : m.Moves (m₂.freed r) (m.upages new k ++ tsn)
            ((m₂.freed r).upages new k ++ ts₂) := by
          rw [hsame]
          exact (hmoves.extend (m.upages new k)).congr List.perm_append_comm List.perm_append_comm
        obtain ⟨m', hback, hs', hmoves'⟩ := hs₃.pop_all (hown.moves hmoves₂)
        exact ⟨none, m', ts₂, uvmcopyLoop_fail hso hk hfree hpage hrun hback,
          .inr ⟨rfl, hs', hmoves₂.trans hmoves'⟩⟩

/-- `uvmcopy` into an empty address space. -/
theorem uvmcopy_spec {sz : U64} (hso : Space m old tso no top) (hsn : Space m new tsn 0 top')
    (hsz : pages sz = no) (hh : Held m (tsn ++ (m.upages old no ++ tso))) :
    ∃ r m' tsn', uvmcopy old new sz m = .ok (r, m') ∧
      (r = some () ∧ Space m' new tsn' no top' ∧ m.Moves m' tsn (m'.upages new no ++ tsn') ∧
          CopyOf m m' old new 0 no ∨
        r = none ∧ Space m' new tsn' 0 top' ∧ m.Moves m' tsn tsn') := by
  have hno : no ≤ 32768 := by
    have := hh.length_le
    rw [List.length_append, List.length_append, length_upages] at this
    omega
  have hlist : pagesBelow 0 sz = vpages 0 no := by
    have h := pagesBelow_pageAt sz (v := 0) (by omega)
    rw [hsz] at h
    exact h
  obtain ⟨r, m', tsn', hrun, hr⟩ := uvmcopyLoop_spec no (Nat.zero_add no) hso hsn hno hh
  refine ⟨r, m', tsn', ?_, ?_⟩
  · unfold uvmcopy
    rw [hlist]
    exact hrun
  · obtain ⟨fresh, hr, hs', hup, hmoves, -, hcopy⟩ | ⟨hr, hs', hmoves⟩ := hr
    · obtain rfl : m'.upages new no = fresh := hup
      exact .inl ⟨hr, hs', hmoves, hcopy⟩
    · exact .inr ⟨hr, hs', hmoves⟩

end Xv6
