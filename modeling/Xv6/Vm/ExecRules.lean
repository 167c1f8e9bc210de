import Xv6.Vm.Exec
import Xv6.Vm.Isolation

/-!
# What `exec` does to memory

`exec` builds a second address space beside that of the process.  Whether it
succeeds or fails, one of the two is freed in the end.
-/

namespace Xv6

variable {m m' : Mem} {root va tf : U64} {ts ts' own : List U64} {n k : Nat} {top : Nat → U64}

/-! ## Pages for the user -/

/-- All `n` pages are the user's. -/
def AllUser (m : Mem) (root : U64) (n : Nat) : Prop :=
  ∀ k < n, m.pte root (pageAt k) &&& PTE_U ≠ 0

theorem AllUser.congr (hu : AllUser m root n) (h : ∀ va, m'.pte root va = m.pte root va) :
    AllUser m' root n := fun k hk => h _ ▸ hu k hk

/-- `walkaddr` finds the pages of the user. -/
theorem Space.userPage_of (hs : Space m root ts n top) (hu : AllUser m root n)
    (hh : Held m (m.upages root n ++ ts)) (hva : va.toNat < 4096 * n) :
    m.userPage root va = some (PTE2PA (m.pte root (pageAt (vpn va)))) := by
  have hfits : n ≤ 2 ^ 26 - 2 := hs.fits
  have hvpn : vpn va < n := by
    unfold vpn
    omega
  have hmax : va < MAXVA := by
    rw [BitVec.lt_def, MAXVA_toNat]
    omega
  unfold Mem.userPage
  rw [if_pos hmax, pte_pageAt hvpn hs.fits, decode_eq_some (hs.user _ hvpn)]
  show (if PTE_FLAGS _ &&& PTE_U = 0 ∨ _ then none else some _) = _
  rw [and_PTE_FLAGS _ _ (by decide), if_neg (not_or.2 ⟨hu _ hvpn, ?_⟩)]
  exact (hh.of_mem (List.mem_append_left ts (mem_upages hvpn))).ne_zero

theorem Added.allUser {xperm : U64} (hadded : Added m m' root ts' n k top (allocPerm xperm))
    (hu : AllUser m root n) : AllUser m' root k := by
  intro j hj
  have hfits := hadded.space.fits
  by_cases hjn : j < n
  · have hvpn : vpn (pageAt j) = j := vpn_pageAt (by unfold userPages at hfits; omega)
    rw [hadded.kept _ (by rw [hvpn]; exact hjn)]
    exact hu j hjn
  · rw [← and_PTE_FLAGS _ _ (by decide), hadded.flags j (Nat.le_of_not_lt hjn) hj]
    intro hzero
    -- `PTE_U` is one of the flags of `uvmalloc`
    unfold allocPerm at hzero
    rw [BitVec.and_or_distrib_right, BitVec.and_or_distrib_right, BitVec.and_or_distrib_right]
      at hzero
    have hleft := (BitVec.or_eq_zero_iff.1 (BitVec.or_eq_zero_iff.1 hzero).1).1
    exact absurd (BitVec.or_eq_zero_iff.1 hleft).2 (by decide)

theorem flags2perm_lt (flags : BitVec 32) : (Vm.flags2perm flags).toNat < 1024 := by
  unfold Vm.flags2perm
  split <;> split <;> decide

/-! ## `uvmclear` -/

theorem and_not_PTE_U {e : U64} : (e &&& ~~~PTE_U) >>> 10 = e >>> 10 := by
  have hmask : (~~~PTE_U) >>> 10 = (BitVec.allOnes 64) >>> 10 := by decide
  rw [BitVec.ushiftRight_and_distrib, hmask, ← BitVec.ushiftRight_and_distrib, BitVec.and_allOnes]

theorem and_not_PTE_U_and {e f : U64} (hf : ~~~PTE_U &&& f = f) :
    (e &&& ~~~PTE_U) &&& f = e &&& f := by
  rw [BitVec.and_assoc, hf]

theorem uvmclear_spec (hs : Space m root ts n top) (hk : k < n) :
    ∃ m', uvmclear root (pageAt k) m = .ok ((), m') ∧ Space m' root ts n top ∧
      m'.upages root n = m.upages root n ∧ Wrote m m' ts ∧
      ∀ va, m'.pte root va =
        if vpn va = k then m.pte root va &&& ~~~PTE_U else m.pte root va := by
  have hfits : n ≤ 2 ^ 26 - 2 := hs.fits
  have hvpn : ∀ j < n, vpn (pageAt j) = j := fun j hj => vpn_pageAt (by omega)
  obtain ⟨a, hwalk, hpte, hvalid, hleaf⟩ := hs.walk hk
  obtain ⟨b, hb, hpte'⟩ := node_of_valid hvalid
  have hnode : m.node root (vpath 2 (pageAt k)) = some a := by
    rw [walk_find (pageAt_lt_MAXVA (by omega)), hb] at hwalk
    have hba : b = a :=
      (Prod.mk.inj (Option.some.inj (Prod.mk.inj (Except.ok.inj hwalk)).1)).1
    rw [hb, hba]
  have hvalid' : Valid (m.page a (PX 0 (pageAt k)) &&& ~~~PTE_U) := by
    unfold Valid
    rw [and_not_PTE_U_and (by decide), ← hpte]
    exact hvalid
  have hleaf' : Leaf (m.page a (PX 0 (pageAt k)) &&& ~~~PTE_U) := by
    unfold Leaf
    rw [and_not_PTE_U_and (by decide), ← hpte]
    exact hleaf
  obtain ⟨htable, hstore⟩ := hs.table.store hnode fun _ => hleaf'
  refine ⟨m.setWord a (PX 0 (pageAt k)) (m.page a (PX 0 (pageAt k)) &&& ~~~PTE_U),
    (Vm.bind_ok hwalk).trans rfl, ⟨htable, hs.fits, fun j hj => ?_, fun va hva => ?_, hs.hole⟩,
    List.map_congr_left fun j hj => ?_, ⟨rfl, fun c hc => ?_⟩, fun va => ?_⟩
  · rw [hstore]
    split
    · exact hvalid'
    · exact hs.user j hj
  · rw [hstore, if_neg (by rw [hvpn k hk]; omega)]
    exact hs.above va hva
  · rw [hstore]
    by_cases heq : vpn (pageAt j) = vpn (pageAt k)
    · rw [if_pos heq, Mem.pte_vpn heq, hpte]
      unfold PTE2PA
      rw [and_not_PTE_U]
    · rw [if_neg heq]
  · exact if_neg fun (heq : c = a) => hc (heq ▸ hs.table.mem_of_path hnode)
  · rw [hstore, hvpn k hk]
    by_cases heq : vpn va = k
    · rw [if_pos heq, if_pos heq, ← hpte, Mem.pte_vpn (heq.trans (hvpn k hk).symm)]
    · rw [if_neg heq, if_neg heq]

/-! ## Loading a segment -/

section load

variable {Inode : Type} (fs : Vm.FileSystem Inode) (ip : Inode)

theorem loadsegLoop_spec {offset sz : BitVec 32} (haligned : va.toNat % 4096 = 0)
    (hsz : va.toNat + sz.toNat ≤ 4096 * n) (hn : n ≤ 32768) (rounds : Nat) :
    ∀ {m : Mem} {i : BitVec 32}, i.toNat % 4096 = 0 → i.toNat < sz.toNat + 4096 →
    sz.toNat + 4096 ≤ i.toNat + 4096 * rounds →
    Space m root ts n top → AllUser m root n → Held m (m.upages root n ++ ts) →
    ∃ r m', Vm.loadsegLoop fs root va ip offset sz rounds i m = .ok (r, m') ∧
      Wrote m m' (m.upages root n) := by
  induction rounds with
  | zero =>
    intro m i hi hlt hrounds hs hu hh
    omega
  | succ rounds ih =>
    intro m i hi hlt hrounds hs hu hh
    unfold Vm.loadsegLoop
    by_cases hless : i < sz
    · have hless' : i.toNat < sz.toNat := BitVec.lt_def.1 hless
      have haddr : (va + i.setWidth 64).toNat = va.toNat + i.toNat := by
        rw [BitVec.toNat_add, BitVec.toNat_setWidth]
        omega
      have hpa := hs.userPage_of hu hh
        (show (va + i.setWidth 64).toNat < 4096 * n by omega)
      have hvpn : vpn (va + i.setWidth 64) < n := by
        unfold vpn
        omega
      have hlength : (fs.read ip (offset + i)
          (if sz - i < 4096 then sz - i else 4096)).length ≤ 4096 := by
        refine Nat.le_trans (fs.length_read_le _ _ _) ?_
        split
        · rename_i h
          exact Nat.le_of_lt (BitVec.lt_def.1 h)
        · exact Nat.le_refl _
      obtain ⟨m₁, hrun₁, hstored⟩ := storeBytes_spec (PTE2PA (m.pte root (pageAt
        (vpn (va + i.setWidth 64))))) 0 (fs.read ip (offset + i)
          (if sz - i < 4096 then sz - i else 4096)) m (by omega)
      have hwrote := hstored.wrote (mem_upages hvpn)
      obtain ⟨hs₁, hpte₁, hup₁, hh₁⟩ := hs.wrote hh hwrote
      have hnext : (i + 4096).toNat = i.toNat + 4096 := by
        rw [BitVec.toNat_add]
        show (i.toNat + 4096) % 2 ^ 32 = _
        omega
      rw [if_pos hless]
      by_cases hshort : (fs.read ip (offset + i) (if sz - i < 4096 then sz - i else 4096)).length ≠
          (if sz - i < 4096 then sz - i else 4096).toNat
      · refine ⟨none, m₁, ?_, hwrote⟩
        refine (Vm.bind_ok (walkaddr_eq.trans (by rw [hpa]))).trans ?_
        refine (Vm.bind_ok hrun₁).trans ?_
        show (if _ then _ else _ : Vm _) m₁ = _
        rw [if_pos hshort]
        rfl
      · obtain ⟨r, m₂, hrun₂, hwrote₂⟩ := ih (m := m₁) (i := i + 4096) (by omega) (by omega)
          (by omega) hs₁ (hu.congr hpte₁) hh₁
        refine ⟨r, m₂, ?_, hwrote.trans (hup₁ ▸ hwrote₂)⟩
        refine (Vm.bind_ok (walkaddr_eq.trans (by rw [hpa]))).trans ?_
        refine (Vm.bind_ok hrun₁).trans ?_
        show (if _ then _ else _ : Vm _) m₁ = _
        rw [if_neg hshort]
        exact hrun₂
    · rw [if_neg hless]
      exact ⟨some (), m, rfl, .refl⟩

theorem loadseg_spec (offset : BitVec 32) {sz : BitVec 32} (haligned : va.toNat % 4096 = 0)
    (hsz : va.toNat + sz.toNat ≤ 4096 * n) (hn : n ≤ 32768) (hs : Space m root ts n top)
    (hu : AllUser m root n) (hh : Held m (m.upages root n ++ ts)) :
    ∃ r m', Vm.loadseg fs root va ip offset sz m = .ok (r, m') ∧
      Wrote m m' (m.upages root n) := by
  have hlt := sz.isLt
  refine loadsegLoop_spec fs ip haligned hsz hn (2 ^ 20 + 1) rfl ?_ ?_ hs hu hh
  · exact Nat.succ_pos _
  · show sz.toNat + 4096 ≤ 0 + 4096 * (2 ^ 20 + 1)
    omega

/-- The loop of `exec` has taken the new address space from the size `sz` to
`sz'`. -/
structure Loaded (m m' : Mem) (root : U64) (ts ts' : List U64) (top : Nat → U64) (sz sz' : U64) :
    Prop where
  space : Space m' root ts' (pages sz') top
  user : AllUser m' root (pages sz')
  moves : m.Moves m' (m.upages root (pages sz) ++ ts) (m'.upages root (pages sz') ++ ts')

theorem Loaded.refl {sz : U64} (hs : Space m root ts (pages sz) top)
    (hu : AllUser m root (pages sz)) : Loaded m m root ts ts top sz sz := ⟨hs, hu, .refl⟩

theorem Loaded.trans {m'' : Mem} {ts'' : List U64} {sz sz' sz'' : U64}
    (h : Loaded m m' root ts ts' top sz sz') (h' : Loaded m' m'' root ts' ts'' top sz' sz'') :
    Loaded m m'' root ts ts'' top sz sz'' := ⟨h'.space, h'.user, h.moves.trans h'.moves⟩

/-- `uvmalloc` for a segment. -/
theorem uvmalloc_loaded {sz : U64} (newsz : U64) {xperm : U64} (hx : xperm.toNat < 1024)
    (hs : Space m root ts (pages sz) top) (hu : AllUser m root (pages sz))
    (hh : Held m (m.upages root (pages sz) ++ ts)) :
    ∃ r m' ts', uvmalloc root sz newsz xperm m = .ok (r, m') ∧
      (r = none ∧ Loaded m m' root ts ts' top sz sz ∨
        ∃ sz', r = some sz' ∧ newsz ≤ sz' ∧ sz ≤ sz' ∧ Loaded m m' root ts ts' top sz sz') := by
  have hsmall : pages sz ≤ 32768 := by
    have := hh.length_le
    rw [List.length_append, length_upages] at this
    omega
  obtain ⟨r, m', ts', hrun, hr⟩ := uvmalloc_spec newsz xperm hs hsmall rfl hx
    (hh.sublist (List.sublist_append_right _ _))
  refine ⟨r, m', ts', hrun, ?_⟩
  obtain ⟨hlt, rfl, rfl, rfl⟩ | ⟨hle, rfl, hadded, hmoves⟩ | ⟨rfl, hadded, hmoves⟩ := hr
  · exact .inr ⟨sz, rfl, BitVec.le_of_lt hlt, BitVec.le_refl _, .refl hs hu⟩
  · have hmono : pages sz ≤ pages newsz := pages_mono (BitVec.le_def.1 hle)
    exact .inr ⟨newsz, rfl, BitVec.le_refl _, hle, hadded.space, hadded.allUser hu,
      hadded.moves hmono hmoves⟩
  · have hnone : (m'.upages root (pages sz)).drop (pages sz) = [] :=
      List.drop_of_length_le (Nat.le_of_eq length_upages)
    refine .inl ⟨rfl, hadded.space, hadded.allUser hu, hadded.moves (Nat.le_refl _) ?_⟩
    rw [hnone]
    exact hmoves

theorem loadProgram_spec (j : Nat) : ∀ {m : Mem} {ts : List U64} {sz : U64}
    (off : BitVec 32), Space m root ts (pages sz) top → AllUser m root (pages sz) →
    Held m (m.upages root (pages sz) ++ ts) →
    ∃ sz' r m' ts', Vm.loadProgram fs root ip j off sz m = .ok ((sz', r), m') ∧
      Loaded m m' root ts ts' top sz sz' := by
  induction j with
  | zero =>
    intro m ts sz off hs hu hh
    exact ⟨sz, some (), m, ts, rfl, .refl hs hu⟩
  | succ j ih =>
    intro m ts sz off hs hu hh
    unfold Vm.loadProgram
    by_cases hshort : (fs.read ip off Vm.sizeofProghdr).length ≠ Vm.sizeofProghdr.toNat
    · exact ⟨sz, none, m, ts, by rw [if_pos hshort]; rfl, .refl hs hu⟩
    rw [if_neg hshort]
    generalize Vm.Proghdr.ofBytes (fs.read ip off Vm.sizeofProghdr) = ph
    by_cases htype : ph.type ≠ Vm.ELF_PROG_LOAD
    · obtain ⟨sz', r, m', ts', hrun, hloaded⟩ := ih (off + Vm.sizeofProghdr) hs hu hh
      exact ⟨sz', r, m', ts', by rw [if_pos htype]; exact hrun, hloaded⟩
    by_cases hmemsz : ph.memsz < ph.filesz
    · exact ⟨sz, none, m, ts, by rw [if_neg htype, if_pos hmemsz]; rfl, .refl hs hu⟩
    by_cases hwrap : ph.vaddr + ph.memsz < ph.vaddr
    · exact ⟨sz, none, m, ts, by rw [if_neg htype, if_neg hmemsz, if_pos hwrap]; rfl,
        .refl hs hu⟩
    by_cases haligned : ph.vaddr % PGSIZE ≠ 0
    · exact ⟨sz, none, m, ts, by
        rw [if_neg htype, if_neg hmemsz, if_neg hwrap, if_pos haligned]; rfl, .refl hs hu⟩
    rw [if_neg htype, if_neg hmemsz, if_neg hwrap, if_neg haligned]
    obtain ⟨r, m₁, ts₁, hrun₁, ⟨rfl, hloaded₁⟩ | ⟨sz₁, rfl, hnew, hold, hloaded₁⟩⟩ :=
      uvmalloc_loaded (ph.vaddr + ph.memsz) (flags2perm_lt ph.flags) hs hu hh
    · exact ⟨sz, none, m₁, ts₁, Vm.bind_ok hrun₁, hloaded₁⟩
    by_cases hzero : sz₁ = 0
    · -- no memory at all: `uvmalloc` returns 0 as if it had failed
      have hsame : sz = sz₁ := by
        apply BitVec.eq_of_toNat_eq
        rw [hzero] at hold ⊢
        exact Nat.le_zero.1 (BitVec.le_def.1 hold)
      refine ⟨sz, none, m₁, ts₁, (Vm.bind_ok hrun₁).trans ?_, hsame ▸ hloaded₁⟩
      show (if sz₁ = 0 then _ else _ : Vm _) m₁ = _
      rw [if_pos hzero]
      rfl
    have hh₁ := hh.moves hloaded₁.moves
    have hsmall : pages sz₁ ≤ 32768 := by
      have := hh₁.length_le
      rw [List.length_append, length_upages] at this
      omega
    have hpage : ph.vaddr.toNat % 4096 = 0 := by
      have := congrArg BitVec.toNat (not_not.1 haligned)
      rw [BitVec.toNat_umod] at this
      exact this
    have hinside : ph.vaddr.toNat + (ph.filesz.setWidth 32).toNat ≤ 4096 * pages sz₁ := by
      have hsum : (ph.vaddr + ph.memsz).toNat = ph.vaddr.toNat + ph.memsz.toNat := by
        have hno := BitVec.not_lt.1 hwrap
        rw [BitVec.le_def, BitVec.toNat_add] at hno
        rw [BitVec.toNat_add]
        omega
      have hcut : (ph.filesz.setWidth 32).toNat ≤ ph.filesz.toNat := by
        rw [BitVec.toNat_setWidth]
        exact Nat.mod_le _ _
      have hfile := BitVec.le_def.1 (BitVec.not_lt.1 hmemsz)
      rw [BitVec.le_def, hsum] at hnew
      unfold pages
      omega
    obtain ⟨r, m₂, hrun₂, hwrote⟩ := loadseg_spec fs ip (ph.off.setWidth 32) hpage
      hinside hsmall hloaded₁.space hloaded₁.user hh₁
    obtain ⟨hs₂, hpte₂, hup₂, hh₂⟩ := hloaded₁.space.wrote hh₁ hwrote
    have hloaded₂ : Loaded m m₂ root ts ts₁ top sz sz₁ := by
      refine ⟨hs₂, hloaded₁.user.congr hpte₂, hloaded₁.moves.trans ?_⟩
      rw [hup₂]
      exact hwrote.moves fun a ha => List.mem_append_left _ ha
    cases r with
    | none =>
      refine ⟨sz₁, none, m₂, ts₁, (Vm.bind_ok hrun₁).trans ?_, hloaded₂⟩
      show (if sz₁ = 0 then _ else _ : Vm _) m₁ = _
      rw [if_neg hzero]
      exact Vm.bind_ok hrun₂
    | some u =>
      obtain ⟨sz', r, m', ts', hrun₃, hloaded₃⟩ := ih (off + Vm.sizeofProghdr) hs₂
        (hloaded₁.user.congr hpte₂) hh₂
      refine ⟨sz', r, m', ts', (Vm.bind_ok hrun₁).trans ?_, hloaded₂.trans hloaded₃⟩
      show (if sz₁ = 0 then _ else _ : Vm _) m₁ = _
      rw [if_neg hzero]
      exact (Vm.bind_ok hrun₂).trans hrun₃

end load

/-! ## The stack -/

theorem pushStrings_spec (stackbase : U64) (htop : NoUser top) (argv : List U64) : ∀ {m : Mem}
    (sp : U64) (ustack : List U64), Space m root ts n top → Held m (m.upages root n ++ ts) →
    ∃ r m', Vm.pushStrings root stackbase argv sp ustack m = .ok (r, m') ∧
      Wrote m m' (m.upages root n) := by
  induction argv with
  | nil =>
    intro m sp ustack hs hh
    exact ⟨some (sp, ustack), m, rfl, .refl⟩
  | cons arg argv ih =>
    intro m sp ustack hs hh
    unfold Vm.pushStrings
    by_cases hmany : ustack.length ≥ Vm.MAXARG
    · exact ⟨none, m, by rw [if_pos hmany]; rfl, .refl⟩
    rw [if_neg hmany]
    have hstring : Vm.stringAt arg m =
        .ok (((List.range 4096).map fun k => m.byte arg (0 + k)).takeWhile (· ≠ 0), m) := rfl
    generalize ((List.range 4096).map fun k => m.byte arg (0 + k)).takeWhile (· ≠ 0) = s at hstring
    generalize hsp : sp - .ofNat 64 (s.length + 1) = sp₁
    by_cases hfull : sp₁ - sp₁ % 16 < stackbase
    · refine ⟨none, m, (Vm.bind_ok hstring).trans ?_, .refl⟩
      rw [hsp]
      show (if sp₁ - sp₁ % 16 < stackbase then _ else _ : Vm _) m = _
      rw [if_pos hfull]
      rfl
    obtain ⟨r, m₁, hrun₁, hcopied⟩ := copyout_spec hs htop hh (sp₁ - sp₁ % 16) (s ++ [0])
    obtain ⟨hs₁, -, hup₁, hh₁⟩ := hs.wrote hh hcopied.pages
    cases r with
    | none =>
      refine ⟨none, m₁, (Vm.bind_ok hstring).trans ?_, hcopied.pages⟩
      rw [hsp]
      show (if sp₁ - sp₁ % 16 < stackbase then _ else _ : Vm _) m = _
      rw [if_neg hfull]
      exact Vm.bind_ok hrun₁
    | some u =>
      obtain ⟨r, m₂, hrun₂, hwrote₂⟩ := ih (sp₁ - sp₁ % 16) (ustack ++ [sp₁ - sp₁ % 16]) hs₁ hh₁
      refine ⟨r, m₂, (Vm.bind_ok hstring).trans ?_, hcopied.pages.trans (hup₁ ▸ hwrote₂)⟩
      rw [hsp]
      show (if sp₁ - sp₁ % 16 < stackbase then _ else _ : Vm _) m = _
      rw [if_neg hfull]
      exact (Vm.bind_ok hrun₁).trans hrun₂

theorem pushArgs_spec (stackbase sp : U64) (argv : List U64) (htop : NoUser top)
    (hs : Space m root ts n top) (hh : Held m (m.upages root n ++ ts)) :
    ∃ r m', Vm.pushArgs root stackbase sp argv m = .ok (r, m') ∧
      Wrote m m' (m.upages root n) := by
  unfold Vm.pushArgs
  obtain ⟨r, m₁, hrun₁, hwrote₁⟩ := pushStrings_spec stackbase htop argv sp [] hs hh
  obtain ⟨hs₁, -, hup₁, hh₁⟩ := hs.wrote hh hwrote₁
  cases r with
  | none => exact ⟨none, m₁, Vm.bind_ok hrun₁, hwrote₁⟩
  | some pushed =>
    generalize hsp : pushed.1 - .ofNat 64 ((pushed.2.length + 1) * 8) = sp₁
    by_cases hfull : sp₁ - sp₁ % 16 < stackbase
    · refine ⟨none, m₁, (Vm.bind_ok hrun₁).trans ?_, hwrote₁⟩
      dsimp only
      rw [hsp]
      show (if sp₁ - sp₁ % 16 < stackbase then _ else _ : Vm _) m₁ = _
      rw [if_pos hfull]
      rfl
    obtain ⟨r, m₂, hrun₂, hcopied⟩ := copyout_spec hs₁ htop hh₁ (sp₁ - sp₁ % 16)
      ((pushed.2 ++ [0]).flatMap Vm.wordBytes)
    refine ⟨r.map fun _ => (sp₁ - sp₁ % 16, pushed.2.length), m₂, (Vm.bind_ok hrun₁).trans ?_,
      hwrote₁.trans (hup₁ ▸ hcopied.pages)⟩
    dsimp only
    rw [hsp]
    show (if sp₁ - sp₁ % 16 < stackbase then _ else _ : Vm _) m₁ = _
    rw [if_neg hfull]
    refine (Vm.bind_ok hrun₂).trans ?_
    cases r <;> rfl

end Xv6
