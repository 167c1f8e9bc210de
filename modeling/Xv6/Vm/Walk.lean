import Xv6.Vm.Pte

/-!
# Walking and changing page tables

`walk` finds the entry for an address, and creates the page-table pages that
are missing on the way.  It takes them from the free list, and changes no
other entry.
-/

namespace Xv6

variable {m m' m'' : Mem} {root va vb pa a : U64} {ts own own' : List U64}

/-! ## Holdings -/

theorem Held.moves (hh : Held m own) (hm : m.Moves m' own own') : Held m' own' :=
  ⟨hm.apart hh.apart, fun a ha => hh.page a (hm.perm.mem_iff.1 ha)⟩

theorem Held.perm (hh : Held m own) (hp : own'.Perm own) : Held m own' :=
  ⟨hh.apart.perm hp, fun a ha => hh.page a ((hp.append_left m.freelist).mem_iff.1 ha)⟩

theorem Held.sublist (hh : Held m own) (hs : own'.Sublist own) : Held m own' :=
  ⟨hh.apart.sublist hs, fun a ha => hh.page a ((hs.append_left m.freelist).subset ha)⟩

theorem Page.ne_zero {pa : U64} (h : Page pa) : pa ≠ 0 := by
  rintro rfl
  exact absurd h.2.1 (by decide)

theorem Held.of_mem (hh : Held m own) (ha : a ∈ own) : Page a :=
  hh.page a (List.mem_append_right m.freelist ha)

theorem moves_setPage {ws : Fin 512 → U64} (ha : a ∈ own) : m.Moves (m.setPage a ws) own own where
  perm := .rfl
  frame b _ hb := if_neg fun (hba : b = a) => hb (hba ▸ ha)

theorem moves_setWord {i : Fin 512} {w : U64} (ha : a ∈ own) :
    m.Moves (m.setWord a i w) own own := moves_setPage ha

/-! ## The allocator -/

/-- What `kalloc` leaves behind when it hands out the page `r`. -/
def Mem.taken (m : Mem) (r : U64) (next : List U64) : Mem :=
  { m with freelist := next }.setPage r fun _ => (5 : BitVec 8).setWidth 64 * 0x0101010101010101

theorem kalloc_nil (h : m.freelist = []) : kalloc m = .ok (none, m) := by
  unfold kalloc
  refine (Vm.bind_ok (x := get) rfl).trans ?_
  rw [h]
  rfl

theorem kalloc_cons {r : U64} {next : List U64} (h : m.freelist = r :: next) :
    kalloc m = .ok (some r, m.taken r next) := by
  unfold kalloc
  refine (Vm.bind_ok (x := get) rfl).trans ?_
  rw [h]
  rfl

theorem moves_taken {r : U64} {next : List U64} (h : m.freelist = r :: next) :
    m.Moves (m.taken r next) own (r :: own) where
  perm := by
    rw [h]
    exact List.perm_middle
  frame b hb _ := by
    rw [h] at hb
    exact if_neg fun (hbr : b = r) => hb (hbr ▸ List.mem_cons_self)

theorem memsetPage_zero : memsetPage a 0 m = .ok ((), m.setPage a fun _ => 0) := rfl

/-- What `kfree` leaves behind. -/
def Mem.freed (m : Mem) (pa : U64) : Mem :=
  { m.setPage pa fun _ => (1 : BitVec 8).setWidth 64 * 0x0101010101010101 with
    freelist := pa :: m.freelist }

theorem kfree_ok (h : Page pa) : kfree pa m = .ok ((), m.freed pa) := by
  obtain ⟨haligned, hlow, hhigh⟩ := h
  have hmod : pa % PGSIZE = 0 := by
    apply BitVec.eq_of_toNat_eq
    rw [BitVec.toNat_umod]
    exact haligned
  have hcond : ¬ (pa % PGSIZE ≠ 0 ∨ pa < kernelEnd ∨ pa ≥ PHYSTOP) := by
    rintro (h | h | h)
    · exact h hmod
    · exact absurd hlow (BitVec.not_le.2 h)
    · exact absurd hhigh (BitVec.not_lt.2 h)
  unfold kfree
  rw [if_neg hcond]
  rfl

theorem moves_freed : m.Moves (m.freed pa) (pa :: own) own where
  perm := List.perm_middle.symm
  frame b _ hb := if_neg fun (hbpa : b = pa) => hb (hbpa ▸ List.mem_cons_self)

theorem Pagetable.perm (h : Pagetable m root ts) {us : List U64} (hp : ts.Perm us) :
    Pagetable m root us where
  tree := h.tree
  mem a := hp.mem_iff.symm.trans (h.mem a)
  nodup := hp.nodup_iff.1 h.nodup
  page a ha := h.page a (hp.mem_iff.2 ha)
  inner := h.inner
  leaf := h.leaf

/-! ## A new page-table page -/

theorem PTE_V_lt : PTE_V.toNat < 1024 := by decide

/-- A page-table page `r`, put into the free entry `i` of the page `a`. -/
theorem Pagetable.graft {r : U64} {p : List (Fin 512)} {i : Fin 512} (h : Pagetable m root ts)
    (hp : p.length < 2) (ha : m.node root p = some a) (hfree : ¬ Valid (m.page a i))
    (hr : Page r) (hrts : r ∉ ts) (hpage : ∀ b, b ≠ r → b ≠ a → m'.page b = m.page b)
    (hrpage : m'.page r = fun _ => 0)
    (hapage : m'.page a = fun j => if j = i then PA2PTE r ||| PTE_V else m.page a j) :
    Pagetable m' root (r :: ts) ∧ m'.node root (p ++ [i]) = some r ∧
      ∀ va, m'.pte root va = m.pte root va := by
  have hnode : ∀ b, Radix.IsNode pteChild m.page root 2 b → b ≠ r :=
    fun b hb hbr => hrts ((h.mem r).2 (hbr ▸ hb))
  have hane : a ≠ r := hnode a ⟨p, Nat.le_of_lt hp, ha⟩
  have hlink : pteChild (PA2PTE r ||| PTE_V) = some r := by
    rw [pteChild_of_valid (valid_or _), PTE2PA_PA2PTE hr.1 PTE_V_lt]
  have hsame : ∀ b j, b ≠ r → (b = a → j ≠ i) → m'.page b j = m.page b j := by
    intro b j hbr hba
    by_cases hb : b = a
    · rw [hb, hapage]
      exact if_neg (hba hb)
    · rw [hpage b hbr hb]
  have hg : Radix.Grafted pteChild m.page m'.page root 2 p a i r :=
    { parent := ha
      above := hp
      free := pteChild_of_not_valid hfree
      link := by rw [hapage]; exact (congrArg pteChild (if_pos rfl)).trans hlink
      fresh := fun hn => hnode r hn rfl
      empty := fun j => by rw [hrpage]; exact pteChild_of_not_valid not_valid_zero
      same := hsame }
  refine ⟨⟨hg.tree h.tree, fun b => ?_, ?_, ?_, ?_, ?_⟩, hg.node_new h.tree, fun va => ?_⟩
  · rw [List.mem_cons, h.mem]
    exact (hg.isNode_iff h.tree).symm
  · exact List.nodup_cons.2 ⟨hrts, h.nodup⟩
  · intro b hb
    rcases List.mem_cons.1 hb with rfl | hb
    · exact hr
    · exact h.page b hb
  · intro q b j hq hb hvalid
    obtain ⟨-, rfl⟩ | ⟨-, hb⟩ := hg.node_cases h.tree (Nat.le_of_lt hq) hb
    · rw [hrpage] at hvalid
      exact absurd hvalid not_valid_zero
    · by_cases hnew : b = a ∧ j = i
      · rw [hnew.1, hapage]
        exact (congrArg PTE_FLAGS (if_pos hnew.2)).trans (PTE_FLAGS_PA2PTE PTE_V_lt)
      · have hold := hsame b j (hnode b ⟨q, Nat.le_of_lt hq, hb⟩) fun hba hji => hnew ⟨hba, hji⟩
        rw [hold] at hvalid ⊢
        exact h.inner q b j hq hb hvalid
  · intro q b j hq hb hvalid
    obtain ⟨-, rfl⟩ | ⟨-, hb⟩ := hg.node_cases h.tree (Nat.le_of_eq hq) hb
    · rw [hrpage] at hvalid
      exact absurd hvalid not_valid_zero
    · have hba : b ≠ a := fun hba => by
        have := congrArg List.length (h.tree q p a (Nat.le_of_eq hq) (Nat.le_of_lt hp) (hba ▸ hb) ha)
        omega
      rw [hpage b (hnode b ⟨q, Nat.le_of_eq hq, hb⟩) hba] at hvalid ⊢
      exact h.leaf q b j hq hb hvalid
  · have hlen : (vpath 2 va).length = 2 := rfl
    cases hold : m.node root (vpath 2 va) with
    | some b =>
      -- the lowest level is not where the new page hangs
      have hba : b ≠ a := fun hba => by
        have := congrArg List.length
          (h.tree _ p a (Nat.le_of_eq hlen) (Nat.le_of_lt hp) (hba ▸ hold) ha)
        omega
      rw [Mem.pte_eq hold, Mem.pte_eq (hg.node_kept h.tree (Nat.le_of_eq hlen) hold),
        hpage b (hnode b ⟨_, Nat.le_of_eq hlen, hold⟩) hba]
    | none =>
      rw [Mem.pte_of_none hold]
      cases hnew : m'.node root (vpath 2 va) with
      | none => exact Mem.pte_of_none hnew
      | some b =>
        obtain ⟨-, rfl⟩ | ⟨-, hb⟩ := hg.node_cases h.tree (Nat.le_of_eq hlen) hnew
        · rw [Mem.pte_eq hnew, hrpage]
        · cases hold.symm.trans hb

/-! ## Walking -/

/-- `m'` comes from `m` by new page-table pages: the table at `root` consists
of `ts'` now, and its entries are the same. -/
structure Grown (m m' : Mem) (root : U64) (ts ts' : List U64) : Prop where
  table : Pagetable m' root ts'
  moves : m.Moves m' ts ts'
  pte : ∀ va, m'.pte root va = m.pte root va

theorem Grown.refl (h : Pagetable m root ts) : Grown m m root ts ts := ⟨h, .refl, fun _ => rfl⟩

theorem Grown.trans {ts' ts'' : List U64} (h : Grown m m' root ts ts')
    (h' : Grown m' m'' root ts' ts'') : Grown m m'' root ts ts'' :=
  ⟨h'.table, h.moves.trans h'.moves, fun va => (h'.pte va).trans (h.pte va)⟩

/-- The memory after `walk` has put the free page `r` into the entry `i` of
the page `a`. -/
def Mem.linked (m : Mem) (a : U64) (i : Fin 512) (r : U64) (next : List U64) : Mem :=
  ((m.taken r next).setPage r fun _ => 0).setWord a i (PA2PTE r ||| PTE_V)

theorem Pagetable.linked {r : U64} {next : List U64} {p : List (Fin 512)} {i : Fin 512}
    (hh : Held m ts) (h : Pagetable m root ts) (hp : p.length < 2) (ha : m.node root p = some a)
    (hfree : ¬ Valid (m.page a i)) (hr : m.freelist = r :: next) :
    Grown m (m.linked a i r next) root ts (r :: ts) ∧
      (m.linked a i r next).node root (p ++ [i]) = some r := by
  have hrmem : r ∈ m.freelist := hr ▸ List.mem_cons_self
  have hrts : r ∉ ts := fun hts => hh.apart.not_mem hts hrmem
  have hats : a ∈ ts := (h.mem a).2 ⟨p, Nat.le_of_lt hp, ha⟩
  have har : a ≠ r := fun har => hrts (har ▸ hats)
  have hmoves : m.Moves (m.linked a i r next) ts (r :: ts) :=
    (moves_taken hr).trans ((moves_setPage List.mem_cons_self).trans
      (moves_setWord (List.mem_cons_of_mem r hats)))
  have hout : ∀ b, b ≠ r → b ≠ a → (m.linked a i r next).page b = m.page b := by
    intro b hbr hba
    show (if b = a then _ else if b = r then _ else if b = r then _ else m.page b) = _
    rw [if_neg hba, if_neg hbr, if_neg hbr]
  have hrpage : (m.linked a i r next).page r = fun _ => 0 := by
    show (if r = a then _ else if r = r then _ else _) = _
    rw [if_neg har.symm, if_pos rfl]
  have hapage : (m.linked a i r next).page a =
      fun j => if j = i then PA2PTE r ||| PTE_V else m.page a j := by
    show (if a = a then fun j => if j = i then _ else (if a = r then _ else if a = r then _ else
      m.page a : Fin 512 → U64) j else _) = _
    rw [if_pos rfl, if_neg har, if_neg har]
  obtain ⟨htable, hnode, hpte⟩ := h.graft hp ha hfree
    (hh.page r (List.mem_append_left ts hrmem)) hrts hout hrpage hapage
  exact ⟨⟨htable, hmoves, hpte⟩, hnode⟩

theorem vpath_length (l : Nat) (va : U64) : (vpath l va).length = l := by
  induction l with
  | zero => rfl
  | succ l ih => rw [vpath, List.length_cons, ih]

section walkFrom

variable {l : Nat} {alloc : Bool}

theorem walkFrom_valid (hvalid : Valid (m.page a (PX (l + 1) va))) :
    walkFrom va alloc (l + 1) a m =
      walkFrom va alloc l (PTE2PA (m.page a (PX (l + 1) va))) m := by
  show (if Valid (m.page a (PX (l + 1) va)) then
    walkFrom va alloc l (PTE2PA (m.page a (PX (l + 1) va))) else _ : Vm _) m = _
  rw [if_pos hvalid]

theorem walkFrom_none (hvalid : ¬ Valid (m.page a (PX (l + 1) va))) :
    walkFrom va false (l + 1) a m = .ok (none, m) := by
  show (if Valid (m.page a (PX (l + 1) va)) then _ else pure none : Vm _) m = _
  rw [if_neg hvalid]
  rfl

theorem walkFrom_nil (hvalid : ¬ Valid (m.page a (PX (l + 1) va))) (hfree : m.freelist = []) :
    walkFrom va true (l + 1) a m = .ok (none, m) := by
  show (if Valid (m.page a (PX (l + 1) va)) then _ else if (!true) = true then _ else _ : Vm _) m = _
  rw [if_neg hvalid, if_neg (by decide)]
  exact Vm.bind_ok (kalloc_nil hfree)

theorem walkFrom_cons {r : U64} {next : List U64} (hvalid : ¬ Valid (m.page a (PX (l + 1) va)))
    (hfree : m.freelist = r :: next) :
    walkFrom va true (l + 1) a m =
      walkFrom va true l r (m.linked a (PX (l + 1) va) r next) := by
  show (if Valid (m.page a (PX (l + 1) va)) then _ else if (!true) = true then _ else _ : Vm _) m = _
  rw [if_neg hvalid, if_neg (by decide)]
  exact Vm.bind_ok (kalloc_cons hfree)

end walkFrom

/-- The child on the path to `va`. -/
theorem node_child {l : Nat} {p : List (Fin 512)} (ha : m.node root p = some a)
    (hvalid : Valid (m.page a (PX (l + 1) va))) :
    m.node root (p ++ [PX (l + 1) va]) = some (PTE2PA (m.page a (PX (l + 1) va))) := by
  rw [Mem.node, Radix.node_concat]
  show (m.node root p).bind _ = _
  rw [ha]
  exact pteChild_of_valid hvalid

/-- `walk` with `alloc` finds the place of the entry, unless it runs out of
pages. -/
theorem walkFrom_alloc (l : Nat) : ∀ {m : Mem} {ts : List U64} {p : List (Fin 512)} {a : U64},
    Held m ts → Pagetable m root ts → m.node root p = some a → p ++ vpath l va = vpath 2 va →
    ∃ r m' ts', walkFrom va true l a m = .ok (r, m') ∧ Grown m m' root ts ts' ∧
      ts'.length ≤ ts.length + l ∧ (r = none ∧ m'.freelist = [] ∨
        ∃ b, r = some (b, PX 0 va) ∧ m'.node root (vpath 2 va) = some b) := by
  induction l with
  | zero =>
    intro m ts p a hh h ha hp
    rw [vpath, List.append_nil] at hp
    exact ⟨_, m, ts, rfl, .refl h, Nat.le_refl _, .inr ⟨a, rfl, hp ▸ ha⟩⟩
  | succ l ih =>
    intro m ts p a hh h ha hp
    have hlen : p.length < 2 := by
      have := congrArg List.length hp
      rw [List.length_append, vpath_length, vpath_length] at this
      omega
    have hp' : p ++ [PX (l + 1) va] ++ vpath l va = vpath 2 va := by
      rw [← hp, vpath, List.append_assoc, List.singleton_append]
    by_cases hvalid : Valid (m.page a (PX (l + 1) va))
    · obtain ⟨r, m', ts', hrun, hgrown, hlength, hr⟩ := ih hh h (node_child ha hvalid) hp'
      exact ⟨r, m', ts', (walkFrom_valid hvalid).trans hrun, hgrown, by omega, hr⟩
    · cases hfree : m.freelist with
      | nil =>
        exact ⟨none, m, ts, walkFrom_nil hvalid hfree, .refl h, by omega, .inl ⟨rfl, hfree⟩⟩
      | cons r next =>
        obtain ⟨hgrown, hnode⟩ := h.linked hh hlen ha hvalid hfree
        obtain ⟨res, m', ts', hrun, hgrown', hlength, hr⟩ :=
          ih (hh.moves hgrown.moves) hgrown.table hnode hp'
        rw [List.length_cons] at hlength
        exact ⟨res, m', ts', (walkFrom_cons hvalid hfree).trans hrun, hgrown.trans hgrown',
          by omega, hr⟩

theorem walk_alloc (hh : Held m ts) (h : Pagetable m root ts) (hva : va < MAXVA) :
    ∃ r m' ts', walk root va true m = .ok (r, m') ∧ Grown m m' root ts ts' ∧
      ts'.length ≤ ts.length + 2 ∧ (r = none ∧ m'.freelist = [] ∨
        ∃ b, r = some (b, PX 0 va) ∧ m'.node root (vpath 2 va) = some b) := by
  unfold walk
  rw [if_neg (BitVec.not_le.2 hva)]
  exact walkFrom_alloc 2 hh h (p := []) rfl rfl

/-- `walk` without `alloc` follows the path. -/
theorem walkFrom_find (l : Nat) : ∀ {p : List (Fin 512)} {a : U64},
    m.node root p = some a → p ++ vpath l va = vpath 2 va →
    walkFrom va false l a m = .ok ((m.node root (vpath 2 va)).map (·, PX 0 va), m) := by
  induction l with
  | zero =>
    intro p a ha hp
    rw [vpath, List.append_nil] at hp
    rw [← hp, ha]
    rfl
  | succ l ih =>
    intro p a ha hp
    have hp' : p ++ [PX (l + 1) va] ++ vpath l va = vpath 2 va := by
      rw [← hp, vpath, List.append_assoc, List.singleton_append]
    by_cases hvalid : Valid (m.page a (PX (l + 1) va))
    · exact (walkFrom_valid hvalid).trans (ih (node_child ha hvalid) hp')
    · rw [walkFrom_none hvalid, ← hp, vpath]
      have hbelow : m.node root (p ++ PX (l + 1) va :: vpath l va) = none :=
        Radix.node_below_free ha (pteChild_of_not_valid hvalid)
      rw [hbelow]
      rfl

theorem walk_find (hva : va < MAXVA) :
    walk root va false m = .ok ((m.node root (vpath 2 va)).map (·, PX 0 va), m) := by
  unfold walk
  rw [if_neg (BitVec.not_le.2 hva)]
  exact walkFrom_find 2 (p := []) rfl rfl

/-! ## Looking up an address -/

/-- What an entry says about its page. -/
def decode (e : U64) : Option (U64 × U64) :=
  if Valid e then some (PTE2PA e, PTE_FLAGS e) else none

theorem decode_zero : decode 0 = none := if_neg not_valid_zero

theorem decode_eq_none {e : U64} : decode e = none ↔ ¬ Valid e := by
  unfold decode
  split <;> simp_all

theorem decode_eq_some {e : U64} (hvalid : Valid e) : decode e = some (PTE2PA e, PTE_FLAGS e) :=
  if_pos hvalid

/-- The physical page that a user's access to `va` reaches. -/
def Mem.userPage (m : Mem) (root va : U64) : Option U64 :=
  if va < MAXVA then
    (decode (m.pte root va)).bind fun r => if r.2 &&& PTE_U = 0 ∨ r.1 = 0 then none else some r.1
  else
    none

theorem walkaddr_eq : walkaddr root va m = .ok (m.userPage root va, m) := by
  unfold walkaddr Mem.userPage
  by_cases hva : va < MAXVA
  · rw [if_neg (BitVec.not_le.2 hva), if_pos hva]
    refine (Vm.bind_ok (walk_find hva)).trans ?_
    cases ha : m.node root (vpath 2 va) with
    | none =>
      rw [Mem.pte_of_none ha, decode_zero]
      rfl
    | some a =>
      rw [Mem.pte_eq ha]
      show (if m.page a (PX 0 va) &&& PTE_V = 0 then _ else if m.page a (PX 0 va) &&& PTE_U = 0
        then _ else if PTE2PA (m.page a (PX 0 va)) = 0 then _ else _ : Vm _) m = _
      unfold decode
      by_cases hvalid : Valid (m.page a (PX 0 va))
      · have hflags : PTE_FLAGS (m.page a (PX 0 va)) &&& PTE_U = m.page a (PX 0 va) &&& PTE_U :=
          and_PTE_FLAGS _ _ (by decide)
        rw [if_neg hvalid, if_pos hvalid]
        show _ = Except.ok ((if PTE_FLAGS (m.page a (PX 0 va)) &&& PTE_U = 0 ∨
          PTE2PA (m.page a (PX 0 va)) = 0 then _ else _), m)
        rw [hflags]
        by_cases huser : m.page a (PX 0 va) &&& PTE_U = 0
        · rw [if_pos huser, if_pos (.inl huser)]
          rfl
        · rw [if_neg huser]
          by_cases hpa : PTE2PA (m.page a (PX 0 va)) = 0
          · rw [if_pos hpa, if_pos (.inr hpa)]
            rfl
          · rw [if_neg hpa, if_neg fun h => h.elim huser hpa]
            rfl
      · rw [if_pos (not_not.1 hvalid), if_neg hvalid]
        rfl
  · rw [if_pos (BitVec.not_lt.1 hva), if_neg hva]
    rfl

end Xv6
