import Xv6.Vm.Space
import Xv6.Radix.Nodes

/-!
# Freeing an address space

`freewalk` frees the pages of a page table in the order of `Radix.nodes`, each
of them once.
-/

namespace Xv6

variable {m m' : Mem} {root va vb a b c : U64} {ts own : List U64} {n d : Nat} {top : Nat → U64}

/-! ## The pages of a page table -/

/-- The last `n` indices of a page-table page, as `freewalk` goes through
them. -/
def lastIdx : Nat → List (Fin 512)
  | 0 => []
  | n + 1 => Fin.ofNat 512 (512 - (n + 1)) :: lastIdx n

theorem mem_lastIdx (hn : n ≤ 512) {i : Fin 512} : i ∈ lastIdx n ↔ 512 - n ≤ i.val := by
  induction n with
  | zero =>
    have hi := i.isLt
    simp only [lastIdx, List.not_mem_nil, false_iff]
    omega
  | succ n ih =>
    have hval : (Fin.ofNat 512 (512 - (n + 1))).val = 512 - (n + 1) := by
      rw [Fin.val_ofNat]
      omega
    rw [lastIdx, List.mem_cons, ih (by omega), Fin.ext_iff, hval]
    omega

theorem nodup_lastIdx (hn : n ≤ 512) : (lastIdx n).Nodup := by
  induction n with
  | zero => exact List.nodup_nil
  | succ n ih =>
    rw [lastIdx, List.nodup_cons, mem_lastIdx (by omega), Fin.val_ofNat]
    exact ⟨by omega, ih (by omega)⟩

theorem mem_lastIdx_all (i : Fin 512) : i ∈ lastIdx 512 :=
  (mem_lastIdx (Nat.le_refl 512)).2 (by omega)

/-- The pages of the page table at `a`, down to depth `d`. -/
abbrev Mem.nodes (m : Mem) (d : Nat) (a : U64) : List U64 :=
  Radix.nodes pteChild (lastIdx 512) m.page d a

/-- The pages below the last `n` entries of the page at `a`. -/
abbrev Mem.nodesBelow (m : Mem) (d : Nat) (a : U64) (n : Nat) : List U64 :=
  Radix.nodesBelow pteChild (m.nodes d) m.page a (lastIdx n)

theorem Pagetable.nodes_perm (h : Pagetable m root ts) : (m.nodes 2 root).Perm ts := by
  refine (List.perm_ext_iff_of_nodup ?_ h.nodup).2 fun b => ?_
  · exact Radix.nodup_nodes mem_lastIdx_all (nodup_lastIdx (Nat.le_refl 512)) h.tree
  · rw [h.mem]
    exact Radix.mem_nodes mem_lastIdx_all

/-- A page table without leaves: what `freewalk` can free. -/
def Walkable (m : Mem) : Nat → U64 → Prop
  | 0, a => Page a ∧ ∀ i, ¬ Valid (m.page a i)
  | d + 1, a => Page a ∧ ∀ i, Valid (m.page a i) →
      ¬ Leaf (m.page a i) ∧ Walkable m d (PTE2PA (m.page a i))

theorem Walkable.page (hf : Walkable m d a) : Page a := by
  cases d with
  | zero => exact hf.1
  | succ d => exact hf.1

theorem Walkable.congr (hf : Walkable m d a) (heq : ∀ b ∈ m.nodes d a, m'.page b = m.page b) :
    Walkable m' d a := by
  induction d generalizing a with
  | zero =>
    have hself := heq a Radix.mem_nodes_self
    exact ⟨hf.1, fun i => by rw [hself]; exact hf.2 i⟩
  | succ d ih =>
    have hself := heq a Radix.mem_nodes_self
    refine ⟨hf.1, fun i hvalid => ?_⟩
    rw [hself] at hvalid ⊢
    refine ⟨(hf.2 i hvalid).1, ih (hf.2 i hvalid).2 fun b hb => heq b ?_⟩
    rw [Mem.nodes, Radix.nodes]
    exact List.mem_append_left _ (Radix.mem_nodesBelow.2
      ⟨i, mem_lastIdx_all i, _, pteChild_of_valid hvalid, hb⟩)

/-- Every entry of the lowest level is that of an address. -/
theorem exists_va (p : List (Fin 512)) (hp : p.length = 2) (i : Fin 512) :
    ∃ va, vpath 2 va = p ∧ PX 0 va = i := by
  obtain ⟨j, k, rfl⟩ := List.length_eq_two.1 hp
  have hlt : j.val * 2 ^ 18 + k.val * 2 ^ 9 + i.val < 2 ^ 27 := by omega
  have htoNat := pageAt_toNat (k := j.val * 2 ^ 18 + k.val * 2 ^ 9 + i.val) (by omega)
  refine ⟨pageAt (j.val * 2 ^ 18 + k.val * 2 ^ 9 + i.val), ?_, ?_⟩
  · have hj : PX 2 (pageAt (j.val * 2 ^ 18 + k.val * 2 ^ 9 + i.val)) = j := by
      rw [Fin.ext_iff, PX_val, htoNat]
      omega
    have hk : PX 1 (pageAt (j.val * 2 ^ 18 + k.val * 2 ^ 9 + i.val)) = k := by
      rw [Fin.ext_iff, PX_val, htoNat]
      omega
    rw [vpath, vpath, vpath, hj, hk]
  · rw [Fin.ext_iff, PX_val, htoNat]
    omega

theorem Pagetable.walkable (h : Pagetable m root ts) (hnone : ∀ va, ¬ Valid (m.pte root va))
    (d : Nat) : ∀ {p : List (Fin 512)} {a : U64}, p.length + d = 2 → m.node root p = some a →
    Walkable m d a := by
  induction d with
  | zero =>
    intro p a hp ha
    refine ⟨h.page a ((h.mem a).2 ⟨p, Nat.le_of_eq hp, ha⟩), fun i hvalid => ?_⟩
    obtain ⟨va, hpath, rfl⟩ := exists_va p hp i
    rw [← hpath] at ha
    rw [← Mem.pte_eq ha] at hvalid
    exact hnone va hvalid
  | succ d ih =>
    intro p a hp ha
    refine ⟨h.page a ((h.mem a).2 ⟨p, by omega, ha⟩), fun i hvalid => ⟨?_, ?_⟩⟩
    · have hflags := h.inner p a i (by omega) ha hvalid
      unfold Leaf
      rw [← and_PTE_FLAGS _ _ (by decide), hflags]
      decide
    · refine ih (p := p ++ [i]) (by rw [List.length_append, List.length_singleton]; omega) ?_
      rw [Mem.node, Radix.node_concat]
      show (m.node root p).bind _ = _
      rw [ha]
      exact pteChild_of_valid hvalid

/-! ## `freewalk` -/

/-- What freeing the pages `ps` one after the other leaves. -/
structure Freed (m m' : Mem) (ps : List U64) : Prop where
  free : m'.freelist = ps.reverse ++ m.freelist
  kept : ∀ b, b ∉ ps → m'.page b = m.page b

/-- What the loop of `freewalk` over the last `n` entries of the page at `a`
leaves: the page itself has changed, too. -/
structure FreedBelow (m m' : Mem) (a : U64) (ps : List U64) : Prop where
  free : m'.freelist = ps.reverse ++ m.freelist
  kept : ∀ b, b ∉ ps → b ≠ a → m'.page b = m.page b

section entries

variable {child : U64 → Vm Unit}

theorem freewalkEntries_skip (hvalid : ¬ Valid (m.page a (Fin.ofNat 512 (512 - (n + 1))))) :
    freewalkEntries child a (n + 1) m = freewalkEntries child a n m := by
  conv => lhs; unfold freewalkEntries
  show (if _ ≠ 0 ∧ _ then _ else if Valid (m.page a (Fin.ofNat 512 (512 - (n + 1)))) then _
    else _ : Vm Unit) m = _
  rw [if_neg fun h => hvalid h.1, if_neg hvalid]

theorem freewalkEntries_child (hvalid : Valid (m.page a (Fin.ofNat 512 (512 - (n + 1)))))
    (hinner : ¬ Leaf (m.page a (Fin.ofNat 512 (512 - (n + 1)))))
    (hrun : child (PTE2PA (m.page a (Fin.ofNat 512 (512 - (n + 1))))) m = .ok ((), m')) :
    freewalkEntries child a (n + 1) m =
      freewalkEntries child a n (m'.setWord a (Fin.ofNat 512 (512 - (n + 1))) 0) := by
  conv => lhs; unfold freewalkEntries
  show (if m.page a (Fin.ofNat 512 (512 - (n + 1))) &&& PTE_V ≠ 0 ∧
    m.page a (Fin.ofNat 512 (512 - (n + 1))) &&& (PTE_R ||| PTE_W ||| PTE_X) = 0 then _
    else _ : Vm Unit) m = _
  rw [if_pos ⟨hvalid, not_not.1 hinner⟩]
  exact Vm.bind_ok hrun

theorem freewalkEntries_none (n : Nat) (hnone : ∀ i, ¬ Valid (m.page a i)) :
    freewalkEntries child a n m = .ok ((), m) := by
  induction n with
  | zero => rfl
  | succ n ih => rw [freewalkEntries_skip (hnone _), ih]

theorem freewalkEntries_spec (hchild : ∀ {m : Mem} {c : U64}, Walkable m d c →
      (m.nodes d c).Nodup → ∃ m', child c m = .ok ((), m') ∧ Freed m m' (m.nodes d c))
    (n : Nat) : ∀ {m : Mem}, n ≤ 512 →
    (∀ i ∈ lastIdx n, Valid (m.page a i) →
      ¬ Leaf (m.page a i) ∧ Walkable m d (PTE2PA (m.page a i))) →
    (m.nodesBelow d a n).Nodup → a ∉ m.nodesBelow d a n →
    ∃ m', freewalkEntries child a n m = .ok ((), m') ∧
      FreedBelow m m' a (m.nodesBelow d a n) := by
  induction n with
  | zero => exact fun _ _ _ _ => ⟨_, rfl, rfl, fun _ _ _ => rfl⟩
  | succ n ih =>
    intro m hn hfree hnodup ha
    have hrest : ∀ i ∈ lastIdx n, i ∈ lastIdx (n + 1) := fun i hi => List.mem_cons_of_mem _ hi
    have hsplit : m.nodesBelow d a (n + 1) =
        Radix.entryNodes pteChild (m.nodes d) m.page a (Fin.ofNat 512 (512 - (n + 1))) ++
          m.nodesBelow d a n := rfl
    rw [hsplit] at hnodup ha ⊢
    rw [List.mem_append, not_or] at ha
    obtain ⟨hnodup₁, hnodup₂, hdisj⟩ := List.nodup_append.1 hnodup
    by_cases hvalid : Valid (m.page a (Fin.ofNat 512 (512 - (n + 1))))
    · obtain ⟨hinner, hf⟩ := hfree _ List.mem_cons_self hvalid
      have hentry : Radix.entryNodes pteChild (m.nodes d) m.page a
          (Fin.ofNat 512 (512 - (n + 1))) =
            m.nodes d (PTE2PA (m.page a (Fin.ofNat 512 (512 - (n + 1))))) := by
        unfold Radix.entryNodes
        rw [pteChild_of_valid hvalid]
        rfl
      rw [hentry] at hnodup₁ hdisj ha ⊢
      obtain ⟨m₁, hrun, hfreed⟩ := hchild hf hnodup₁
      -- the entries still to come, and the pages below them, are as before
      have hlater : ∀ i ∈ lastIdx n,
          (m₁.setWord a (Fin.ofNat 512 (512 - (n + 1))) 0).page a i = m.page a i := by
        intro i hi
        have hne : i ≠ Fin.ofNat 512 (512 - (n + 1)) := fun h =>
          (List.nodup_cons.1 (nodup_lastIdx hn)).1 (h ▸ hi)
        show (if a = a then (fun j => if j = _ then 0 else m₁.page a j) else _ : Fin 512 → U64) i = _
        rw [if_pos rfl]
        show (if i = _ then 0 else m₁.page a i) = _
        rw [if_neg hne, hfreed.kept a ha.1]
      have hout : ∀ b, b ∉ m.nodes d (PTE2PA (m.page a (Fin.ofNat 512 (512 - (n + 1))))) →
          b ≠ a → (m₁.setWord a (Fin.ofNat 512 (512 - (n + 1))) 0).page b = m.page b := by
        intro b hb hba
        show (if b = a then _ else m₁.page b) = _
        rw [if_neg hba, hfreed.kept b hb]
      have hbelow : ∀ i ∈ lastIdx n, ∀ c, pteChild (m.page a i) = some c → ∀ b ∈ m.nodes d c,
          (m₁.setWord a (Fin.ofNat 512 (512 - (n + 1))) 0).page b = m.page b := by
        intro i hi c hc b hb
        have hmem : b ∈ m.nodesBelow d a n := Radix.mem_nodesBelow.2 ⟨i, hi, c, hc, hb⟩
        exact hout b (fun hb' => hdisj b hb' b hmem rfl) fun hba => ha.2 (hba ▸ hmem)
      have hsame : (m₁.setWord a (Fin.ofNat 512 (512 - (n + 1))) 0).nodesBelow d a n =
          m.nodesBelow d a n := by
        refine Radix.nodesBelow_congr (fun i hi => hlater i hi) fun i hi c hc => ?_
        exact Radix.nodes_congr fun b hb j => congrFun (hbelow i hi c hc b hb) j
      obtain ⟨m', hloop, hdone⟩ := ih (m := m₁.setWord a (Fin.ofNat 512 (512 - (n + 1))) 0)
        (by omega) (by
          intro i hi hv
          rw [hlater i hi] at hv ⊢
          obtain ⟨hl, hfi⟩ := hfree i (hrest i hi) hv
          exact ⟨hl, hfi.congr (hbelow i hi _ (pteChild_of_valid hv))⟩)
        (hsame ▸ hnodup₂) (hsame ▸ ha.2)
      rw [hsame] at hdone
      refine ⟨m', (freewalkEntries_child hvalid hinner hrun).trans hloop, ?_, fun b hb hba => ?_⟩
      · rw [hdone.free, List.reverse_append, List.append_assoc, ← hfreed.free]
        rfl
      · rw [List.mem_append, not_or] at hb
        rw [hdone.kept b hb.2 hba, hout b hb.1 hba]
    · have hentry : Radix.entryNodes pteChild (m.nodes d) m.page a
          (Fin.ofNat 512 (512 - (n + 1))) = [] := by
        unfold Radix.entryNodes
        rw [pteChild_of_not_valid hvalid]
        rfl
      rw [hentry, List.nil_append, freewalkEntries_skip hvalid]
      exact ih (by omega) (fun i hi => hfree i (hrest i hi)) hnodup₂ ha.2

end entries

/-- `freewalk` frees the pages of the page table, and no others. -/
theorem freewalk_spec (d : Nat) : ∀ {m : Mem} {a : U64}, Walkable m d a → (m.nodes d a).Nodup →
    ∃ m', freewalk (d + 1) a m = .ok ((), m') ∧ Freed m m' (m.nodes d a) := by
  induction d with
  | zero =>
    intro m a hf _
    refine ⟨m.freed a, ?_, rfl, fun b hb => if_neg fun (hba : b = a) =>
      hb (hba ▸ Radix.mem_nodes_self)⟩
    unfold freewalk
    exact (Vm.bind_ok (freewalkEntries_none 512 hf.2)).trans (kfree_ok hf.page)
  | succ d ih =>
    intro m a hf hnodup
    have hsplit : m.nodes (d + 1) a = m.nodesBelow d a 512 ++ [a] := rfl
    rw [hsplit] at hnodup ⊢
    obtain ⟨hnodup', -, hdisj⟩ := List.nodup_append.1 hnodup
    have ha : a ∉ m.nodesBelow d a 512 := fun ha => hdisj a ha a (List.mem_singleton_self a) rfl
    obtain ⟨m₁, hrun, hbelow⟩ := freewalkEntries_spec (fun hf hn => ih hf hn) 512 (Nat.le_refl 512)
      (fun i _ hv => hf.2 i hv) hnodup' ha
    refine ⟨m₁.freed a, ?_, ?_, fun b hb => ?_⟩
    · unfold freewalk
      exact (Vm.bind_ok hrun).trans (kfree_ok hf.page)
    · show a :: m₁.freelist = _
      rw [hbelow.free, List.reverse_append]
      rfl
    · rw [List.mem_append, List.mem_singleton, not_or] at hb
      show (if b = a then _ else m₁.page b) = _
      rw [if_neg hb.2, hbelow.kept b hb.1 hb.2]

/-- A page table without leaves, freed. -/
theorem freewalk_table (h : Pagetable m root ts) (hnone : ∀ va, ¬ Valid (m.pte root va)) :
    ∃ m', freewalk 3 root m = .ok ((), m') ∧ m.Moves m' ts [] := by
  have hperm := h.nodes_perm
  have hfree : Walkable m 2 root := h.walkable hnone 2 (p := []) rfl rfl
  obtain ⟨m', hrun, hfreed⟩ := freewalk_spec 2 hfree
    (hperm.nodup_iff.2 h.nodup)
  refine ⟨m', hrun, ?_, fun b _ hb => hfreed.kept b fun hmem => hb (hperm.mem_iff.1 hmem)⟩
  rw [hfreed.free, List.append_nil]
  exact List.perm_append_comm.trans
    (((List.reverse_perm _).trans hperm).append_left m.freelist)

/-- An address space that maps nothing above its pages, freed. -/
theorem uvmfree_spec {sz : U64} (hs : Space m root ts n top) (htop : ∀ k, ¬ Valid (top k))
    (hsz : pages sz = n) (hh : Held m (m.upages root n ++ ts)) :
    ∃ m', uvmfree root sz m = .ok ((), m') ∧ m.Moves m' (m.upages root n ++ ts) [] := by
  have hfits : n ≤ 2 ^ 26 - 2 := hs.fits
  have hnone : ∀ {m' : Mem}, Space m' root ts 0 top → ∀ va, ¬ Valid (m'.pte root va) := by
    intro m' hs' va
    rw [hs'.above va (Nat.zero_le _)]
    exact htop _
  unfold uvmfree
  by_cases hpos : sz > 0
  · have hup : PGROUNDUP sz = pageAt n := hsz ▸ PGROUNDUP_eq (pages_le (hsz ▸ hs.fits))
    have hcount : PGROUNDUP sz / PGSIZE = BitVec.ofNat 64 (n - 0) := by
      apply BitVec.eq_of_toNat_eq
      rw [hup, BitVec.toNat_udiv, pageAt_toNat (by omega), BitVec.toNat_ofNat,
        show PGSIZE.toNat = 4096 from rfl]
      omega
    obtain ⟨m₁, hrun, hs₁, hmoves, -⟩ := hs.pop (Nat.zero_le n) hh
    obtain ⟨m', hwalk, hmoves'⟩ := freewalk_table hs₁.table (hnone hs₁)
    refine ⟨m', ?_, hmoves.trans hmoves'⟩
    rw [if_pos hpos, hcount]
    exact (Vm.bind_ok hrun).trans hwalk
  · have hzero : sz = 0 := by
      apply BitVec.eq_of_toNat_eq
      have := BitVec.not_lt.1 hpos
      rw [BitVec.le_def] at this
      exact Nat.le_zero.1 this
    obtain rfl : n = 0 := by
      rw [← hsz, hzero]
      decide
    obtain ⟨m', hwalk, hmoves⟩ := freewalk_table hs.table (hnone hs)
    refine ⟨m', ?_, hmoves⟩
    rw [if_neg hpos]
    exact hwalk

end Xv6
