import Xv6.Vm.Proc
import Xv6.Vm.Copy

/-!
# Creating and freeing the memory of a process

Each function either does its work or gives back what it has taken.
-/

namespace Xv6

variable {m m' : Mem} {root tf : U64} {ts own : List U64} {n : Nat} {top : Nat → U64}

/-! ## The top of an address space -/

theorem TRAMPOLINE_eq : TRAMPOLINE = pageAt (2 ^ 26 - 1) := by decide

theorem TRAPFRAME_eq : TRAPFRAME = pageAt userPages := by decide

def trampolinePte : U64 := mapped trampolinePa (PTE_R ||| PTE_X)

def trapframePte (tf : U64) : U64 := mapped tf (PTE_R ||| PTE_W)

/-- What a process maps above its memory: the trampoline and its trapframe. -/
def procTop (tf : U64) : Nat → U64 :=
  Function.update (Function.update (fun _ => 0) (2 ^ 26 - 1) trampolinePte) userPages
    (trapframePte tf)

theorem procTop_trampoline : procTop tf (2 ^ 26 - 1) = trampolinePte := by
  unfold procTop
  rw [Function.update_of_ne (by decide), Function.update_self]

theorem procTop_trapframe : procTop tf userPages = trapframePte tf := Function.update_self ..

/-! ## Creating a page table -/

/-- An empty page table, freed. -/
theorem Space.free_empty (hs : Space m root ts 0 fun _ => 0) (hh : Held m ts) :
    ∃ m', uvmfree root 0 m = .ok ((), m') ∧ m.Moves m' ts [] := by
  have hsz : pages 0 = 0 := by decide
  obtain ⟨m', hrun, hmoves⟩ := uvmfree_spec hs (fun _ => not_valid_zero) hsz hh
  exact ⟨m', hrun, hmoves⟩

/-- One page mapped above an address space, or nothing changed. -/
theorem Space.mapTop_spec (v : Nat) (pa perm : U64) (hs : Space m root ts n top)
    (hv : userPages ≤ v) (hv' : v < 2 ^ 26) (hfree : top v = 0) (hperm : Leaf perm)
    (hh : Held m ts) :
    ∃ r m' ts', mappages root (pageAt v) PGSIZE pa perm m = .ok (r, m') ∧ m.Moves m' ts ts' ∧
      ts'.length ≤ ts.length + 2 ∧
      (r = some () ∧ Space m' root ts' n (Function.update top v (mapped pa perm)) ∨
        r = none ∧ m'.freelist = [] ∧ Space m' root ts' n top) := by
  have hfits := hs.fits
  have hvpn : vpn (pageAt v) = v := vpn_pageAt (by omega)
  have hnot : ¬ Valid (m.pte root (pageAt v)) := by
    rw [hs.above _ (by omega), hvpn, hfree]
    exact not_valid_zero
  obtain ⟨r, m', ts', hrun, htable, hmoves, hsmall, hr⟩ := mapPage_spec pa hh hs.table hv'
    hperm hnot
  refine ⟨r, m', ts', hrun, hmoves, hsmall, ?_⟩
  obtain ⟨hr, hpte⟩ | ⟨hr, hnil, hpte⟩ := hr
  · exact .inl ⟨hr, (hs.mapTop hv htable hpte).1⟩
  · exact .inr ⟨hr, hnil, hs.congr htable hpte⟩

theorem procPagetable_spec (tf : U64) (hh : Held m []) :
    ∃ r m', Vm.procPagetable tf m = .ok (r, m') ∧
      (r = none ∧ m.freelist.length ≤ 5 ∧ m.Moves m' [] [] ∨
        ∃ root ts, r = some root ∧ ts.length ≤ 5 ∧ Space m' root ts 0 (procTop tf) ∧
          m.Moves m' [] ts) := by
  unfold Vm.procPagetable
  obtain ⟨hnone, hnil⟩ | ⟨root, m₁, hcreate, htable, hpte, hmoves₁⟩ := uvmcreate_spec hh
  · exact ⟨none, m, Vm.bind_ok hnone, .inl ⟨rfl, by rw [hnil]; exact Nat.zero_le 5, .refl⟩⟩
  have hs₁ := Space.empty htable hpte
  have hh₁ := hh.moves hmoves₁
  obtain ⟨r, m₂, ts₂, hrun₂, hmoves₂, hsmall₂, ⟨rfl, hs₂⟩ | ⟨rfl, hnil, hs₂⟩⟩ :=
    hs₁.mapTop_spec (2 ^ 26 - 1) trampolinePa (PTE_R ||| PTE_X) (by decide) (by decide) rfl
      (by decide) hh₁
  · rw [← TRAMPOLINE_eq] at hrun₂
    have hmoves₂' := hmoves₁.trans hmoves₂
    have hh₂ := hh.moves hmoves₂'
    obtain ⟨r, m₃, ts₃, hrun₃, hmoves₃, hsmall₃, ⟨rfl, hs₃⟩ | ⟨rfl, hnil, hs₃⟩⟩ :=
      hs₂.mapTop_spec userPages tf (PTE_R ||| PTE_W) (Nat.le_refl _) (by decide)
        (Function.update_of_ne (by decide) ..) (by decide) hh₂
    · rw [← TRAPFRAME_eq] at hrun₃
      refine ⟨some root, m₃, ?_, .inr ⟨root, ts₃, rfl, ?_, hs₃,
        hmoves₂'.trans hmoves₃⟩⟩
      · refine (Vm.bind_ok hcreate).trans ((Vm.bind_ok hrun₂).trans ?_)
        exact Vm.bind_ok hrun₃
      · rw [List.length_singleton] at hsmall₂
        omega
    · rw [← TRAPFRAME_eq] at hrun₃
      have hmoves₃' := hmoves₂'.trans hmoves₃
      have hh₃ := hh.moves hmoves₃'
      obtain ⟨m₄, hrun₄, hs₄, hmoves₄, -⟩ := hs₃.unmapTop (2 ^ 26 - 1) (by decide) (by decide)
        (by rw [Function.update_self]; decide) hh₃
      rw [Function.update_idem, Function.update_eq_self_iff.2 rfl] at hs₄
      rw [← TRAMPOLINE_eq] at hrun₄
      have hmoves₄' := hmoves₃'.trans hmoves₄
      obtain ⟨m₅, hrun₅, hmoves₅⟩ := hs₄.free_empty (hh.moves hmoves₄')
      refine ⟨none, m₅, ?_, .inl ⟨rfl, ?_, hmoves₄'.trans hmoves₅⟩⟩
      · refine (Vm.bind_ok hcreate).trans ((Vm.bind_ok hrun₂).trans ?_)
        exact (Vm.bind_ok hrun₃).trans ((Vm.bind_ok hrun₄).trans (Vm.bind_ok hrun₅))
      · have hlength := hmoves₃'.length_eq
        rw [hnil, List.length_nil] at hlength
        rw [List.length_singleton] at hsmall₂
        omega
  · rw [← TRAMPOLINE_eq] at hrun₂
    have hmoves₂' := hmoves₁.trans hmoves₂
    have hh₂ := hh.moves hmoves₂'
    obtain ⟨m₃, hrun₃, hmoves₃⟩ := hs₂.free_empty hh₂
    refine ⟨none, m₃, ?_, .inl ⟨rfl, ?_, hmoves₂'.trans hmoves₃⟩⟩
    · refine (Vm.bind_ok hcreate).trans ((Vm.bind_ok hrun₂).trans ?_)
      exact Vm.bind_ok hrun₃
    · have hlength := hmoves₂'.length_eq
      rw [hnil, List.length_nil] at hlength
      rw [List.length_singleton] at hsmall₂
      omega

/-! ## Freeing a process -/

theorem procFreepagetable_spec {sz : U64} (hs : Space m root ts n (procTop tf))
    (hsz : pages sz = n) (hh : Held m (m.upages root n ++ ts)) :
    ∃ m', Vm.procFreepagetable root sz m = .ok ((), m') ∧
      m.Moves m' (m.upages root n ++ ts) [] := by
  have hts : Held m ts := hh.sublist (List.sublist_append_right _ _)
  have htrampoline : Valid (procTop tf (2 ^ 26 - 1)) := by
    rw [procTop_trampoline]
    exact valid_mapped
  obtain ⟨m₁, hrun₁, hs₁, hmoves₁, hup₁⟩ :=
    hs.unmapTop (2 ^ 26 - 1) (by decide) (by decide) htrampoline hts
  rw [← TRAMPOLINE_eq] at hrun₁
  have htrapframe : Valid (Function.update (procTop tf) (2 ^ 26 - 1) 0 userPages) := by
    rw [Function.update_of_ne (by decide), procTop_trapframe]
    exact valid_mapped
  obtain ⟨m₂, hrun₂, hs₂, hmoves₂, hup₂⟩ :=
    hs₁.unmapTop userPages (Nat.le_refl _) (by decide) htrapframe (hts.moves hmoves₁)
  rw [← TRAPFRAME_eq] at hrun₂
  have hnone : ∀ k, ¬ Valid (Function.update (Function.update (procTop tf) (2 ^ 26 - 1) 0)
      userPages 0 k) := by
    intro k
    by_cases h₁ : k = userPages
    · rw [h₁, Function.update_self]
      exact not_valid_zero
    · rw [Function.update_of_ne h₁]
      by_cases h₂ : k = 2 ^ 26 - 1
      · rw [h₂, Function.update_self]
        exact not_valid_zero
      · rw [Function.update_of_ne h₂]
        unfold procTop
        rw [Function.update_of_ne h₁, Function.update_of_ne h₂]
        exact not_valid_zero
  have hmoves : m.Moves m₂ (m.upages root n ++ ts) (m₂.upages root n ++ ts) := by
    rw [hup₂, hup₁]
    exact ((hmoves₁.trans hmoves₂).extend (m.upages root n)).congr List.perm_append_comm
      List.perm_append_comm
  obtain ⟨m₃, hrun₃, hmoves₃⟩ := uvmfree_spec hs₂ hnone hsz (hh.moves hmoves)
  exact ⟨m₃, (Vm.bind_ok hrun₁).trans ((Vm.bind_ok hrun₂).trans hrun₃), hmoves.trans hmoves₃⟩

/-- The pages of a process with the page-table pages `ts`: its user pages, its
page table and its trapframe. -/
def Mem.ownedBy (m : Mem) (p : Vm.Image) (ts : List U64) : List U64 :=
  m.upages p.pagetable (pages p.sz) ++ ts ++ [p.trapframe]

/-- The memory of a process in use. -/
structure Alive (m : Mem) (p : Vm.Image) (ts : List U64) : Prop where
  space : Space m p.pagetable ts (pages p.sz) (procTop p.trapframe)
  held : Held m (m.ownedBy p ts)

/-- A process whose pages are left alone. -/
theorem Alive.frame {p : Vm.Image} (ha : Alive m p ts) (hkeep : ∀ b ∈ ts, m'.page b = m.page b)
    (hh : Held m' (m.ownedBy p ts)) : Alive m' p ts ∧ m'.ownedBy p ts = m.ownedBy p ts := by
  obtain ⟨hs, hpte⟩ := ha.space.frame hkeep
  have hown : m'.ownedBy p ts = m.ownedBy p ts := by
    unfold Mem.ownedBy
    rw [upages_congr fun k _ => hpte _]
  exact ⟨⟨hs, hown ▸ hh⟩, hown⟩

theorem freeproc_pages {p : Vm.Image} (ha : Alive m p ts) :
    ∃ m', Vm.freeproc p.sz (some p.pagetable) (some p.trapframe) m = .ok ((), m') ∧
      m.Moves m' (m.ownedBy p ts) [] := by
  have hpage : Page p.trapframe := ha.held.of_mem (List.mem_append_right _ List.mem_cons_self)
  have hout : ∀ b ∈ ts, (m.freed p.trapframe).page b = m.page b := by
    intro b hb
    refine if_neg fun (heq : b = p.trapframe) => ?_
    exact (List.nodup_append.1 ha.held.apart.nodup_own).2.2 b (List.mem_append_right _ hb)
      p.trapframe List.mem_cons_self heq
  obtain ⟨hs, hpte⟩ := ha.space.frame hout
  have hup : (m.freed p.trapframe).upages p.pagetable (pages p.sz) =
      m.upages p.pagetable (pages p.sz) := upages_congr fun k _ => hpte _
  have hmoves : m.Moves (m.freed p.trapframe) (m.ownedBy p ts)
      ((m.freed p.trapframe).upages p.pagetable (pages p.sz) ++ ts) := by
    rw [hup]
    exact moves_freed.congr List.perm_append_comm .rfl
  obtain ⟨m', hrun, hmoves'⟩ := procFreepagetable_spec hs rfl (ha.held.moves hmoves)
  refine ⟨m', ?_, hmoves.trans hmoves'⟩
  unfold Vm.freeproc
  exact (Vm.bind_ok (kfree_ok hpage)).trans hrun

/-! ## Creating a process -/

theorem allocproc_pages (hh : Held m []) :
    ∃ r m', Vm.allocproc m = .ok (r, m') ∧
      (r = none ∧ m.freelist.length ≤ 6 ∧ m.Moves m' [] [] ∨
        ∃ p ts, r = some p ∧ p.sz = 0 ∧ ts.length ≤ 5 ∧ Alive m' p ts ∧
          m.Moves m' [] (ts ++ [p.trapframe])) := by
  unfold Vm.allocproc
  cases hfree : m.freelist with
  | nil =>
    refine ⟨none, m, ?_, .inl ⟨rfl, Nat.zero_le _, .refl⟩⟩
    refine (Vm.bind_ok (kalloc_nil hfree)).trans ?_
    rfl
  | cons t next =>
    have hmoves₁ : m.Moves (m.taken t next) [] [t] := moves_taken hfree
    have hh₁ := hh.moves hmoves₁
    have hpage : Page t := hh₁.of_mem List.mem_cons_self
    obtain ⟨r, m₂, hrun₂, hr⟩ := procPagetable_spec t (hh₁.sublist (List.nil_sublist [t]))
    obtain ⟨rfl, hfew, hmoves₂⟩ | ⟨root, ts, rfl, hsmall, hs, hmoves₂⟩ := hr
    · have hmoves : m.Moves m₂ [] [t] := hmoves₁.trans (hmoves₂.extend [t])
      refine ⟨none, m₂.freed t, ?_, .inl ⟨rfl, ?_, hmoves.trans moves_freed⟩⟩
      · have hback : Vm.freeproc 0 none (some t) m₂ = .ok ((), m₂.freed t) :=
          Vm.bind_ok (kfree_ok hpage)
        refine (Vm.bind_ok (kalloc_cons hfree)).trans ((Vm.bind_ok hrun₂).trans ?_)
        exact Vm.bind_ok hback
      · rw [List.length_cons]
        exact Nat.succ_le_succ hfew
    · have hmoves : m.Moves m₂ [] (ts ++ [t]) := hmoves₁.trans (hmoves₂.extend [t])
      have hzero : pages 0 = 0 := by decide
      have halive : Alive m₂ ⟨0, root, t⟩ ts := by
        constructor
        · show Space m₂ root ts (pages 0) (procTop t)
          rw [hzero]
          exact hs
        · unfold Mem.ownedBy
          rw [hzero]
          exact hh.moves hmoves
      refine ⟨some ⟨0, root, t⟩, m₂, ?_, .inr ⟨⟨0, root, t⟩, ts, rfl, rfl, hsmall, halive,
        hmoves⟩⟩
      refine (Vm.bind_ok (kalloc_cons hfree)).trans ((Vm.bind_ok hrun₂).trans ?_)
      rfl

/-! ## Growing a process -/

/-- The process `p'` comes from `p` by a change of its size. -/
structure Resized (m m' : Mem) (p p' : Vm.Image) (ts ts' : List U64) : Prop where
  pagetable : p'.pagetable = p.pagetable
  trapframe : p'.trapframe = p.trapframe
  alive : Alive m' p' ts'
  moves : m.Moves m' (m.ownedBy p ts) (m'.ownedBy p' ts')

theorem Resized.refl {p : Vm.Image} (ha : Alive m p ts) : Resized m m p p ts ts :=
  ⟨rfl, rfl, ha, .refl⟩

/-- `uvmalloc` has added pages to a process. -/
theorem Alive.added {p p' : Vm.Image} {ts' : List U64} {perm : U64} (ha : Alive m p ts)
    (hpt : p'.pagetable = p.pagetable) (htf : p'.trapframe = p.trapframe)
    (hle : pages p.sz ≤ pages p'.sz)
    (hadded : Added m m' p.pagetable ts' (pages p.sz) (pages p'.sz) (procTop p.trapframe) perm)
    (hmoves : m.Moves m' ts
      ((m'.upages p.pagetable (pages p'.sz)).drop (pages p.sz) ++ ts')) :
    Resized m m' p p' ts ts' := by
  have hall : m.Moves m' (m.ownedBy p ts) (m'.ownedBy p' ts') := by
    unfold Mem.ownedBy
    rw [hpt, htf]
    exact (hadded.moves hle hmoves).extend [p.trapframe]
  refine ⟨hpt, htf, ⟨?_, ha.held.moves hall⟩, hall⟩
  rw [hpt, htf]
  exact hadded.space

/-- `uvmdealloc` has taken pages away from a process. -/
theorem Alive.removed {p p' : Vm.Image} (ha : Alive m p ts) (hpt : p'.pagetable = p.pagetable)
    (htf : p'.trapframe = p.trapframe) (hle : pages p'.sz ≤ pages p.sz)
    (hs : Space m' p.pagetable ts (pages p'.sz) (procTop p.trapframe))
    (hkeep : ∀ va, vpn va < pages p'.sz → m'.pte p.pagetable va = m.pte p.pagetable va)
    (hmoves : m.Moves m' ((m.upages p.pagetable (pages p.sz)).drop (pages p'.sz) ++ ts) ts) :
    Resized m m' p p' ts ts := by
  have hfits := ha.space.fits
  have hold : m'.upages p.pagetable (pages p'.sz) =
      (m.upages p.pagetable (pages p.sz)).take (pages p'.sz) := by
    rw [take_upages hle]
    refine upages_congr fun k hk => hkeep _ ?_
    rw [vpn_pageAt (by unfold userPages at hfits; omega)]
    exact hk
  have hall : m.Moves m' (m.ownedBy p ts) (m'.ownedBy p' ts) := by
    have hperm : (m.ownedBy p ts).Perm ((m.upages p.pagetable (pages p.sz)).drop (pages p'.sz) ++
        ts ++ (m'.upages p.pagetable (pages p'.sz) ++ [p.trapframe])) := by
      unfold Mem.ownedBy
      rw [hold]
      conv => lhs; rw [← List.take_append_drop (pages p'.sz) (m.upages p.pagetable (pages p.sz))]
      rw [List.perm_iff_count]
      intro b
      simp only [List.count_append]
      omega
    refine (hmoves.extend (m'.upages p.pagetable (pages p'.sz) ++ [p.trapframe])).congr hperm ?_
    unfold Mem.ownedBy
    rw [hpt, htf, ← List.append_assoc]
    exact List.perm_append_comm.append_right _
  refine ⟨hpt, htf, ⟨?_, ha.held.moves hall⟩, hall⟩
  rw [hpt, htf]
  exact hs

/-! ## Copying a process -/

/-- Writes to the trapframe of a process. -/
theorem Alive.setTrapframe {p : Vm.Image} (ha : Alive m p ts)
    (hkeep : ∀ b, b ≠ p.trapframe → m'.page b = m.page b) (hfree : m'.freelist = m.freelist) :
    Alive m' p ts ∧ m.Moves m' (m.ownedBy p ts) (m'.ownedBy p ts) := by
  have hmem : p.trapframe ∈ m.ownedBy p ts := List.mem_append_right _ List.mem_cons_self
  have hmoves : m.Moves m' (m.ownedBy p ts) (m.ownedBy p ts) := by
    refine ⟨by rw [hfree], fun b _ hb => hkeep b fun heq => hb (heq ▸ hmem)⟩
  have hnot : p.trapframe ∉ ts := fun hts =>
    (List.nodup_append.1 ha.held.apart.nodup_own).2.2 _ (List.mem_append_right _ hts) _
      List.mem_cons_self rfl
  obtain ⟨ha', hown⟩ := ha.frame (fun b hb => hkeep b fun heq => hnot (heq ▸ hb))
    (ha.held.moves hmoves)
  rw [hown]
  exact ⟨ha', hmoves⟩

theorem fork_spec {p : Vm.Image} (ha : Alive m p ts) :
    ∃ r m', Vm.fork p m = .ok (r, m') ∧
      (r = none ∧ m.Moves m' [] [] ∨
        ∃ np ts', r = some np ∧ np.sz = p.sz ∧ Alive m' np ts' ∧
          m.Moves m' [] (m'.ownedBy np ts')) := by
  obtain ⟨r, m₁, hrun₁, hr⟩ := allocproc_pages (ha.held.sublist (List.nil_sublist _))
  unfold Vm.fork
  obtain ⟨rfl, -, hmoves₁⟩ | ⟨np, tsn, rfl, hsz, -, hnp, hmoves₁⟩ := hr
  · exact ⟨none, m₁, Vm.bind_ok hrun₁, .inl ⟨rfl, hmoves₁⟩⟩
  have hzero : pages np.sz = 0 := by
    rw [hsz]
    decide
  have hmoves₁' := hmoves₁.extend (m.ownedBy p ts)
  have hh₁ := ha.held.moves hmoves₁'
  have hold : Alive m₁ p ts ∧ m₁.ownedBy p ts = m.ownedBy p ts :=
    ha.frame (fun b hb => hmoves₁.keeps ha.held.apart (List.mem_append_left _
      (List.mem_append_right _ hb))) (hh₁.sublist (List.sublist_append_right _ _))
  obtain ⟨hold, hown⟩ := hold
  have hspace : Space m₁ np.pagetable tsn 0 (procTop np.trapframe) := hzero ▸ hnp.space
  rw [← hown] at hh₁
  have hcopy : Held m₁ (tsn ++ (m₁.upages p.pagetable (pages p.sz) ++ ts)) :=
    hh₁.sublist ((List.sublist_append_left _ _).append (List.sublist_append_left _ _))
  obtain ⟨r, m₂, tsn', hrun₂, hr⟩ := uvmcopy_spec hold.space hspace rfl hcopy
  have hnew : Held m₁ (tsn ++ [np.trapframe]) := hh₁.sublist (List.sublist_append_left _ _)
  obtain ⟨rfl, hs₂, hmoves₂, -⟩ | ⟨rfl, hs₂, hmoves₂⟩ := hr
  · -- the child has the pages of its memory
    have hall : m.Moves m₂ [] (m₂.ownedBy { np with sz := p.sz } tsn') :=
      hmoves₁.trans (hmoves₂.extend [np.trapframe])
    have halive₂ : Alive m₂ { np with sz := p.sz } tsn' :=
      ⟨hs₂, (ha.held.sublist (List.nil_sublist _)).moves hall⟩
    -- the saved registers, and `a0`
    let m₃ := m₂.setPage np.trapframe fun i =>
      if i.val < Vm.trapframeWords then m₂.page p.trapframe i else m₂.page np.trapframe i
    have hkeep : ∀ b, b ≠ np.trapframe →
        (m₃.setWord np.trapframe Vm.trapframeA0 0).page b = m₂.page b :=
      fun b hb => (if_neg hb).trans (if_neg hb)
    obtain ⟨halive₃, hmoves₃⟩ := halive₂.setTrapframe hkeep rfl
    refine ⟨some { np with sz := p.sz }, m₃.setWord np.trapframe Vm.trapframeA0 0, ?_,
      .inr ⟨_, tsn', rfl, rfl, halive₃, hall.trans hmoves₃⟩⟩
    exact (Vm.bind_ok hrun₁).trans ((Vm.bind_ok hrun₂).trans rfl)
  · have hall : m₁.Moves m₂ (tsn ++ [np.trapframe]) (m₂.ownedBy np tsn') := by
      unfold Mem.ownedBy
      rw [hzero]
      exact hmoves₂.extend [np.trapframe]
    have halive₂ : Alive m₂ np tsn' := ⟨hzero.symm ▸ hs₂, hnew.moves hall⟩
    obtain ⟨m₃, hrun₃, hmoves₃⟩ := freeproc_pages halive₂
    refine ⟨none, m₃, ?_, .inl ⟨rfl, hmoves₁.trans (hall.trans hmoves₃)⟩⟩
    exact (Vm.bind_ok hrun₁).trans ((Vm.bind_ok hrun₂).trans (Vm.bind_ok hrun₃))

end Xv6
