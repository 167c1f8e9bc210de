import Xv6.Vm.Copy
import Xv6.Vm.Copyout
import Xv6.Vm.ProcRules
import Mathlib.Logic.Relation

/-!
# Parent and child do not share memory

After `uvmcopy` the two address spaces hold different pages, and whatever the
one writes, the other does not see.
-/

namespace Xv6

variable {m m' m'' : Mem} {old new tf tf' : U64} {tso tsn : List U64} {no : Nat}

/-! ## Two address spaces -/

theorem noUser_procTop : NoUser (procTop tf) := by
  intro k
  unfold procTop
  by_cases htf : k = userPages
  · have hflags : PTE_FLAGS (trapframePte tf) = PTE_R ||| PTE_W ||| PTE_V :=
      PTE_FLAGS_mapped (by decide)
    rw [htf, Function.update_self, ← and_PTE_FLAGS _ _ (by decide), hflags]
    decide
  · rw [Function.update_of_ne htf]
    by_cases htr : k = 2 ^ 26 - 1
    · rw [htr, Function.update_self]
      decide
    · rw [Function.update_of_ne htr]
      exact BitVec.zero_and

/-- A write to user memory by the process whose page table is at `root`:
`copyout` in a system call, or a store of its own. -/
inductive UserWrite (root : U64) (m m' : Mem) : Prop
  | copyout {dstva : U64} {src : List (BitVec 8)} {r : Option Unit} :
      copyout root dstva src m = .ok (r, m') → UserWrite root m m'
  | store {va : U64} {b : BitVec 8} {r : Option Unit} :
      userStore root va b m = .ok (r, m') → UserWrite root m m'

theorem UserWrite.wrote {root : U64} {ts : List U64} {n : Nat} {top : Nat → U64}
    (hw : UserWrite root m m') (hs : Space m root ts n top) (htop : NoUser top)
    (hh : Held m (m.upages root n ++ ts)) : Wrote m m' (m.upages root n) := by
  cases hw with
  | @copyout dstva src r hrun =>
    obtain ⟨r', m₁, hrun', hdone⟩ := copyout_spec hs htop hh dstva src
    rw [hrun] at hrun'
    obtain ⟨-, rfl⟩ : r = r' ∧ m' = m₁ := by simpa using hrun'
    exact hdone.pages
  | @store va b r hrun =>
    obtain ⟨r', m₁, hrun', hwrote⟩ := userStore_spec hs htop va b
    rw [hrun] at hrun'
    obtain ⟨-, rfl⟩ : r = r' ∧ m' = m₁ := by simpa using hrun'
    exact hwrote

/-- Two processes with address spaces of `no` pages that share no page. -/
structure Separate (m : Mem) (old new : U64) (tso tsn : List U64) (no : Nat) (tf tf' : U64) :
    Prop where
  first : Space m old tso no (procTop tf)
  second : Space m new tsn no (procTop tf')
  held : Held m ((m.upages old no ++ tso) ++ (m.upages new no ++ tsn))

theorem Separate.symm (h : Separate m old new tso tsn no tf tf') :
    Separate m new old tsn tso no tf' tf :=
  ⟨h.second, h.first, h.held.perm List.perm_append_comm⟩

/-- What the first process writes, the second does not see. -/
theorem Separate.write (h : Separate m old new tso tsn no tf tf') (hw : UserWrite old m m') :
    Separate m' old new tso tsn no tf tf' ∧ ∀ va, userByte m' new va = userByte m new va := by
  have hown : Held m (m.upages old no ++ tso) := h.held.sublist (List.sublist_append_left _ _)
  have hwrote := hw.wrote h.first noUser_procTop hown
  obtain ⟨hold, hpte, hup, -⟩ := h.first.wrote hown hwrote
  have hkeep : ∀ a ∈ m.upages new no ++ tsn, m'.page a = m.page a := fun a ha =>
    hwrote.other a fun hmem => (List.nodup_append.1 h.held.apart.nodup_own).2.2 a
      (List.mem_append_left tso hmem) a ha rfl
  obtain ⟨hnew, hpte'⟩ := h.second.frame fun a ha => hkeep a (List.mem_append_right _ ha)
  have hup' : m'.upages new no = m.upages new no := upages_congr fun k _ => hpte' _
  refine ⟨⟨hold, hnew, ?_⟩, fun va => ?_⟩
  · rw [hup, hup']
    exact h.held.moves (hwrote.moves fun a ha =>
      List.mem_append_left _ (List.mem_append_left tso ha))
  · rw [userByte_eq, userByte_eq, userPage_congr hpte']
    cases hpa : m.userPage new va with
    | none => rfl
    | some pa =>
      obtain ⟨-, hvpn, rfl⟩ := h.second.userPage_eq_some noUser_procTop hpa
      show some (m'.byte _ _) = some (m.byte _ _)
      unfold Mem.byte
      rw [hkeep _ (List.mem_append_left tsn (mem_upages hvpn))]

/-- The writes of both processes, in any order. -/
abbrev Writes (old new : U64) : Mem → Mem → Prop :=
  Relation.ReflTransGen fun m m' => UserWrite old m m' ∨ UserWrite new m m'

theorem Separate.writes (h : Separate m old new tso tsn no tf tf') (hw : Writes old new m m') :
    Separate m' old new tso tsn no tf tf' := by
  induction hw with
  | refl => exact h
  | tail _ hstep ih =>
    obtain hstep | hstep := hstep
    · exact (ih.write hstep).1
    · exact (ih.symm.write hstep).1.symm

/-! ## `uvmcopy` -/

/-- The byte at `va` of an address space, whether or not its process may
read it. -/
def byteAt (m : Mem) (root va : U64) : BitVec 8 :=
  m.byte (PTE2PA (m.pte root va)) (va.toNat % 4096)

/-- What a `uvmcopy` that succeeds gives the child. -/
structure Cloned (m m' : Mem) (old new sz : U64) : Prop where
  /-- The same virtual pages, with the same flags. -/
  pages : ∀ va, vpn va < userPages →
    (decode (m'.pte new va)).map Prod.snd = (decode (m.pte old va)).map Prod.snd
  /-- The same bytes. -/
  bytes : ∀ va < sz, byteAt m' new va = byteAt m old va
  /-- The parent's memory is as before. -/
  parent : ∀ va, m'.pte old va = m.pte old va ∧ (va < sz → byteAt m' old va = byteAt m old va)
  /-- No physical page is in both. -/
  apart : ∀ va < sz, ∀ vb < sz, PTE2PA (m'.pte new va) ≠ PTE2PA (m'.pte old vb)
  /-- No later write by the one is visible to the other. -/
  isolated : ∀ m₁, Writes old new m' m₁ →
    (∀ m₂, UserWrite new m₁ m₂ → ∀ va, userByte m₂ old va = userByte m₁ old va) ∧
    ∀ m₂, UserWrite old m₁ m₂ → ∀ va, userByte m₂ new va = userByte m₁ new va

/-- What a `uvmcopy` that fails leaves: nothing is mapped for the user, and
what was free is free again, the page-table pages of the child apart. -/
structure Undone (m m' : Mem) (old new sz : U64) : Prop where
  unmapped : ∀ va, vpn va < userPages → m'.pte new va = 0
  free : ∀ a ∈ m.freelist, a ∈ m'.freelist ∨ Radix.IsNode pteChild m'.page new 2 a
  parent : ∀ va, m'.pte old va = m.pte old va ∧ (va < sz → byteAt m' old va = byteAt m old va)

theorem vpn_lt_pages {va sz : U64} (hva : va < sz) (hsz : pages sz ≤ userPages) :
    vpn va < pages sz := by
  rw [BitVec.lt_def] at hva
  unfold vpn
  unfold pages userPages at *
  omega

/-- `uvmcopy` from the address space of a process of any size, whose pages are
all different, into that of a new process. -/
theorem uvmcopy_clones {sz : U64} (hso : Space m old tso no (procTop tf))
    (hsn : Space m new tsn 0 (procTop tf')) (hsz : pages sz = no)
    (hh : Held m (tsn ++ (m.upages old no ++ tso))) :
    ∃ r m', uvmcopy old new sz m = .ok (r, m') ∧
      (r = some () ∧ Cloned m m' old new sz ∨ r = none ∧ Undone m m' old new sz) := by
  obtain ⟨r, m', tsn', hrun, hr⟩ := uvmcopy_spec hso hsn hsz hh
  have hlow : ∀ va < sz, vpn va < no := fun va hva => hsz ▸ vpn_lt_pages hva (hsz ▸ hso.fits)
  have hparent : (∀ a ∈ m.upages old no ++ tso, m'.page a = m.page a) →
      ∀ va, m'.pte old va = m.pte old va ∧ (va < sz → byteAt m' old va = byteAt m old va) := by
    intro hkeep va
    obtain ⟨-, hpte⟩ := hso.frame fun a ha => hkeep a (List.mem_append_right _ ha)
    refine ⟨hpte va, fun hva => ?_⟩
    unfold byteAt Mem.byte
    rw [hpte, pte_pageAt (hlow va hva) hso.fits,
      hkeep _ (List.mem_append_left tso (mem_upages (hlow va hva)))]
  refine ⟨r, m', hrun, ?_⟩
  obtain ⟨hr, hs', hmoves, hcopy⟩ | ⟨hr, hs', hmoves⟩ := hr
  · have hkeep := fun a (ha : a ∈ m.upages old no ++ tso) => hmoves.keeps hh.apart ha
    obtain ⟨hso', hpte⟩ := hso.frame fun a ha => hkeep a (List.mem_append_right _ ha)
    have hup : m'.upages old no = m.upages old no := upages_congr fun k _ => hpte _
    have hsep : Separate m' old new tso tsn' no tf tf' := by
      refine ⟨hso', hs', (hh.moves (hmoves.extend _)).perm ?_⟩
      rw [hup]
      exact List.perm_append_comm
    refine .inl ⟨hr, ⟨fun va hva => ?_, fun va hva => ?_, hparent hkeep, fun va hva vb hvb heq => ?_,
      fun m₁ hw => ?_⟩⟩
    · rcases Nat.lt_or_ge (vpn va) no with hlt | hge
      · rw [pte_pageAt hlt hs'.fits, pte_pageAt hlt hso.fits,
          decode_eq_some (hs'.user _ hlt), decode_eq_some (hso.user _ hlt)]
        show some (PTE_FLAGS _) = some (PTE_FLAGS _)
        rw [hcopy.flags _ (Nat.zero_le _) hlt]
      · rw [hs'.above va hge, hso.above va hge, hs'.hole _ hva, hso.hole _ hva]
    · have hlt := hlow va hva
      unfold byteAt Mem.byte
      rw [pte_pageAt hlt hs'.fits, pte_pageAt hlt hso.fits, hcopy.bytes _ (Nat.zero_le _) hlt]
    · rw [pte_pageAt (hlow va hva) hs'.fits, pte_pageAt (hlow vb hvb) hso.fits] at heq
      exact (List.nodup_append.1 hsep.held.apart.nodup_own).2.2 _
        (List.mem_append_left tso (mem_upages (hlow vb hvb))) _
        (List.mem_append_left tsn' (mem_upages (hlow va hva))) heq.symm
    · have hsep₁ := hsep.writes hw
      exact ⟨fun m₂ hw₂ => (hsep₁.symm.write hw₂).2, fun m₂ hw₂ => (hsep₁.write hw₂).2⟩
  · have hkeep := fun a (ha : a ∈ m.upages old no ++ tso) => hmoves.keeps hh.apart ha
    refine .inr ⟨hr, ⟨fun va hva => ?_, fun a ha => ?_, hparent hkeep⟩⟩
    · rw [hs'.above va (Nat.zero_le _), hs'.hole _ hva]
    · have hmem := hmoves.mem_iff.2 (.inl ha)
      exact hmem.imp_right (hs'.table.mem a).1

/-- A process with one page of memory, and a new one. -/
def parentAndChild : Vm (Option (U64 × U64)) := do
  match ← Vm.procPagetable 0x87ffe000 with
  | none => return none
  | some old =>
    match ← uvmalloc old 0 PGSIZE PTE_W with
    | none => return none
    | some _ =>
      match ← Vm.procPagetable 0x87fff000 with
      | none => return none
      | some new => return some (old, new)

theorem parentAndChild_ok : ∃ m old new tso tsn,
    parentAndChild (firstFree 20) = .ok (some (old, new), m) ∧
      Space m old tso 1 (procTop 0x87ffe000) ∧ Space m new tsn 0 (procTop 0x87fff000) ∧
      Held m (tsn ++ (m.upages old 1 ++ tso)) := by
  have hresult : (parentAndChild (firstFree 20)).toOption.map (·.1.isSome) = some true := by
    decide +kernel
  have hzero : pages 0 = 0 := by decide
  have hone : pages PGSIZE = 1 := by decide
  have hheld := held_firstFree (n := 20) (by decide)
  obtain ⟨r, m₁, hrun₁, hr⟩ := procPagetable_spec 0x87ffe000 hheld
  obtain ⟨-, hfew, -⟩ | ⟨old, tso, rfl, -, hso, hmoves₁⟩ := hr
  · exact absurd hfew (by decide)
  have hh₁ := hheld.moves hmoves₁
  obtain ⟨r, m₂, tso₂, hrun₂, hr⟩ := uvmalloc_spec PGSIZE PTE_W hso (Nat.zero_le _) hzero
    (by decide) hh₁
  obtain ⟨hlt, -⟩ | ⟨-, rfl, hadded, hmoves₂⟩ | ⟨rfl, -⟩ := hr
  · exact absurd hlt (by decide)
  · rw [hone, List.drop_zero] at hmoves₂
    rw [hone] at hadded
    have hh₂ := hh₁.moves hmoves₂
    obtain ⟨r, m₃, hrun₃, hr⟩ := procPagetable_spec 0x87fff000
      (hh₂.sublist (List.nil_sublist _))
    have hrun : parentAndChild (firstFree 20) = .ok (r.map fun new => (old, new), m₃) := by
      refine (Vm.bind_ok hrun₁).trans ((Vm.bind_ok hrun₂).trans ((Vm.bind_ok hrun₃).trans ?_))
      cases r <;> rfl
    obtain ⟨rfl, -⟩ | ⟨new, tsn, rfl, -, hsn, hmoves₃⟩ := hr
    · rw [hrun] at hresult
      cases hresult
    · have hkeep := fun a (ha : a ∈ m₂.upages old 1 ++ tso₂) => hmoves₃.keeps hh₂.apart ha
      obtain ⟨hso₃, hpte⟩ := hadded.space.frame fun a ha => hkeep a (List.mem_append_right _ ha)
      have hup : m₃.upages old 1 = m₂.upages old 1 := upages_congr fun k _ => hpte _
      refine ⟨m₃, old, new, tso₂, tsn, hrun, hso₃, hsn, ?_⟩
      rw [hup]
      exact hh₂.moves (hmoves₃.extend _)
  · have hrun : parentAndChild (firstFree 20) = .ok (none, m₂) :=
      (Vm.bind_ok hrun₁).trans (Vm.bind_ok hrun₂)
    rw [hrun] at hresult
    cases hresult

theorem uvmcopy_clones_one : ∃ m old new,
    parentAndChild (firstFree 20) = .ok (some (old, new), m) ∧
      ∃ r m', uvmcopy old new PGSIZE m = .ok (r, m') ∧
        (r = some () ∧ Cloned m m' old new PGSIZE ∨
          r = none ∧ Undone m m' old new PGSIZE) := by
  obtain ⟨m, old, new, tso, tsn, hrun, hso, hsn, hh⟩ := parentAndChild_ok
  have hone : pages PGSIZE = 1 := by decide
  exact ⟨m, old, new, hrun, uvmcopy_clones hso hsn hone hh⟩

end Xv6
