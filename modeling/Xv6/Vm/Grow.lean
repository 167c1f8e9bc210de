import Xv6.Vm.Isolation

/-!
# Growing and shrinking a process

`growproc` of `kernel/proc.c` and the system call `sbrk` above it.  The size
of a process is unsigned and the request is signed, so the sum is exact as
long as it is not below zero.
-/

namespace Xv6

variable {m m' : Mem} {ts ts' : List U64}

namespace Vm

/-- The system call `sbrk`: the old size or `-1`, and the process after it. -/
def sysSbrk (p : Image) (n : BitVec 32) : Vm (U64 × Image) := do
  let addr := p.sz
  match ← growproc p n with
  | none => return (-1, p)
  | some p' => return (addr, p')

end Vm

/-! ## The sum -/

theorem toNat_add_signExtend (sz : U64) (n : BitVec 32) :
    ((sz + n.signExtend 64).toNat : Int) = (sz.toNat + n.toInt) % 2 ^ 64 := by
  have hn : ((n.signExtend 64).toNat : Int) = n.toInt % 2 ^ 64 := by
    unfold BitVec.signExtend
    rw [BitVec.toNat_ofInt]
    omega
  rw [BitVec.toNat_add]
  omega

/-- A request that the size can meet gives the exact sum. -/
theorem add_signExtend_exact {sz : U64} {n : BitVec 32} (hsz : sz.toNat < 2 ^ 32)
    (hn : -(n.toInt) ≤ sz.toNat) : ((sz + n.signExtend 64).toNat : Int) = sz.toNat + n.toInt := by
  have hlt := n.toInt_lt
  rw [toNat_add_signExtend]
  omega

/-- A request to shrink below zero wraps around to a larger size. -/
theorem add_signExtend_wraps {sz : U64} {n : BitVec 32} (hsz : sz.toNat < 2 ^ 32)
    (hn : sz.toNat < -(n.toInt)) : sz ≤ sz + n.signExtend 64 := by
  have hle := n.le_toInt
  have hsum := toNat_add_signExtend sz n
  rw [BitVec.le_def]
  omega

/-! ## What `growproc` answers -/

/-- The user finds the same pages, with the same bytes in them. -/
def SameView (m m' : Mem) (root : U64) : Prop :=
  ∀ va, m'.pte root va = m.pte root va ∧ userByte m' root va = userByte m root va

/-- The answer `r` of `growproc` is as asked: the size is the exact sum, or
nothing has changed. -/
def AsAsked (m m' : Mem) (p : Vm.Image) (n : BitVec 32) : Option Vm.Image → Prop
  | some p' => (p'.sz.toNat : Int) = p.sz.toNat + n.toInt
  | none => SameView m m' p.pagetable

theorem Alive.pages_le {p : Vm.Image} (ha : Alive m p ts) : pages p.sz ≤ 32768 := by
  have hle := ha.held.length_le
  unfold Mem.ownedBy at hle
  simp only [List.length_append, length_upages] at hle
  omega

theorem Alive.sz_lt {p : Vm.Image} (ha : Alive m p ts) : p.sz.toNat < 2 ^ 32 := by
  have hle := ha.pages_le
  unfold pages at hle
  omega

/-- A page of the user is neither free nor part of the page table. -/
theorem Alive.apart {p : Vm.Image} {a : U64} (ha : Alive m p ts)
    (hmem : a ∈ m.upages p.pagetable (pages p.sz)) : a ∉ m.freelist ∧ a ∉ ts := by
  have hown : a ∈ m.ownedBy p ts := List.mem_append_left _ (List.mem_append_left _ hmem)
  have hnodup := ha.held.apart.nodup_own
  unfold Mem.ownedBy at hnodup
  rw [List.append_assoc] at hnodup
  constructor
  · exact ha.held.apart.not_mem hown
  · intro hts
    exact (List.nodup_append.1 hnodup).2.2 a hmem a (List.mem_append_left _ hts) rfl

/-- A failure of `uvmalloc` is not seen by the user. -/
theorem Alive.sameView {p : Vm.Image} {perm : U64} (ha : Alive m p ts)
    (hadded : Added m m' p.pagetable ts' (pages p.sz) (pages p.sz) (procTop p.trapframe) perm)
    (hmoves : m.Moves m' ts ts') : SameView m m' p.pagetable := by
  have hpte : ∀ va, m'.pte p.pagetable va = m.pte p.pagetable va := by
    intro va
    by_cases hva : vpn va < pages p.sz
    · exact hadded.kept va hva
    · rw [hadded.space.above va (by omega), ha.space.above va (by omega)]
  intro va
  refine ⟨hpte va, ?_⟩
  rw [userByte_eq, userByte_eq, userPage_congr hpte]
  cases hpage : m.userPage p.pagetable va with
  | none => rfl
  | some pa =>
    obtain ⟨-, hlt, rfl⟩ := ha.space.userPage_eq_some noUser_procTop hpage
    obtain ⟨hfree, hts⟩ := ha.apart (mem_upages hlt)
    simp [Mem.byte, hmoves.frame _ hfree hts]

/-! ## The three kinds of request -/

theorem growproc_more {p : Vm.Image} {n : BitVec 32} (ha : Alive m p ts) (hn : 0 < n.toInt) :
    ∃ r m' ts', Vm.growproc p n m = .ok (r, m') ∧ Resized m m' p (r.getD p) ts ts' ∧
      AsAsked m m' p n r := by
  have hts : Held m ts := ha.held.sublist
    ((List.sublist_append_right _ ts).trans (List.sublist_append_left _ _))
  have hsum := add_signExtend_exact (n := n) ha.sz_lt (by omega)
  have hle : ¬ p.sz + n.signExtend 64 < p.sz := by
    rw [BitVec.lt_def]
    omega
  have hpos : p.sz + n.signExtend 64 ≠ 0 := by
    intro hzero
    rw [hzero] at hsum
    simp at hsum
    omega
  unfold Vm.growproc
  rw [if_pos hn]
  obtain ⟨r, m', ts', hrun, hr⟩ := uvmalloc_spec (p.sz + n.signExtend 64) PTE_W ha.space
    ha.pages_le rfl (by decide) hts
  rcases hr with ⟨hlt, -⟩ | ⟨hmono, rfl, hadded, hmoves⟩ | ⟨rfl, hadded, hmoves⟩
  · exact absurd hlt hle
  · refine ⟨some { p with sz := p.sz + n.signExtend 64 }, m', ts', ?_, ?_, hsum⟩
    · refine (Vm.bind_ok hrun).trans ?_
      simp only [if_neg hpos]
      rfl
    · exact ha.added rfl rfl (pages_mono (BitVec.le_def.1 hmono)) hadded hmoves
  · -- the page-table pages made on the way stay, but they map nothing
    refine ⟨none, m', ts', Vm.bind_ok hrun, ?_, ha.sameView hadded hmoves⟩
    have hnone : (m'.upages p.pagetable (pages p.sz)).drop (pages p.sz) = [] :=
      List.drop_of_length_le (Nat.le_of_eq length_upages)
    refine ha.added rfl rfl (Nat.le_refl _) hadded ?_
    show m.Moves m' ts ((m'.upages p.pagetable (pages p.sz)).drop (pages p.sz) ++ ts')
    rw [hnone]
    exact hmoves

theorem growproc_less {p : Vm.Image} {n : BitVec 32} (ha : Alive m p ts) (hn : n.toInt < 0)
    (hsz : -n.toInt ≤ p.sz.toNat) :
    ∃ p' m' ts', Vm.growproc p n m = .ok (some p', m') ∧ Resized m m' p p' ts ts' ∧
      (p'.sz.toNat : Int) = p.sz.toNat + n.toInt := by
  have hsum := add_signExtend_exact ha.sz_lt hsz
  have hlt : p.sz + n.signExtend 64 < p.sz := by
    rw [BitVec.lt_def]
    omega
  have hdrop : Held m ((m.upages p.pagetable (pages p.sz)).drop
      (pages (p.sz + n.signExtend 64)) ++ ts) :=
    ha.held.sublist (((List.drop_sublist _ _).append_right ts).trans
      (List.sublist_append_left _ _))
  obtain ⟨m', hrun, hs', hmoves, hkeep⟩ := uvmdealloc_spec ha.space rfl hlt hdrop
  refine ⟨{ p with sz := p.sz + n.signExtend 64 }, m', ts, ?_, ?_, hsum⟩
  · unfold Vm.growproc
    rw [if_neg (by omega), if_pos hn]
    exact Vm.bind_ok hrun
  · exact ha.removed rfl rfl (pages_mono (Nat.le_of_lt (BitVec.lt_def.1 hlt))) hs' hkeep hmoves

/-- A request below zero answers that all is well, and does nothing. -/
theorem growproc_below {p : Vm.Image} {n : BitVec 32} (ha : Alive m p ts)
    (hsz : p.sz.toNat < -n.toInt) : Vm.growproc p n m = .ok (some p, m) := by
  have hn : n.toInt < 0 := by omega
  unfold Vm.growproc
  rw [if_neg (by omega), if_pos hn]
  unfold uvmdealloc
  rw [if_pos (add_signExtend_wraps ha.sz_lt hsz)]
  rfl

theorem growproc_spec {p : Vm.Image} (ha : Alive m p ts) (n : BitVec 32) :
    ∃ r m' ts', Vm.growproc p n m = .ok (r, m') ∧ Resized m m' p (r.getD p) ts ts' ∧
      (AsAsked m m' p n r ↔ -n.toInt ≤ p.sz.toNat) := by
  by_cases hpos : 0 < n.toInt
  · obtain ⟨r, m', ts', hrun, hresized, hasked⟩ := growproc_more ha hpos
    exact ⟨r, m', ts', hrun, hresized, fun _ => by omega, fun _ => hasked⟩
  by_cases hsz : p.sz.toNat < -n.toInt
  · refine ⟨some p, m, ts, growproc_below ha hsz, .refl ha, fun hasked => ?_, fun hle => ?_⟩
    · have hsame : (p.sz.toNat : Int) = p.sz.toNat + n.toInt := hasked
      omega
    · omega
  by_cases hneg : n.toInt < 0
  · obtain ⟨p', m', ts', hrun, hresized, hsum⟩ := growproc_less ha hneg (by omega)
    exact ⟨some p', m', ts', hrun, hresized, fun _ => by omega, fun _ => hsum⟩
  · have hzero : n.toInt = 0 := by omega
    refine ⟨some p, m, ts, ?_, .refl ha, fun _ => by omega, fun _ => ?_⟩
    · unfold Vm.growproc
      rw [if_neg hpos, if_neg hneg]
      rfl
    · show (p.sz.toNat : Int) = p.sz.toNat + n.toInt
      omega

/-- Both `growproc` and `sbrk` do what they are asked for, or fail and change
nothing, exactly when the request does not take the size below zero. -/
theorem sbrk_asAsked_iff {p : Vm.Image} (ha : Alive m p ts) (n : BitVec 32) :
    ∃ r m', Vm.growproc p n m = .ok (r, m') ∧
      Vm.sysSbrk p n m = .ok ((r.elim (-1) fun _ => p.sz, r.getD p), m') ∧
      (AsAsked m m' p n r ↔ -n.toInt ≤ p.sz.toNat) := by
  obtain ⟨r, m', ts', hrun, -, hiff⟩ := growproc_spec ha n
  refine ⟨r, m', hrun, (Vm.bind_ok hrun).trans ?_, hiff⟩
  cases r <;> rfl

/-! ## A process of one page -/

/-- A new process that asks for its first page. -/
def onePage : Vm (Option Vm.Image) := do
  match ← Vm.allocproc with
  | none => return none
  | some p => Vm.growproc p 4096

theorem onePage_ok : ∃ m p ts, onePage (firstFree 16) = .ok (some p, m) ∧ Alive m p ts ∧
    p.sz = 4096 := by
  have hresult : (onePage (firstFree 16)).toOption.map (·.1.map (·.sz)) = some (some 4096) := by
    decide +kernel
  obtain ⟨r, m₁, hrun₁, ⟨-, hfew, -⟩ | ⟨p, ts, rfl, -, -, halive, -⟩⟩ :=
    allocproc_pages (held_firstFree (n := 16) (by decide))
  · exact absurd hfew (by decide)
  obtain ⟨r, m₂, ts₂, hrun₂, hresized, -⟩ := growproc_spec halive 4096
  have hrun : onePage (firstFree 16) = .ok (r, m₂) := (Vm.bind_ok hrun₁).trans hrun₂
  rw [hrun] at hresult
  cases r with
  | none => cases hresult
  | some p' =>
    exact ⟨m₂, p', ts₂, hrun, hresized.alive, Option.some.inj (Option.some.inj hresult)⟩

theorem sbrk_asAsked_iff_onePage : ∃ m p, onePage (firstFree 16) = .ok (some p, m) ∧
    ∃ r m', Vm.growproc p (-8192) m = .ok (r, m') ∧
      Vm.sysSbrk p (-8192) m = .ok ((r.elim (-1) fun _ => p.sz, r.getD p), m') ∧
      (AsAsked m m' p (-8192) r ↔ -(-8192 : BitVec 32).toInt ≤ p.sz.toNat) := by
  obtain ⟨m, p, ts, hrun, halive, -⟩ := onePage_ok
  exact ⟨m, p, hrun, sbrk_asAsked_iff halive (-8192)⟩

/-- The process of one page gives up two: `sbrk` answers the old size, which
means success, and the process keeps its page. -/
theorem sbrk_below_succeeds : ∃ m p ts, Alive m p ts ∧ p.sz = 4096 ∧
    Vm.growproc p (-8192) m = .ok (some p, m) ∧ Vm.sysSbrk p (-8192) m = .ok ((4096, p), m) ∧
    ¬ AsAsked m m p (-8192) (some p) := by
  obtain ⟨m, p, ts, -, halive, hsz⟩ := onePage_ok
  have hgrow : Vm.growproc p (-8192) m = .ok (some p, m) := by
    apply growproc_below halive
    rw [hsz]
    decide
  refine ⟨m, p, ts, halive, hsz, hgrow, ?_, fun hasked => ?_⟩
  · rw [← hsz]
    exact Vm.bind_ok hgrow
  · have hsum : (p.sz.toNat : Int) = p.sz.toNat + (-8192 : BitVec 32).toInt := hasked
    rw [hsz] at hsum
    exact absurd hsum (by decide)

end Xv6
