import Xv6.Vm.Args

/-!
# `exec` succeeds, or leaves nothing behind

Whatever the file contains and whatever the arguments are, `exec` does not
panic; and when it fails, the process and the kernel are as before.
-/

namespace Xv6

open Vm (ExecM Caller FileSystem)

variable {Inode : Type} {m m' : Mem} {root tf : U64} {ts own : List U64} {n : Nat}

/-! ## Running code in a process -/

theorem ExecM.bind_ok {α β : Type} {x : ExecM Inode α} {f : α → ExecM Inode β} {p p' : Caller Inode}
    {a : α} (h : x p m = .ok ((a, p'), m')) : (x >>= f) p m = f a p' m' := by
  show (x p m).bind (fun r => f r.1.1 r.1.2 r.2) = _
  rw [h]
  rfl

theorem ExecM.lift_ok {α : Type} {x : Vm α} {p : Caller Inode} {a : α} (h : x m = .ok (a, m')) :
    (liftM x : ExecM Inode α) p m = .ok ((a, p), m') := by
  show (x m).bind (fun r => Except.ok ((r.1, p), r.2)) = _
  rw [h]
  rfl

section open_file

variable [DecidableEq Inode]

/-- The process has begun an operation and has locked `ip`. -/
def Vm.Caller.opened (p : Caller Inode) (ip : Inode) : Caller Inode :=
  { p with
    ops := p.ops + 1
    ref := Function.update p.ref ip (p.ref ip + 1)
    locked := Function.update p.locked ip true }

theorem ilock_opened {p : Caller Inode} {ip : Inode} (hip : p.locked ip = false) :
    Vm.ilock ip { p with ops := p.ops + 1, ref := Function.update p.ref ip (p.ref ip + 1) } m =
      .ok (((), p.opened ip), m) := by
  unfold Vm.ilock
  refine (ExecM.bind_ok (x := get) rfl).trans ?_
  show (if (Function.update p.ref ip (p.ref ip + 1)) ip < 1 then _ else _ : ExecM Inode _) _ m = _
  rw [Function.update_self, if_neg (by omega)]
  refine (ExecM.bind_ok (x := get) rfl).trans ?_
  show (if p.locked ip = true then _ else _ : ExecM Inode _) _ m = _
  rw [hip]
  rfl

theorem opened_ref {p : Caller Inode} {ip : Inode} : (p.opened ip).ref ip = p.ref ip + 1 :=
  Function.update_self ..

theorem opened_locked {p : Caller Inode} {ip : Inode} : (p.opened ip).locked ip = true :=
  Function.update_self ..

/-- Dropping the lock and the reference, and ending the operation. -/
theorem close_opened {β : Type} {f : Unit → ExecM Inode β} {p : Caller Inode} {ip : Inode}
    (hip : p.locked ip = false) :
    (Vm.iunlockput ip >>= fun _ => Vm.endOp >>= f) (p.opened ip) m = f () p m := by
  have hlocked : Function.update (p.opened ip).locked ip false = p.locked := by
    show Function.update (Function.update p.locked ip true) ip false = _
    rw [Function.update_idem, ← hip, Function.update_eq_self]
  have href : Function.update (p.opened ip).ref ip ((p.opened ip).ref ip - 1) = p.ref := by
    rw [opened_ref, Nat.add_sub_cancel]
    show Function.update (Function.update p.ref ip (p.ref ip + 1)) ip (p.ref ip) = _
    rw [Function.update_idem, Function.update_eq_self]
  have hheld : ¬ ((!(p.opened ip).locked ip) = true ∨ (p.opened ip).ref ip < 1) := by
    rw [opened_locked, opened_ref]
    simp
  have hput : Vm.iunlockput ip (p.opened ip) m =
      .ok (((), { p.opened ip with locked := p.locked, ref := p.ref }), m) := by
    unfold Vm.iunlockput
    refine (ExecM.bind_ok (x := get) rfl).trans ?_
    refine (ExecM.bind_ok (x := get) rfl).trans ?_
    show (if (!(p.opened ip).locked ip) = true ∨ (p.opened ip).ref ip < 1 then _ else _ :
      ExecM Inode _) _ m = _
    rw [if_neg hheld]
    show Except.ok (((), ({ p.opened ip with
      locked := Function.update (p.opened ip).locked ip false
      ref := Function.update (p.opened ip).ref ip ((p.opened ip).ref ip - 1) } : Caller Inode)),
      m) = _
    rw [hlocked, href]
  exact (ExecM.bind_ok hput).trans (ExecM.bind_ok rfl)

/-! ## The label `bad` -/

theorem execBad_none {p : Caller Inode} {ip : Inode} (sz : U64) (hip : p.locked ip = false) :
    Vm.execBad none sz (some ip) (p.opened ip) m = .ok ((none, p), m) := by
  unfold Vm.execBad
  exact close_opened hip

theorem execBad_open {p : Caller Inode} {ip : Inode} {sz : U64} (hip : p.locked ip = false)
    (hs : Space m root ts (pages sz) (procTop tf)) (hh : Held m (m.upages root (pages sz) ++ ts)) :
    ∃ m', Vm.execBad (some root) sz (some ip) (p.opened ip) m = .ok ((none, p), m') ∧
      m.Moves m' (m.upages root (pages sz) ++ ts) [] := by
  obtain ⟨m', hrun, hmoves⟩ := procFreepagetable_spec hs rfl hh
  refine ⟨m', ?_, hmoves⟩
  unfold Vm.execBad
  exact (ExecM.bind_ok (ExecM.lift_ok hrun)).trans (close_opened hip)

theorem execBad_closed {p : Caller Inode} {sz : U64}
    (hs : Space m root ts (pages sz) (procTop tf)) (hh : Held m (m.upages root (pages sz) ++ ts)) :
    ∃ m', Vm.execBad (some root) sz none p m = .ok ((none, p), m') ∧
      m.Moves m' (m.upages root (pages sz) ++ ts) [] := by
  obtain ⟨m', hrun, hmoves⟩ := procFreepagetable_spec hs rfl hh
  refine ⟨m', ?_, hmoves⟩
  unfold Vm.execBad
  exact (ExecM.bind_ok (ExecM.lift_ok hrun)).trans rfl

end open_file

/-! ## The second half -/

/-- What `exec` leaves: nothing but the old process, or nothing but the new
one.  `own` are the pages that it had in its hands. -/
def Executed (m m' : Mem) (own : List U64) (p p' : Caller Inode) (ts : List U64) (r : Option Nat) :
    Prop :=
  r = none ∧ p' = p ∧ m.Moves m' own [] ∨
    ∃ argc image name ts', r = some argc ∧ p' = { p with image := image, name := name } ∧
      image.trapframe = p.image.trapframe ∧ Alive m' image ts' ∧
      m.Moves m' (own ++ m.ownedBy p.image ts) (m'.ownedBy image ts')

theorem Executed.after {m₁ : Mem} {own₁ : List U64} {p p' : Caller Inode} {r : Option Nat}
    (hmoves : m.Moves m₁ own own₁) (hown : m₁.ownedBy p.image ts = m.ownedBy p.image ts)
    (h : Executed m₁ m' own₁ p p' ts r) : Executed m m' own p p' ts r := by
  obtain ⟨hr, hp, hmoves'⟩ | ⟨argc, image, name, ts', hr, hp, htf, ha, hmoves'⟩ := h
  · exact .inl ⟨hr, hp, hmoves.trans hmoves'⟩
  · rw [hown] at hmoves'
    exact .inr ⟨argc, image, name, ts', hr, hp, htf, ha, (hmoves.extend _).trans hmoves'⟩

/-- The kernel pages `argv`, none of which is in `own`, hold the arguments that
a program finds which has been started. -/
def Passed (m m' : Mem) (own argv : List U64) (p' : Caller Inode) (r : Option Nat) : Prop :=
  ∀ strings argc, KernelStrings m own argv strings → argv.length < Vm.MAXARG → r = some argc →
    argsNeed strings ≤ 4096 ∧ Started m' p'.image strings argc

theorem passed_none {own argv : List U64} {p' : Caller Inode} : Passed m m' own argv p' none := by
  intro _ _ _ _ hr
  cases hr

theorem Passed.after {m₁ : Mem} {own₁ argv : List U64} {p' : Caller Inode} {r : Option Nat}
    (hmoves : m.Moves m₁ own own₁) (h : Passed m₁ m' own₁ argv p' r) :
    Passed m m' own argv p' r :=
  fun strings argc hargs => h strings argc (hargs.moves hmoves)

/-- The old process beside the work on the new one. -/
theorem Alive.beside {own' : List U64} {p : Vm.Image} (ha : Alive m p ts)
    (hh : Held m (own ++ m.ownedBy p ts)) (hmoves : m.Moves m' own own') :
    Alive m' p ts ∧ m'.ownedBy p ts = m.ownedBy p ts ∧ Held m' (own' ++ m'.ownedBy p ts) := by
  have hh' := hh.moves (hmoves.extend (m.ownedBy p ts))
  have hkeep : ∀ b ∈ ts, m'.page b = m.page b := fun b hb => hmoves.keeps hh.apart
    (List.mem_append_left _ (List.mem_append_right _ hb))
  obtain ⟨ha', hown⟩ := ha.frame hkeep (hh'.sublist (List.sublist_append_right _ _))
  exact ⟨ha', hown, hown.symm ▸ hh'⟩

/-- The commit: the trapframe is set, and the old memory is freed. -/
theorem commit_spec {p : Vm.Image} {sz : U64} {ts' : List U64} (ha : Alive m p ts)
    (hs : Space m root ts' (pages sz) (procTop p.trapframe))
    (hh : Held m ((m.upages root (pages sz) ++ ts') ++ m.ownedBy p ts))
    (hkeep : ∀ b, b ≠ p.trapframe → m'.page b = m.page b) (hfree : m'.freelist = m.freelist) :
    ∃ m₂, Vm.procFreepagetable p.pagetable p.sz m' = .ok ((), m₂) ∧
      Alive m₂ ⟨sz, root, p.trapframe⟩ ts' ∧
      m.Moves m₂ ((m.upages root (pages sz) ++ ts') ++ m.ownedBy p ts)
        (m₂.ownedBy ⟨sz, root, p.trapframe⟩ ts') ∧
      (∀ b ∈ m.upages root (pages sz) ++ ts', m₂.page b = m.page b) ∧
      m₂.page p.trapframe = m'.page p.trapframe := by
  have hdisjoint := (List.nodup_append.1 hh.apart.nodup_own).2.2
  have htf : p.trapframe ∈ m.ownedBy p ts := List.mem_append_right _ List.mem_cons_self
  have hout : ∀ b ∈ m.upages root (pages sz) ++ ts', m'.page b = m.page b := fun b hb =>
    hkeep b fun heq => hdisjoint b hb _ htf heq
  -- the trapframe
  obtain ⟨ha₁, hmoves₁⟩ := ha.setTrapframe hkeep hfree
  have hmoves₁' : m.Moves m' (m.ownedBy p ts ++ (m.upages root (pages sz) ++ ts'))
      (m'.ownedBy p ts ++ (m.upages root (pages sz) ++ ts')) := hmoves₁.extend _
  have hh₁ := (hh.perm List.perm_append_comm).moves hmoves₁'
  obtain ⟨hs₁, hpte₁⟩ := hs.frame fun b hb => hout b (List.mem_append_right _ hb)
  -- the old memory
  have hold : Held m' (m'.upages p.pagetable (pages p.sz) ++ ts) :=
    ha₁.held.sublist (List.sublist_append_left _ _)
  obtain ⟨m₂, hrun₂, hmoves₂⟩ := procFreepagetable_spec ha₁.space rfl hold
  have hmoves₂' : m'.Moves m₂ (m'.ownedBy p ts ++ (m.upages root (pages sz) ++ ts'))
      ([] ++ ([p.trapframe] ++ (m.upages root (pages sz) ++ ts'))) := by
    unfold Mem.ownedBy
    rw [List.append_assoc]
    exact hmoves₂.extend _
  have hrest : Held m' (m'.upages p.pagetable (pages p.sz) ++ ts ++
      (m.upages root (pages sz) ++ ts')) :=
    hh₁.sublist ((List.sublist_append_left _ _).append_right _)
  have hkeep₂ : ∀ b ∈ ts', m₂.page b = m'.page b := fun b hb =>
    hmoves₂.keeps hrest.apart (List.mem_append_right _ hb)
  obtain ⟨hs₂, hpte₂⟩ := hs₁.frame hkeep₂
  have hup : m₂.upages root (pages sz) = m.upages root (pages sz) :=
    upages_congr fun k _ => (hpte₂ _).trans (hpte₁ _)
  have hall : m.Moves m₂ ((m.upages root (pages sz) ++ ts') ++ m.ownedBy p ts)
      (m₂.ownedBy ⟨sz, root, p.trapframe⟩ ts') := by
    refine (hmoves₁'.trans hmoves₂').congr List.perm_append_comm ?_
    show (m₂.upages root (pages sz) ++ ts' ++ [p.trapframe]).Perm _
    rw [hup]
    exact List.perm_append_comm
  have hbeside : Pool.Apart m'.freelist (m'.upages p.pagetable (pages p.sz) ++ ts ++
      ([p.trapframe] ++ (m.upages root (pages sz) ++ ts'))) := by
    have := hh₁.apart
    unfold Mem.ownedBy at this
    rwa [List.append_assoc] at this
  refine ⟨m₂, hrun₂, ⟨hs₂, hh.moves hall⟩, hall, fun b hb => ?_,
    hmoves₂.keeps hbeside List.mem_cons_self⟩
  exact (hmoves₂.keeps hbeside (List.mem_append_right _ hb)).trans (hout b hb)

/-- The trapframe that `exec` leaves. -/
def Mem.committed (m : Mem) (tf entry sp : U64) : Mem :=
  ((m.setWord tf Vm.trapframeA1 sp).setWord tf Vm.trapframeEpc entry).setWord tf Vm.trapframeSp sp

theorem committed_a1 {entry sp : U64} : (m.committed tf entry sp).page tf Vm.trapframeA1 = sp := by
  have h1 : Vm.trapframeA1 ≠ Vm.trapframeSp := by decide
  have h2 : Vm.trapframeA1 ≠ Vm.trapframeEpc := by decide
  simp [Mem.committed, Mem.setWord, h1, h2]

theorem committed_sp {entry sp : U64} : (m.committed tf entry sp).page tf Vm.trapframeSp = sp := by
  simp [Mem.committed, Mem.setWord]

section stack

variable [DecidableEq Inode] {p : Caller Inode} {path : List (BitVec 8)} {argv : List U64}
  {entry sz sz1 : U64} {m₁ m₂ m₃ m₄ : Mem}

theorem execStack_bad
    (halloc : uvmalloc root (PGROUNDUP sz) (PGROUNDUP sz + 2 * PGSIZE) PTE_W m = .ok (some sz1, m₁))
    (hnonzero : sz1 ≠ 0) (hclear : uvmclear root (sz1 - 2 * PGSIZE) m₁ = .ok ((), m₂))
    (hpush : Vm.pushArgs root (sz1 - PGSIZE) sz1 argv m₂ = .ok (none, m₃)) :
    Vm.execStack path argv root entry sz p m = Vm.execBad (some root) sz1 none p m₃ := by
  unfold Vm.execStack
  refine (ExecM.bind_ok (x := get) rfl).trans ?_
  refine (ExecM.bind_ok (ExecM.lift_ok halloc)).trans ?_
  show (if sz1 = 0 then _ else _ : ExecM Inode _) p m₁ = _
  rw [if_neg hnonzero]
  refine (ExecM.bind_ok (ExecM.lift_ok hclear)).trans ?_
  exact ExecM.bind_ok (ExecM.lift_ok hpush)

theorem execStack_commit {sp : U64} {argc : Nat}
    (halloc : uvmalloc root (PGROUNDUP sz) (PGROUNDUP sz + 2 * PGSIZE) PTE_W m = .ok (some sz1, m₁))
    (hnonzero : sz1 ≠ 0) (hclear : uvmclear root (sz1 - 2 * PGSIZE) m₁ = .ok ((), m₂))
    (hpush : Vm.pushArgs root (sz1 - PGSIZE) sz1 argv m₂ = .ok (some (sp, argc), m₃))
    (hfree : Vm.procFreepagetable p.image.pagetable p.image.sz
      (m₃.committed p.image.trapframe entry sp) = .ok ((), m₄)) :
    Vm.execStack path argv root entry sz p m =
      .ok ((some argc, { p with
        name := (Vm.lastElem path).take (Vm.sizeofName - 1)
        image := { p.image with pagetable := root, sz := sz1 } }), m₄) := by
  unfold Vm.execStack
  refine (ExecM.bind_ok (x := get) rfl).trans ?_
  refine (ExecM.bind_ok (ExecM.lift_ok halloc)).trans ?_
  show (if sz1 = 0 then _ else _ : ExecM Inode _) p m₁ = _
  rw [if_neg hnonzero]
  refine (ExecM.bind_ok (ExecM.lift_ok hclear)).trans ?_
  refine (ExecM.bind_ok (ExecM.lift_ok hpush)).trans ?_
  refine (ExecM.bind_ok (x := get) rfl).trans ?_
  refine (ExecM.bind_ok (ExecM.lift_ok (x := storeWord _ _ _) rfl)).trans ?_
  refine (ExecM.bind_ok (x := set _) rfl).trans ?_
  refine (ExecM.bind_ok (ExecM.lift_ok (x := storeWord _ _ _) rfl)).trans ?_
  refine (ExecM.bind_ok (ExecM.lift_ok (x := storeWord _ _ _) rfl)).trans ?_
  exact ExecM.bind_ok (ExecM.lift_ok hfree)

end stack

theorem execStack_spec [DecidableEq Inode] {p : Caller Inode} (path : List (BitVec 8))
    (argv : List U64) (entry : U64) {sz : U64} {ts' : List U64} (ha : Alive m p.image ts)
    (hs : Space m root ts' (pages sz) (procTop p.image.trapframe))
    (hh : Held m ((m.upages root (pages sz) ++ ts') ++ m.ownedBy p.image ts)) :
    ∃ r p' m', Vm.execStack path argv root entry sz p m = .ok ((r, p'), m') ∧
      Executed m m' (m.upages root (pages sz) ++ ts') p p' ts r ∧
      Passed m m' (m.upages root (pages sz) ++ ts') argv p' r := by
  have hh₀ : Held m (m.upages root (pages sz) ++ ts') := hh.sublist (List.sublist_append_left _ _)
  have hsmall : pages sz ≤ 32768 := by
    have := hh₀.length_le
    rw [List.length_append, length_upages] at this
    omega
  have hup : PGROUNDUP sz = pageAt (pages sz) := PGROUNDUP_eq (pages_le hs.fits)
  have hpages : pages (pageAt (pages sz)) = pages sz := pages_pageAt (by omega)
  have hnew : pageAt (pages sz) + 2 * PGSIZE = pageAt (pages sz + 2) := by
    rw [show 2 * PGSIZE = pageAt 2 by decide, pageAt_add]
  have hnewPages : pages (pageAt (pages sz + 2)) = pages sz + 2 := pages_pageAt (by omega)
  have hnewNat : (pageAt (pages sz + 2)).toNat = 4096 * (pages sz + 2) := pageAt_toNat (by omega)
  obtain ⟨r, m₁, ts₁, hrun₁, hr⟩ := uvmalloc_spec (pageAt (pages sz + 2)) PTE_W hs hsmall hpages
    (by decide) (hh₀.sublist (List.sublist_append_right _ _))
  rw [hnewPages] at hr
  unfold Vm.execStack
  rw [← hnew, ← hup] at hrun₁
  obtain ⟨hlt, -⟩ | ⟨-, rfl, hadded, hmoves⟩ | ⟨rfl, hadded, hmoves⟩ := hr
  · rw [BitVec.lt_def, hnewNat, pageAt_toNat (by omega)] at hlt
    omega
  · have hmoves₁ := hadded.moves (Nat.le_add_right _ 2) hmoves
    obtain ⟨ha₁, hown₁, hh₁⟩ := ha.beside hh hmoves₁
    -- the guard page
    obtain ⟨m₂, hrun₂, hs₂, hup₂, hwrote₂, hclear⟩ := uvmclear_spec hadded.space
      (show pages sz < pages sz + 2 by omega)
    have hmoves₂ : m₁.Moves m₂ (m₁.upages root (pages sz + 2) ++ ts₁)
        (m₂.upages root (pages sz + 2) ++ ts₁) := by
      rw [hup₂]
      exact hwrote₂.moves fun a ha => List.mem_append_right _ ha
    obtain ⟨ha₂, hown₂, hh₂⟩ := ha₁.beside hh₁ hmoves₂
    -- the arguments
    obtain ⟨r, m₃, hrun₃, hwrote₃⟩ := pushArgs_spec (pageAt (pages sz + 2) - PGSIZE)
      (pageAt (pages sz + 2)) argv noUser_procTop hs₂
      (hh₂.sublist (List.sublist_append_left _ _))
    obtain ⟨hs₃, -, hup₃, -⟩ := hs₂.wrote (hh₂.sublist (List.sublist_append_left _ _)) hwrote₃
    have hmoves₃ : m₂.Moves m₃ (m₂.upages root (pages sz + 2) ++ ts₁)
        (m₃.upages root (pages sz + 2) ++ ts₁) := by
      rw [hup₃]
      exact hwrote₃.moves fun a ha => List.mem_append_left _ ha
    obtain ⟨ha₃, hown₃, hh₃⟩ := ha₂.beside hh₂ hmoves₃
    have hall := hmoves₁.trans (hmoves₂.trans hmoves₃)
    have hown : m₃.ownedBy p.image ts = m.ownedBy p.image ts := hown₃.trans (hown₂.trans hown₁)
    have hguard : pageAt (pages sz + 2) - 2 * PGSIZE = pageAt (pages sz) := by
      rw [← hnew, BitVec.add_sub_cancel]
    have hnonzero : pageAt (pages sz + 2) ≠ 0 := by
      intro heq
      have := congrArg BitVec.toNat heq
      rw [hnewNat] at this
      exact absurd this (by show 4096 * (pages sz + 2) ≠ 0; omega)
    rw [← hnewPages] at hs₃ hh₃ hall
    rw [← hguard] at hrun₂
    cases r with
    | none =>
      obtain ⟨m', hrun', hmoves'⟩ := execBad_closed (p := p) hs₃
        (hh₃.sublist (List.sublist_append_left _ _))
      refine ⟨none, p, m', ?_, .inl ⟨rfl, rfl, hall.trans hmoves'⟩, passed_none⟩
      exact (execStack_bad hrun₁ hnonzero hrun₂ hrun₃).trans hrun'
    | some pushed =>
      have hkeep : ∀ b, b ≠ p.image.trapframe →
          (m₃.committed p.image.trapframe entry pushed.1).page b = m₃.page b :=
        fun b hb => (if_neg hb).trans ((if_neg hb).trans (if_neg hb))
      obtain ⟨m₄, hrun₄, ha₄, hmoves₄, hkeep₄, htf₄⟩ := commit_spec ha₃ hs₃ hh₃ hkeep rfl
      rw [hown] at hmoves₄
      refine ⟨some pushed.2, _, m₄, execStack_commit hrun₁ hnonzero hrun₂ hrun₃ hrun₄, .inr
        ⟨_, _, _, ts₁, rfl, rfl, rfl, ha₄, (hall.extend _).trans hmoves₄⟩, ?_⟩
      rintro strings argc hargs hmany ⟨rfl⟩
      refine started_of_push noUser_procTop hadded hs₂ (hh₂.sublist (List.sublist_append_left _ _))
        hclear ((hargs.moves hmoves₁).moves hmoves₂) hmany hrun₃ (fun b hb => hkeep₄ b ?_) ?_ ?_
      · rw [hnewPages, hup₃]
        exact hb
      · rw [htf₄, committed_a1]
      · rw [htf₄, committed_sp]
  · have hnone : (m₁.upages root (pages sz)).drop (pages sz) = [] :=
      List.drop_of_length_le (Nat.le_of_eq length_upages)
    have hmoves₁ := hadded.moves (Nat.le_refl _) (by rw [hnone]; exact hmoves)
    have hs₁ : Space m₁ root ts₁ (pages (PGROUNDUP sz)) (procTop p.image.trapframe) := by
      rw [hup, hpages]
      exact hadded.space
    have hh₁ : Held m₁ (m₁.upages root (pages (PGROUNDUP sz)) ++ ts₁) := by
      rw [hup, hpages]
      exact hh₀.moves hmoves₁
    obtain ⟨m', hrun', hmoves'⟩ := execBad_closed (p := p) hs₁ hh₁
    rw [hup, hpages] at hmoves'
    refine ⟨none, p, m', ?_, .inl ⟨rfl, rfl, hmoves₁.trans hmoves'⟩, passed_none⟩
    exact (ExecM.bind_ok (x := get) rfl).trans ((ExecM.bind_ok (ExecM.lift_ok hrun₁)).trans hrun')

/-! ## `exec` -/

section exec

variable [DecidableEq Inode] (fs : FileSystem Inode) {p : Caller Inode}

theorem execFile_spec (path : List (BitVec 8)) (argv : List U64) {ip : Inode}
    (ha : Alive m p.image ts) (hip : p.locked ip = false) :
    ∃ r p' m', Vm.execFile fs path argv ip (p.opened ip) m = .ok ((r, p'), m') ∧
      Executed m m' [] p p' ts r ∧ Passed m m' [] argv p' r := by
  have hzero : pages 0 = 0 := by decide
  unfold Vm.execFile
  by_cases hshort : (fs.read ip 0 Vm.sizeofElfhdr).length ≠ Vm.sizeofElfhdr.toNat
  · exact ⟨none, p, m, by rw [if_pos hshort]; exact execBad_none 0 hip, .inl ⟨rfl, rfl, .refl⟩,
      passed_none⟩
  rw [if_neg hshort]
  generalize Vm.Elfhdr.ofBytes (fs.read ip 0 Vm.sizeofElfhdr) = elf
  by_cases hmagic : elf.magic ≠ Vm.ELF_MAGIC
  · exact ⟨none, p, m, by rw [if_pos hmagic]; exact execBad_none 0 hip, .inl ⟨rfl, rfl, .refl⟩,
      passed_none⟩
  rw [if_neg hmagic]
  obtain ⟨r, m₁, hrun₁, hr⟩ := procPagetable_spec p.image.trapframe
    (ha.held.sublist (List.nil_sublist _))
  have hrun₁ : (liftM (Vm.procPagetable (p.opened ip).image.trapframe) : ExecM Inode _)
      (p.opened ip) m = .ok ((r, p.opened ip), m₁) := ExecM.lift_ok hrun₁
  obtain ⟨rfl, -, hmoves₁⟩ | ⟨root, ts₁, rfl, -, hs₁, hmoves₁⟩ := hr
  · refine ⟨none, p, m₁, ?_, .inl ⟨rfl, rfl, hmoves₁⟩, passed_none⟩
    refine (ExecM.bind_ok (x := get) rfl).trans ((ExecM.bind_ok hrun₁).trans ?_)
    exact execBad_none 0 hip
  -- the new memory, empty at first
  have hs₁' : Space m₁ root ts₁ (pages 0) (procTop p.image.trapframe) := hzero.symm ▸ hs₁
  have hmoves₁' : m.Moves m₁ [] (m₁.upages root (pages 0) ++ ts₁) := by
    rw [hzero]
    exact hmoves₁
  obtain ⟨ha₁, hown₁, hh₁⟩ := ha.beside
    (show Held m ([] ++ m.ownedBy p.image ts) from ha.held) hmoves₁'
  have huser : AllUser m₁ root (pages 0) := by
    rw [hzero]
    exact fun k hk => absurd hk (Nat.not_lt_zero k)
  obtain ⟨sz, r, m₂, ts₂, hrun₂, hloaded⟩ := loadProgram_spec fs ip elf.phnum.toNat
    (elf.phoff.setWidth 32) hs₁' huser (hh₁.sublist (List.sublist_append_left _ _))
  obtain ⟨ha₂, hown₂, hh₂⟩ := ha₁.beside hh₁ hloaded.moves
  have hrun₂ : (liftM (Vm.loadProgram fs root ip elf.phnum.toNat (elf.phoff.setWidth 32) 0) :
      ExecM Inode _) (p.opened ip) m₁ = .ok (((sz, r), p.opened ip), m₂) := ExecM.lift_ok hrun₂
  have hmoves₂ := hmoves₁'.trans hloaded.moves
  cases r with
  | none =>
    obtain ⟨m₃, hrun₃, hmoves₃⟩ := execBad_open hip hloaded.space
      (hh₂.sublist (List.sublist_append_left _ _))
    refine ⟨none, p, m₃, ?_, .inl ⟨rfl, rfl, hmoves₂.trans hmoves₃⟩, passed_none⟩
    refine (ExecM.bind_ok (x := get) rfl).trans ((ExecM.bind_ok hrun₁).trans ?_)
    exact (ExecM.bind_ok hrun₂).trans hrun₃
  | some u =>
    obtain ⟨r, p', m₃, hrun₃, hdone, hpassed⟩ := execStack_spec path argv elf.entry ha₂
      hloaded.space hh₂
    refine ⟨r, p', m₃, ?_, hdone.after hmoves₂ (hown₂.trans hown₁), hpassed.after hmoves₂⟩
    refine (ExecM.bind_ok (x := get) rfl).trans ((ExecM.bind_ok hrun₁).trans ?_)
    exact (ExecM.bind_ok hrun₂).trans ((close_opened hip).trans hrun₃)

theorem exec_spec (path : List (BitVec 8)) (argv : List U64) (ha : Alive m p.image ts)
    (hunlocked : ∀ ip, p.locked ip = false) :
    ∃ r p' m', Vm.exec fs path argv p m = .ok ((r, p'), m') ∧ Executed m m' [] p p' ts r ∧
      Passed m m' [] argv p' r := by
  unfold Vm.exec
  cases hlookup : fs.lookup path with
  | none =>
    have hnamei : Vm.namei fs path { p with ops := p.ops + 1 } m =
        .ok ((none, { p with ops := p.ops + 1 }), m) := by
      unfold Vm.namei
      rw [hlookup]
      rfl
    refine ⟨none, p, m, ?_, .inl ⟨rfl, rfl, .refl⟩, passed_none⟩
    exact (ExecM.bind_ok (x := Vm.beginOp) rfl).trans ((ExecM.bind_ok hnamei).trans rfl)
  | some ip =>
    have hnamei : Vm.namei fs path { p with ops := p.ops + 1 } m =
        .ok ((some ip, { p with
          ops := p.ops + 1, ref := Function.update p.ref ip (p.ref ip + 1) }), m) := by
      unfold Vm.namei
      rw [hlookup]
      rfl
    obtain ⟨r, p', m', hrun, hdone⟩ := execFile_spec fs path argv ha (hunlocked ip)
    refine ⟨r, p', m', ?_, hdone⟩
    refine (ExecM.bind_ok (x := Vm.beginOp) rfl).trans ((ExecM.bind_ok hnamei).trans ?_)
    exact (ExecM.bind_ok (ilock_opened (hunlocked ip))).trans hrun

end exec

/-! ## `sys_exec` -/

/-- `storeBytes` writes to no other page. -/
theorem storeBytes_wrote (pa : U64) (bs : List (BitVec 8)) : ∀ (off : Nat) (m : Mem),
    ∃ m', storeBytes pa off bs m = .ok ((), m') ∧ Wrote m m' [pa] := by
  induction bs with
  | nil => exact fun _ m => ⟨m, rfl, .refl⟩
  | cons b bs ih =>
    intro off m
    obtain ⟨m', hrun, hwrote⟩ := ih (off + 1) (m.setByte pa off b)
    refine ⟨m', hrun, hwrote.free, fun a ha => (hwrote.other a ha).trans (page_setByte ?_)⟩
    exact fun heq => ha (heq ▸ List.mem_cons_self)

theorem fetchaddr_spec (p : Caller Inode) (addr : U64) (m : Mem) :
    ∃ r, Vm.fetchaddr addr p m = .ok ((r, p), m) := by
  unfold Vm.fetchaddr
  by_cases hout : addr ≥ p.image.sz ∨ addr + 8 > p.image.sz
  · refine ⟨none, (ExecM.bind_ok (x := get) rfl).trans ?_⟩
    rw [if_pos hout]
    rfl
  · obtain ⟨r, hrun⟩ := copyin_read m p.image.pagetable addr 8
    refine ⟨r.map fun bytes => .ofNat 64 (Vm.leNat bytes 0 8),
      (ExecM.bind_ok (x := get) rfl).trans ?_⟩
    rw [if_neg hout]
    refine (ExecM.bind_ok (ExecM.lift_ok hrun)).trans ?_
    cases r <;> rfl

/-- The pages of the arguments are taken from the free list, and nothing else
changes. -/
theorem fetchArgs_spec (uargv : U64) (p : Caller Inode) (k : Nat) : ∀ {m : Mem} (argv : List U64),
    ∃ argv' r m', Vm.fetchArgs uargv k argv p m = .ok (((argv', r), p), m') ∧
      m.Moves m' argv argv' := by
  induction k with
  | zero => exact fun {m} argv => ⟨argv, none, m, rfl, .refl⟩
  | succ k ih =>
    intro m argv
    unfold Vm.fetchArgs
    obtain ⟨r, hfetch⟩ := fetchaddr_spec p (uargv + 8 * .ofNat 64 argv.length) m
    cases r with
    | none => exact ⟨argv, none, m, ExecM.bind_ok hfetch, .refl⟩
    | some uarg =>
      by_cases hzero : uarg = 0
      · refine ⟨argv, some (), m, (ExecM.bind_ok hfetch).trans ?_, .refl⟩
        show (if uarg = 0 then _ else _ : ExecM Inode _) p m = _
        rw [if_pos hzero]
        rfl
      cases hfree : m.freelist with
      | nil =>
        refine ⟨argv, none, m, (ExecM.bind_ok hfetch).trans ?_, .refl⟩
        show (if uarg = 0 then _ else _ : ExecM Inode _) p m = _
        rw [if_neg hzero]
        exact ExecM.bind_ok (ExecM.lift_ok (kalloc_nil hfree))
      | cons page next =>
        obtain ⟨str, hstr⟩ := copyinstr_read (m.taken page next) p.image.pagetable uarg 4096
        obtain ⟨m₁, hstore, hwrote⟩ := storeBytes_wrote page str.1 0 (m.taken page next)
        have hmoves : m.Moves m₁ argv (argv ++ [page]) := by
          refine ((moves_taken hfree).trans (hwrote.moves fun a ha => ?_)).congr .rfl
            List.perm_append_comm
          rw [List.mem_singleton.1 ha]
          exact List.mem_cons_self
        obtain ⟨written, r⟩ := str
        cases r with
        | none =>
          refine ⟨argv ++ [page], none, m₁, (ExecM.bind_ok hfetch).trans ?_, hmoves⟩
          show (if uarg = 0 then _ else _ : ExecM Inode _) p m = _
          rw [if_neg hzero]
          refine (ExecM.bind_ok (ExecM.lift_ok (kalloc_cons hfree))).trans ?_
          refine (ExecM.bind_ok (x := get) rfl).trans ((ExecM.bind_ok (ExecM.lift_ok hstr)).trans ?_)
          exact ExecM.bind_ok (ExecM.lift_ok hstore)
        | some u =>
          obtain ⟨argv', r, m₂, hrun, hmoves₂⟩ := ih (m := m₁) (argv ++ [page])
          refine ⟨argv', r, m₂, (ExecM.bind_ok hfetch).trans ?_, hmoves.trans hmoves₂⟩
          show (if uarg = 0 then _ else _ : ExecM Inode _) p m = _
          rw [if_neg hzero]
          refine (ExecM.bind_ok (ExecM.lift_ok (kalloc_cons hfree))).trans ?_
          refine (ExecM.bind_ok (x := get) rfl).trans ((ExecM.bind_ok (ExecM.lift_ok hstr)).trans ?_)
          exact (ExecM.bind_ok (ExecM.lift_ok hstore)).trans hrun

/-- The pages of the arguments are freed. -/
theorem freeArgs_spec (p : Caller Inode) (argv : List U64) : ∀ {m : Mem}, (∀ a ∈ argv, Page a) →
    ∃ m', (argv.forM fun page => (liftM (kfree page) : ExecM Inode Unit)) p m =
        .ok (((), p), m') ∧ m.Moves m' argv [] := by
  induction argv with
  | nil => exact fun {m} _ => ⟨m, rfl, .refl⟩
  | cons a argv ih =>
    intro m hpage
    obtain ⟨m', hrun, hmoves⟩ := ih (m := m.freed a) fun b hb => hpage b (List.mem_cons_of_mem a hb)
    refine ⟨m', ?_, moves_freed.trans hmoves⟩
    exact (ExecM.bind_ok (ExecM.lift_ok (kfree_ok (hpage a List.mem_cons_self)))).trans hrun

section sysExec

variable [DecidableEq Inode] (fs : FileSystem Inode) {p : Caller Inode}

theorem sysExec_spec (ha : Alive m p.image ts) (hunlocked : ∀ ip, p.locked ip = false) :
    ∃ r p' m', Vm.sysExec fs p m = .ok ((r, p'), m') ∧ Executed m m' [] p p' ts r := by
  obtain ⟨str, hstr⟩ := copyinstr_read m p.image.pagetable (m.page p.image.trapframe
    Vm.trapframeA0) Vm.MAXPATH
  obtain ⟨path, r⟩ := str
  cases r with
  | none =>
    refine ⟨none, p, m, ?_, .inl ⟨rfl, rfl, .refl⟩⟩
    refine (ExecM.bind_ok (x := get) rfl).trans ?_
    refine (ExecM.bind_ok (ExecM.lift_ok (x := loadWord _ _) rfl)).trans ?_
    refine (ExecM.bind_ok (ExecM.lift_ok (x := loadWord _ _) rfl)).trans ?_
    exact ExecM.bind_ok (ExecM.lift_ok hstr)
  | some u =>
    obtain ⟨argv, r, m₁, hrun₁, hmoves₁⟩ := fetchArgs_spec (m.page p.image.trapframe Vm.trapframeA1)
      p Vm.MAXARG (m := m) []
    obtain ⟨ha₁, hown₁, hh₁⟩ := ha.beside
      (show Held m ([] ++ m.ownedBy p.image ts) from ha.held) hmoves₁
    cases r with
    | none =>
      obtain ⟨m₂, hrun₂, hmoves₂⟩ := freeArgs_spec p argv (m := m₁) fun a hmem =>
        hh₁.of_mem (List.mem_append_left _ hmem)
      refine ⟨none, p, m₂, ?_, .inl ⟨rfl, rfl, hmoves₁.trans hmoves₂⟩⟩
      refine (ExecM.bind_ok (x := get) rfl).trans ?_
      refine (ExecM.bind_ok (ExecM.lift_ok (x := loadWord _ _) rfl)).trans ?_
      refine (ExecM.bind_ok (ExecM.lift_ok (x := loadWord _ _) rfl)).trans ?_
      refine (ExecM.bind_ok (ExecM.lift_ok hstr)).trans ((ExecM.bind_ok hrun₁).trans ?_)
      exact ExecM.bind_ok hrun₂
    | some u =>
      obtain ⟨ret, p', m₂, hrun₂, hdone, -⟩ := exec_spec fs (path.takeWhile (· ≠ 0)) argv ha₁
        hunlocked
      have hrun : ∀ {m₃ : Mem}, (argv.forM fun page => (liftM (kfree page) : ExecM Inode Unit))
          p' m₂ = .ok (((), p'), m₃) → Vm.sysExec fs p m = .ok ((ret, p'), m₃) := by
        intro m₃ hrun₃
        refine (ExecM.bind_ok (x := get) rfl).trans ?_
        refine (ExecM.bind_ok (ExecM.lift_ok (x := loadWord _ _) rfl)).trans ?_
        refine (ExecM.bind_ok (ExecM.lift_ok (x := loadWord _ _) rfl)).trans ?_
        refine (ExecM.bind_ok (ExecM.lift_ok hstr)).trans ((ExecM.bind_ok hrun₁).trans ?_)
        exact (ExecM.bind_ok hrun₂).trans (ExecM.bind_ok hrun₃)
      obtain ⟨rfl, rfl, hmoves₂⟩ | ⟨argc, image, name, ts', rfl, rfl, htf, ha₂, hmoves₂⟩ := hdone
      · have hmoves₂' : m₁.Moves m₂ argv argv := hmoves₂.extend argv
        have hh₂ := (hh₁.sublist (List.sublist_append_left _ _)).moves hmoves₂'
        obtain ⟨m₃, hrun₃, hmoves₃⟩ := freeArgs_spec p' argv (m := m₂) fun a hmem => hh₂.of_mem hmem
        exact ⟨none, p', m₃, hrun hrun₃, .inl ⟨rfl, rfl,
          hmoves₁.trans (hmoves₂'.trans hmoves₃)⟩⟩
      · have hmoves₂' : m₁.Moves m₂ (argv ++ m₁.ownedBy p.image ts) (argv ++ m₂.ownedBy image ts') :=
          (hmoves₂.extend argv).congr List.perm_append_comm List.perm_append_comm
        have hh₂ := hh₁.moves hmoves₂'
        obtain ⟨m₃, hrun₃, hmoves₃⟩ := freeArgs_spec { p with image := image, name := name } argv
          (m := m₂) fun a hmem => hh₂.of_mem (List.mem_append_left _ hmem)
        obtain ⟨ha₃, hown₃, -⟩ := ha₂.beside hh₂ hmoves₃
        refine ⟨some argc, _, m₃, hrun hrun₃, .inr ⟨argc, image, name, ts', rfl, rfl, htf, ha₃, ?_⟩⟩
        rw [hown₃, ← hown₁]
        exact (hmoves₁.extend _).trans (hmoves₂'.trans (hmoves₃.extend _))

end sysExec

/-! ## A failure leaves nothing behind -/

/-- The process and the kernel are as before: the fields of the process, the
references and locks on inodes, the operations of the log; the free list, up
to its order; and every page that is in use. -/
structure Restored (m m' : Mem) (p p' : Caller Inode) : Prop where
  process : p' = p
  free : m'.freelist.Perm m.freelist
  memory : ∀ a, a ∉ m.freelist → m'.page a = m.page a
  table : ∀ va, m'.pte p.image.pagetable va = m.pte p.image.pagetable va
  bytes : ∀ va, userByte m' p.image.pagetable va = userByte m p.image.pagetable va
  trapframe : m'.page p.image.trapframe = m.page p.image.trapframe

theorem Executed.restored {p p' : Caller Inode} {r : Option Nat} (ha : Alive m p.image ts)
    (h : Executed m m' [] p p' ts r) (hr : r = none) : Restored m m' p p' := by
  obtain ⟨-, rfl, hmoves⟩ | ⟨argc, image, name, ts', hsome, -⟩ := h
  · have hmemory : ∀ a, a ∉ m.freelist → m'.page a = m.page a := fun a ha =>
      hmoves.frame a ha List.not_mem_nil
    have hused : ∀ a ∈ m.ownedBy p'.image ts, m'.page a = m.page a := fun a hmem =>
      hmemory a (ha.held.apart.not_mem hmem)
    obtain ⟨-, hpte⟩ := ha.space.frame fun a hmem =>
      hused a (List.mem_append_left _ (List.mem_append_right _ hmem))
    refine ⟨rfl, ?_, hmemory, hpte, fun va => ?_,
      hused _ (List.mem_append_right _ List.mem_cons_self)⟩
    · have hperm := hmoves.perm
      rw [List.append_nil, List.append_nil] at hperm
      exact hperm
    · rw [userByte_eq, userByte_eq, userPage_congr hpte]
      cases hpa : m.userPage p'.image.pagetable va with
      | none => rfl
      | some pa =>
        obtain ⟨-, hvpn, rfl⟩ := ha.space.userPage_eq_some noUser_procTop hpa
        show some (m'.byte _ _) = some (m.byte _ _)
        unfold Mem.byte
        rw [hused _ (List.mem_append_left _ (List.mem_append_left _ (mem_upages hvpn)))]
  · rw [hr] at hsome
    cases hsome

/-- A file system with one file, of which there is nothing to read. -/
def emptyFile : FileSystem Unit where
  lookup _ := some ()
  read _ _ _ := []
  length_read_le _ _ _ := Nat.zero_le _

end Xv6
