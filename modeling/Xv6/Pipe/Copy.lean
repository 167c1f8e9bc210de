import Xv6.Pipe.Rules
import Xv6.Conc.Solo
import Xv6.Vm.Uaccess

/-!
# What a reader gets

`piperead` on real user memory, of which any page may be missing.  It takes a
byte out of the ring before it knows that the byte can be stored.
-/

namespace Xv6.Pipes

open Conc

/-- What `piperead` finds when it tests the pipe: others have had the lock
before. -/
structure View where
  pipe : Pipe
  killed : Bool

/-- `pi->nread == pi->nwrite && pi->writeopen` -/
def View.empty (v : View) : Bool := decide (v.pipe.nread = v.pipe.nwrite) && v.pipe.writeopen

/-- The views of a reader, one for each test: the one with which it does not go
to sleep again. -/
def await : List View → Option View
  | [] => none
  | v :: vs => if v.empty && !v.killed then await vs else some v

/-- The loop that copies, with `k` turns left. -/
def copyLoop (pagetable addr : U64) : (k i : Nat) → Pipe → Vm (Nat × Pipe)
  | 0, i, x => return (i, x)
  | k + 1, i, x =>
    if x.nread = x.nwrite then
      return (i, x)
    else do
      let ch := x.at x.nread
      let x := { x with nread := x.nread + 1 }
      match ← copyout pagetable (addr + BitVec.ofNat 64 i) [ch] with
      | none => return (i, x)
      | some () => copyLoop pagetable addr k (i + 1) x

/-- The rest of `piperead`: what it returns, and the pipe. -/
def finish (v : View) (pagetable addr : U64) (n : I32) : Vm (I32 × Pipe) :=
  if v.empty then
    -- the process is killed
    return (-1, v.pipe)
  else do
    let r ← copyLoop pagetable addr n.toInt.toNat 0 v.pipe
    return (BitVec.ofNat 32 r.1, r.2)

/-- The ring holds these bytes. -/
abbrev Contains (x : Pipe) (contents : List Byte) : Prop :=
  Ring.Holds x.data x.nread x.nwrite contents

/-- What has been removed from the pipe has been stored and counted.  Zero means
that there is nothing and will be nothing. -/
structure Exact (m m' : Mem) (pagetable addr : U64) (x x' : Pipe) (n r : I32) : Prop where
  removed : ∃ bytes rest, Contains x (bytes ++ rest) ∧ Contains x' rest ∧
    UserBytes m' pagetable addr bytes ∧ OnlyAt m m' pagetable addr bytes.length ∧
    (r = BitVec.ofNat 32 bytes.length ∨ r = -1 ∧ bytes = [])
  zero : 0 < n.toInt → r = 0 → x.nread = x.nwrite ∧ x.writeopen = false

/-- The bytes that a call may take out have a place. -/
def Stores (m : Mem) (pagetable addr : U64) (n : I32) (contents : List Byte) : Prop :=
  ∀ i < min n.toInt.toNat contents.length, UserMapped m pagetable (addr + BitVec.ofNat 64 i)

variable {m m' m'' : Mem} {pagetable addr : U64} {x x' : Pipe} {contents : List Byte} {ch : Byte}

/-! ## One byte -/

theorem onlyAt_refl : OnlyAt m m pagetable addr 0 := ⟨.refl, fun _ _ => rfl⟩

theorem copyout_byte (hu : UserPages m pagetable) (va : U64) (ch : Byte) :
    ∃ r m', copyout pagetable va [ch] m = .ok (r, m') ∧
      (r = some () ∧ UserMapped m pagetable va ∧ UserBytes m' pagetable va [ch] ∧
          OnlyAt m m' pagetable va 1 ∨
        r = none ∧ ¬ UserMapped m pagetable va ∧ OnlyAt m m' pagetable va 0) := by
  obtain ⟨r, m', hrun, hdone⟩ := copyout_copiedTo hu va [ch]
  have hresult := hdone.result
  simp only [List.length_singleton, Nat.lt_one_iff, forall_eq, Reaches, Nat.le_zero,
    BitVec.add_zero, userPage_ne_none] at hresult
  refine ⟨r, m', hrun, ?_⟩
  cases r with
  | some u =>
    obtain ⟨hbytes, honly⟩ := hdone.success
    exact .inl ⟨rfl, hresult.1 rfl, hbytes, honly⟩
  | none =>
    obtain ⟨k, hk, -, -, honly⟩ := hdone.failure
    obtain rfl : k = 0 := by simpa using hk
    exact .inr ⟨rfl, fun hmapped => (by cases hresult.2 hmapped), honly⟩

theorem userMapped_congr (hu : UserPages m pagetable) {va : U64} {n : Nat}
    (h : OnlyAt m m' pagetable va n) (vb : U64) :
    UserMapped m' pagetable vb ↔ UserMapped m pagetable vb := by
  have hpte := hu.pte h.pages vb
  unfold UserMapped
  rw [hpte]

/-- Two stores one after the other. -/
theorem onlyAt_append (hu : UserPages m pagetable) {i k : Nat}
    (h : OnlyAt m m' pagetable (addr + BitVec.ofNat 64 i) 1)
    (h' : OnlyAt m' m'' pagetable (addr + BitVec.ofNat 64 (i + 1)) k) :
    OnlyAt m m'' pagetable (addr + BitVec.ofNat 64 i) (k + 1) := by
  refine ⟨.trans hu h.pages h'.pages, fun vb hvb => ?_⟩
  have hlast : ∀ j < k, vb ≠ addr + BitVec.ofNat 64 (i + 1) + BitVec.ofNat 64 j := by
    intro j hj heq
    refine hvb (j + 1) (by omega) ?_
    rw [heq, BitVec.add_assoc, BitVec.add_assoc, ← BitVec.ofNat_add, ← BitVec.ofNat_add]
    congr 2
    omega
  have hfirst : ∀ j < 1, vb ≠ addr + BitVec.ofNat 64 i + BitVec.ofNat 64 j :=
    fun j hj => hvb j (by omega)
  rw [h'.kept vb hlast, h.kept vb hfirst]

theorem userBytes_cons {i : Nat} {bytes : List Byte}
    (hlen : bytes.length < 2 ^ 32) (h : UserBytes m' pagetable (addr + BitVec.ofNat 64 i) [ch])
    (honly : OnlyAt m' m'' pagetable (addr + BitVec.ofNat 64 (i + 1)) bytes.length)
    (h' : UserBytes m'' pagetable (addr + BitVec.ofNat 64 (i + 1)) bytes) :
    UserBytes m'' pagetable (addr + BitVec.ofNat 64 i) (ch :: bytes) := by
  have hshift : addr + BitVec.ofNat 64 i + BitVec.ofNat 64 1 = addr + BitVec.ofNat 64 (i + 1) := by
    rw [BitVec.add_assoc, ← BitVec.ofNat_add]
  rw [← List.singleton_append, userBytes_append]
  refine ⟨fun j hj => ?_, ?_⟩
  · obtain rfl : j = 0 := by simpa using hj
    rw [honly.kept]
    · exact h 0 hj
    · intro l hl heq
      rw [← hshift] at heq
      have hnat := congrArg BitVec.toNat heq
      simp only [BitVec.toNat_add, BitVec.toNat_ofNat] at hnat
      omega
  · rw [List.length_singleton, hshift]
    exact h'

/-- The loop ends at the end of the request or of the contents, or with the
first byte that has no place, and that one is lost. -/
theorem copyLoop_spec (addr : U64) (hu : UserPages m pagetable) (h : Contains x contents) (k i : Nat) :
    ∃ bytes lost rest m', contents = bytes ++ (lost ++ rest) ∧
      copyLoop pagetable addr k i x m = .ok ((i + bytes.length,
        { x with nread := x.nread + BitVec.ofNat 32 (bytes.length + lost.length) }), m') ∧
      UserBytes m' pagetable (addr + BitVec.ofNat 64 i) bytes ∧
      OnlyAt m m' pagetable (addr + BitVec.ofNat 64 i) bytes.length ∧
      (∀ l < bytes.length, UserMapped m pagetable (addr + BitVec.ofNat 64 (i + l))) ∧
      (lost = [] ∧ bytes.length = min k contents.length ∨
        lost.length = 1 ∧ bytes.length < min k contents.length ∧
          ¬ UserMapped m pagetable (addr + BitVec.ofNat 64 (i + bytes.length))) := by
  induction k generalizing i x contents m with
  | zero =>
    refine ⟨[], [], contents, m, rfl, ?_, .nil, onlyAt_refl, by simp, .inl ⟨rfl, by simp⟩⟩
    simp [copyLoop]
    rfl
  | succ k ih =>
    rw [copyLoop]
    cases contents with
    | nil =>
      refine ⟨[], [], [], m, rfl, ?_, .nil, onlyAt_refl, by simp, .inl ⟨rfl, by simp⟩⟩
      rw [if_pos (h.eq_iff.2 rfl)]
      simp
      rfl
    | cons ch contents =>
      have hne : x.nread ≠ x.nwrite := fun heq => by simpa using h.eq_iff.1 heq
      obtain ⟨hcell, hrest⟩ := h.pop fits_PIPESIZE
      have hat : x.at x.nread = ch := hcell
      rw [if_neg hne]
      obtain ⟨r, m₁, hrun, hr⟩ := copyout_byte hu (addr + BitVec.ofNat 64 i) ch
      rcases hr with ⟨rfl, hmapped, hbyte, honly⟩ | ⟨rfl, hmapped, honly⟩
      · obtain ⟨bytes, lost, rest, m', rfl, hloop, hbytes, honly', hall, hend⟩ :=
          ih (x := { x with nread := x.nread + 1 }) (hu.wrote honly.pages) hrest (i + 1)
        have hcount := hrest.le
        have hpipe : ∀ j, x.nread + 1 + BitVec.ofNat 32 j = x.nread + BitVec.ofNat 32 (j + 1) := by
          intro j
          rw [BitVec.add_assoc, BitVec.ofNat_add, BitVec.add_comm 1]
          rfl
        refine ⟨ch :: bytes, lost, rest, m', rfl, ?_, ?_, ?_, ?_, ?_⟩
        · simp only [hat]
          rw [Vm.bind_ok hrun]
          refine hloop.trans ?_
          rw [hpipe, List.length_cons, Nat.add_assoc i, Nat.add_comm 1, Nat.add_right_comm]
        · exact userBytes_cons (by
            simp only [List.length_append, PIPESIZE] at hcount
            omega) hbyte honly' hbytes
        · exact onlyAt_append hu honly honly'
        · rintro (_ | l) hl
          · exact hmapped
          · have := (userMapped_congr hu honly _).1 (hall l (by simpa using hl))
            rwa [show i + 1 + l = i + (l + 1) by omega] at this
        · rw [List.length_cons, List.length_cons, Nat.add_min_add_right]
          rw [Nat.add_assoc i, Nat.add_comm 1, userMapped_congr hu honly] at hend
          rcases hend with ⟨hlost, heq⟩ | ⟨hlost, hlt, hfault⟩
          · exact .inl ⟨hlost, congrArg (· + 1) heq⟩
          · exact .inr ⟨hlost, Nat.succ_lt_succ hlt, hfault⟩
      · refine ⟨[], [ch], contents, m₁, rfl, ?_, .nil, honly, by simp, .inr ⟨rfl, by simp, ?_⟩⟩
        · simp only [hat]
          rw [Vm.bind_ok hrun]
          rfl
        · simpa using hmapped

/-! ## The call -/

variable {v : View} {n r : I32}

/-- As many bytes leave the ring as the read counter goes ahead. -/
theorem Exact.count (h : Exact m m' pagetable addr x x' n r) {taken rest : List Byte}
    (hx : Contains x (taken ++ rest)) (hx' : Contains x' rest) :
    r = BitVec.ofNat 32 taken.length ∨ taken = [] := by
  obtain ⟨bytes, rest', hbytes, hrest, -, -, hr⟩ := h.removed
  have hlen : (bytes ++ rest').length = (taken ++ rest).length := hbytes.length.trans hx.length.symm
  have hlen' : rest'.length = rest.length := hrest.length.trans hx'.length.symm
  have hcount : bytes.length = taken.length := by
    simp only [List.length_append] at hlen
    omega
  rcases hr with hr | ⟨-, rfl⟩
  · exact .inl (hcount ▸ hr)
  · exact .inr (List.length_eq_zero_iff.1 hcount.symm)

/-- The call is exact when every byte that it may take out has a place. -/
theorem finish_exact_iff (hu : UserPages m pagetable) (h : Contains v.pipe contents)
    (addr : U64) (n : I32) :
    ∃ r x' m', finish v pagetable addr n m = .ok ((r, x'), m') ∧
      (Exact m m' pagetable addr v.pipe x' n r ↔ Stores m pagetable addr n contents) := by
  have hle := h.le
  by_cases hempty : v.empty = true
  · have hnil : contents = [] := by
      simp only [View.empty, Bool.and_eq_true, decide_eq_true_eq] at hempty
      exact h.eq_iff.1 hempty.1
    subst hnil
    refine ⟨-1, v.pipe, m, by rw [finish, if_pos hempty]; rfl, ?_, ?_⟩
    · exact fun _ i hi => absurd hi (by simp)
    · exact fun _ => ⟨⟨[], [], h, h, .nil, onlyAt_refl, .inr ⟨rfl, rfl⟩⟩,
        fun _ hr => absurd hr (by decide)⟩
  obtain ⟨bytes, lost, rest, m', rfl, hloop, hbytes, honly, hall, hend⟩ :=
    copyLoop_spec addr hu h n.toInt.toNat 0
  simp only [Nat.zero_add, BitVec.add_zero] at hloop hbytes honly hall hend
  have hrest : Contains
      { v.pipe with nread := v.pipe.nread + BitVec.ofNat 32 (bytes.length + lost.length) } rest := by
    rw [← List.append_assoc] at h
    have hdrop := h.drop fits_PIPESIZE
    rwa [List.length_append] at hdrop
  refine ⟨_, _, m', by rw [finish, if_neg hempty, Vm.bind_ok hloop]; rfl, ?_⟩
  rcases hend with ⟨rfl, hfull⟩ | ⟨hlost, hlt, hfault⟩
  · refine iff_of_true ⟨⟨bytes, rest, h, hrest, hbytes, honly, .inl rfl⟩, fun hn hr => ?_⟩ ?_
    · have hzero : bytes.length = 0 := by
        have hnat : bytes.length % 2 ^ 32 = 0 := by simpa using congrArg BitVec.toNat hr
        simp only [List.length_append, PIPESIZE] at hle
        omega
      have hnone : bytes ++ ([] ++ rest) = [] := by
        rw [← List.length_eq_zero_iff]
        omega
      have heq := h.eq_iff.2 hnone
      refine ⟨heq, ?_⟩
      simpa [View.empty, heq] using hempty
    · exact fun i hi => hall i (by omega)
  · refine iff_of_false (fun hexact => ?_) fun hstores => hfault (hstores _ hlt)
    rw [← List.append_assoc] at h
    rcases hexact.count h hrest with hr | hnil
    · have hnat := congrArg BitVec.toNat hr
      simp only [BitVec.toNat_ofNat, List.length_append, PIPESIZE, hlost] at hnat hle
      omega
    · have hzero := congrArg List.length hnil
      simp [hlost] at hzero

/-! ## The call of a process -/

section path

variable {P : Type} [DecidableEq P] {p : P} {s : State P}

theorem path_op {β : Type} {o : Op P β} {b : β} {s s' : State P} (i : Input P)
    (hx : exec p i s o = some (b, s')) : Path (machine P) p p (.perform o) s (.ret b) s' :=
  Path.perform i rfl hx rfl

/-- One turn of the loop that copies, as the process runs it. -/
def copyTurn (addr : U64) (n : I32) (i : Nat) : Code P (Nat ⊕ Nat) := do
  if ¬ (i : Int) < n.toInt then
    return .inr i
  if ← read fun x => decide (x.nread = x.nwrite) then
    return .inr i
  let ch ← Prog.perform .pop
  match ← Prog.perform (.copyout (addr + BitVec.ofNat 64 i) ch) with
  | none => return .inr i
  | some () => return .inl (i + 1)

/-- The process after it has taken bytes out. -/
def State.withPipe (s : State P) (x : Pipe) (taken : List Byte) : State P :=
  { s with pipe := x, taken := taken }

theorem path_copyTurn (addr : U64) {n : I32} {i : Nat} (hlt : (i : Int) < n.toInt)
    (hne : s.pipe.nread ≠ s.pipe.nwrite) (r : Option Unit) :
    Path (machine P) p p (copyTurn addr n i) s (.ret (r.elim (.inr i) fun _ => .inl (i + 1)))
      (s.withPipe { s.pipe with nread := s.pipe.nread + 1 }
        (s.taken ++ [s.pipe.at s.pipe.nread])) := by
  refine Path.ite_not (not_not.2 hlt) ?_
  refine Path.bind (path_op .none rfl) ?_
  refine Path.ite_not (by simpa using hne) ?_
  refine Path.bind (path_op .none rfl) ?_
  refine Path.bind (path_op (.stored r) rfl) ?_
  cases r with
  | none => exact .refl
  | some _ => exact .refl

/-- What user memory answers comes from outside. -/
theorem path_copyLoop {n : I32} {k i : Nat} (hk : i + k = n.toInt.toNat) {r : Nat × Pipe}
    (hrun : copyLoop pagetable addr k i s.pipe m = .ok (r, m')) :
    ∃ taken, Path (machine P) p p (Prog.loop (copyTurn addr n) i) s (.ret r.1)
      (s.withPipe r.2 taken) := by
  induction k generalizing i s m with
  | zero =>
    obtain ⟨rfl, -⟩ := Prod.mk.inj (Except.ok.inj hrun)
    have hturn : Path (machine P) p p (copyTurn addr n i) s (.ret (.inr i)) s :=
      Path.ite (by omega) .refl
    exact ⟨s.taken, .iter .none rfl (hturn.bind .refl)⟩
  | succ k ih =>
    have hlt : (i : Int) < n.toInt := by omega
    rw [copyLoop] at hrun
    by_cases hempty : s.pipe.nread = s.pipe.nwrite
    · rw [if_pos hempty] at hrun
      obtain ⟨rfl, -⟩ := Prod.mk.inj (Except.ok.inj hrun)
      have hturn : Path (machine P) p p (copyTurn addr n i) s (.ret (.inr i)) s :=
        Path.ite_not (not_not.2 hlt)
          (Path.bind (path_op .none rfl) (Path.ite (decide_eq_true hempty) .refl))
      exact ⟨s.taken, .iter .none rfl (hturn.bind .refl)⟩
    · rw [if_neg hempty] at hrun
      obtain ⟨o, m₁, hcopy, hrest⟩ := Vm.of_bind hrun
      have hturn := path_copyTurn (p := p) addr hlt hempty o
      cases o with
      | none =>
        obtain ⟨rfl, -⟩ := Prod.mk.inj (Except.ok.inj hrest)
        exact ⟨_, .iter .none rfl (hturn.bind .refl)⟩
      | some _ =>
        obtain ⟨taken, hpath⟩ := ih (i := i + 1)
          (s := s.withPipe { s.pipe with nread := s.pipe.nread + 1 }
            (s.taken ++ [s.pipe.at s.pipe.nread])) (by omega) hrest
        exact ⟨taken, .iter .none rfl (hturn.bind hpath)⟩

/-- One test of the loop that waits. -/
def waitTurn : Unit → Code P (Unit ⊕ Bool) := fun () => do
  if !(← read fun x => decide (x.nread = x.nwrite) && x.writeopen) then
    return .inr true
  if ← .perform .killed then
    release
    return .inr false
  sleep .nread
  return .inl ()

/-- From a state with a free lock, in which the process does not have to wait,
the code of `piperead` comes to the same end. -/
theorem path_piperead {n r : I32} (hlock : s.lock = none)
    (hawake : View.empty ⟨s.pipe, s.killed p⟩ = true → s.killed p = true) {x' : Pipe}
    (hrun : finish ⟨s.pipe, s.killed p⟩ pagetable addr n m = .ok ((r, x'), m')) :
    ∃ s', Path (machine P) p p (piperead addr n) s (.ret r) s' ∧ s'.pipe = x' ∧
      s'.lock = none := by
  obtain ⟨s₁, hs₁⟩ : ∃ s₁ : State P, s₁ =
    { s with lock := some p, fresh := Function.update s.fresh p false } := ⟨_, rfl⟩
  have hpipe : s₁.pipe = s.pipe := by rw [hs₁]
  have hkilled : s₁.killed = s.killed := by rw [hs₁]
  have hacquire : Path (machine P) p p acquire s (.ret ()) s₁ := by
    refine path_op .none ?_
    rw [hs₁]
    simp only [exec, hlock]
  have hread : Path (machine P) p p (read fun x => decide (x.nread = x.nwrite) && x.writeopen) s₁
      (.ret (View.empty ⟨s.pipe, s.killed p⟩)) s₁ := by
    refine path_op .none ?_
    rw [← hpipe]
    rfl
  unfold finish at hrun
  by_cases hempty : View.empty ⟨s.pipe, s.killed p⟩ = true
  · rw [if_pos hempty] at hrun
    obtain ⟨hr, -⟩ := Prod.mk.inj (Except.ok.inj hrun)
    obtain ⟨rfl, rfl⟩ := Prod.mk.inj hr
    have hdead : Path (machine P) p p (.perform .killed) s₁ (.ret (s.killed p)) s₁ := by
      refine path_op .none ?_
      rw [← hkilled]
      rfl
    have hwait : Path (machine P) p p (waitTurn ()) s₁ (.ret (.inr false))
        { s₁ with lock := none } := by
      refine Path.bind hread (Path.ite_not (by simp [hempty]) (Path.bind hdead ?_))
      exact Path.ite (hawake hempty) (Path.bind (path_op .none rfl) .refl)
    have hloop : Path (machine P) p p (Prog.loop waitTurn ()) s₁ (.ret false)
        { s₁ with lock := none } := .iter .none rfl (hwait.bind .refl)
    exact ⟨_, hacquire.bind (hloop.bind .refl), hpipe, rfl⟩
  · rw [if_neg hempty] at hrun
    obtain ⟨⟨i, x⟩, m₁, hcopy, hret⟩ := Vm.of_bind hrun
    obtain ⟨hr, -⟩ := Prod.mk.inj (Except.ok.inj hret)
    obtain ⟨rfl, rfl⟩ := Prod.mk.inj hr
    have hwait : Path (machine P) p p (waitTurn ()) s₁ (.ret (.inr true)) s₁ :=
      Path.bind hread (Path.ite (by simpa using hempty) .refl)
    have hloop : Path (machine P) p p (Prog.loop waitTurn ()) s₁ (.ret true) s₁ :=
      .iter .none rfl (hwait.bind .refl)
    have hcopy' : copyLoop pagetable addr n.toInt.toNat 0 s₁.pipe m = .ok ((i, x), m₁) := by
      rw [hpipe]
      exact hcopy
    obtain ⟨taken, hpath⟩ := path_copyLoop (p := p) (Nat.zero_add _) hcopy'
    have hend : Path (machine P) p p (do wakeup .nwrite; release; return BitVec.ofNat 32 i)
        (s₁.withPipe x taken) (.ret (BitVec.ofNat 32 i))
        { (s₁.withPipe x taken) with
          lock := none
          asleep := fun q => if s₁.asleep q = some .nwrite then none else s₁.asleep q } :=
      Path.bind (path_op .none rfl) (Path.bind (path_op .none rfl) .refl)
    exact ⟨_, hacquire.bind (hloop.bind (hpath.bind hend)), rfl, rfl⟩

end path

/-- For every reader, however often it slept before: what it removes from the
pipe is what it stores and counts, and zero means the end, exactly when every
byte that it may take out has a place in its memory. -/
theorem piperead_exact_iff (hu : UserPages m pagetable) (views : List View) (v : View)
    (hawait : await views = some v) (h : Contains v.pipe contents) (addr : U64) (n : I32) :
    (v.empty = true → v.killed = true) ∧
      ∃ r x' m', finish v pagetable addr n m = .ok ((r, x'), m') ∧
        (Exact m m' pagetable addr v.pipe x' n r ↔ Stores m pagetable addr n contents) := by
  refine ⟨fun hempty => ?_, finish_exact_iff hu h addr n⟩
  induction views with
  | nil => cases hawait
  | cons w views ih =>
    rw [await] at hawait
    split at hawait
    · exact ih hawait
    · cases hawait
      simp_all

/-- One byte in the ring. -/
def oneByte : View := ⟨Pipe.new.push 7, false⟩

theorem contains_oneByte : Contains oneByte.pipe [7] :=
  (Ring.Holds.empty Pipe.new.data 0).push fits_PIPESIZE (by decide) 7

/-- A reader that has been woken once, and whose memory has a page. -/
theorem piperead_exact_iff_oneByte : ∃ m, textSpace fourFree = .ok (some PGSIZE, m) ∧
    (oneByte.empty = true → oneByte.killed = true) ∧
      ∃ r x' m', finish oneByte 0x80023000 0 16 m = .ok ((r, x'), m') ∧
        (Exact m m' 0x80023000 0 oneByte.pipe x' 16 r ↔ Stores m 0x80023000 0 16 [7]) := by
  obtain ⟨m, ts, hrun, hs, hh⟩ := textSpace_fourFree
  exact ⟨m, hrun, piperead_exact_iff (hs.userPages noUser_zero hh) [⟨Pipe.new, false⟩, oneByte]
    oneByte rfl contains_oneByte 0 16⟩

/-- A read to a page that is not mapped returns 0 and loses a byte. -/
theorem piperead_loses_byte : ∃ m, textSpace fourFree = .ok (some PGSIZE, m) ∧
    ∃ r x' m', finish oneByte 0x80023000 MAXVA 1 m = .ok ((r, x'), m') ∧
      ¬ Exact m m' 0x80023000 MAXVA oneByte.pipe x' 1 r := by
  obtain ⟨m, ts, hrun, hs, hh⟩ := textSpace_fourFree
  obtain ⟨r, x', m', hcall, hiff⟩ :=
    finish_exact_iff (hs.userPages noUser_zero hh) contains_oneByte MAXVA 1
  refine ⟨m, hrun, r, x', m', hcall, fun hexact => ?_⟩
  have hlt := (hiff.1 hexact 0 (by decide)).1
  rw [BitVec.add_zero] at hlt
  exact absurd hlt (by decide)

end Xv6.Pipes
