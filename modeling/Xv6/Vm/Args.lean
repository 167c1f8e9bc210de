import Xv6.Vm.Uaccess
import Xv6.Vm.ExecRules

/-!
# The arguments on the stack

What `exec` leaves on the stack page of a new program: the argument strings
from the top of the page down, and below them the array of their addresses.
-/

namespace Xv6

variable {m m' : Mem} {root va : U64} {bs : List (BitVec 8)}

/-! ## Writes inside a range of addresses -/

/-- Of user memory only what lies from `lo` to `hi` may have changed. -/
structure ChangedIn (m m' : Mem) (root : U64) (lo hi : Nat) : Prop where
  pages : UserWrote m m' root
  kept : ∀ va : U64, va.toNat < lo ∨ hi ≤ va.toNat → userByte m' root va = userByte m root va

theorem ChangedIn.refl {lo hi : Nat} : ChangedIn m m root lo hi := ⟨.refl, fun _ _ => rfl⟩

theorem ChangedIn.trans {m'' : Mem} {lo mid hi : Nat} (hu : UserPages m root)
    (h : ChangedIn m m' root mid hi) (h' : ChangedIn m' m'' root lo mid) (hlo : lo ≤ mid)
    (hhi : mid ≤ hi) : ChangedIn m m'' root lo hi := by
  refine ⟨h.pages.trans hu h'.pages, fun va hva => ?_⟩
  rw [h'.kept va (by omega), h.kept va (by omega)]

theorem OnlyAt.changedIn {n hi : Nat} (h : OnlyAt m m' root va n) (hhi : va.toNat + n ≤ hi)
    (hlt : hi ≤ 2 ^ 64) : ChangedIn m m' root va.toNat hi := by
  refine ⟨h.pages, fun vb hvb => h.kept vb fun i hi heq => ?_⟩
  have hsum := congrArg BitVec.toNat heq
  rw [BitVec.toNat_add, BitVec.toNat_ofNat] at hsum
  omega

/-- Bytes outside the range stay. -/
theorem UserBytes.changedIn {lo hi : Nat} (hb : UserBytes m root va bs)
    (h : ChangedIn m m' root lo hi) (hlt : va.toNat + bs.length ≤ 2 ^ 64)
    (hout : va.toNat + bs.length ≤ lo ∨ hi ≤ va.toNat) : UserBytes m' root va bs := by
  intro i hi
  rw [h.kept _ ?_, hb i hi]
  rw [BitVec.toNat_add, BitVec.toNat_ofNat]
  omega

/-! ## Strings on kernel pages -/

/-- The kernel page `a`, which is none of `own` and not free, holds a string
and its NUL. -/
structure KernelString (m : Mem) (own : List U64) (a : U64) (s : List (BitVec 8)) : Prop where
  taken : a ∉ m.freelist
  apart : a ∉ own
  nonzero : ∀ b ∈ s, b ≠ 0
  fits : s.length < 4096
  byte : ∀ i ≤ s.length, m.byte a i = s.getD i 0

theorem KernelString.moves {own own' : List U64} {a : U64} {s : List (BitVec 8)}
    (h : KernelString m own a s) (hmoves : m.Moves m' own own') : KernelString m' own' a s := by
  have hnot : ¬ (a ∈ m'.freelist ∨ a ∈ own') := fun hmem =>
    (hmoves.mem_iff.1 hmem).elim h.taken h.apart
  refine ⟨fun hfree => hnot (.inl hfree), fun hown => hnot (.inr hown), h.nonzero, h.fits,
    fun i hi => ?_⟩
  rw [← h.byte i hi]
  simp [Mem.byte, hmoves.frame a h.taken h.apart]

theorem KernelString.stringAt {own : List U64} {a : U64} {s : List (BitVec 8)}
    (h : KernelString m own a s) : Vm.stringAt a m = .ok (s, m) := by
  have htake : ((List.range 4096).map fun k => m.byte a (0 + k)).takeWhile (· ≠ 0) =
      s.take 4096 :=
    takeWhile_bytes h.nonzero fun i hi _ => by rw [Nat.zero_add, h.byte i hi]
  rw [List.take_of_length_le (Nat.le_of_lt h.fits)] at htake
  show Except.ok (((List.range 4096).map fun k => m.byte a (0 + k)).takeWhile (· ≠ 0), m) = _
  rw [htake]

/-- The pages `argv` hold the strings `strings`. -/
abbrev KernelStrings (m : Mem) (own : List U64) : List U64 → List (List (BitVec 8)) → Prop :=
  List.Forall₂ (KernelString m own)

theorem KernelStrings.moves {own own' argv : List U64} {strings : List (List (BitVec 8))}
    (h : KernelStrings m own argv strings) (hmoves : m.Moves m' own own') :
    KernelStrings m' own' argv strings := h.imp fun _ _ hs => hs.moves hmoves

/-! ## The stack pointer -/

/-- What a block of `k` bytes takes on the stack. -/
def padded (k : Nat) : Nat := (k + 15) / 16 * 16

/-- What the argument strings take. -/
def stringsNeed (strings : List (List (BitVec 8))) : Nat :=
  (strings.map fun s => padded (s.length + 1)).sum

/-- What the arguments of a program take: the strings, and the array. -/
def argsNeed (strings : List (List (BitVec 8))) : Nat :=
  stringsNeed strings + padded ((strings.length + 1) * 8)

/-- One push, which rounds the stack pointer down. -/
theorem toNat_pushed {sp : U64} {k : Nat} (hk : k ≤ sp.toNat) (hsp : sp.toNat % 16 = 0) :
    (sp - .ofNat 64 k - (sp - .ofNat 64 k) % 16).toNat = sp.toNat - padded k := by
  have hlt := sp.isLt
  have hsub : (sp - BitVec.ofNat 64 k).toNat = sp.toNat - k := by
    rw [BitVec.toNat_sub, BitVec.toNat_ofNat]
    omega
  have hmod : ((sp - BitVec.ofNat 64 k) % 16).toNat = (sp.toNat - k) % 16 := by
    rw [BitVec.toNat_umod, hsub]
    rfl
  rw [BitVec.toNat_sub, hsub, hmod]
  unfold padded
  omega

theorem le_padded (k : Nat) : k ≤ padded k := by
  unfold padded
  omega

theorem padded_mod (k : Nat) : padded k % 16 = 0 := Nat.mul_mod_left ..

theorem stringsNeed_mod (strings : List (List (BitVec 8))) : stringsNeed strings % 16 = 0 := by
  induction strings with
  | nil => rfl
  | cons s strings ih =>
    have hpad := padded_mod (s.length + 1)
    unfold stringsNeed at ih ⊢
    rw [List.map_cons, List.sum_cons]
    omega

/-! ## The strings -/

/-- The strings lie one below the other from `hi` down to `lo`, at `ptrs`. -/
inductive Stacked (m : Mem) (root : U64) : Nat → List U64 → List (List (BitVec 8)) → Nat → Prop
  | nil {hi : Nat} : Stacked m root hi [] [] hi
  | cons {hi lo : Nat} {ptr : U64} {s : List (BitVec 8)} {ptrs : List U64}
      {strings : List (List (BitVec 8))} (bytes : UserBytes m root ptr (s ++ [0]))
      (fits : ptr.toNat + (s.length + 1) ≤ hi) (rest : Stacked m root ptr.toNat ptrs strings lo) :
      Stacked m root hi (ptr :: ptrs) (s :: strings) lo

theorem Stacked.le {hi lo : Nat} {ptrs : List U64} {strings : List (List (BitVec 8))}
    (h : Stacked m root hi ptrs strings lo) : lo ≤ hi := by
  induction h with
  | nil => exact Nat.le_refl _
  | cons _ fits _ ih => omega

theorem Stacked.length_eq {hi lo : Nat} {ptrs : List U64} {strings : List (List (BitVec 8))}
    (h : Stacked m root hi ptrs strings lo) : ptrs.length = strings.length := by
  induction h with
  | nil => rfl
  | cons _ _ _ ih => simp [ih]

/-- What is written below the strings does not touch them. -/
theorem Stacked.changedIn {hi lo lo' : Nat} {ptrs : List U64} {strings : List (List (BitVec 8))}
    (h : Stacked m root hi ptrs strings lo) (hchange : ChangedIn m m' root lo' lo)
    (hlt : hi ≤ 2 ^ 64) : Stacked m' root hi ptrs strings lo := by
  induction h with
  | nil => exact .nil
  | cons bytes fits rest ih =>
    have hle := rest.le
    refine .cons (bytes.changedIn hchange ?_ (.inr hle)) fits (ih hchange (by omega))
    rw [List.length_append, List.length_singleton]
    omega

/-! ## Pushing -/

section push

variable {ts : List U64} {n : Nat} {top : Nat → U64} {base : U64}

/-- The stack page, which is the user's. -/
def StackPage (m : Mem) (root base : U64) : Prop :=
  4096 ≤ base.toNat ∧ base.toNat + 4096 < 2 ^ 38 ∧
    ∀ va : U64, base.toNat ≤ va.toNat → va.toNat < base.toNat + 4096 → UserMapped m root va

theorem StackPage.congr (h : StackPage m root base) (hpte : ∀ va, m'.pte root va = m.pte root va) :
    StackPage m' root base := by
  refine ⟨h.1, h.2.1, fun va hlo hhi => ?_⟩
  unfold UserMapped
  rw [hpte]
  exact h.2.2 va hlo hhi

/-- `copyout` to the stack page does not fail. -/
theorem copyout_stack (bs : List (BitVec 8)) (hs : Space m root ts n top) (htop : NoUser top)
    (hh : Held m (m.upages root n ++ ts)) (hstack : StackPage m root base) {sp : U64}
    (hlo : base.toNat ≤ sp.toNat) (hhi : sp.toNat + bs.length ≤ base.toNat + 4096) :
    ∃ m', copyout root sp bs m = .ok (some (), m') ∧ Wrote m m' (m.upages root n) ∧
      UserBytes m' root sp bs ∧ OnlyAt m m' root sp bs.length := by
  obtain ⟨hbase, htop', hmapped⟩ := hstack
  obtain ⟨r, m', hrun, hr, hsome, -⟩ := copyout_exact (hs.userPages htop hh) sp bs
  obtain ⟨r', m₁, hrun', hdone⟩ := copyout_spec hs htop hh sp bs
  have hrange : UserRange m root sp bs.length := by
    intro i hi
    have haddr : (sp + BitVec.ofNat 64 i).toNat = sp.toNat + i := by
      rw [BitVec.toNat_add, BitVec.toNat_ofNat]
      omega
    refine ⟨?_, hmapped _ (by omega) (by omega)⟩
    rw [MAXVA_toNat]
    omega
  obtain rfl := hr.2 hrange
  obtain ⟨hbytes, honly, -⟩ := hsome rfl
  rw [hrun] at hrun'
  obtain ⟨-, rfl⟩ := Prod.mk.inj (Except.ok.inj hrun')
  exact ⟨m', hrun, hdone.pages, hbytes, honly⟩

/-- What one push of a string does. -/
theorem pushStrings_cons {arg sp : U64} {argv ustack : List U64} {s : List (BitVec 8)}
    (hstring : Vm.stringAt arg m = .ok (s, m)) (hmany : ustack.length < Vm.MAXARG) :
    Vm.pushStrings root base (arg :: argv) sp ustack m =
      (if sp - .ofNat 64 (s.length + 1) - (sp - .ofNat 64 (s.length + 1)) % 16 < base then
        .ok (none, m)
      else (copyout root (sp - .ofNat 64 (s.length + 1) - (sp - .ofNat 64 (s.length + 1)) % 16)
        (s ++ [0]) >>= fun r => r.elim (pure none) fun _ => Vm.pushStrings root base argv
          (sp - .ofNat 64 (s.length + 1) - (sp - .ofNat 64 (s.length + 1)) % 16)
          (ustack ++ [sp - .ofNat 64 (s.length + 1) - (sp - .ofNat 64 (s.length + 1)) % 16])) m) := by
  conv => lhs; unfold Vm.pushStrings
  rw [if_neg (Nat.not_le.2 hmany)]
  refine (Vm.bind_ok hstring).trans ?_
  split
  · rfl
  · refine congrFun (bind_congr fun r => ?_) m
    cases r <;> rfl

/-- The strings are pushed as long as there is room for them. -/
theorem pushStrings_stacked (htop : NoUser top) {argv : List U64}
    {strings : List (List (BitVec 8))} : ∀ {m : Mem} (sp : U64) (ustack : List U64),
    Space m root ts n top → Held m (m.upages root n ++ ts) → StackPage m root base →
    KernelStrings m (m.upages root n ++ ts) argv strings →
    ustack.length + argv.length ≤ Vm.MAXARG → sp.toNat % 16 = 0 → base.toNat ≤ sp.toNat →
    sp.toNat ≤ base.toNat + 4096 →
    ∃ r m', Vm.pushStrings root base argv sp ustack m = .ok (r, m') ∧
      Wrote m m' (m.upages root n) ∧
      (base.toNat + stringsNeed strings ≤ sp.toNat ∧
          (∃ ptrs sp', r = some (sp', ustack ++ ptrs) ∧
            sp'.toNat = sp.toNat - stringsNeed strings ∧
            Stacked m' root sp.toNat ptrs strings sp'.toNat ∧
            ChangedIn m m' root sp'.toNat sp.toNat) ∨
        sp.toNat < base.toNat + stringsNeed strings ∧ r = none) := by
  induction argv generalizing strings with
  | nil =>
    intro m sp ustack hs hh hstack hargs hmany hsp hlo hhi
    cases hargs
    refine ⟨some (sp, ustack), m, rfl, .refl, .inl ⟨hlo, [], sp, ?_, rfl, .nil, .refl⟩⟩
    rw [List.append_nil]
  | cons arg argv ih =>
    intro m sp ustack hs hh hstack hargs hmany hsp hlo hhi
    cases hargs with
    | @cons _ s _ strings harg hargs =>
    have hneed : stringsNeed (s :: strings) = padded (s.length + 1) + stringsNeed strings := by
      simp [stringsNeed]
    have hroom : s.length + 1 ≤ sp.toNat := by
      have hbase := hstack.1
      have hfits := harg.fits
      omega
    have hpushed := toNat_pushed hroom hsp
    have hpad := le_padded (s.length + 1)
    have hmod := padded_mod (s.length + 1)
    rw [List.length_cons] at hmany
    rw [pushStrings_cons harg.stringAt (by omega), hneed]
    set sp₁ := sp - BitVec.ofNat 64 (s.length + 1) - (sp - BitVec.ofNat 64 (s.length + 1)) % 16
    by_cases hfull : sp₁ < base
    · refine ⟨none, m, if_pos hfull, .refl, .inr ⟨?_, rfl⟩⟩
      rw [BitVec.lt_def] at hfull
      omega
    · rw [if_neg hfull]
      rw [BitVec.lt_def, Nat.not_lt] at hfull
      have hnat := hstack.1
      have hlen : (s ++ [0]).length = s.length + 1 := by simp
      have hfit : sp₁.toNat + (s ++ [0]).length ≤ sp.toNat := by
        rw [hlen]
        omega
      obtain ⟨m₁, hrun₁, hwrote₁, hbytes, honly⟩ := copyout_stack (s ++ [0]) hs htop hh hstack hfull
        (by omega)
      obtain ⟨hs₁, hpte₁, hup₁, hh₁⟩ := hs.wrote hh hwrote₁
      have hu := hs.userPages htop hh
      have hchange := honly.changedIn hfit (Nat.le_of_lt sp.isLt)
      have hargs₁ : KernelStrings m₁ (m₁.upages root n ++ ts) argv strings :=
        KernelStrings.moves hargs (hup₁.symm ▸ hwrote₁.moves fun a ha =>
          List.mem_append_left _ ha)
      obtain ⟨r, m', hrun, hwrote, hr⟩ := ih sp₁ (ustack ++ [sp₁]) hs₁ hh₁ (hstack.congr hpte₁) hargs₁
        (by simp; omega) (by omega) hfull (by omega)
      refine ⟨r, m', (Vm.bind_ok hrun₁).trans hrun, hwrote₁.trans (hup₁ ▸ hwrote), ?_⟩
      rcases hr with ⟨hroom', ptrs, sp', rfl, hsp', hstacked, hchange'⟩ | ⟨hnone, rfl⟩
      · refine .inl ⟨by omega, sp₁ :: ptrs, sp', by simp, by omega, .cons ?_ ?_ hstacked, ?_⟩
        · -- what is pushed later lies below
          refine hbytes.changedIn hchange' ?_ (.inr (Nat.le_refl _))
          have := sp.isLt
          omega
        · omega
        · exact hchange.trans hu hchange' hstacked.le (by omega)
      · exact .inr ⟨by omega, rfl⟩

/-! ## The array -/

theorem length_words (ws : List U64) : (ws.flatMap Vm.wordBytes).length = ws.length * 8 := by
  induction ws with
  | nil => rfl
  | cons w ws ih =>
    rw [List.flatMap_cons, List.length_append, ih, List.length_cons]
    simp [Vm.wordBytes]
    omega

/-- The blocks of the stack: the array of addresses, and the strings. -/
def argBlocks (sp : U64) (ptrs : List U64) (strings : List (List (BitVec 8))) :
    List (Nat × Nat) :=
  (sp.toNat, (ptrs.length + 1) * 8) ::
    List.zipWith (fun ptr s => (ptr.toNat, s.length + 1)) ptrs strings

/-- Two blocks have no address in common. -/
def Apart (a b : Nat × Nat) : Prop := a.1 + a.2 ≤ b.1 ∨ b.1 + b.2 ≤ a.1

/-- The stack page from `base` on holds the array of `ptrs` and a null pointer
at `sp`, and the strings at `ptrs`. -/
structure ArgsAt (m : Mem) (root : U64) (base : Nat) (sp : U64) (ptrs : List U64)
    (strings : List (List (BitVec 8))) : Prop where
  aligned : sp.toNat % 16 = 0
  array : UserBytes m root sp ((ptrs ++ [0]).flatMap Vm.wordBytes)
  copies : List.Forall₂ (fun ptr s => UserBytes m root ptr (s ++ [0])) ptrs strings
  disjoint : (argBlocks sp ptrs strings).Pairwise Apart
  inside : ∀ b ∈ argBlocks sp ptrs strings, base ≤ b.1 ∧ b.1 + b.2 ≤ base + 4096

theorem Stacked.forall₂ {hi lo : Nat} {ptrs : List U64} {strings : List (List (BitVec 8))}
    (h : Stacked m root hi ptrs strings lo) :
    List.Forall₂ (fun ptr s => UserBytes m root ptr (s ++ [0])) ptrs strings := by
  induction h with
  | nil => exact .nil
  | cons bytes _ _ ih => exact .cons bytes ih

theorem Stacked.inside {hi lo : Nat} {ptrs : List U64} {strings : List (List (BitVec 8))}
    (h : Stacked m root hi ptrs strings lo) :
    ∀ b ∈ List.zipWith (fun (ptr : U64) (s : List (BitVec 8)) => (ptr.toNat, s.length + 1))
      ptrs strings, lo ≤ b.1 ∧ b.1 + b.2 ≤ hi := by
  induction h with
  | nil => simp
  | cons _ fits rest ih =>
    have hle := rest.le
    intro b hb
    rcases List.mem_cons.1 hb with rfl | hb
    · exact ⟨hle, fits⟩
    · have hb' := ih b hb
      omega

theorem Stacked.disjoint {hi lo : Nat} {ptrs : List U64} {strings : List (List (BitVec 8))}
    (h : Stacked m root hi ptrs strings lo) :
    (List.zipWith (fun (ptr : U64) (s : List (BitVec 8)) => (ptr.toNat, s.length + 1))
      ptrs strings).Pairwise Apart := by
  induction h with
  | nil => exact .nil
  | cons _ _ rest ih => exact .cons (fun b hb => .inr (rest.inside b hb).2) ih

/-- `exec` pushes the arguments exactly when they fit in the page. -/
theorem pushArgs_args (htop : NoUser top) {argv : List U64} {strings : List (List (BitVec 8))}
    {sz : U64} (hs : Space m root ts n top) (hh : Held m (m.upages root n ++ ts))
    (hstack : StackPage m root base) (hsz : sz.toNat = base.toNat + 4096)
    (hbase : base.toNat % 4096 = 0) (hargs : KernelStrings m (m.upages root n ++ ts) argv strings)
    (hmany : argv.length < Vm.MAXARG) :
    ∃ r m', Vm.pushArgs root base sz argv m = .ok (r, m') ∧ Wrote m m' (m.upages root n) ∧
      (argsNeed strings ≤ 4096 ∧
          (∃ sp ptrs, r = some (sp, strings.length) ∧
            ArgsAt m' root base.toNat sp ptrs strings) ∨
        4096 < argsNeed strings ∧ r = none) := by
  obtain ⟨r, m₁, hrun₁, hwrote₁, hr⟩ := pushStrings_stacked htop sz [] hs hh hstack hargs
    (by simp; omega) (by omega) (by omega) (by omega)
  obtain ⟨hs₁, hpte₁, hup₁, hh₁⟩ := hs.wrote hh hwrote₁
  have hpos := hstack.1
  unfold Vm.pushArgs
  rcases hr with ⟨hroom, ptrs, sp, rfl, hsp, hstacked, -⟩ | ⟨hnone, rfl⟩
  · have hlen := hstacked.length_eq
    have hcount : strings.length ≤ 31 := by
      rw [← List.Forall₂.length_eq hargs]
      exact Nat.le_of_lt_succ hmany
    have hmod : sp.toNat % 16 = 0 := by
      have := stringsNeed_mod strings
      omega
    have hpushed := toNat_pushed (k := (ptrs.length + 1) * 8) (by omega) hmod
    have hpad := le_padded ((ptrs.length + 1) * 8)
    have hpadmod := padded_mod ((ptrs.length + 1) * 8)
    have hneed : argsNeed strings = stringsNeed strings + padded ((ptrs.length + 1) * 8) := by
      rw [hlen]
      rfl
    generalize hsub : sp - BitVec.ofNat 64 ((ptrs.length + 1) * 8) = sp₁ at hpushed
    by_cases hfull : sp₁ - sp₁ % 16 < base
    · refine ⟨none, m₁, (Vm.bind_ok hrun₁).trans ?_, hwrote₁, .inr ⟨?_, rfl⟩⟩
      · dsimp only
        rw [List.nil_append, hsub, if_pos hfull]
        rfl
      · rw [BitVec.lt_def] at hfull
        omega
    · have hlow := Nat.not_lt.1 (mt BitVec.lt_def.2 hfull)
      have hwords : ((ptrs ++ [0]).flatMap Vm.wordBytes).length = (ptrs.length + 1) * 8 := by
        rw [length_words]
        simp
      obtain ⟨m₂, hrun₂, hwrote₂, hbytes, honly⟩ := copyout_stack
        ((ptrs ++ [0]).flatMap Vm.wordBytes) hs₁ htop hh₁ (hstack.congr hpte₁) hlow (by omega)
      have hchange : ChangedIn m₁ m₂ root (sp₁ - sp₁ % 16).toNat sp.toNat :=
        honly.changedIn (by omega) (Nat.le_of_lt sp.isLt)
      have hstacked₂ := hstacked.changedIn hchange (Nat.le_of_lt sz.isLt)
      refine ⟨some (sp₁ - sp₁ % 16, ptrs.length), m₂, (Vm.bind_ok hrun₁).trans ?_,
        hwrote₁.trans (hup₁ ▸ hwrote₂), .inl ⟨by omega, sp₁ - sp₁ % 16, ptrs, by rw [hlen], ?_⟩⟩
      · dsimp only
        rw [List.nil_append, hsub, if_neg hfull]
        exact Vm.bind_ok hrun₂
      · refine ⟨by omega, hbytes, hstacked₂.forall₂, .cons (fun b hb => .inl ?_)
          hstacked₂.disjoint, fun b hb => ?_⟩
        · have := hstacked₂.inside b hb
          omega
        · rcases List.mem_cons.1 hb with rfl | hb
          · omega
          · have := hstacked₂.inside b hb
            omega
  · refine ⟨none, m₁, Vm.bind_ok hrun₁, hwrote₁, .inr ⟨?_, rfl⟩⟩
    unfold argsNeed
    omega

/-! ## The pages of the stack -/

/-- `uvmalloc` and `uvmclear` make the guard page and the stack page. -/
theorem stack_pages {k : Nat} (hadded : Added m m' root ts k (k + 2) top
      (allocPerm PTE_W)) (hk : k + 2 ≤ 32768) {m₂ : Mem}
    (hh : Held m₂ (m₂.upages root (k + 2) ++ ts))
    (hclear : ∀ va, m₂.pte root va =
      if vpn va = k then m'.pte root va &&& ~~~PTE_U else m'.pte root va) :
    StackPage m₂ root (pageAt (k + 1)) ∧
      ∀ va : U64, 4096 * k ≤ va.toNat → va.toNat < 4096 * (k + 1) → ¬ UserMapped m₂ root va := by
  have hbase : (pageAt (k + 1)).toNat = 4096 * (k + 1) := pageAt_toNat (by omega)
  constructor
  · refine ⟨by omega, by omega, fun va hlo hhi => ?_⟩
    have hvpn : vpn va = k + 1 := by
      unfold vpn
      omega
    have hpte : m₂.pte root va = m'.pte root (pageAt (k + 1)) := by
      rw [hclear, if_neg (by omega)]
      exact Mem.pte_vpn (hvpn.trans (vpn_pageAt (by omega)).symm)
    have hflags := hadded.flags (k + 1) (by omega) (by omega)
    have hpage : PTE2PA (m₂.pte root (pageAt (k + 1))) ∈ m₂.upages root (k + 2) :=
      mem_upages (by omega)
    refine ⟨?_, ?_, ?_, ?_⟩
    · rw [BitVec.lt_def, MAXVA_toNat]
      omega
    · rw [hpte, ← and_PTE_FLAGS _ _ (by decide), hflags]
      decide
    · rw [hpte, ← and_PTE_FLAGS _ _ (by decide), hflags]
      decide
    · rw [Mem.pte_vpn (hvpn.trans (vpn_pageAt (by omega)).symm)]
      exact (hh.of_mem (List.mem_append_left _ hpage)).ne_zero
  · intro va hlo hhi ⟨_, _, huser, _⟩
    have hvpn : vpn va = k := by
      unfold vpn
      omega
    rw [hclear, if_pos hvpn, BitVec.and_assoc] at huser
    exact huser (by
      rw [show ~~~PTE_U &&& PTE_U = 0 by decide]
      exact BitVec.and_zero)

end push

theorem UserMapped.congr (hpte : m'.pte root va = m.pte root va) (h : UserMapped m' root va) :
    UserMapped m root va := by
  unfold UserMapped at h ⊢
  rwa [hpte] at h

theorem ArgsAt.congr {base : Nat} {sp : U64} {ptrs : List U64} {strings : List (List (BitVec 8))}
    (h : ArgsAt m root base sp ptrs strings)
    (hsame : ∀ va, userByte m' root va = userByte m root va) :
    ArgsAt m' root base sp ptrs strings where
  aligned := h.aligned
  array i hi := (hsame _).trans (h.array i hi)
  copies := h.copies.imp fun _ _ hbytes i hi => (hsame _).trans (hbytes i hi)
  disjoint := h.disjoint
  inside := h.inside

/-- What a new program finds: its arguments at `a1`, on the stack page below
which nothing is accessible. -/
structure Started (m : Mem) (image : Vm.Image) (strings : List (List (BitVec 8))) (argc : Nat) :
    Prop where
  argc : argc = strings.length
  size : 8192 ≤ image.sz.toNat ∧ image.sz.toNat % 4096 = 0
  guard : ∀ va : U64, image.sz.toNat - 8192 ≤ va.toNat → va.toNat < image.sz.toNat - 4096 →
    ¬ UserMapped m image.pagetable va
  args : ∃ ptrs, ArgsAt m image.pagetable (image.sz.toNat - 4096)
    (m.page image.trapframe Vm.trapframeA1) ptrs strings
  sp : m.page image.trapframe Vm.trapframeSp = m.page image.trapframe Vm.trapframeA1

/-- `pushArgs` on the pages that `uvmalloc` and `uvmclear` have made, and the
commit after it, which leaves these pages alone. -/
theorem started_of_push {ts argv : List U64} {k argc : Nat} {top : Nat → U64} {tf sp : U64}
    {m₁ m₂ m₃ m₄ : Mem} {strings : List (List (BitVec 8))} (htop : NoUser top)
    (hadded : Added m m₁ root ts k (k + 2) top (allocPerm PTE_W))
    (hs : Space m₂ root ts (k + 2) top) (hh : Held m₂ (m₂.upages root (k + 2) ++ ts))
    (hclear : ∀ va, m₂.pte root va =
      if vpn va = k then m₁.pte root va &&& ~~~PTE_U else m₁.pte root va)
    (hargs : KernelStrings m₂ (m₂.upages root (k + 2) ++ ts) argv strings)
    (hmany : argv.length < Vm.MAXARG)
    (hpush : Vm.pushArgs root (pageAt (k + 2) - PGSIZE) (pageAt (k + 2)) argv m₂ =
      .ok (some (sp, argc), m₃))
    (hkeep : ∀ b ∈ m₂.upages root (k + 2) ++ ts, m₄.page b = m₃.page b)
    (ha1 : m₄.page tf Vm.trapframeA1 = sp) (hsp : m₄.page tf Vm.trapframeSp = sp) :
    argsNeed strings ≤ 4096 ∧ Started m₄ ⟨pageAt (k + 2), root, tf⟩ strings argc := by
  have hk : k + 2 ≤ 32768 := by
    have hle := hh.length_le
    rw [List.length_append, length_upages] at hle
    omega
  have hsz : (pageAt (k + 2)).toNat = 4096 * (k + 2) := pageAt_toNat (by omega)
  have hbase : pageAt (k + 2) - PGSIZE = pageAt (k + 1) := by
    apply BitVec.eq_of_toNat_eq
    rw [BitVec.toNat_sub, hsz, pageAt_toNat (by omega), show PGSIZE.toNat = 4096 from rfl]
    omega
  have hbaseNat : (pageAt (k + 1)).toNat = 4096 * (k + 1) := pageAt_toNat (by omega)
  obtain ⟨hstack, hguard⟩ := stack_pages hadded hk hh hclear
  have htopNat : (pageAt (k + 2)).toNat = (pageAt (k + 1)).toNat + 4096 := by omega
  obtain ⟨r, m₃', hpush', hwrote, hr⟩ := pushArgs_args htop hs hh hstack htopNat (by omega) hargs
    hmany
  rw [hbase, hpush'] at hpush
  obtain ⟨rfl, rfl⟩ := Prod.mk.inj (Except.ok.inj hpush)
  rcases hr with ⟨hfits, sp', ptrs, hsome, hat⟩ | ⟨-, hnone⟩
  · obtain ⟨rfl, rfl⟩ := Prod.mk.inj (Option.some.inj hsome)
    obtain ⟨hs₃, hpte₃, hup₃, -⟩ := hs.wrote hh hwrote
    obtain ⟨hs₄, hpte₄⟩ := hs₃.frame fun b hb => hkeep b (List.mem_append_right _ hb)
    have hsame : ∀ va, userByte m₄ root va = userByte m₃' root va := by
      intro va
      rw [userByte_eq, userByte_eq, userPage_congr hpte₄]
      cases hpage : m₃'.userPage root va with
      | none => rfl
      | some pa =>
        obtain ⟨-, hlt, rfl⟩ := hs₃.userPage_eq_some htop hpage
        have hmem : PTE2PA (m₃'.pte root (pageAt (vpn va))) ∈ m₃'.upages root (k + 2) :=
          mem_upages hlt
        rw [hup₃] at hmem
        simp [Mem.byte, hkeep _ (List.mem_append_left _ hmem)]
    have hsize : (⟨pageAt (k + 2), root, tf⟩ : Vm.Image).sz.toNat = 4096 * (k + 2) := hsz
    refine ⟨hfits, rfl, ⟨by omega, by omega⟩, fun va hlo hhi hmapped => ?_, ⟨ptrs, ?_⟩,
      hsp.trans ha1.symm⟩
    · refine hguard va (by omega) (by omega) ?_
      exact UserMapped.congr ((hpte₄ va).trans (hpte₃ va)) hmapped
    · show ArgsAt m₄ root ((pageAt (k + 2)).toNat - 4096) (m₄.page tf Vm.trapframeA1) ptrs strings
      rw [ha1, hsz, show 4096 * (k + 2) - 4096 = 4096 * (k + 1) by omega, ← hbaseNat]
      exact hat.congr hsame
  · cases hnone

end Xv6
