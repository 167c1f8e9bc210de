import Xv6.Opens.Calls

/-!
# No inodes

The files that may be open, the current directories and the paths that are
being looked up can refer to more inodes than the inode table has entries.
`iget` panics then.
-/

namespace Xv6.Opens

open Conc Conc.Logic
open Fs (NINODE ROOTINO)

variable {s : State} {p : Slot} {k : Inum}

/-! ## When `iget` finds an entry -/

theorem iget_iff (hinv : Inv s) (p : Slot) (k : Inum) : (iget p k s).1 ≠ none ↔ s.Room k := by
  have hpos : ∀ a, s.ref a ≠ 0 → s.ref a > 0 := by
    intro a ha
    have := hinv.ref a
    omega
  unfold iget
  split
  · rename_i e hfound
    have he := List.find?_some hfound
    simp only [gt_iff_lt, Bool.and_eq_true, decide_eq_true_eq] at he
    have huse : s.InUse e := (inUse_iff hinv e).2 (ne_of_gt he.1)
    have hmem : k ∈ s.inUse := by
      rw [← he.2]
      exact Finset.mem_image_of_mem s.inum (Finset.mem_filter.2 ⟨Finset.mem_univ e, huse⟩)
    simp [State.Room, hmem]
  · rename_i hnone
    have hno : ∀ a, s.ref a ≠ 0 → s.inum a ≠ k := by
      intro a ha
      have := List.find?_eq_none.1 hnone a (List.mem_finRange a)
      simp only [gt_iff_lt, Bool.and_eq_true, decide_eq_true_eq, not_and] at this
      exact this (hpos a ha)
    split
    · rename_i e hfree
      have he := List.find?_some hfree
      simp only [decide_eq_true_eq] at he
      have hout : e ∉ Finset.univ.filter s.InUse := by
        rw [Finset.mem_filter]
        rintro ⟨-, huse⟩
        exact (inUse_iff hinv e).1 huse he
      have hlt : (Finset.univ.filter s.InUse).card < NINODE := by
        have hcard := Finset.card_lt_univ_of_notMem hout
        rwa [Fintype.card_fin] at hcard
      have hcard : s.inUse.card < NINODE := Finset.card_image_le.trans_lt hlt
      simp [State.Room, hcard]
    · rename_i hfull
      have hall : ∀ a, s.ref a ≠ 0 := by
        intro a ha
        exact List.find?_eq_none.1 hfull a (List.mem_finRange a) (decide_eq_true ha)
      simp only [ne_eq, not_true_eq_false, false_iff]
      exact not_room hinv hall fun a => hno a (hall a)

/-! ## Runs -/

variable {ninodes : Nat} {inode : Inum → Dinode} {entry : Inum → List Byte → Option Inum}
  {g : Config Op State Slot}

theorem inv_start : Inv (start ninodes inode entry).mem where
  ref e := by
    have hfiles : ∑ f : FileNo, (⟨.none, 0, 0⟩ : File).refs e = 0 :=
      Finset.sum_eq_zero fun f _ => refs_none rfl
    have hmine : ∑ _p : Slot, ({0} : Multiset Entry).count e =
        if e = 0 then Fintype.card Slot else 0 := by
      rw [Finset.sum_const, Multiset.count_singleton, Finset.card_univ]
      split <;> simp
    show (if e = 0 then (Fintype.card Slot : Int) else 0) = _
    rw [show (start ninodes inode entry).mem.refs e =
      ∑ _p : Slot, ({0} : Multiset Entry).count e + ∑ f : FileNo, (⟨.none, 0, 0⟩ : File).refs e
      from rfl, hfiles, hmine]
    split <;> simp
  inum a b ha hb _ := by
    have hzero : ∀ c : Entry, (if c = 0 then (Fintype.card Slot : Int) else 0) ≠ 0 → c = 0 := by
      intro c hc
      by_contra hne
      exact hc (if_neg hne)
    rw [hzero a ha, hzero b hb]
  owner _ := ⟨fun _ => rfl, fun _ => rfl⟩
  one _ := Nat.zero_le 1
  idle _ _ := rfl

theorem has_start (p : Slot) : Has p 0 {0} (start ninodes inode entry).mem :=
  ⟨rfl, rfl, (fun _ _ h => by cases h), (fun _ _ _ h => by cases h)⟩

theorem main_ok (K : Prop) (p : Slot) :
    (logic ninodes K).Ok p ((start ninodes inode entry).code p)
      (start ninodes inode entry).mem :=
  wp_mono (Q := fun _ _ => False) (fun _ _ h => h.elim) (main_rule _ ⟨0, has_start p⟩)

/-- `iget` finds an entry just when the inode has one or the inodes that the
processes and the open files refer to are fewer than the entries; and in runs
in which that is so whenever `iget` is called, it does not panic. -/
theorem no_inodes (ninodes : Nat) (inode : Inum → Dinode)
    (entry : Inum → List Byte → Option Inum) (g : Config Op State Slot) (p : Slot) :
    ((machine ninodes).Reach Roomy (start ninodes inode entry) g → ∀ β : Type,
        ¬ (machine ninodes).Next g p (.panic "iget: no inodes" : Op β)) ∧
      ((machine ninodes).Reach Machine.always (start ninodes inode entry) g → ∀ k,
        (machine ninodes).Next g p (.iget k) → ((iget p k g.mem).1 ≠ none ↔ g.mem.Room k)) := by
  constructor
  · intro hg β hn
    have hsafe := (Logic.inv_of_reach (fun h _ => h) (fun _ => rfl) inv_start (main_ok True) hg).2
      β p _ hn fun _ k hk => (by cases hk)
    exact hsafe trivial rfl
  · intro hg k _
    have hinv := (Logic.inv_of_reach (fun _ h => h.elim) (fun _ => rfl) inv_start
      (main_ok False) hg).1
    exact iget_iff hinv p k

/-! ## A crowd of files -/

/-- The root directory has a file for each name of one byte. -/
def flat (k : Inum) : Dinode := if k = 1 then ⟨Fs.T_DIR, 0, 0, 1⟩ else ⟨Fs.T_FILE, 0, 0, 1⟩

def files (_ : Inum) (name : List Byte) : Option Inum := some ((name.headD 0).setWidth 32)

/-- The process that opens file `n`: each opens sixteen. -/
def opener (n : Nat) : Slot := Fin.ofNat NPROC (n / NOFILE)

/-- The steps of `open` for file `n`, of which a process takes one more
before its first call. -/
def openSteps (n steps : Nat) : List (Slot × Input) :=
  List.replicate (if n % NOFILE = 0 then steps + 1 else steps)
    (opener n, ⟨.open [BitVec.ofNat 8 (48 + n)] 0, false⟩)

/-- Forty-nine files are open, and another is opened. -/
def crowd : List (Slot × Input) := (List.range 49).flatMap (openSteps · 28) ++ openSteps 49 11

/-- Whether the operation is the panic of `iget`. -/
def isOverflow : (Σ β, Op β) → Bool
  | ⟨_, .panic msg⟩ => msg == "iget: no inodes"
  | _ => false

theorem next_of_isOverflow {n : Nat} (h : ((machine n).next? g p).any isOverflow = true) :
    ∃ β : Type, (machine n).Next g p (.panic "iget: no inodes" : Op β) := by
  cases hn : (machine n).next? g p with
  | none =>
    rw [hn] at h
    cases h
  | some o =>
    rw [hn] at h
    obtain ⟨β, o⟩ := o
    cases o with
    | panic msg =>
      obtain rfl := eq_of_beq h
      exact ⟨β, (machine n).next?_eq_some.1 hn⟩
    | _ => cases h

/-- Two files are open. -/
theorem no_inodes_two : ∃ g : Config Op State Slot, g.mem.ref 2 = 1 ∧
    ∀ β : Type, ¬ (machine 200).Next g 0 (.panic "iget: no inodes" : Op β) := by
  have hview : ((machine 200).run Roomy ((List.range 2).flatMap (openSteps · 28))
      (start 200 flat files)).map (fun g => g.mem.ref 2) = some 1 := by decide +kernel
  obtain ⟨g, hrun, hg⟩ := Option.map_eq_some_iff.1 hview
  exact ⟨g, hg, (no_inodes 200 flat files g 0).1 (Machine.reach_of_run _ _ .start hrun)⟩

set_option maxRecDepth 100000 in
/-- Four processes that open fifty files bring `iget` to its panic. -/
theorem crowd_overflows : ¬ ∀ g : Config Op State Slot,
    (machine 200).Reach Machine.always (start 200 flat files) g → ∀ (β : Type) (p : Slot),
      ¬ (machine 200).Next g p (.panic "iget: no inodes" : Op β) := by
  have hview : ((machine 200).run Machine.always crowd (start 200 flat files)).map
      (fun g => ((machine 200).next? g (opener 49)).any isOverflow) = some true := by
    decide +kernel
  intro h
  obtain ⟨g, hrun, hg⟩ := Option.map_eq_some_iff.1 hview
  obtain ⟨β, hn⟩ := next_of_isOverflow hg
  exact h g (Machine.reach_of_run _ _ .start hrun) β _ hn

end Xv6.Opens
