import Xv6.Log.Atomic

/-!
# The log is full

`begin_op` reserves `MAXOPBLOCKS` blocks of `LOGSIZE` for each operation.  The
log that `mkfs` makes has `LOGSIZE` blocks with the header, one less for data,
so three operations that use all that they have reserved find it full.
-/

namespace Xv6.Log

open Conc Conc.Logic

variable {A : LogArea} {g : System A} {t : Tid}

/-- `log_write` takes a block just when the operations have logged fewer
blocks since the last commit than the log can hold; and in runs in which that is
so whenever a block is logged, nothing panics. -/
theorem log_has_room (img : Image A) (g : System A) (t : Tid) :
    (Run Roomy img g → ∀ (β : Type) (msg : String),
        ¬ (machine A).Next g t (.panic msg : LogOp A β)) ∧
      (Run Machine.always img g → ∀ (id : OpId) (b : HomeBlock A) (d : Block),
        (machine A).Next g t (.logWrite id b d) →
          ((∃ l, g.mem.log.logWrite A.nlog b = .ok l) ↔ g.mem.Room)) := by
  constructor
  · intro hg β msg hn
    obtain ⟨s₀, hfresh, hreach⟩ := hg.since (K := True) fun h _ => h
    exact (Logic.inv_of_reach (fun h _ => h) (fun _ => rfl) hfresh.inv
      (fun u => hfresh.ok (K := True) u) hreach).2 β t _ hn (fun _ => trivial) trivial
  · intro hg id b d hn
    obtain ⟨s₀, hfresh, hreach⟩ := hg.since (K := False) fun _ hno => hno.elim
    obtain ⟨hinv, hsafe⟩ := Logic.inv_of_reach (fun _ hno => hno.elim) (fun _ => rfl) hfresh.inv
      (fun u => hfresh.ok (K := False) u) hreach
    exact logWrite_ok_iff hinv (hsafe _ t _ hn fun hno => hno.elim) b

/-! ## Three operations that log ten blocks each -/

/-- An operation logs at most `MAXOPBLOCKS` blocks. -/
def Modest (β : Type) (_ : Tid) (o : LogOp A β) (s : Fs A) : Prop :=
  match o with
  | .logWrite id b _ =>
    (b.val :: (byOp id s.hist.written).map fun w => w.block.val).toFinset.card ≤ MAXOPBLOCKS
  | _ => True

/-- The block that an operation logs. -/
def writes {β : Type} : LogOp A β → Option (OpId × HomeBlock A)
  | .logWrite id b _ => some (id, b)
  | _ => none

theorem modest_iff {β : Type} (t : Tid) (o : LogOp A β) (s : Fs A) : Modest β t o s ↔
    ∀ x ∈ writes o, (x.2.val ::
      (byOp x.1 s.hist.written).map fun w => w.block.val).toFinset.card ≤ MAXOPBLOCKS := by
  cases o <;> simp [Modest, writes]

instance {β : Type} (t : Tid) (o : LogOp A β) (s : Fs A) : Decidable (Modest β t o s) :=
  @decidable_of_iff' _ _ (modest_iff t o s) (Option.decidableForallMem (writes o))

/-- Operation `k` begins. -/
def begins (k : Nat) : List (Tid × Input mkfsArea) := List.replicate 3 (.op k, .stop)

/-- Operation `k` logs block `100 + n`. -/
def logs (k n : Nat) (h : n < 30) : List (Tid × Input mkfsArea) :=
  List.replicate 3 (.op k, .write (homeBlock (100 + n) (by omega)) fun _ => 7)

/-- Three operations run at once and log ten blocks each. -/
def thirtyBlocks : List (Tid × Input mkfsArea) :=
  List.replicate 8 (.boot, .stop) ++ begins 0 ++ begins 1 ++ begins 2 ++
    (List.finRange 30).flatMap fun n => logs (n.val / 10) n.val n.isLt

/-- Whether the operation is a panic. -/
def isPanic : (Σ β, LogOp mkfsArea β) → Bool
  | ⟨_, .panic msg⟩ => msg == "too big a transaction"
  | _ => false

theorem next_of_isPanic {g : System mkfsArea}
    (h : ((machine mkfsArea).next? g t).any isPanic = true) :
    ∃ β : Type, (machine mkfsArea).Next g t (.panic "too big a transaction" : LogOp mkfsArea β) := by
  cases hn : (machine mkfsArea).next? g t with
  | none =>
    rw [hn] at h
    cases h
  | some o =>
    rw [hn] at h
    obtain ⟨β, o⟩ := o
    cases o with
    | panic msg =>
      obtain rfl := eq_of_beq h
      exact ⟨β, (machine mkfsArea).next?_eq_some.1 hn⟩
    | _ => cases h

/-- One block is logged. -/
theorem log_has_room_one : ∃ g : System mkfsArea, g.mem.current.card = 1 ∧
    ∀ (β : Type) (msg : String), ¬ (machine mkfsArea).Next g (.op 0) (.panic msg : LogOp mkfsArea β) := by
  have hview : ((machine mkfsArea).run Roomy (List.replicate 8 (.boot, .stop) ++ begins 0 ++
      logs 0 0 (by decide)) (boot zeroImage.fs)).map (fun g => g.mem.current.card) = some 1 := by
    decide +kernel
  obtain ⟨g, hrun, hg⟩ := Option.map_eq_some_iff.1 hview
  exact ⟨g, hg, (log_has_room zeroImage g (.op 0)).1
    (Run.reach .boot (Machine.reach_of_run _ _ .start hrun))⟩

/-- The operations keep to what they have reserved. -/
theorem thirty_panic : ¬ ∀ (g : System mkfsArea) (t : Tid), Run Modest zeroImage g → ∀ β : Type,
    ¬ (machine mkfsArea).Next g t (.panic "too big a transaction" : LogOp mkfsArea β) := by
  have hview : ((machine mkfsArea).run Modest thirtyBlocks (boot zeroImage.fs)).map
      (fun g => ((machine mkfsArea).next? g (.op 2)).any isPanic) = some true := by
    decide +kernel
  intro h
  obtain ⟨g, hrun, hg⟩ := Option.map_eq_some_iff.1 hview
  obtain ⟨β, hn⟩ := next_of_isPanic hg
  exact h g (.op 2) (Run.reach .boot (Machine.reach_of_run _ _ .start hrun)) β hn

end Xv6.Log
