import Xv6.Proc.Status

/-!
# When `waitall` returns, and when it sleeps

`waitall` leaves its loop when it has enough statuses, or when a round finds
no exited child, and else it sleeps.  So it can return too early, and it can
sleep with nothing left to wait for.  What a round finds it collects, however
much that is, and before it knows whether it can report it.
-/

namespace Xv6

open Conc

/-! ## Returning -/

/-- In runs in which every round finds an exited child, as long as there are
children and more statuses are wanted, `waitall` returns with `n` statuses or
without a child. -/
theorem waitall_complete {b : Boot} {g : System} {c : Cpu} {n : I32} {reports : List Report}
    {p : Slot} (h : ReachableIf completeScans b g)
    (hn : machine.Next g c (.note (.waitallReturns n reports)))
    (hp : g.mem.current c = some p) :
    n.toInt ≤ reports.length ∨ ¬ Table.HasChild g.mem.proc p := by
  have hm : must (.only .complete) Unit c (.note (.waitallReturns n reports)) g.mem :=
    must_of_reach h hn trivial
  exact hm.2 p hp rfl

/-- The child of `childExits` has exited when its parent asks for one status. -/
def oneWanted : List (Cpu × Input) :=
  childExits 7 ++ [(0, .user (.store 256 1))] ++ steps 0 4 ++
    calls 0 (.waitall 256 128) ++ steps 0 565

set_option maxRecDepth 100000 in
def oneWantedSeen : Sight completeScans 60
    (fun g => (noteAt g 0, g.mem.current 0))
    (some (.waitallReturns 1 [⟨2, 7, some (.status 7)⟩]), some 0) :=
  .after oneWanted (by decide +kernel)

theorem waitall_complete_one : ∃ (b : Boot) (g : System),
    machine.Next g 0 (.note (.waitallReturns 1 [⟨2, 7, some (.status 7)⟩])) ∧
      ReachableIf completeScans b g ∧
      ((1 : I32).toInt ≤ [(⟨2, 7, some (.status 7)⟩ : Report)].length ∨
        ¬ Table.HasChild g.mem.proc 0) := by
  obtain ⟨b, g, -, hg, hview⟩ := oneWantedSeen
  obtain ⟨hnote, hcur⟩ := Prod.mk.inj hview
  have hn := next_of_noteAt hnote
  exact ⟨b, g, hn, hg, waitall_complete hg hn hcur⟩

/-- The one child still runs when its parent calls `waitall`; at address 16
there is the number 7342227. -/
def childRuns : List (Cpu × Input) :=
  initForks ++ calls 0 (.waitall 16 64) ++ steps 0 544

set_option maxRecDepth 100000 in
def childRunsSeen : Sight Machine.always 60
    (fun g => (noteAt g 0, g.mem.current 0, (g.mem.proc 0).killed, (g.mem.proc 1).parent,
      (g.mem.proc 1).state))
    (some (.waitallReturns 7342227 []), some 0, false, some 0, .runnable) :=
  .after childRuns (by decide +kernel)

/-- `waitall` returns 0 with too few statuses while a child runs. -/
theorem waitall_returns_early :
    ¬ ∀ (b : Boot) (g : System) (c : Cpu) (n : I32) (reports : List Report) (p : Slot),
      Reachable b g → machine.Next g c (.note (.waitallReturns n reports)) →
      g.mem.current c = some p → (g.mem.proc p).killed = false →
        (n.toInt ≤ reports.length ∨ ¬ Table.HasChild g.mem.proc p) ∧
        ¬ (reports.length < n.toInt ∧ ∃ q, (g.mem.proc q).parent = some p ∧
          (g.mem.proc q).state ≠ .zombie) := by
  intro hall
  obtain ⟨b, g, -, hg, hview⟩ := childRunsSeen
  simp only [Prod.mk.injEq] at hview
  obtain ⟨hnote, hcur, hkilled, hparent, hstate⟩ := hview
  refine (hall b g 0 _ _ 0 hg (next_of_noteAt hnote) hcur hkilled).2 ⟨by decide, 1, hparent, ?_⟩
  rw [hstate]
  decide

/-! ## Sleeping -/

/-- In runs in which no round of `waitall` starts with too few children that
have all exited, `waitall` goes to sleep only while there is a child. -/
theorem waitall_sleeps_for_child {b : Boot} {g : System} {c : Cpu} {p : Slot}
    (h : ReachableIf liveScans b g) (hn : machine.Next g c (.write (.state p .sleeping)))
    (hsite : (g.mem.proc p).site = .waitall) : Table.HasChild g.mem.proc p := by
  have hm : must (.only .live) Unit c (.write (.state p .sleeping)) g.mem :=
    must_of_reach h hn trivial
  exact hm.2.2.2.1 rfl hsite

/-- The process that a processor is about to put to sleep. -/
def sleeperAt (g : System) (c : Cpu) : Option Slot :=
  match machine.next? g c with
  | some ⟨_, .write (.state p .sleeping)⟩ => some p
  | _ => none

theorem next_of_sleeperAt {g : System} {c : Cpu} {p : Slot} (h : sleeperAt g c = some p) :
    machine.Next g c (.write (.state p .sleeping)) := by
  unfold sleeperAt at h
  split at h
  · rename_i p' hnext
    cases h
    exact machine.next?_eq_some.1 hnext
  · cases h

/-- There are two children, and one has exited. -/
def oneOfTwo : List (Cpu × Input) :=
  initForks ++ calls 0 .fork ++ steps 0 131 ++ steps 1 30 ++ calls 1 (.exitNum 7) ++
    steps 1 691 ++ calls 0 (.waitall 16 64) ++ steps 0 564

set_option maxRecDepth 100000 in
def oneOfTwoSeen : Sight liveScans 60
    (fun g => (sleeperAt g 0, (g.mem.proc 0).site)) (some 0, .waitall) :=
  .after oneOfTwo (by decide +kernel)

theorem waitall_sleeps_for_second : ∃ (b : Boot) (g : System),
    machine.Next g 0 (.write (.state 0 .sleeping)) ∧ ReachableIf liveScans b g ∧
      Table.HasChild g.mem.proc 0 := by
  obtain ⟨b, g, -, hg, hview⟩ := oneOfTwoSeen
  obtain ⟨hsleep, hsite⟩ := Prod.mk.inj hview
  have hn := next_of_sleeperAt hsleep
  exact ⟨b, g, hn, hg, waitall_sleeps_for_child hg hn hsite⟩

set_option maxRecDepth 100000 in
def oneOfOneSeen : Sight Machine.always 60
    (fun g => (sleeperAt g 0, (g.mem.proc 0).site, decide (Table.HasChild g.mem.proc 0)))
    (some 0, .waitall, false) :=
  .after (childExits 7 ++ calls 0 (.waitall 16 64) ++ steps 0 564) (by decide +kernel)

/-- `waitall` goes to sleep after it has collected the only child. -/
theorem waitall_sleeps_alone :
    ¬ ∀ (b : Boot) (g : System) (c : Cpu) (p : Slot), Reachable b g →
      machine.Next g c (.write (.state p .sleeping)) → (g.mem.proc p).site = .waitall →
        Table.HasChild g.mem.proc p := by
  intro hall
  obtain ⟨b, g, -, hg, hview⟩ := oneOfOneSeen
  simp only [Prod.mk.injEq] at hview
  obtain ⟨hsleep, hsite, hchild⟩ := hview
  exact of_decide_eq_false hchild (hall b g 0 0 hg (next_of_sleeperAt hsleep) hsite)

/-! ## Failing -/

/-- No process comes to the stores at the end of `waitall`. -/
def noneLeaves : Machine.OpPred Op Kernel Cpu
  | _, c, .vm _, s => ∀ p, s.current c = some p → (s.proc p).leaving = false
  | _, _, _, _ => True

instance {β : Type} (c : Cpu) (o : Op β) (s : Kernel) : Decidable (noneLeaves β c o s) :=
  match o with
  | .vm _ => inferInstanceAs (Decidable (∀ p, s.current c = some p → (s.proc p).leaving = false))
  | .lock _ | .unlock _ | .read _ | .cpu _ | .write _ | .context _ | .swtch _ | .input | .note _
  | .panic _ => .isTrue trivial

theorem copiesOut_of_noneLeaves {β : Type} {c : Cpu} {o : Op β} {s : Kernel}
    (h : noneLeaves β c o s) : copiesOut β c o s := by
  cases o with
  | vm f =>
    intro p hp hleaving
    exact absurd ((h p hp).symm.trans hleaving) (by simp)
  | _ => trivial

/-- Address 8192 is not mapped. -/
def badCount : List (Cpu × Input) :=
  initForks ++ calls 0 (.waitall 8192 256) ++ steps 0 16

set_option maxRecDepth 100000 in
def badCountSeen : Sight noneLeaves 60
    (fun g => (noteAt g 0, g.mem.current 0)) (some (.waitallEnds (-1)), some 0) :=
  .after badCount (by decide +kernel)

/-- The child has exited, and the place for the statuses is not mapped. -/
def badStatuses : List (Cpu × Input) :=
  childExits 7 ++ calls 0 (.waitall 256 8192) ++ steps 0 566

set_option maxRecDepth 100000 in
def badStatusesSeen : Sight Machine.always 60
    (fun g => (noteAt g 0, g.mem.current 0, (g.mem.proc 0).reaped, (g.mem.proc 1).state))
    (some (.waitallEnds (-1)), some 0, 1, .unused) :=
  .after badStatuses (by decide +kernel)

/-- In runs in which no round of `waitall` finds more than what is wanted and
what there is place for, it stores within its array, and copies out what was
asked for at most. -/
theorem waitall_in_bounds {b : Boot} {g : System} {c : Cpu} (h : ReachableIf boundedScans b g) :
    (∀ pp count, machine.Next g c (.note (.collect pp count)) → count < NPROC) ∧
      ∀ n count, machine.Next g c (.note (.copyStatuses n count)) → (count : Int) ≤ n.toInt := by
  constructor
  · intro pp count hn
    have hm : noteOK (.only .bounded) c g.mem (.collect pp count) :=
      must_of_reach (k := .bounded) h hn trivial
    exact hm rfl
  · intro n count hn
    have hm : noteOK (.only .bounded) c g.mem (.copyStatuses n count) :=
      must_of_reach (k := .bounded) h hn trivial
    exact hm rfl

set_option maxRecDepth 100000 in
def oneCollectedSeen : Sight boundedScans 60 (noteAt · 0) (some (.collect 1 0)) :=
  .after (childExits 7 ++ [(0, .user (.store 256 1))] ++ steps 0 4 ++
    calls 0 (.waitall 256 128) ++ steps 0 34) (by decide +kernel)

theorem waitall_in_bounds_one : ∃ (b : Boot) (g : System), ReachableIf boundedScans b g ∧
    machine.Next g 0 (.note (.collect 1 0)) ∧ 0 < NPROC := by
  obtain ⟨b, g, -, hg, hnote⟩ := oneCollectedSeen
  have hn := next_of_noteAt hnote
  exact ⟨b, g, hg, hn, (waitall_in_bounds hg).1 1 0 hn⟩

/-- `waitall` stores one status for a caller that asks for none. -/
theorem waitall_exceeds :
    ¬ ∀ (b : Boot) (g : System) (c : Cpu) (n : I32) (count : Nat), Reachable b g →
      machine.Next g c (.note (.copyStatuses n count)) → (count : Int) ≤ n.toInt := by
  intro hall
  obtain ⟨b, g, -, hg, hview⟩ := reachableIf_of_viewsFrom exit_seven_waitall_run (.tail _ (.head _))
  have hn := next_of_noteAt (Prod.mk.inj hview).1
  exact absurd (hall b g 0 0 1 hg.reachable hn) (by decide)

end Xv6
