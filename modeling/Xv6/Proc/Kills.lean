import Xv6.Proc.SyscallRules

/-!
# Kills

`kill` marks a process, and wakes it up when it sleeps.  The loops of `wait`,
`piperead`, `pipewrite`, `consoleread` and `sys_sleep` test the mark, release
`p->lock`, and take it again in `sleep`.  `kill` finds a process by its id
alone, and the id of a free slot is 0.
-/

namespace Xv6

open Conc

/-! ## Sleeping on a kill -/

/-- In runs in which no kill falls between the test and the change of state, a
process whose lock is free does not sleep, interruptibly, on a kill. -/
theorem kill_not_lost {b : Boot} {g : System} {p : Slot} (h : ReachableIf noKillInWindow b g)
    (hfree : g.mem.locked (.proc p) = none) : (g.mem.proc p).KillSeen :=
  ((inv_of_reach (k := .awake) h).locks _ hfree).awake rfl

/-- `initproc` forks a child, which runs on processor 1, and calls `wait`. -/
def waitWhileChildRuns : List (Cpu × Input) :=
  initForks ++ steps 1 30 ++ calls 0 (.wait 16 64)

set_option maxRecDepth 100000 in
def killAfterSleepSeen : Sight noKillInWindow 60
    (fun g => (g.mem.locked (.proc 0), (g.mem.proc 0).state, (g.mem.proc 0).site))
    (none, .sleeping, .wait) :=
  .after (waitWhileChildRuns ++ steps 0 117) (by decide +kernel)

theorem kill_not_lost_sleeping : ∃ (b : Boot) (g : System), ReachableIf noKillInWindow b g ∧
    (g.mem.proc 0).state = .sleeping ∧ (g.mem.proc 0).site = .wait ∧
      (g.mem.proc 0).KillSeen := by
  obtain ⟨b, g, -, hg, hview⟩ := killAfterSleepSeen
  simp only [Prod.mk.injEq] at hview
  obtain ⟨hfree, hstate, hsite⟩ := hview
  exact ⟨b, g, hg, hstate, hsite, kill_not_lost hg hfree⟩

/-- The child kills its parent when that has tested `killed` and not yet taken
its lock in `sleep`; the call of `kill` takes 39 steps. -/
def killedInWindow : List (Cpu × Input) :=
  waitWhileChildRuns ++ steps 0 99 ++ calls 1 (.kill 1) ++ steps 1 39 ++ steps 0 18

set_option maxRecDepth 100000 in
def killedInWindowSeen : Sight Machine.always 60
    (fun g => (g.mem.locked (.proc 0), (g.mem.proc 0).state, (g.mem.proc 0).site,
      (g.mem.proc 0).killed))
    (none, .sleeping, .wait, true) :=
  .after killedInWindow (by decide +kernel)

/-- A process sleeps in `wait` although it has been killed. -/
theorem kill_lost : ¬ ∀ (b : Boot) (g : System) (p : Slot), Reachable b g →
    g.mem.locked (.proc p) = none → (g.mem.proc p).KillSeen := by
  intro hall
  obtain ⟨b, g, -, hg, hview⟩ := killedInWindowSeen
  simp only [Prod.mk.injEq] at hview
  obtain ⟨hfree, hstate, hsite, hkilled⟩ := hview
  have hseen := hall b g 0 hg hfree hstate
  rw [hsite, hkilled] at hseen
  exact absurd (hseen rfl) (by decide)

/-! ## Whom a kill hits -/

/-- In runs in which nobody calls `kill(0)` and `waitall` frees nobody whose
lock is held, a kill marks a process with the id that it was given, a fatal
trap marks the process itself, and a new process is not marked. -/
theorem kill_hits_target {b : Boot} {g : System} {c : Cpu} {p : Slot}
    (h : ReachableIf killsApart b g) :
    (machine.Next g c (.write (.killed p true)) → killOK c g.mem p) ∧
      (machine.Next g c (.note (.allocated p)) → (g.mem.proc p).killed = false) := by
  constructor
  · intro hn
    have hm : writeOK (.only .apart) c g.mem (.killed p true) :=
      must_of_reach (k := .apart) h hn trivial
    exact hm.2 rfl
  · intro hn
    have hm : noteOK (.only .apart) c g.mem (.allocated p) :=
      must_of_reach (k := .apart) h hn trivial
    exact hm rfl

/-- The process that a processor is about to mark as killed. -/
def victimAt (g : System) (c : Cpu) : Option Slot :=
  match machine.next? g c with
  | some ⟨_, .write (.killed p true)⟩ => some p
  | _ => none

theorem next_of_victimAt {g : System} {c : Cpu} {p : Slot} (h : victimAt g c = some p) :
    machine.Next g c (.write (.killed p true)) := by
  unfold victimAt at h
  split at h
  · rename_i p' hnext
    cases h
    exact machine.next?_eq_some.1 hnext
  · cases h

set_option maxRecDepth 100000 in
def childHitSeen : Sight killsApart 60 (victimAt · 0) (some 1) :=
  .after (initForks ++ calls 0 (.kill 2) ++ steps 0 28) (by decide +kernel)

theorem kill_hits_target_child : ∃ (b : Boot) (g : System), ReachableIf killsApart b g ∧
    machine.Next g 0 (.write (.killed 1 true)) ∧ killOK 0 g.mem 1 := by
  obtain ⟨b, g, -, hg, hvictim⟩ := childHitSeen
  have hn := next_of_victimAt hvictim
  exact ⟨b, g, hg, hn, (kill_hits_target hg).1 hn⟩

set_option maxRecDepth 100000 in
/-- `initproc` calls `kill(0)`, which marks the first free slot, and then
`fork`, which takes that slot. -/
theorem kill_zero_run :
    viewsFrom Machine.always (fun g => (victimAt g 0, noteAt g 0, (g.mem.proc 1).state,
      (g.mem.proc 1).killed)) 60
      [steps 0 24 ++ calls 0 (.kill 0) ++ steps 0 28, steps 0 20 ++ calls 0 .fork ++ steps 0 48] =
    some [(some 1, none, .unused, false), (none, some (.allocated 1), .used, true)] := by
  decide +kernel

/-- A kill marks a free slot, and a new process is marked from its start. -/
theorem kill_hits_free_slot :
    (¬ ∀ (b : Boot) (g : System) (c : Cpu) (p : Slot), Reachable b g →
      machine.Next g c (.write (.killed p true)) → (g.mem.proc p).state ≠ .unused) ∧
    ¬ ∀ (b : Boot) (g : System) (c : Cpu) (p : Slot), Reachable b g →
      machine.Next g c (.note (.allocated p)) → (g.mem.proc p).killed = false := by
  constructor
  · intro hall
    obtain ⟨b, g, -, hg, hview⟩ := reachableIf_of_viewsFrom kill_zero_run (.head _)
    simp only [Prod.mk.injEq] at hview
    obtain ⟨hvictim, -, hstate, -⟩ := hview
    exact hall b g 0 1 hg (next_of_victimAt hvictim) hstate
  · intro hall
    obtain ⟨b, g, -, hg, hview⟩ := reachableIf_of_viewsFrom kill_zero_run (.tail _ (.head _))
    simp only [Prod.mk.injEq] at hview
    obtain ⟨-, hnote, -, hkilled⟩ := hview
    have h0 := hall b g 0 1 hg (next_of_noteAt hnote)
    exact absurd (hkilled.symm.trans h0) (by decide)

end Xv6
