import Xv6.Proc.SyscallRules

/-!
# Cycles of waiting processors

`wait_lock` is to be taken before any `p->lock`, and `forkn` takes it with the
lock of its new process held.  No other code breaks the order, so a cycle of
processors that spin on these locks has one shape only: `forkn` waits for
`wait_lock`, and the holder of that waits for the lock of the new process.
-/

namespace Xv6

open Conc Relation

/-- Each node of a cycle has a successor on the cycle. -/
theorem exists_next_of_cycle {α : Type} {r : α → α → Prop} {a : α} (h : TransGen r a a) :
    ∃ b, r a b ∧ TransGen r b b := by
  obtain ⟨b, hab, hba⟩ := TransGen.head'_iff.1 h
  exact ⟨b, hab, TransGen.tail' hba hab⟩

/-- Processor `c` spins on a lock that `d` holds, `wait_lock` or that of a
process. -/
def SpinsOn (g : System) (c d : Cpu) : Prop :=
  ∃ l, (l = .wait ∨ ∃ p, l = .proc p) ∧ machine.Next g c (.lock l) ∧
    g.mem.locked l = some d

/-- There is a cycle of spinning processors. -/
def Deadlock (g : System) : Prop := ∃ c, TransGen (SpinsOn g) c c

/-- `d` is in `forkn` and holds the lock of its new process `p`, and the holder
`c` of `wait_lock` is about to take that lock. -/
def ForknCrossed (g : System) (c d : Cpu) (p : Slot) : Prop :=
  g.mem.locked .wait = some c ∧ machine.Next g c (.lock (.proc p)) ∧
    g.mem.locked (.proc p) = some d ∧ Table.Forked g.mem.proc (g.mem.current d) p

/-! ## The shape of a cycle -/

section

variable {b : Boot} {g : System} {c d : Cpu} {p : Slot}

theorem lockOK_of_next (h : Reachable b g) {l : Lock} (hn : machine.Next g c (.lock l)) :
    lockOK c g.mem l :=
  must_of_reachable h hn

/-- Who holds a `p->lock` can only spin on `wait_lock`, from `forkn`. -/
theorem SpinsOn.of_proc (h : Reachable b g) (hp : g.mem.locked (.proc p) = some c)
    (hs : SpinsOn g c d) : machine.Next g c (.lock .wait) ∧ g.mem.locked .wait = some d ∧
      Table.Forked g.mem.proc (g.mem.current c) p := by
  obtain ⟨l, hl, hnext, hheld⟩ := hs
  have hok := lockOK_of_next h hnext
  rcases hl with rfl | ⟨q, rfl⟩
  · exact ⟨hnext, hheld, hok.2 p hp⟩
  · exact absurd hp (hok p)

/-- Who holds `wait_lock` can only spin on a `p->lock`. -/
theorem SpinsOn.of_wait (h : Reachable b g) (hw : g.mem.locked .wait = some c)
    (hs : SpinsOn g c d) : ∃ p, machine.Next g c (.lock (.proc p)) ∧
      g.mem.locked (.proc p) = some d := by
  obtain ⟨l, hl, hnext, hheld⟩ := hs
  rcases hl with rfl | ⟨q, rfl⟩
  · exact absurd hw (lockOK_of_next h hnext).1
  · exact ⟨q, hnext, hheld⟩

/-- On a cycle, the holder of `wait_lock` and its successor cross. -/
theorem crossed_of_wait (h : Reachable b g) (hw : g.mem.locked .wait = some c)
    (hc : TransGen (SpinsOn g) c c) :
    ∃ d p, ForknCrossed g c d p ∧ machine.Next g d (.lock .wait) := by
  obtain ⟨d, hcd, hd⟩ := exists_next_of_cycle hc
  obtain ⟨p, hnext, hp⟩ := hcd.of_wait h hw
  obtain ⟨e, hde, -⟩ := exists_next_of_cycle hd
  obtain ⟨hnext', -, hforked⟩ := hde.of_proc h hp
  exact ⟨d, p, ⟨hw, hnext, hp, hforked⟩, hnext'⟩

/-- A cycle is one of two processors that cross, of which `forkn` has come to
`wait_lock`. -/
theorem deadlock_iff (h : Reachable b g) :
    Deadlock g ↔ ∃ c d p, ForknCrossed g c d p ∧ machine.Next g d (.lock .wait) := by
  constructor
  · intro ⟨c, hc⟩
    obtain ⟨d, hcd, hd⟩ := exists_next_of_cycle hc
    obtain ⟨l, hl, hnext, hheld⟩ := hcd
    rcases hl with rfl | ⟨p, rfl⟩
    · exact ⟨d, crossed_of_wait h hheld hd⟩
    · -- `d` holds a `p->lock`, so its successor holds `wait_lock`
      obtain ⟨e, hde, he⟩ := exists_next_of_cycle hd
      exact ⟨e, crossed_of_wait h (hde.of_proc h hheld).2.1 he⟩
  · intro ⟨c, d, p, ⟨hw, hnext, hp, _⟩, hnext'⟩
    refine ⟨c, TransGen.head ⟨.proc p, .inr ⟨p, rfl⟩, hnext, hp⟩ (.single ?_)⟩
    exact ⟨.wait, .inl rfl, hnext', hw⟩

/-- No processors spin in a cycle as long as no holder of `wait_lock` comes to
the lock of a process that a `forkn` is setting up. -/
theorem deadlock_free (h : Reachable b g) (hapart : ∀ c d p, ¬ ForknCrossed g c d p) :
    ¬ Deadlock g := by
  intro hd
  obtain ⟨c, d, p, hcrossed, -⟩ := (deadlock_iff h).1 hd
  exact hapart c d p hcrossed

end

/-- The lock that a processor is about to take. -/
def lockAt (g : System) (c : Cpu) : Option Lock :=
  match machine.next? g c with
  | some ⟨_, .lock l⟩ => some l
  | _ => none

theorem next_of_lockAt {g : System} {c : Cpu} {l : Lock} (h : lockAt g c = some l) :
    machine.Next g c (.lock l) := by
  unfold lockAt at h
  split at h
  · rename_i l' hnext
    cases h
    exact machine.next?_eq_some.1 hnext
  · cases h

/-- The child of `initproc` calls `forkn`, and comes to `wait_lock`. -/
def childForkns : List (Cpu × Input) :=
  initForks ++ steps 1 30 ++ calls 1 (.forkn 1 128) ++ steps 1 97

set_option maxRecDepth 100000 in
def childForknsSeen : Sight Machine.always 60
    (fun g => (lockAt g 1, g.mem.locked .wait, g.mem.locked (.proc 2)))
    (some .wait, none, some 1) :=
  .after childForkns (by decide +kernel)

theorem deadlock_free_forkn : ∃ (b : Boot) (g : System), Reachable b g ∧
    machine.Next g 1 (.lock .wait) ∧ g.mem.locked (.proc 2) = some 1 ∧ ¬ Deadlock g := by
  obtain ⟨b, g, -, hg, hview⟩ := childForknsSeen
  simp only [Prod.mk.injEq] at hview
  obtain ⟨hlock, hwait, hproc⟩ := hview
  refine ⟨b, g, hg, next_of_lockAt hlock, hproc, deadlock_free hg fun c d p hcrossed => ?_⟩
  exact absurd (hcrossed.1.symm.trans hwait) (by simp)

/-! The parent then calls `waitall`, which takes the lock of every process
with `wait_lock` held. -/

set_option maxRecDepth 100000 in
def forknCrossedSeen : Sight Machine.always 60
    (fun g => (lockAt g 0, lockAt g 1, g.mem.locked .wait, g.mem.locked (.proc 2)))
    (some (.proc 2), some .wait, some 0, some 1) :=
  .after (childForkns ++ calls 0 (.waitall 16 64) ++ steps 0 39) (by decide +kernel)

theorem deadlock_reachable : ¬ ∀ (b : Boot) (g : System), Reachable b g → ¬ Deadlock g := by
  intro hall
  obtain ⟨b, g, -, hg, hview⟩ := forknCrossedSeen
  simp only [Prod.mk.injEq] at hview
  obtain ⟨hlock, hlock', hwait, hproc⟩ := hview
  refine hall b g hg ⟨0, TransGen.head (b := 1) ?_ (.single ?_)⟩
  · exact ⟨.proc 2, .inr ⟨2, rfl⟩, next_of_lockAt hlock, hproc⟩
  · exact ⟨.wait, .inl rfl, next_of_lockAt hlock', hwait⟩

end Xv6
