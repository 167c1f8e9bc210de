import Xv6.Proc.Pids

/-!
# The process tree

Every process but `initproc` has a parent that is alive, which collects it
once after it has exited, and which does not sleep through its exit.
-/

namespace Xv6

open Conc

/-! ## Exits and sleeping parents -/

/-- While `wait_lock` is free, nobody sleeps in `wait` or `waitall` with an
exited child. -/
theorem exit_not_missed {b : Boot} {g : System} {p q : Slot} (h : Reachable b g)
    (hfree : g.mem.locked .wait = none) (hsleep : (g.mem.proc p).state = .sleeping)
    (hsite : (g.mem.proc p).site.forChild = true) : ¬ Table.ZombieChild g.mem.proc p q := by
  have hinv := inv_of_reachable h
  exact (hinv.locks .wait hfree).1 p q (by simp) (hinv.dozing p hsleep hsite)

/-- The child of `initproc` runs on processor 1, and `initproc` sleeps in
`wait`. -/
def initSleeps : List (Cpu × Input) :=
  initForks ++ steps 1 30 ++ calls 0 (.wait 16 64) ++ steps 0 117

set_option maxRecDepth 100000 in
def initSleepsSeen : Sight Machine.always 60
    (fun g => (g.mem.locked .wait, (g.mem.proc 0).state, (g.mem.proc 0).site))
    (none, .sleeping, .wait) :=
  .after initSleeps (by decide +kernel)

theorem exit_not_missed_init : ∃ (b : Boot) (g : System), Reachable b g ∧
    (g.mem.proc 0).state = .sleeping ∧ (g.mem.proc 0).site = .wait ∧
      ¬ Table.ZombieChild g.mem.proc 0 1 := by
  obtain ⟨b, g, -, hg, hview⟩ := initSleepsSeen
  simp only [Prod.mk.injEq] at hview
  obtain ⟨hfree, hstate, hsite⟩ := hview
  exact ⟨b, g, hg, hstate, hsite, exit_not_missed hg hfree hstate (by rw [hsite]; rfl)⟩

/-! ## Parents -/

/-- Who has not been freed and is not being set up. -/
def Proc.Present (x : Proc) : Prop := x.Live ∨ x.state = .zombie

/-- Every process but `initproc` has a parent that can collect it. -/
def Table.Rooted (T : Table) : Prop :=
  ∀ q, q ≠ Boot.initproc → (T q).Present →
    ∃ p, (T q).parent = some p ∧ (T p).state ≠ .unused ∧ (T p).state ≠ .zombie

theorem Proc.Live.ne {x : Proc} (h : x.Live) : x.state ≠ .unused ∧ x.state ≠ .zombie := by
  rcases h with h | h | h <;> simp [h]

theorem Inv.rooted {K : Known} {s : Kernel} (hinv : Inv K s) (hfree : s.locked .wait = none) :
    Table.Rooted s.proc := by
  intro q hq hpresent
  have hparent : (s.proc q).parent ≠ none := by
    rcases hpresent with hlive | hzombie
    · exact hinv.forest.rooted q hq hlive
    · exact ((hinv.locks .wait hfree).2 q (by simp) hzombie).1
  obtain ⟨p, hp⟩ := Option.ne_none_iff_exists'.1 hparent
  exact ⟨p, hp, (hinv.forest.parent p q hp).2.ne⟩

/-- While `wait_lock` is free, every process but `initproc` has a parent that
can collect it.  Who collects is the parent of an exited process that has not
been collected yet, since its slot was taken, and no process is freed after
its exit without that.  In runs in which no child that `wait` finds has the id
-1, a `wait` that returns -1 has collected nobody. -/
theorem tree_ok {b : Boot} {g : System} (h : ReachableIf foundNamed b g) :
    (g.mem.locked .wait = none → Table.Rooted g.mem.proc) ∧
      (∀ p, (g.mem.proc p).reaps ≤ 1) ∧
      (∀ c p pp, machine.Next g c (.write (.reap p pp)) → g.mem.current c = some p ∧
        Table.ZombieChild g.mem.proc p pp ∧ (g.mem.proc pp).reaps = 0) ∧
      (∀ c p v, machine.Next g c (.write (.reaps p v)) → (g.mem.proc p).state = .unused) ∧
      (∀ c pp, machine.Next g c (.note (.frees pp)) → (g.mem.proc pp).state = .zombie →
        (g.mem.proc pp).reaps = 1) ∧
      ∀ c p, machine.Next g c (.note (.waitEnds (-1))) → g.mem.current c = some p →
        (g.mem.proc p).reaped = 0 := by
  have hinv := inv_of_reach (k := .found) h
  refine ⟨hinv.rooted, hinv.reaps, ?_, ?_, ?_, ?_⟩
  · intro c p pp hn
    obtain ⟨hcur, -, hchild, hreaps⟩ :=
      must_of_reach (k := .found) (o := .write (.reap p pp)) h hn trivial
    exact ⟨hcur, hchild, hreaps⟩
  · intro c p v hn
    obtain ⟨-, hunused, -⟩ :=
      must_of_reach (k := .found) (o := .write (.reaps p v)) h hn trivial
    exact hunused
  · intro c pp hn hzombie
    have hm : noteOK (.only .found) c g.mem (.frees pp) := must_of_reach (k := .found) h hn trivial
    exact (hm.2 hzombie).2
  · intro c p hn hp
    have hm : noteOK (.only .found) c g.mem (.waitEnds (-1)) :=
      must_of_reach (k := .found) h hn trivial
    exact hm rfl rfl p hp

set_option maxRecDepth 100000 in
def childParentSeen : Sight foundNamed 60
    (fun g => (g.mem.locked .wait, (g.mem.proc 1).state, (g.mem.proc 1).parent))
    (none, .runnable, some 0) :=
  .after initForks (by decide +kernel)

theorem tree_ok_child : ∃ (b : Boot) (g : System), ReachableIf foundNamed b g ∧
    (g.mem.proc 1).parent = some 0 ∧
      (g.mem.proc 0).state ≠ .unused ∧ (g.mem.proc 0).state ≠ .zombie := by
  obtain ⟨b, g, -, hg, hview⟩ := childParentSeen
  simp only [Prod.mk.injEq] at hview
  obtain ⟨hfree, hstate, hparent⟩ := hview
  obtain ⟨p, hp, hstates⟩ := (tree_ok hg).1 hfree 1 (by decide) (.inl (.inl hstate))
  obtain rfl : p = 0 := Option.some.inj (hp.symm.trans hparent)
  exact ⟨b, g, hg, hparent, hstates⟩

/-- The child, whose id is -1, exits, and `initproc` collects it. -/
def collectsAtLast : List (Cpu × Input) :=
  forksAtLast ++ steps 1 30 ++ calls 1 (.exitNum 7) ++ steps 1 691 ++ calls 0 (.wait 0 64) ++
    steps 0 60

set_option maxRecDepth 100000 in
theorem wait_minus_one_run :
    ((machine.runWithout (.cpu 0) collectsAtLast (wrapped (-2))).map fun g =>
      (noteAt g 0, g.mem.current 0, (g.mem.proc 0).reaped)) =
    some (some (.waitEnds (-1)), some 0, 1) := by
  decide +kernel

/-- `wait` returns -1, and has collected a child. -/
theorem wait_minus_one_reaps : ¬ ∀ (b : Boot) (g : System) (c : Cpu) (p : Slot), Reachable b g →
    machine.Next g c (.note (.waitEnds (-1))) → g.mem.current c = some p →
      (g.mem.proc p).reaped = 0 := by
  intro hall
  obtain ⟨g, hr, hview⟩ := Option.map_eq_some_iff.1 wait_minus_one_run
  simp only [Prod.mk.injEq] at hview
  obtain ⟨hnote, hcur, hreaped⟩ := hview
  obtain ⟨g', hg', hag⟩ := reachable_of_wrapped hr
  have hu : machine.running g.mem 0 ≠ .cpu 0 := by
    show g.mem.running 0 ≠ .cpu 0
    rw [Kernel.running_eq_proc.2 hcur]
    simp
  have hn := hag.next hu (next_of_noteAt hnote)
  rw [← hag.1] at hcur hreaped
  have h0 := hall sparePages g' 0 0 hg' hn hcur
  rw [hreaped] at h0
  exact absurd h0 (by decide)

end Xv6
