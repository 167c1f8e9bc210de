import Xv6.Proc.SyscallRules

/-!
# Processes and processors

The lock of a process travels with it: `scheduler` takes it and the process
releases it, and the other way round.  While nobody holds the lock, a process
is `RUNNING` exactly on the processor that says so.
-/

namespace Xv6

open Conc

section

variable {K : Known} {s : Kernel} {c d : Cpu} {p : Slot}

/-- Two processors never have the same process. -/
theorem Inv.cpu_unique (hinv : Inv K s) (hc : (s.cpu c).proc = some p)
    (hd : (s.cpu d).proc = some p) : c = d := by
  rcases hinv.proc c p hc with hcur | ⟨hlock, hnone⟩
  · rcases hinv.proc d p hd with hcur' | ⟨-, hnone'⟩
    · exact hinv.unique c d p hcur hcur'
    · exact absurd hcur (hnone' c)
  · rcases hinv.proc d p hd with hcur' | ⟨hlock', -⟩
    · exact absurd hcur' (hnone d)
    · exact Option.some.inj (hlock.symm.trans hlock')

theorem Inv.running_iff (hinv : Inv K s) (hfree : s.locked (.proc p) = none) :
    (s.proc p).state = .running ↔ ∃! c, (s.cpu c).proc = some p := by
  constructor
  · intro hrun
    obtain ⟨c, hc⟩ := hinv.running p hfree hrun
    exact ⟨c, hinv.cpu c p hc, fun d hd => hinv.cpu_unique hd (hinv.cpu c p hc)⟩
  · intro ⟨c, hc, _⟩
    rcases hinv.proc c p hc with hcur | ⟨hlock, -⟩
    · rcases hinv.current c p hcur with hrun | hlock
      · exact hrun
      · exact absurd (hfree.symm.trans hlock) (by simp)
    · exact absurd (hfree.symm.trans hlock) (by simp)

end

/-- A process whose lock is free is `RUNNING` if and only if exactly one
processor has it; no process is on two processors; and `scheduler` chooses
`RUNNABLE` processes only, and switches to them as `RUNNING`. -/
theorem running_iff_on_cpu {b : Boot} {g : System} (h : Reachable b g) :
    (∀ p, g.mem.locked (.proc p) = none →
        ((g.mem.proc p).state = .running ↔ ∃! c, (g.mem.cpu c).proc = some p)) ∧
      (∀ c d p, (g.mem.cpu c).proc = some p → (g.mem.cpu d).proc = some p → c = d) ∧
      (∀ c d p, g.mem.current c = some p → g.mem.current d = some p → c = d) ∧
      (∀ c p, machine.Next g c (.write (.state p .running)) →
        (g.mem.proc p).state = .runnable) ∧
      ∀ c p, machine.Next g c (.swtch (some p)) → (g.mem.proc p).state = .running := by
  have hinv := inv_of_reachable h
  refine ⟨fun p => hinv.running_iff, fun c d p => hinv.cpu_unique, hinv.unique, ?_, ?_⟩
  · intro c p hn
    have hm : stateOK .nothing c g.mem p .running := must_of_reachable h hn
    exact hm.2.1
  · intro c p hn
    obtain ⟨-, -, -, -, -, hrun, -⟩ := must_of_reachable h hn
    exact hrun

set_option maxRecDepth 100000 in
def initForksSeen : Sight Machine.always 60
    (fun g => (g.mem.locked (.proc 0), (g.mem.proc 0).state)) (none, .running) :=
  .after initForks (by decide +kernel)

theorem running_iff_on_cpu_init : ∃ (b : Boot) (g : System), Reachable b g ∧
    (g.mem.proc 0).state = .running ∧ ∃! c, (g.mem.cpu c).proc = some 0 := by
  obtain ⟨b, g, -, hg, hview⟩ := initForksSeen
  obtain ⟨hfree, hrun⟩ := Prod.mk.inj hview
  exact ⟨b, g, hg, hrun, ((running_iff_on_cpu hg).1 0 hfree).1 hrun⟩

end Xv6
