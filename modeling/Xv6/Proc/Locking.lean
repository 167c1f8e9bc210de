import Xv6.Proc.Status

/-!
# What `p->lock` protects

`proc.h`: "p->lock must be held when using these", of `state`, `chan`,
`killed`, `xstate` and `pid`.  `waitall` releases the lock of a child before
it frees the child.
-/

namespace Xv6

open Conc

/-- The process whose lock protects the field that a store changes. -/
def Write.guarded : Write → Option Slot
  | .state p _ | .chan p _ | .killed p _ | .xstate p _ | .pid p _ => some p
  | _ => none

theorem MayStore.locked {K : Known} {c : Cpu} {s : Kernel} {p : Slot} (h : MayStore K c s p)
    (hK : K .locked) : s.locked (.proc p) = some c := by
  rcases h with hlock | ⟨hnot, -⟩
  · exact hlock
  · exact absurd hK hnot

theorem writeOK.locked {K : Known} {c : Cpu} {s : Kernel} {w : Write} {p : Slot}
    (h : writeOK K c s w) (hK : K .locked) (hw : w.guarded = some p) :
    s.locked (.proc p) = some c := by
  cases w with
  | state q v =>
    obtain rfl : q = p := Option.some.inj hw
    cases v with
    | unused => exact MayStore.locked h.2.2.1 hK
    | _ => exact h.1
  | chan q v =>
    obtain rfl : q = p := Option.some.inj hw
    exact MayStore.locked h hK
  | killed q v =>
    obtain rfl : q = p := Option.some.inj hw
    cases v with
    | true => exact h.1
    | false => exact MayStore.locked h hK
  | xstate q v =>
    obtain rfl : q = p := Option.some.inj hw
    exact h.2.locked hK
  | pid q v =>
    obtain rfl : q = p := Option.some.inj hw
    rcases h with ⟨-, -, hstore⟩ | ⟨hlock, -⟩
    · exact hstore.locked hK
    · exact hlock
  | _ => cases hw

/-- In runs in which `waitall` collects nobody, every store into a field that
`p->lock` protects, and every call of `freeproc`, is made with that lock
held. -/
theorem stores_locked {b : Boot} {g : System} {c : Cpu} {p : Slot}
    (h : ReachableIf collectsNone b g) :
    (∀ w, machine.Next g c (.write w) → w.guarded = some p →
        g.mem.locked (.proc p) = some c) ∧
      (machine.Next g c (.note (.frees p)) → g.mem.locked (.proc p) = some c) := by
  constructor
  · intro w hn hw
    have hm : writeOK (.only .locked) c g.mem w := must_of_reach (k := .locked) h hn trivial
    exact hm.locked rfl hw
  · intro hn
    have hm : noteOK (.only .locked) c g.mem (.frees p) :=
      must_of_reach (k := .locked) h hn trivial
    exact hm.1 rfl

/-- The process into whose guarded fields a processor is about to store. -/
def guardedAt (g : System) (c : Cpu) : Option Slot :=
  match machine.next? g c with
  | some ⟨_, .write w⟩ => w.guarded
  | _ => none

theorem next_of_guardedAt {g : System} {c : Cpu} {p : Slot} (h : guardedAt g c = some p) :
    ∃ w, machine.Next g c (.write w) ∧ w.guarded = some p := by
  unfold guardedAt at h
  split at h
  · rename_i w hnext
    exact ⟨w, machine.next?_eq_some.1 hnext, h⟩
  · cases h

set_option maxRecDepth 100000 in
/-- `initproc` kills its child, and is about to mark it. -/
def childKilledSeen : Sight collectsNone 60 (guardedAt · 0) (some 1) :=
  .after (initForks ++ calls 0 (.kill 2) ++ steps 0 28) (by decide +kernel)

theorem stores_locked_killed : ∃ (b : Boot) (g : System) (w : Write),
    ReachableIf collectsNone b g ∧ machine.Next g 0 (.write w) ∧ w.guarded = some 1 ∧
      g.mem.locked (.proc 1) = some 0 := by
  obtain ⟨b, g, -, hg, hview⟩ := childKilledSeen
  obtain ⟨w, hn, hw⟩ := next_of_guardedAt hview
  exact ⟨b, g, w, hg, hn, hw, (stores_locked hg).1 w hn hw⟩

/-- `waitall` frees a child without its lock. -/
theorem waitall_frees_unlocked :
    ¬ ∀ (b : Boot) (g : System) (c : Cpu) (p : Slot), Reachable b g →
      machine.Next g c (.note (.frees p)) → g.mem.locked (.proc p) = some c := by
  intro hall
  obtain ⟨b, g, -, hg, hview⟩ := reachableIf_of_viewsFrom exit_seven_waitall_run (.head _)
  obtain ⟨hnote, hfree⟩ := Prod.mk.inj hview
  have hlock := hall b g 0 1 hg.reachable (next_of_noteAt hnote)
  exact absurd (hfree.symm.trans hlock) (by simp)

end Xv6
