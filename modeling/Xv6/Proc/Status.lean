import Xv6.Proc.SyscallRules

/-!
# Statuses

What `wait` stores and what `waitall` reports, against what the child's own
termination determines.
-/

namespace Xv6

open Conc

/-! ## `wait` -/

/-- `wait` has stored what the child's own termination determines. -/
def WaitCorrect (xstate : I32) (ended : Option Termination) : Prop :=
  ∀ e, ended = some e → ∀ v, e.own = some v → xstate = v

theorem waitCorrect_zero_iff {ended : Option Termination} (h : ended ≠ none) :
    WaitCorrect 0 ended ↔ ended = some .msg ∨ ended = some (.status 0) := by
  cases ended with
  | none => exact absurd rfl h
  | some e =>
    cases e with
    | status v =>
      constructor
      · intro hw
        have hv : (0 : I32) = v := hw _ rfl v rfl
        rw [← hv]
        exact .inr rfl
      · intro hc e he v' hv
        obtain hc | hc := hc
        · cases hc
        · cases hc
          cases he
          exact Option.some.inj hv
    | msg => simp [WaitCorrect, Termination.own]
    | killed => simp [WaitCorrect, Termination.own]

/-- `initproc` forks a child, which exits with status `v`. -/
def childExits (v : I32) : List (Cpu × Input) :=
  initForks ++ steps 1 30 ++ calls 1 (.exitNum v) ++ steps 1 691

set_option maxRecDepth 100000 in
def exitSevenSeen : Sight Machine.always 60
    (noteAt · 0) (some (.waitReturns 2 0 (some (.status 7)))) :=
  .after (childExits 7 ++ calls 0 (.wait 16 64) ++ steps 0 62) (by decide +kernel)

/-- A child's own termination determines one status. -/
theorem Report.Own.status_eq {r r' : Report} (h : r.Own) (h' : r'.Own)
    (heq : r.ended = r'.ended) : r.status = r'.status := by
  obtain ⟨e, he, hs⟩ := h
  obtain ⟨e', he', hs'⟩ := h'
  rw [he, he'] at heq
  cases heq
  exact Option.some.inj (hs.symm.trans hs')

theorem map_status_eq {reports reports' : List Report} (h : ∀ r ∈ reports, r.Own)
    (h' : ∀ r ∈ reports', r.Own)
    (heq : reports.map Report.ended = reports'.map Report.ended) :
    reports.map Report.status = reports'.map Report.status := by
  induction reports generalizing reports' with
  | nil =>
    cases reports' with
    | nil => rfl
    | cons r' rest' => cases heq
  | cons r rest ih =>
    cases reports' with
    | nil => cases heq
    | cons r' rest' =>
      rw [List.map_cons, List.map_cons, List.cons.injEq] at heq ⊢
      obtain ⟨hr, hrest⟩ := List.forall_mem_cons.1 h
      obtain ⟨hr', hrest'⟩ := List.forall_mem_cons.1 h'
      exact ⟨hr.status_eq hr' heq.1, ih hrest hrest' heq.2⟩

theorem reports_own {b : Boot} {g : System} {c : Cpu} {n : I32} {reports : List Report}
    (h : ReachableIf ownStatuses b g)
    (hn : machine.Next g c (.note (.waitallReturns n reports))) : ∀ r ∈ reports, r.Own := by
  have hm : must (.only .own) Unit c (.note (.waitallReturns n reports)) g.mem :=
    must_of_reach h hn trivial
  intro r hr
  exact (hm.1 r hr).2 rfl

/-- In runs in which `waitall` collects nobody but processes that called
`exit` or `exit_num`, and killed ones whose slot holds `xstatus = -1`, each
status that it reports is the child's own, and runs in which the children end
alike report the same statuses. -/
theorem waitall_statuses_own {b b' : Boot} {g g' : System} {c c' : Cpu} {n n' : I32}
    {reports reports' : List Report}
    (h : ReachableIf ownStatuses b g)
    (hn : machine.Next g c (.note (.waitallReturns n reports)))
    (h' : ReachableIf ownStatuses b' g')
    (hn' : machine.Next g' c' (.note (.waitallReturns n' reports'))) :
    (∀ r ∈ reports, r.Own) ∧
      (reports.map Report.ended = reports'.map Report.ended →
        reports.map Report.status = reports'.map Report.status) := by
  have hown := reports_own h hn
  exact ⟨hown, map_status_eq hown (reports_own h' hn')⟩

set_option maxRecDepth 100000 in
/-- `waitall`, with 0 at `*n`, frees the child without its lock, stores one
status, and returns. -/
theorem exit_seven_waitall_run :
    viewsFrom ownStatuses (fun g => (noteAt g 0, g.mem.locked (.proc 1))) 60
      [childExits 7 ++ calls 0 (.waitall 256 128) ++ steps 0 42, steps 0 520, steps 0 3] =
    some [(some (.frees 1), none), (some (.copyStatuses 0 1), none),
      (some (.waitallReturns 0 [⟨2, 7, some (.status 7)⟩]), none)] := by
  decide +kernel

theorem waitall_statuses_own_seven : ∃ (b : Boot) (g : System),
    machine.Next g 0 (.note (.waitallReturns 0 [⟨2, 7, some (.status 7)⟩])) ∧
      ReachableIf ownStatuses b g ∧ Report.Own ⟨2, 7, some (.status 7)⟩ := by
  obtain ⟨b, g, -, hg, hview⟩ :=
    reachableIf_of_viewsFrom exit_seven_waitall_run (.tail _ (.tail _ (.head _)))
  have hn := next_of_noteAt (Prod.mk.inj hview).1
  exact ⟨b, g, hn, hg, (waitall_statuses_own hg hn hg hn).1 _ List.mem_cons_self⟩

/-! A slot is used twice: its first process exits with status `v` and is
collected by `wait`, its second is killed and is collected by `waitall`. -/

/-- The second process of the slot is killed. -/
def slotReused (v : I32) : List (Cpu × Input) :=
  childExits v ++ calls 0 (.wait 0 64) ++ steps 0 74 ++ calls 0 .fork ++ steps 0 122 ++
    calls 0 (.kill 3) ++ steps 0 48 ++ steps 2 30 ++ calls 2 .other ++ steps 2 686 ++
    calls 0 (.waitall 256 128) ++ steps 0 565

set_option maxRecDepth 100000 in
def slotReusedFiveSeen : Sight Machine.always 60
    (noteAt · 0) (some (.waitallReturns 0 [⟨3, 5, some .killed⟩])) :=
  .after (slotReused 5) (by decide +kernel)

set_option maxRecDepth 100000 in
def slotReusedSevenSeen : Sight Machine.always 60
    (noteAt · 0) (some (.waitallReturns 0 [⟨3, 7, some .killed⟩])) :=
  .after (slotReused 7) (by decide +kernel)

/-- `waitall` reports the status of the slot's earlier process. -/
theorem waitall_leaks_status :
    (¬ ∀ (b : Boot) (g : System) (c : Cpu) (n : I32) (reports : List Report),
      Reachable b g → machine.Next g c (.note (.waitallReturns n reports)) →
        ∀ r ∈ reports, r.Own) ∧
    ¬ ∀ (b : Boot) (g g' : System) (c : Cpu) (n : I32) (reports reports' : List Report),
      Reachable b g → machine.Next g c (.note (.waitallReturns n reports)) →
      Reachable b g' → machine.Next g' c (.note (.waitallReturns n reports')) →
        reports.map Report.ended = reports'.map Report.ended →
          reports.map Report.status = reports'.map Report.status := by
  obtain ⟨b, g, hb, hg, hnote⟩ := slotReusedFiveSeen
  obtain ⟨b', g', hb', hg', hnote'⟩ := slotReusedSevenSeen
  obtain rfl : b = b' := Option.some.inj (hb.symm.trans hb')
  have hn := next_of_noteAt hnote
  constructor
  · intro hall
    obtain ⟨e, he, hs⟩ := hall b g 0 _ _ hg hn _ List.mem_cons_self
    cases he
    exact absurd hs (by decide)
  · intro hall
    have heq := hall b g g' 0 _ _ _ hg hn hg' (next_of_noteAt hnote') rfl
    exact absurd heq (by decide)

end Xv6
