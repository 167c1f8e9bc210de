import Xv6.Conc.Prog

/-!
# The machine that interleaves thread programs

A `Machine` gives the operations their meaning on a shared memory `σ`.  At
every moment each processor runs one thread, which `running` reads off the
memory; `exec` performs one operation of that thread, and answers `none` when
the operation has to wait.  An operation can also start a thread afresh
(`restarts`).  A step of the machine is one operation, or one silent turn of
a loop, of the thread that some processor runs; any processor may take the
next step.
-/

namespace Conc

/-- The meaning of the operations `Op` on the shared memory `σ`. -/
structure Machine (Op : Type → Type 1) (σ Cpu Tid Input : Type) where
  running : σ → Cpu → Tid
  exec : {β : Type} → Cpu → Input → σ → Op β → Option (β × σ)
  restarts : {β : Type} → Op β → Option Tid
  main : Tid → Prog Op Empty

variable {Op : Type → Type 1} {σ Cpu Tid Input : Type}

/-- The shared memory, and what each thread has still to run. -/
structure Config (Op : Type → Type 1) (σ Tid : Type) where
  mem : σ
  code : Tid → Prog Op Empty

/-- The next turn of a loop. -/
def Prog.unfoldIter {α β γ : Type} (body : β → Prog Op (β ⊕ γ)) (b : β) (k : γ → Prog Op α) :
    Prog Op α :=
  (body b).bind fun
    | .inl b' => .iter body b' k
    | .inr x => k x

namespace Machine

variable [DecidableEq Tid] (M : Machine Op σ Cpu Tid Input)

/-- Replace the code of one thread. -/
def setCode (code : Tid → Prog Op Empty) (t : Tid) (m : Prog Op Empty) : Tid → Prog Op Empty :=
  fun u => if u = t then m else code u

/-- The code of all threads after an operation of `t`, which goes on with `m`. -/
def nextCode {β : Type} (o : Op β) (code : Tid → Prog Op Empty) (t : Tid) (m : Prog Op Empty) :
    Tid → Prog Op Empty :=
  match M.restarts o with
  | none => setCode code t m
  | some u => setCode (setCode code t m) u (M.main u)

/-- One step of processor `c`, with what the outside world does in it. -/
def step (c : Cpu) (i : Input) (g : Config Op σ Tid) : Option (Config Op σ Tid) :=
  match g.code (M.running g.mem c) with
  | .ret a => nomatch a
  | .iter body b k =>
    some ⟨g.mem, setCode g.code (M.running g.mem c) (Prog.unfoldIter body b k)⟩
  | .op o k =>
    match M.exec c i g.mem o with
    | none => none
    | some (b, mem) => some ⟨mem, M.nextCode o g.code (M.running g.mem c) (k b)⟩

/-- Processor `c` is about to perform `o`. -/
def Next {β : Type} (g : Config Op σ Tid) (c : Cpu) (o : Op β) : Prop :=
  ∃ k, g.code (M.running g.mem c) = .op o k

/-- What a run may assume, or has to guarantee, about each operation and the
state in which a processor performs it. -/
abbrev OpPred (Op : Type → Type 1) (σ Cpu : Type) := (β : Type) → Cpu → Op β → σ → Prop

/-- The states that runs from `g₀` reach when every operation of the run
meets the condition `A`. -/
inductive Reach (A : OpPred Op σ Cpu) (g₀ : Config Op σ Tid) : Config Op σ Tid → Prop
  | start : Reach A g₀ g₀
  | step {g g' : Config Op σ Tid} {c : Cpu} {i : Input} (h : Reach A g₀ g)
      (hA : ∀ (β : Type) (o : Op β), M.Next g c o → A β c o g.mem)
      (hs : M.step c i g = some g') : Reach A g₀ g'

/-- A run that meets a condition meets any that follows from it. -/
theorem Reach.mono {A B : OpPred Op σ Cpu} {g₀ g : Config Op σ Tid} (h : M.Reach A g₀ g)
    (hAB : ∀ (β : Type) (c : Cpu) (o : Op β) (s : σ), A β c o s → B β c o s) :
    M.Reach B g₀ g := by
  induction h with
  | start => exact .start
  | step _ hA hs ih => exact ih.step (fun β o hn => hAB β _ o _ (hA β o hn)) hs

/-- The condition that every operation meets. -/
def always : OpPred Op σ Cpu := fun _ _ _ _ => True

instance {β : Type} (c : Cpu) (o : Op β) (s : σ) : Decidable (always β c o s) :=
  .isTrue trivial

/-! ## Running a schedule -/

/-- The operation that a processor is about to perform. -/
def next? (g : Config Op σ Tid) (c : Cpu) : Option (Σ β, Op β) :=
  match g.code (M.running g.mem c) with
  | .op o _ => some ⟨_, o⟩
  | _ => none

omit [DecidableEq Tid] in
theorem next?_eq_some {β : Type} {g : Config Op σ Tid} {c : Cpu} {o : Op β} :
    M.next? g c = some ⟨β, o⟩ ↔ M.Next g c o := by
  unfold next? Next
  split
  · rename_i hcode
    constructor
    · intro h
      cases h
      exact ⟨_, hcode⟩
    · intro ⟨k, hk⟩
      rw [hcode] at hk
      cases hk
      rfl
  · rename_i hcode
    constructor
    · intro h
      cases h
    · intro ⟨k, hk⟩
      exact (hcode _ _ k hk).elim

variable (A : OpPred Op σ Cpu) [∀ (β : Type) (c : Cpu) (o : Op β) (s : σ), Decidable (A β c o s)]

/-- The next operation of a processor, if there is one, meets the condition. -/
def allows (g : Config Op σ Tid) (c : Cpu) : Bool :=
  match M.next? g c with
  | some ⟨β, o⟩ => decide (A β c o g.mem)
  | none => true

/-- The run that follows a schedule, for as long as every operation meets the
condition. -/
def run : List (Cpu × Input) → Config Op σ Tid → Option (Config Op σ Tid)
  | [], g => some g
  | (c, i) :: sched, g => if M.allows A g c then (M.step c i g).bind (run sched) else none

/-- A schedule leads to a reachable state. -/
theorem reach_of_run {g₀ g g' : Config Op σ Tid} {sched : List (Cpu × Input)}
    (h : M.Reach A g₀ g) (hr : M.run A sched g = some g') : M.Reach A g₀ g' := by
  induction sched generalizing g with
  | nil =>
    simp only [run, Option.some.injEq] at hr
    exact hr ▸ h
  | cons ci sched ih =>
    obtain ⟨c, i⟩ := ci
    simp only [run, Option.ite_none_right_eq_some, Option.bind_eq_some_iff] at hr
    obtain ⟨hallows, g₁, hs, hr⟩ := hr
    refine ih (h.step (fun β o hn => ?_) hs) hr
    simpa [allows, M.next?_eq_some.2 hn] using hallows

/-- Follow a schedule in legs, and look at the state after each of them. -/
def views {α : Type} (f : Config Op σ Tid → α) :
    List (List (Cpu × Input)) → Config Op σ Tid → Option (List α)
  | [], _ => some []
  | leg :: legs, g => (M.run A leg g).bind fun g' => (views f legs g').map (f g' :: ·)

/-- What is seen after a leg is seen of a reachable state. -/
theorem reach_of_views {α : Type} {f : Config Op σ Tid → α} {g₀ g : Config Op σ Tid}
    {legs : List (List (Cpu × Input))} {as : List α} {a : α} (h : M.Reach A g₀ g)
    (hv : M.views A f legs g = some as) (ha : a ∈ as) : ∃ g', M.Reach A g₀ g' ∧ f g' = a := by
  induction legs generalizing g as with
  | nil =>
    obtain rfl : [] = as := Option.some.inj hv
    cases ha
  | cons leg legs ih =>
    obtain ⟨g', hrun, hrest⟩ := Option.bind_eq_some_iff.1 hv
    obtain ⟨as', has', rfl⟩ := Option.map_eq_some_iff.1 hrest
    have hg' := M.reach_of_run A h hrun
    rcases List.mem_cons.1 ha with rfl | ha
    · exact ⟨g', hg', rfl⟩
    · exact ih hg' has' ha

/-- What one step is: a turn of a loop, or an operation. -/
theorem step_cases {g g' : Config Op σ Tid} {c : Cpu} {i : Input} (h : M.step c i g = some g') :
    (∃ (β γ : Type) (body : β → Prog Op (β ⊕ γ)) (b : β) (k : γ → Prog Op Empty),
        g.code (M.running g.mem c) = .iter body b k ∧
        g' = ⟨g.mem, setCode g.code (M.running g.mem c) (Prog.unfoldIter body b k)⟩) ∨
      ∃ (β : Type) (o : Op β) (k : β → Prog Op Empty) (b : β) (mem : σ),
        g.code (M.running g.mem c) = .op o k ∧ M.exec c i g.mem o = some (b, mem) ∧
        g' = ⟨mem, M.nextCode o g.code (M.running g.mem c) (k b)⟩ := by
  unfold step at h
  split at h
  · rename_i a _
    exact a.elim
  · rename_i hcode
    exact .inl ⟨_, _, _, _, _, hcode, (Option.some.inj h).symm⟩
  · rename_i o k hcode
    split at h
    · cases h
    · rename_i b mem hexec
      exact .inr ⟨_, o, k, b, mem, hcode, hexec, (Option.some.inj h).symm⟩

end Machine

end Conc
