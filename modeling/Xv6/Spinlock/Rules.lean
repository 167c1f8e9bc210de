import Xv6.Spinlock.Code
import Xv6.Conc.Logic

/-!
# What the operations on interrupts and spinlocks do

A thread that runs sees its processor, its own history, and the processes
whose locks it holds (`View`), and the other processors leave all of that
alone.  A thread that does not run is on its way back: whoever gives it a
processor does so with interrupts off and one `push_off` outstanding
(`Ready`).
-/

namespace Xv6.Spinlock

open Conc Conc.Logic

variable {C P L : Type} {s s' : State C P L} {c d : C} {p q : P} {t : Tid C P}

/-! ## What holds -/

theorem running_proc : running s c = .proc p ↔ s.current c = some p := by
  unfold running
  cases s.current c <;> simp

theorem running_sched : running s c = .sched d ↔ c = d ∧ s.current c = none := by
  unfold running
  cases s.current c <;> simp

/-- The invariant. -/
structure Inv (s : State C P L) : Prop where
  inj : ∀ c d p, s.current c = some p → s.current d = some p → c = d
  awake : ∀ c p, s.current c = some p → s.state p = .running ∨ s.locked (.proc p) = some c
  held : ∀ c l, s.locked l = some c → l ∈ s.held (running s c)
  intr : ∀ c, s.held (running s c) ≠ [] → (s.cpu c).intr = false
  sched : ∀ c p, s.current c = some p → s.held (.sched c) = [.proc p]
  parked : ∀ p, (∀ c, s.current c ≠ some p) → s.held (.proc p) = [.proc p]
  ran : ∀ c p, s.current c = some p → s.fresh p = false

theorem Inv.running_inj (h : Inv s) (heq : running s c = running s d) : c = d := by
  cases hd : s.current d with
  | some p =>
    have hc := running_proc.1 (heq.trans (running_proc.2 hd))
    exact h.inj c d p hc hd
  | none => exact (running_sched.1 (heq.trans (running_sched.2 ⟨rfl, hd⟩))).1

/-- In this condition a processor is given to another thread. -/
def Cpu.Ready (x : Cpu) : Prop := x.noff = 1 ∧ x.intr = false

variable [DecidableEq C] [DecidableEq P]

/-- What the thread that runs on a processor can see. -/
structure View (P L : Type) where
  cpu : Cpu
  base : Bool
  held : List (Lock P L)
  owns : Lock P L → Bool
  state : P → ProcState

def State.view (s : State C P L) (c : C) : View P L where
  cpu := s.cpu c
  base := s.base (running s c)
  held := s.held (running s c)
  owns l := decide (s.locked l = some c)
  state q := if s.current c = some q ∨ s.locked (.proc q) = some c then s.state q else .unused

/-- A processor goes on with the same thread, gives itself back to its
scheduler, or gives itself to a process. -/
inductive Moves (c : C) (s s' : State C P L) : Prop
  | stay (current : s'.current c = s.current c) (fresh : s'.fresh = s.fresh)
      (base : ∀ u, u ≠ running s c → s'.base u = s.base u)
  | leave (p : P) (here : s.current c = some p) (current : s'.current c = none)
      (ready : (s'.cpu c).Ready) (fresh : s'.fresh = s.fresh) (base : s'.base = s.base)
  | enter (p : P) (idle : s.current c = none) (nowhere : ∀ d, s.current d ≠ some p)
      (current : s'.current c = some p) (ready : (s'.cpu c).Ready)
      (state : s'.state p = .running) (locked : s'.locked (.proc p) = some c)
      (fresh : ∀ q, q ≠ p → s'.fresh q = s.fresh q)
      (base : ∀ u, u ≠ .proc p → s'.base u = s.base u)
      (old : s.fresh p = false → s'.base (.proc p) = s.base (.proc p))
      (new : s.fresh p = true → s'.base (.proc p) = (s'.cpu c).intena)

/-- What a processor may do. -/
structure Guar (c : C) (s s' : State C P L) : Prop where
  inv : Inv s → Inv s'
  others : ∀ d, d ≠ c → s'.current d = s.current d ∧ s'.view d = s.view d
  held : ∀ u, u ≠ running s c → s'.held u = s.held u
  moves : Moves c s s'

theorem view_congr (hcpu : s'.cpu d = s.cpu d) (hcurrent : s'.current d = s.current d)
    (hbase : s'.base (running s d) = s.base (running s d))
    (hheld : s'.held (running s d) = s.held (running s d))
    (hlocked : ∀ l, s'.locked l = some d ↔ s.locked l = some d)
    (hstate : ∀ q, s.current d = some q ∨ s.locked (.proc q) = some d → s'.state q = s.state q) :
    s'.view d = s.view d := by
  have hrunning : running s' d = running s d := by
    unfold running
    rw [hcurrent]
  unfold State.view
  rw [hcpu, hrunning, hbase, hheld, hcurrent]
  congr 1
  · funext l
    exact decide_eq_decide.2 (hlocked l)
  · funext q
    have hsees : (s.current d = some q ∨ s'.locked (.proc q) = some d) ↔
        (s.current d = some q ∨ s.locked (.proc q) = some d) := or_congr Iff.rfl (hlocked _)
    by_cases hsee : s.current d = some q ∨ s.locked (.proc q) = some d
    · rw [if_pos (hsees.2 hsee), if_pos hsee, hstate q hsee]
    · rw [if_neg (fun h => hsee (hsees.1 h)), if_neg hsee]

section view

variable (h : s'.view d = s.view d)
include h

theorem cpu_of_view : s'.cpu d = s.cpu d := congrArg View.cpu h

theorem held_of_view : s'.held (running s' d) = s.held (running s d) := congrArg View.held h

theorem base_of_view : s'.base (running s' d) = s.base (running s d) := congrArg View.base h

theorem locked_of_view (l : Lock P L) : s'.locked l = some d ↔ s.locked l = some d :=
  decide_eq_decide.1 (congrFun (congrArg View.owns h) l)

theorem state_of_view (hcurrent : s'.current d = s.current d)
    (hq : s.current d = some q ∨ s.locked (.proc q) = some d) : s'.state q = s.state q := by
  have hstate := congrFun (congrArg View.state h) q
  have hq' : s'.current d = some q ∨ s'.locked (.proc q) = some d := by
    rw [hcurrent, locked_of_view h]
    exact hq
  simpa only [State.view, if_pos hq, if_pos hq'] using hstate

end view

/-- A step after which the same thread runs. -/
theorem stay_guar (hcurrent : s'.current = s.current) (hfresh : s'.fresh = s.fresh)
    (hothers : ∀ d, d ≠ c → s'.view d = s.view d)
    (hheld : ∀ u, u ≠ running s c → s'.held u = s.held u)
    (hbase : ∀ u, u ≠ running s c → s'.base u = s.base u)
    (hawake : ∀ p, s.current c = some p →
      s'.state p = .running ∨ s'.locked (.proc p) = some c)
    (hlocked : ∀ l, s'.locked l = some c → l ∈ s'.held (running s c))
    (hintr : s'.held (running s c) ≠ [] → (s'.cpu c).intr = false) : Guar c s s' where
  others d hd := ⟨by rw [hcurrent], hothers d hd⟩
  held := hheld
  moves := .stay (by rw [hcurrent]) hfresh hbase
  inv h := by
    have hrunning : ∀ d, running s' d = running s d := by
      intro d
      unfold running
      rw [hcurrent]
    constructor
    · rw [hcurrent]
      exact h.inj
    · intro d p hp
      rw [hcurrent] at hp
      by_cases hd : d = c
      · subst hd
        exact hawake p hp
      · have hview := hothers d hd
        rw [locked_of_view hview, state_of_view hview (by rw [hcurrent]) (.inl hp)]
        exact h.awake d p hp
    · intro d l hl
      by_cases hd : d = c
      · subst hd
        rw [hrunning]
        exact hlocked l hl
      · have hview := hothers d hd
        rw [held_of_view hview]
        exact h.held d l ((locked_of_view hview l).1 hl)
    · intro d hne
      by_cases hd : d = c
      · subst hd
        rw [hrunning] at hne
        exact hintr hne
      · have hview := hothers d hd
        rw [held_of_view hview] at hne
        rw [cpu_of_view hview]
        exact h.intr d hne
    · intro d p hp
      rw [hcurrent] at hp
      rw [hheld]
      · exact h.sched d p hp
      · intro heq
        have hsched := running_sched.1 heq.symm
        rw [hsched.1, hp] at hsched
        cases hsched.2
    · intro p hp
      rw [hcurrent] at hp
      rw [hheld]
      · exact h.parked p hp
      · intro heq
        exact hp c (running_proc.1 heq.symm)
    · rw [hcurrent, hfresh]
      exact h.ran

/-! ## The logic -/

variable [DecidableEq L] {table : List P}

/-- These panics do not happen, and the last lock of a process leaves
interrupts as they were. -/
def safe : Machine.OpPred (Op P L) (State C P L) C := fun _ c o s =>
  match o with
  | .panic msg => msg ≠ "pop_off" ∧ msg ≠ "sched locks"
  | .released => ∀ p, s.current c = some p → s.held (.proc p) = [] →
      (s.cpu c).intr = s.base (.proc p)
  | _ => True

abbrev logic (C P L : Type) [DecidableEq C] [DecidableEq P] [DecidableEq L] (table : List P) :
    Logic (machine C P L table) where
  inv := Inv
  assume _ _ _ _ := True
  must β c o s := safe β c o s ∧ ∀ i b s', exec c i s o = some (b, s') → Guar c s s'
  inv_step hinv _ hmust hx := (hmust.2 _ _ _ hx).inv hinv

/-- What a thread knows that runs. -/
def On (t : Tid C P) (φ : View P L → Prop) (s : State C P L) : Prop :=
  ∃ c, running s c = t ∧ φ (s.view c)

theorem stable_of {A : State C P L → Prop}
    (h : ∀ c s s', running s c ≠ t → Inv s → Guar c s s' → A s → A s') :
    (logic C P L table).Stable t A := by
  rintro s s' ⟨β, c, i, o, b, hc, hinv, -, hmust, hx⟩ hs
  exact h c s s' hc hinv (hmust.2 i b s' hx) hs

omit [DecidableEq L] in
/-- What another processor does leaves it alone. -/
theorem On.guar {φ : View P L → Prop} (h : On t φ s) (hd : running s d ≠ t) (hg : Guar d s s') :
    On t φ s' := by
  obtain ⟨c, hc, hφ⟩ := h
  have hne : c ≠ d := by
    intro heq
    exact hd (heq ▸ hc)
  obtain ⟨hcurrent, hview⟩ := hg.others c hne
  refine ⟨c, ?_, ?_⟩
  · rw [← hc]
    unfold running
    rw [hcurrent]
  · rw [hview]
    exact hφ

theorem on_stable (φ : View P L → Prop) : (logic C P L table).Stable t (On t φ) :=
  stable_of fun _ _ _ hd _ hg hs => hs.guar hd hg

/-- One operation of a thread that runs. -/
theorem on_act {β : Type} {φ : View P L → Prop} {o : Op P L β} {Q : β → State C P L → Prop}
    (hsafe : ∀ s c, running s c = t → φ (s.view c) → safe β c o s)
    (hstep : ∀ s c i b s', running s c = t → φ (s.view c) → Inv s →
      exec c i s o = some (b, s') → Guar c s s' ∧ Q b s') :
    (logic C P L table).Triple t (On t φ) (.perform o) Q := by
  refine Triple.perform (on_stable φ) fun s c hs hinv hc _ => ?_
  obtain ⟨d, hd, hφ⟩ := hs
  have hcd : d = c := hinv.running_inj (hd.trans hc.symm)
  subst hcd
  exact ⟨⟨hsafe s d hd hφ, fun i b s' hx => (hstep s d i b s' hd hφ hinv hx).1⟩,
    fun i b s' hx => (hstep s d i b s' hd hφ hinv hx).2⟩

/-- An operation that changes nothing. -/
theorem look_act {β : Type} {φ : View P L → Prop} {ψ : β → View P L → Prop} {o : Op P L β}
    (hsafe : ∀ s c, running s c = t → φ (s.view c) → safe β c o s)
    (hstep : ∀ s c i b s', running s c = t → φ (s.view c) → Inv s →
      exec c i s o = some (b, s') → s' = s ∧ ψ b (s.view c)) :
    (logic C P L table).Triple t (On t φ) (.perform o) fun b => On t (ψ b) := by
  refine on_act hsafe fun s c i b s' hc hφ hinv hx => ?_
  obtain ⟨rfl, hψ⟩ := hstep s c i b s' hc hφ hinv hx
  refine ⟨stay_guar rfl rfl (fun _ _ => rfl) (fun _ _ => rfl) (fun _ _ => rfl) (hinv.awake c)
    (hinv.held c) (hinv.intr c), c, hc, hψ⟩

/-- An operation on the processor itself. -/
theorem cpu_act {β : Type} {φ : View P L → Prop} {ψ : β → View P L → Prop} {o : Op P L β}
    (hsafe : ∀ (s : State C P L) (c : C), safe β c o s)
    (hstep : ∀ (s : State C P L) (c : C) i b s', φ (s.view c) → exec c i s o = some (b, s') →
      ∃ x base, s' = { s.setCpu c x with base := Function.update s.base (running s c) base } ∧
        (s.held (running s c) ≠ [] → (s.cpu c).intr = false → x.intr = false) ∧
        ψ b { s.view c with cpu := x, base := base }) :
    (logic C P L table).Triple t (On t φ) (.perform o) fun b => On t (ψ b) := by
  refine on_act (fun s c _ _ => hsafe s c) fun s c i b s' hc hφ hinv hx => ?_
  obtain ⟨x, base, rfl, hintr, hψ⟩ := hstep s c i b s' hφ hx
  refine ⟨stay_guar rfl rfl (fun d hd => ?_) (fun _ _ => rfl) (fun u hu => ?_) (hinv.awake c)
    (hinv.held c) fun hne => ?_, c, hc, ?_⟩
  · have hne : running s d ≠ running s c := fun heq => hd (hinv.running_inj heq)
    refine view_congr ?_ rfl ?_ rfl (fun _ => Iff.rfl) fun _ _ => rfl
    · simp [State.setCpu, hd]
    · simp [hne]
  · simp [hu]
  · have hoff := hintr hne (hinv.intr c hne)
    simpa [State.setCpu] using hoff
  · have hview : ({ s.setCpu c x with
        base := Function.update s.base (running s c) base } : State C P L).view c =
        { s.view c with cpu := x, base := base } := by
      simp only [State.view, State.setCpu, Function.update_self]
      congr 1
      exact Function.update_self ..
    rw [hview]
    exact hψ

/-! ## Looking -/

theorem panic_rule {β : Type} {φ : View P L → Prop} {Q : β → State C P L → Prop} {msg : String}
    (hmsg : ∀ v, φ v → msg ≠ "pop_off" ∧ msg ≠ "sched locks") :
    (logic C P L table).Triple t (On t φ) (panic msg) Q :=
  on_act (fun _ _ _ hφ => hmsg _ hφ) fun s c i b s' _ _ _ hx => by simp [exec] at hx

theorem read_rule {β : Type} (φ : View P L → Prop) (f : Cpu → β) :
    (logic C P L table).Triple t (On t φ) (read f) fun b => On t fun v => φ v ∧ b = f v.cpu := by
  refine look_act (fun _ _ _ _ => trivial) fun s c i b s' _ hφ _ hx => ?_
  simp only [exec, Option.some.injEq, Prod.mk.injEq] at hx
  exact ⟨hx.2.symm, hφ, hx.1.symm⟩

theorem held_rule (φ : View P L → Prop) :
    (logic C P L table).Triple t (On t φ) (.perform .held) fun b =>
      On t fun v => φ v ∧ b = v.held := by
  refine look_act (fun _ _ _ _ => trivial) fun s c i b s' _ hφ _ hx => ?_
  simp only [exec, Option.some.injEq, Prod.mk.injEq] at hx
  exact ⟨hx.2.symm, hφ, hx.1.symm⟩

theorem next_rule (φ : View P L → Prop) :
    (logic C P L table).Triple t (On t φ) (.perform .next) fun _ => On t φ := by
  refine look_act (fun _ _ _ _ => trivial) fun s c i b s' _ hφ _ hx => ?_
  cases i <;> simp only [exec, Option.some.injEq, Prod.mk.injEq] at hx <;> exact ⟨hx.2.symm, hφ⟩

theorem holding_rule (φ : View P L → Prop) (l : Lock P L) :
    (logic C P L table).Triple t (On t φ) (.perform (.holding l)) fun b =>
      On t fun v => φ v ∧ b = v.owns l := by
  refine look_act (fun _ _ _ _ => trivial) fun s c i b s' _ hφ _ hx => ?_
  simp only [exec, Option.some.injEq, Prod.mk.injEq] at hx
  exact ⟨hx.2.symm, hφ, hx.1.symm⟩

/-- The process of a thread. -/
def ProcOf (t : Tid C P) (r : Option P) : Prop := ∀ p, r = some p ↔ t = .proc p

theorem proc_rule (φ : View P L → Prop) :
    (logic C P L table).Triple t (On t φ) (.perform .proc) fun b s => ProcOf t b ∧ On t φ s := by
  refine on_act (fun _ _ _ _ => trivial) fun s c i b s' hc hφ hinv hx => ?_
  simp only [exec, Option.some.injEq, Prod.mk.injEq] at hx
  obtain ⟨rfl, rfl⟩ := hx
  refine ⟨stay_guar rfl rfl (fun _ _ => rfl) (fun _ _ => rfl) (fun _ _ => rfl) (hinv.awake c)
    (hinv.held c) (hinv.intr c), fun p => ?_, c, hc, hφ⟩
  rw [← hc]
  exact running_proc.symm

/-- The state of a process whose lock is held. -/
theorem state_rule {φ : View P L → Prop} (hφ : ∀ v, φ v → v.owns (.proc q) = true) :
    (logic C P L table).Triple t (On t φ) (.perform (.state q)) fun b =>
      On t fun v => φ v ∧ b = v.state q := by
  refine look_act (fun _ _ _ _ => trivial) fun s c i b s' _ hs _ hx => ?_
  simp only [exec, Option.some.injEq, Prod.mk.injEq] at hx
  have howns : s.locked (.proc q) = some c := of_decide_eq_true (hφ _ hs)
  refine ⟨hx.2.symm, hs, ?_⟩
  rw [← hx.1]
  exact (if_pos (.inr howns)).symm

/-! ## The processor -/

theorem intrOff_rule {φ ψ : View P L → Prop}
    (h : ∀ v, φ v → ψ { v with
      cpu := { v.cpu with intr := false }
      base := if v.held = [] then v.cpu.intr else v.base }) :
    (logic C P L table).Triple t (On t φ) (.perform .intrOff) fun _ => On t ψ := by
  refine cpu_act (fun _ _ => trivial) fun s c i b s' hφ hx => ?_
  simp only [exec, Option.some.injEq, Prod.mk.injEq] at hx
  obtain ⟨-, rfl⟩ := hx
  refine ⟨_, if s.held (running s c) = [] then (s.cpu c).intr else s.base (running s c), ?_,
    fun _ _ => rfl, h _ hφ⟩
  congr 1
  by_cases hnil : s.held (running s c) = []
  · rw [if_pos hnil, if_pos hnil]
  · rw [if_neg hnil, if_neg hnil, Function.update_eq_self]

/-- An operation that changes the processor only. -/
theorem setCpu_act {φ ψ : View P L → Prop} {o : Op P L Unit} (f : Cpu → Cpu)
    (hsafe : ∀ (s : State C P L) (c : C), safe Unit c o s)
    (hexec : ∀ (s : State C P L) (c : C) i b s', exec c i s o = some (b, s') →
      s' = s.setCpu c (f (s.cpu c)))
    (hintr : ∀ v, φ v → v.held ≠ [] → v.cpu.intr = false → (f v.cpu).intr = false)
    (h : ∀ v, φ v → ψ { v with cpu := f v.cpu }) :
    (logic C P L table).Triple t (On t φ) (.perform o) fun _ => On t ψ := by
  refine cpu_act hsafe fun s c i b s' hφ hx => ?_
  obtain rfl := hexec s c i b s' hx
  refine ⟨f (s.cpu c), s.base (running s c), ?_, hintr _ hφ, h _ hφ⟩
  rw [Function.update_eq_self]
  rfl

theorem intrOn_rule {φ ψ : View P L → Prop} (hnil : ∀ v, φ v → v.held = [])
    (h : ∀ v, φ v → ψ { v with cpu := { v.cpu with intr := true } }) :
    (logic C P L table).Triple t (On t φ) (.perform .intrOn) fun _ => On t ψ := by
  refine setCpu_act (fun x => { x with intr := true }) (fun _ _ => trivial)
    (fun s c i b s' hx => ?_) (fun v hφ hne => absurd (hnil v hφ) hne) h
  simp only [exec, Option.some.injEq, Prod.mk.injEq] at hx
  exact hx.2.symm

theorem setIntena_rule {φ ψ : View P L → Prop} (b : Bool)
    (h : ∀ v, φ v → ψ { v with cpu := { v.cpu with intena := b } }) :
    (logic C P L table).Triple t (On t φ) (.perform (.setIntena b)) fun _ => On t ψ := by
  refine setCpu_act (fun x => { x with intena := b }) (fun _ _ => trivial)
    (fun s c i b s' hx => ?_) (fun _ _ _ hoff => hoff) h
  simp only [exec, Option.some.injEq, Prod.mk.injEq] at hx
  exact hx.2.symm

theorem addNoff_rule {φ ψ : View P L → Prop} (k : Int)
    (h : ∀ v, φ v → ψ { v with cpu := { v.cpu with noff := v.cpu.noff + k } }) :
    (logic C P L table).Triple t (On t φ) (.perform (.addNoff k)) fun _ => On t ψ := by
  refine setCpu_act (fun x => { x with noff := x.noff + k }) (fun _ _ => trivial)
    (fun s c i b s' hx => ?_) (fun _ _ _ hoff => hoff) h
  simp only [exec, Option.some.injEq, Prod.mk.injEq] at hx
  exact hx.2.symm

/-- An interrupt is taken only if interrupts are on, and turns them off. -/
theorem irq_rule (φ : View P L → Prop) :
    (logic C P L table).Triple t (On t φ) (.perform .irq) fun b => On t fun v =>
      ∃ v₀, φ v₀ ∧ ((b = true ∧ v₀.cpu.intr = true ∧
        v = { v₀ with cpu := { v₀.cpu with intr := false } }) ∨ b = false ∧ v = v₀) := by
  refine cpu_act (fun _ _ => trivial) fun s c i b s' hφ hx => ?_
  have hsame : some (false, s) = some (b, s') → ∃ x base,
      s' = { s.setCpu c x with base := Function.update s.base (running s c) base } ∧
        (s.held (running s c) ≠ [] → (s.cpu c).intr = false → x.intr = false) ∧
        ∃ v₀, φ v₀ ∧ ((b = true ∧ v₀.cpu.intr = true ∧
          ({ s.view c with cpu := x, base := base } : View P L) =
            { v₀ with cpu := { v₀.cpu with intr := false } }) ∨
          b = false ∧ { s.view c with cpu := x, base := base } = v₀) := by
    intro heq
    simp only [Option.some.injEq, Prod.mk.injEq] at heq
    obtain ⟨rfl, rfl⟩ := heq
    refine ⟨s.cpu c, s.base (running s c), ?_, fun _ h => h, s.view c, hφ, .inr ⟨rfl, rfl⟩⟩
    simp [State.setCpu]
  cases i with
  | irq =>
    by_cases hon : (s.cpu c).intr = true
    · simp only [exec, hon, if_true, Option.some.injEq, Prod.mk.injEq] at hx
      obtain ⟨rfl, rfl⟩ := hx
      refine ⟨{ s.cpu c with intr := false }, s.base (running s c), ?_, fun _ _ => rfl,
        s.view c, hφ, .inl ⟨rfl, hon, rfl⟩⟩
      simp [State.setCpu]
    · have hoff : (s.cpu c).intr = false := by simpa using hon
      simp only [exec, hoff] at hx
      exact hsame hx
  | call w => exact hsame hx
  | none => exact hsame hx

end Xv6.Spinlock
