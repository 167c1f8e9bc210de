import Xv6.Spinlock.Locks

/-!
# Interrupts follow the thread

A process that has given its processor up comes back on another one whose
`intena` is about somebody else, and `sched` puts its own back.
-/

namespace Xv6.Spinlock

open Conc Conc.Logic

variable {C P L : Type} [DecidableEq C] [DecidableEq P] [DecidableEq L] {t : Tid C P} {p q : P}
  {c : C} {l : Lock P L} {ls : List (Lock P L)} {b f : Bool} {table : List P}

/-! ## Switching -/

/-- A process that is on its way back: it has never run, if `f`, and else
interrupts were as in `b` when it acquired its first lock. -/
def Parked (p : P) (f b : Bool) (s : State C P L) : Prop :=
  ((∀ c, s.current c ≠ some p) ∧ s.fresh p = f ∧ (f = false → s.base (.proc p) = b)) ∨
    On (.proc p) (fun v => Level [.proc p] 1 (f = true) (Holds (.proc p : Tid C P) [.proc p]) v ∧
      (f = false → v.base = b)) s

theorem parked_stable : (logic C P L table).Stable (.proc p) (Parked p f b) := by
  refine stable_of fun d s s' hd hinv hg hs => ?_
  rcases hs with ⟨hnowhere, hfresh, hbase⟩ | hs
  · have hheld : s'.held (.proc p) = [.proc p] := by
      rw [hg.held _ (Ne.symm hd)]
      exact hinv.parked p hnowhere
    have hstill : s'.current d ≠ some p → ∀ e, s'.current e ≠ some p := by
      intro hd' e
      by_cases he : e = d
      · rwa [he]
      · rw [(hg.others e he).1]
        exact hnowhere e
    cases hg.moves with
    | stay hcurrent hfresh' hbase' =>
      left
      refine ⟨hstill ?_, by rw [hfresh', hfresh], fun hf => ?_⟩
      · rw [hcurrent]
        exact hnowhere d
      · rw [hbase' _ (Ne.symm hd)]
        exact hbase hf
    | leave r _ hcurrent _ hfresh' hbase' =>
      left
      refine ⟨hstill ?_, by rw [hfresh', hfresh], fun hf => ?_⟩
      · simp [hcurrent]
      · rw [hbase']
        exact hbase hf
    | enter r _ _ hcurrent hready hstate hlocked hfresh' hbase' hold hnew =>
      by_cases hr : r = p
      · subst hr
        right
        refine ⟨d, running_proc.2 hcurrent, ⟨?_, hready.1, fun _ => hready.2, fun _ hf => ?_, ?_⟩,
          fun hf => ?_⟩
        · show s'.held (running s' d) = _
          rw [running_proc.2 hcurrent, hheld]
        · show (s'.cpu d).intena = s'.base (running s' d)
          rw [running_proc.2 hcurrent, hnew (hfresh.trans hf)]
        · refine ⟨fun u hu => ?_, by simp, fun l hl => ?_⟩
          · cases hu
            exact (if_pos (.inl hcurrent)).trans hstate
          · obtain rfl := List.mem_singleton.1 hl
            exact decide_eq_true hlocked
        · show s'.base (running s' d) = b
          rw [running_proc.2 hcurrent, hold (hfresh.trans hf)]
          exact hbase hf
      · left
        refine ⟨hstill ?_, ?_, fun hf => ?_⟩
        · rw [hcurrent]
          exact fun heq => hr (Option.some.inj heq)
        · rw [hfresh' p (Ne.symm hr), hfresh]
        · rw [hbase' _ (by simpa using Ne.symm hr)]
          exact hbase hf
  · exact .inr (hs.guar hd hg)

/-- `swtch(&p->context, &mycpu()->context)` -/
theorem swtch_rule {R : (Lock P L → Bool) → (P → ProcState) → Prop} :
    (logic C P L table).Triple (.proc p)
      (On (.proc p) fun v => Level [.proc p] 1 True R v ∧ v.base = b) (.perform .swtch)
      fun _ => Parked p false b := by
  refine on_act (fun _ _ _ _ => trivial) fun s c i a s' hc hφ hinv hx => ?_
  simp only [exec, Option.some.injEq, Prod.mk.injEq] at hx
  obtain ⟨-, rfl⟩ := hx
  obtain ⟨hlevel, hbase⟩ := hφ
  have hcurrent : s.current c = some p := running_proc.1 hc
  have hheld : s.held (.proc p) = [.proc p] := hc ▸ hlevel.held
  have hready : (s.cpu c).Ready := ⟨hlevel.noff, hlevel.intr Nat.one_ne_zero⟩
  have hothers : ∀ d, d ≠ c → Function.update s.current c none d = s.current d :=
    fun d hd => Function.update_of_ne hd ..
  have hnew : ∀ {d r}, Function.update s.current c none d = some r → d ≠ c ∧ s.current d = some r := by
    intro d r hr
    by_cases hd : d = c
    · simp [hd] at hr
    · exact ⟨hd, (hothers d hd) ▸ hr⟩
  refine ⟨⟨fun _ => ⟨fun d e r hd he => ?_, fun d r hd => ?_, fun d l hl => ?_, fun d hne => ?_,
      fun d r hd => ?_, fun r hr => ?_, fun d r hd => ?_⟩,
    fun d hd => ⟨hothers d hd, view_congr rfl (hothers d hd) rfl rfl (fun _ => Iff.rfl)
      fun _ _ => rfl⟩, fun _ _ => rfl,
    .leave p hcurrent (Function.update_self ..) hready rfl rfl⟩, .inl ⟨fun d hd => ?_, ?_, fun _ => ?_⟩⟩
  · exact hinv.inj d e r (hnew hd).2 (hnew he).2
  · exact hinv.awake d r (hnew hd).2
  · by_cases hd : d = c
    · subst hd
      have hmem := hinv.held d l hl
      rw [hc, hheld] at hmem
      simp only [running, Function.update_self]
      rw [hinv.sched d p hcurrent]
      exact hmem
    · have hmem := hinv.held d l hl
      simpa only [running, hothers d hd] using hmem
  · by_cases hd : d = c
    · rw [hd]
      exact hready.2
    · refine hinv.intr d ?_
      simpa only [running, hothers d hd] using hne
  · exact hinv.sched d r (hnew hd).2
  · by_cases hrp : r = p
    · rw [hrp]
      exact hheld
    · refine hinv.parked r fun d hd => hr d ?_
      have hdc : d ≠ c := by
        rintro rfl
        rw [hcurrent] at hd
        exact hrp (Option.some.inj hd).symm
      exact (hothers d hdc).trans hd
  · exact hinv.ran d r (hnew hd).2
  · exact (hnew hd).1 (hinv.inj d c p (hnew hd).2 hcurrent)
  · exact hinv.ran c p hcurrent
  · rw [← hc]
    exact hbase

/-- The scheduler waits for its processor, or goes on. -/
def Away (c : C) (p : P) (s : State C P L) : Prop :=
  ((∃ q, s.current c = some q) ∧ s.held (.sched c) = [.proc p]) ∨
    On (.sched c) (Level [.proc p] 1 False fun _ _ => True) s

theorem away_stable : (logic C P L table).Stable (.sched c) (Away c p) := by
  refine stable_of fun d s s' hd hinv hg hs => ?_
  rcases hs with ⟨⟨q, hq⟩, hheld⟩ | hs
  · have hheld' : s'.held (.sched c) = [.proc p] := (hg.held _ (Ne.symm hd)).trans hheld
    by_cases hdc : d = c
    · subst hdc
      cases hg.moves with
      | stay hcurrent _ _ => exact .inl ⟨⟨q, hcurrent.trans hq⟩, hheld'⟩
      | leave r _ hcurrent hready _ _ =>
        have hrun : running s' d = .sched d := running_sched.2 ⟨rfl, hcurrent⟩
        refine .inr ⟨d, hrun, ?_, hready.1, fun _ => hready.2, fun _ h => h.elim, trivial⟩
        show s'.held (running s' d) = _
        rw [hrun]
        exact hheld'
      | enter r hidle _ _ _ _ _ _ _ _ _ =>
        rw [hidle] at hq
        cases hq
    · exact .inl ⟨⟨q, ((hg.others c (Ne.symm hdc)).1).trans hq⟩, hheld'⟩
  · exact .inr (hs.guar hd hg)

/-- `swtch(&c->context, &p->context)` -/
theorem swtchTo_rule :
    (logic C P L table).Triple (.sched c)
      (On (.sched c) fun v => Level [.proc p] 1 True (Holds (.sched c) [.proc p]) v ∧
        .runnable = v.state p)
      (.perform (.swtchTo p)) fun _ => Away c p := by
  refine on_act (fun _ _ _ _ => trivial) fun s d i a s' hd hφ hinv hx => ?_
  simp only [exec, Option.some.injEq, Prod.mk.injEq] at hx
  obtain ⟨-, rfl⟩ := hx
  obtain ⟨hlevel, hstate⟩ := hφ
  obtain ⟨rfl, hidle⟩ := running_sched.1 hd
  have hown : s.locked (.proc p) = some d :=
    of_decide_eq_true (hlevel.rest.owns _ (List.mem_singleton_self _))
  have hrunnable : s.state p = .runnable := (hstate.trans (if_pos (.inr hown))).symm
  have hheld : s.held (.sched d) = [.proc p] := hd ▸ hlevel.held
  have hready : (s.cpu d).Ready := ⟨hlevel.noff, hlevel.intr Nat.one_ne_zero⟩
  have hnowhere : ∀ e, s.current e ≠ some p := by
    intro e he
    rcases hinv.awake e p he with hrun | hlocked
    · rw [hrunnable] at hrun
      cases hrun
    · rw [hown] at hlocked
      obtain rfl := Option.some.inj hlocked
      rw [hidle] at he
      cases he
  have hothers : ∀ e, e ≠ d → Function.update s.current d (some p) e = s.current e :=
    fun e he => Function.update_of_ne he ..
  have hold : ∀ {e r}, e ≠ d → s.current e = some r → r ≠ p := by
    rintro e r - he rfl
    exact hnowhere e he
  have hnew : ∀ {e r}, Function.update s.current d (some p) e = some r →
      e = d ∧ r = p ∨ e ≠ d ∧ s.current e = some r ∧ r ≠ p := by
    intro e r he
    by_cases hed : e = d
    · left
      rw [hed, Function.update_self] at he
      exact ⟨hed, (Option.some.inj he).symm⟩
    · right
      rw [hothers e hed] at he
      exact ⟨hed, he, hold hed he⟩
  have hintena : (s.cpu d).intena = s.base (.sched d) := hd ▸ hlevel.intena Nat.one_ne_zero trivial
  have hrunning : ∀ e, e ≠ d → running s e ≠ .proc p :=
    fun e _ heq => hnowhere e (running_proc.1 heq)
  refine ⟨⟨fun _ => ⟨fun e e' r he he' => ?_, fun e r he => ?_, fun e l hl => ?_, fun e hne => ?_,
      fun e r he => ?_, fun r hr => ?_, fun e r he => ?_⟩,
    fun e he => ⟨hothers e he, view_congr rfl (hothers e he) ?_ rfl (fun _ => Iff.rfl)
      fun r hr => Function.update_of_ne ?_ ..⟩, fun _ _ => rfl,
    .enter p hidle hnowhere (Function.update_self ..) hready (Function.update_self ..) hown
      (fun q hq => Function.update_of_ne hq ..) (fun u hu => ?_) (fun hfresh => ?_)
      fun hfresh => ?_⟩, .inl ⟨⟨p, Function.update_self ..⟩, hheld⟩⟩
  · rcases hnew he with ⟨rfl, rfl⟩ | ⟨hed, he, hrp⟩
    · rcases hnew he' with ⟨rfl, -⟩ | ⟨-, -, hne⟩
      · rfl
      · exact absurd rfl hne
    · rcases hnew he' with ⟨-, rfl⟩ | ⟨-, he', -⟩
      · exact absurd rfl hrp
      · exact hinv.inj e e' r he he'
  · rcases hnew he with ⟨-, rfl⟩ | ⟨-, he, hrp⟩
    · exact .inl (Function.update_self ..)
    · simpa [hrp] using hinv.awake e r he
  · have hmem := hinv.held e l hl
    by_cases hed : e = d
    · subst hed
      rw [hd, hheld] at hmem
      simp only [running, Function.update_self]
      rw [hinv.parked p hnowhere]
      exact hmem
    · simpa only [running, hothers e hed] using hmem
  · by_cases hed : e = d
    · rw [hed]
      exact hready.2
    · refine hinv.intr e ?_
      simpa only [running, hothers e hed] using hne
  · rcases hnew he with ⟨rfl, rfl⟩ | ⟨-, he, -⟩
    · exact hheld
    · exact hinv.sched e r he
  · refine hinv.parked r fun e he => hr e ?_
    have hed : e ≠ d := by
      rintro rfl
      rw [hidle] at he
      cases he
    exact (hothers e hed).trans he
  · rcases hnew he with ⟨-, rfl⟩ | ⟨-, he, hrp⟩
    · exact Function.update_self ..
    · have hran := hinv.ran e r he
      simpa [hrp] using hran
  · have hne := hrunning e he
    by_cases hfresh : s.fresh p = true <;> simp [hfresh, hne]
  · rintro rfl
    rcases hr with hr | hr
    · exact hnowhere e hr
    · rw [hown] at hr
      exact he (Option.some.inj hr).symm
  · by_cases hfresh : s.fresh p = true <;> simp [hfresh, hu]
  · simp [hfresh]
  · simp only [hfresh, if_true, Function.update_self]
    rw [hintena, hd]

/-! ## `sched`, `yield` and `sleep` -/

/-- What a thread knows that holds the locks `ls`. -/
abbrev Has (t : Tid C P) (ls : List (Lock P L)) : State C P L → Prop :=
  On t (Level ls ls.length True (Holds t ls))

omit [DecidableEq L] in
theorem Has.of_free {K : Prop} {s : State C P L} (h : On t (Level [] 0 K (Holds t [])) s) :
    Has t [] s := h.mono fun _ hv => hv.free True

/-- A process gives its processor up with its own lock only, and goes on with
it, wherever that is. -/
theorem sched_rule :
    (logic C P L table).Triple (.proc p)
      (On (.proc p) (Level [.proc p] 1 True fun o _ => o (.proc p) = true)) sched
      fun _ => Has (.proc p) [.proc p] := by
  have hproc : (logic C P L table).Triple (.proc p)
      (On (.proc p) (Level [.proc p] 1 True fun o _ => o (.proc p) = true)) (thisproc noTrap)
      fun r s => (.proc p : Tid C P) = .proc r ∧
        On (.proc p) (Level [.proc p] 1 True fun o _ => o (.proc p) = true) s :=
    thisproc_rule quiet_noTrap (by simp)
  refine Triple.bind hproc fun r => Triple.of_pure ?_
  rintro ⟨⟩
  refine Triple.bind (holding_rule _ _) fun holding => ?_
  refine Triple.ite (fun _ => ?_) fun _ => panic_rule fun _ _ => by decide
  refine Triple.bind ((read_rule _ _).pre fun s hs => hs.mono fun _ hv => hv.1) fun noff => ?_
  refine Triple.ite (fun hnoff => panic_rule fun v hv => ?_) fun _ => ?_
  · rw [hv.2, hv.1.noff] at hnoff
    exact absurd rfl hnoff
  refine Triple.bind ((state_rule fun v hv => hv.rest).pre
    fun s hs => hs.mono fun _ hv => hv.1) fun state => ?_
  refine Triple.ite (fun _ => panic_rule fun _ _ => by decide) fun _ => ?_
  refine Triple.bind ((read_rule _ _).pre fun s hs => hs.mono fun _ hv => hv.1) fun intr => ?_
  refine Triple.ite (fun _ => panic_rule fun _ _ => by decide) fun _ => ?_
  refine Triple.bind ((read_rule _ _).pre fun s hs => hs.mono fun _ hv => hv.1) fun intena => ?_
  refine Triple.bind ((swtch_rule (b := intena)).pre fun s hs => hs.mono fun v hv => ⟨hv.1, ?_⟩)
    fun _ => ?_
  · rw [hv.2]
    exact (hv.1.intena Nat.one_ne_zero trivial).symm
  · refine Triple.resume parked_stable (fun s c hs _ hc => hs.resolve_left fun h =>
      h.1 c (running_proc.1 hc)) (setIntena_rule intena fun v hv => ?_)
    obtain ⟨hlevel, hbase⟩ := hv
    exact ⟨hlevel.held, hlevel.noff, hlevel.intr, fun _ _ => (hbase rfl).symm, hlevel.rest⟩

/-- The state of a process changes on its way into `sched`. -/
theorem setOwn_rule (st : ProcState) :
    (logic C P L table).Triple (.proc p) (Has (.proc p) [.proc p]) (.perform (.setState p st))
      fun _ => On (.proc p) (Level [.proc p] 1 True fun o _ => o (.proc p) = true) := by
  have howns : ∀ v : View P L, Level [.proc p] 1 True (Holds (.proc p : Tid C P) [.proc p]) v →
      v.owns (.proc p) = true := fun v hv => hv.rest.owns _ (List.mem_singleton_self _)
  refine setState_rule st howns (fun _ _ => .inl rfl) fun v hv => ?_
  exact ⟨hv.held, hv.noff, hv.intr, hv.intena, howns v hv⟩

theorem releaseOwn_rule :
    (logic C P L table).Triple (.proc p) (Has (.proc p) [.proc p]) (release (.proc p))
      fun _ => Has (.proc p) [] :=
  (release_rule (.proc p) fun _ _ => trivial).post fun _ s hs => by
    rw [List.erase_cons_head] at hs
    exact hs

theorem yield_rule {trap : Code P L Unit} (htrap : Quiet table (.proc p : Tid C P) trap) :
    (logic C P L table).Triple (.proc p) (Has (.proc p) []) (yield trap) fun _ =>
      Has (.proc p) [] := by
  refine Triple.bind (thisproc_rule htrap fun _ => rfl) fun r => Triple.of_pure ?_
  rintro ⟨⟩
  refine Triple.bind (acquire_rule htrap (.proc p)) fun _ => ?_
  refine Triple.bind (setOwn_rule .runnable) fun _ => ?_
  exact Triple.bind sched_rule fun _ => releaseOwn_rule

theorem sleep_rule {trap : Code P L Unit} (htrap : Quiet table (.proc p : Tid C P) trap)
    (hl : l ≠ .proc p) :
    (logic C P L table).Triple (.proc p) (Has (.proc p) [l]) (sleep trap p l) fun _ =>
      Has (.proc p) [l] := by
  refine Triple.bind (acquire_rule quiet_noTrap (.proc p)) fun _ => ?_
  refine Triple.bind ((release_rule l fun _ _ => trivial).post fun _ s hs => ?_)
    (R := fun _ => Has (.proc p) [.proc p]) fun _ => ?_
  · have herase : [Lock.proc p, l].erase l = [.proc p] := by
      rw [List.erase_cons_tail (by simpa using Ne.symm hl), List.erase_cons_head]
    rw [herase] at hs
    exact hs
  refine Triple.bind (setOwn_rule .sleeping) fun _ => ?_
  refine Triple.bind sched_rule fun _ => ?_
  exact Triple.bind releaseOwn_rule fun _ => acquire_rule htrap l

theorem wake_rule {trap : Code P L Unit} (htrap : Quiet table t trap) :
    (logic C P L table).Triple t (Has t ls) (wake trap q) fun _ => Has t ls := by
  have hlast : (logic C P L table).Triple t (Has t (.proc q :: ls)) (release (.proc q))
      fun _ => Has t ls :=
    (release_rule (.proc q) fun _ _ => trivial).post fun _ s hs => by
      rw [List.erase_cons_head] at hs
      exact hs
  have howns : ∀ v : View P L, Level (.proc q :: ls) (Lock.proc q :: ls).length True
      (Holds t (.proc q :: ls)) v → v.owns (.proc q) = true :=
    fun v hv => hv.rest.owns _ List.mem_cons_self
  refine Triple.bind (acquire_rule htrap (.proc q)) fun _ => ?_
  refine Triple.bind (state_rule howns) fun state => ?_
  refine Triple.bind (R := fun _ => Has t (.proc q :: ls)) (when_rule (fun hsleep => ?_)
    fun _ s hs => hs.mono fun _ hv => hv.1) fun _ => hlast
  refine setState_rule .runnable (fun v hv => howns v hv.1) (fun v hv => ?_) fun v hv => ?_
  · right
    rw [← hv.2, hsleep]
    decide
  · obtain ⟨hlevel, hstate⟩ := hv
    refine ⟨hlevel.held, hlevel.noff, hlevel.intr, hlevel.intena, fun p hp => ?_,
      hlevel.rest.nodup, hlevel.rest.owns⟩
    have hself := hlevel.rest.self p hp
    have hne : p ≠ q := by
      rintro rfl
      rw [← hstate, hsleep] at hself
      cases hself
    exact (Function.update_of_ne hne ..).trans hself

/-! ## What threads do -/

/-- A thread between two pieces of work. -/
def Between (t : Tid C P) (s : State C P L) : Prop := ∃ ls, Has t ls s

theorem between_stable : (logic C P L table).Stable t (Between (L := L) t) := by
  rintro s s' he ⟨ls, hs⟩
  exact ⟨ls, on_stable _ s s' he hs⟩

theorem work_rule {trap : Code P L Unit} (htrap : Quiet table t trap) (w : Work P L) :
    (logic C P L table).Triple t (Between t) (work trap w) fun _ => Between t := by
  rintro s ⟨ls, hs⟩
  revert s
  show (logic C P L table).Triple t (Has t ls) (work trap w) fun _ => Between t
  have hstay : ∀ {φ : View P L → Prop} s, On t (fun v => Level ls ls.length True (Holds t ls) v ∧
      φ v) s → Between t s := fun s hs => ⟨ls, hs.mono fun _ hv => hv.1⟩
  cases w with
  | acquire l => exact (acquire_rule htrap l).post fun _ s hs => ⟨l :: ls, hs⟩
  | release l =>
    refine Triple.bind (held_rule _) fun held => ?_
    refine when_rule (fun _ => ?_) fun _ => hstay
    exact ((release_rule l fun _ _ => trivial).pre
      fun s hs => hs.mono fun _ hv => hv.1).post fun _ s hs => ⟨ls.erase l, hs⟩
  | wake q => exact (wake_rule htrap).post fun _ s hs => ⟨ls, hs⟩
  | yield =>
    refine Triple.bind (held_rule _) fun held => ?_
    refine Triple.ite (fun hheld => ?_) fun _ => hstay
    refine (?_ : (logic C P L table).Triple t (Has t []) _ fun _ => Between t).pre
      fun s hs => hs.mono fun v hv => ?_
    · refine Triple.bind (myproc_rule htrap fun _ => rfl) fun r => Triple.of_pure fun hr => ?_
      cases r with
      | none => exact fun s hs => ⟨[], hs⟩
      | some p =>
        obtain rfl := (hr p).1 rfl
        exact (yield_rule htrap).post fun _ s hs => ⟨[], hs⟩
    · obtain ⟨hlevel, hv⟩ := hv
      have hnil : ls = [] := by rw [← hlevel.held, ← hv, hheld]
      subst hnil
      exact hlevel
  | sleep l =>
    refine Triple.bind (held_rule _) fun held => ?_
    refine Triple.ite (fun hheld => ?_) fun _ => hstay
    refine (?_ : (logic C P L table).Triple t (Has t [l]) _ fun _ => Between t).pre
      fun s hs => hs.mono fun v hv => ?_
    · refine Triple.bind (myproc_rule quiet_noTrap (by simp)) fun r => Triple.of_pure fun hr => ?_
      cases r with
      | none => exact fun s hs => ⟨[l], hs⟩
      | some p =>
        obtain rfl := (hr p).1 rfl
        refine when_rule (fun hl => ?_) fun _ s hs => ⟨[l], hs⟩
        exact (sleep_rule htrap hl).post fun _ s hs => ⟨[l], hs⟩
    obtain ⟨hlevel, hv⟩ := hv
    have hone : ls = [l] := by rw [← hlevel.held, ← hv, hheld]
    subst hone
    exact hlevel

/-- The handler leaves the thread as it finds it, though maybe on another
processor. -/
theorem kerneltrap_rule :
    (logic C P L table).Triple t (Has t []) kerneltrap fun _ => Has t [] := by
  refine Triple.pre (Triple.loop (fun _ => Between t) (fun _ => between_stable) fun _ => ?_)
    fun s hs => ⟨[], hs⟩
  refine Triple.bind (R := fun _ => Between t) ?_ fun call => ?_
  · rintro s ⟨ls, hs⟩
    exact wp_mono (fun _ s' hs' => ⟨ls, hs'⟩) (next_rule _ s hs)
  have hlook : (logic C P L table).Triple t (Between t)
      (do
        let held ← .perform .held
        if held = [] then
          return .inr ()
        else
          return .inl () : Code P L (Unit ⊕ Unit))
      (Sum.elim (fun _ => Between t) fun _ => Has t []) := by
    rintro s ⟨ls, hs⟩
    revert s
    show (logic C P L table).Triple t (Has t ls) _ _
    refine Triple.bind (held_rule _) fun held => ?_
    refine Triple.ite (fun hheld => ?_) fun _ s hs => ⟨ls, hs.mono fun _ hv => hv.1⟩
    refine fun s hs => hs.mono fun v hv => ?_
    · obtain ⟨hlevel, hv⟩ := hv
      have hnil : ls = [] := by rw [← hlevel.held, ← hv, hheld]
      subst hnil
      exact hlevel
  rcases call with _ | (w | _ | _)
  · exact hlook
  · exact Triple.bind (work_rule quiet_noTrap w) fun _ => fun _ hs => hs
  · exact hlook
  · exact hlook

/-- Interrupts come between the steps of a thread and change nothing for it. -/
theorem quiet_trap : Quiet table t (trap (P := P) (L := L)) := by
  intro ls K R i hR
  refine Triple.loop (fun _ => On t fun v => Level ls ls.length K R v ∧ v.cpu.intr = i)
    (fun _ => on_stable _) fun _ => ?_
  refine Triple.bind (irq_rule _) fun taken => ?_
  refine Triple.ite (fun htaken => ?_) fun htaken => ?_
  · have hhandler : (logic C P L table).Triple t (fun s => (ls = [] ∧ i = true) ∧ Has t [] s)
        (do
          kerneltrap
          .perform .intrOn
          return .inl () : Code P L (Unit ⊕ Unit))
        (Sum.elim (fun _ => On t fun v => Level ls ls.length K R v ∧ v.cpu.intr = i)
          fun _ => On t fun v => Level ls ls.length K R v ∧ v.cpu.intr = i) := by
      refine Triple.of_pure fun hnil => ?_
      obtain ⟨rfl, rfl⟩ := hnil
      refine Triple.bind kerneltrap_rule fun _ => ?_
      refine Triple.bind (R := fun _ => On t fun v => Level [] 0 K R v ∧ v.cpu.intr = true)
        (intrOn_rule (fun v hv => hv.held) fun v hv => ?_) fun _ => fun _ hs => hs
      rw [hR rfl]
      exact ⟨⟨hv.held, hv.noff, fun hne => absurd rfl hne, fun hne => absurd rfl hne, hv.rest⟩, rfl⟩
    refine hhandler.pre fun s hs => ?_
    obtain ⟨c, hc, v₀, ⟨hlevel, hi⟩, hcase⟩ := hs
    rcases hcase with ⟨-, hon, hv⟩ | ⟨hno, -⟩
    · have hnil : ls = [] := by
        by_contra hne
        have hoff := hlevel.intr fun hzero => hne (List.length_eq_zero_iff.1 hzero)
        rw [hon] at hoff
        cases hoff
      refine ⟨⟨hnil, hi.symm.trans hon⟩, c, hc, ?_⟩
      rw [hv]
      rw [hR hnil] at hlevel
      subst hnil
      exact ⟨hlevel.held, hlevel.noff, fun _ => rfl, fun hne => absurd rfl hne, hlevel.rest⟩
    · rw [htaken] at hno
      cases hno
  · rintro s ⟨c, hc, v₀, hφ, hcase⟩
    rcases hcase with ⟨hyes, -⟩ | ⟨-, hv⟩
    · exact absurd hyes htaken
    · exact ⟨c, hc, hv ▸ hφ⟩

theorem call_rule : (logic C P L table).Triple t (Between t) call fun _ => Between t := by
  rintro s ⟨ls, hs⟩
  revert s
  show (logic C P L table).Triple t (Has t ls) call fun _ => Between t
  have htrap : (logic C P L table).Triple t (Has t ls) trap fun _ => Has t ls := by
    rintro s ⟨c, hc, hlevel⟩
    refine wp_mono (fun _ s' hs' => hs'.mono fun _ hv => hv.1)
      (quiet_trap ls True (Holds t ls) (s.cpu c).intr (fun hnil => by rw [hnil]) s
        ⟨c, hc, hlevel, rfl⟩)
  -- interrupts are turned on and off only without locks
  have hswitch : ∀ (o : Op P L Unit), (∀ φ : View P L → Prop, (∀ v, φ v → v.held = []) →
      (∀ v, φ v → Level [] 0 True (Holds t []) v) →
      (logic C P L table).Triple t (On t φ) (.perform o) fun _ => Has t []) →
      (logic C P L table).Triple t (Has t ls) (do
        let held ← .perform .held
        when (held = []) (.perform o) : Code P L Unit) fun _ => Between t := by
    intro o ho
    refine Triple.bind (held_rule _) fun held => ?_
    refine when_rule (fun hheld => ?_) fun _ s hs => ⟨ls, hs.mono fun _ hv => hv.1⟩
    have hnil : ∀ v : View P L, Level ls ls.length True (Holds t ls) v ∧ held = v.held →
        ls = [] := fun v hv => by rw [← hv.1.held, ← hv.2, hheld]
    refine (ho _ (fun v hv => hv.2.symm.trans hheld) fun v hv => ?_).post fun _ s hs => ⟨[], hs⟩
    obtain rfl := hnil v hv
    exact hv.1
  refine Triple.bind htrap fun _ => ?_
  refine Triple.bind (next_rule _) fun w => ?_
  rcases w with _ | (w | _ | _)
  · exact fun s hs => ⟨ls, hs⟩
  · exact (work_rule quiet_trap w).pre fun s hs => ⟨ls, hs⟩
  · refine hswitch .intrOn fun φ hnil hlevel => intrOn_rule hnil fun v hv => ?_
    have hlevel := hlevel v hv
    exact ⟨hlevel.held, hlevel.noff, fun hne => absurd rfl hne, fun hne => absurd rfl hne,
      hlevel.rest⟩
  · refine hswitch .intrOff fun φ hnil hlevel => intrOff_rule fun v hv => ?_
    have hlevel := hlevel v hv
    exact ⟨hlevel.held, hlevel.noff, fun _ => rfl, fun hne => absurd rfl hne, hlevel.rest⟩

theorem process_rule :
    (logic C P L table).Triple (.proc p) (Parked p true b) process fun _ _ => False := by
  have hback : ∀ (s : State C P L) c, Parked p true b s → Inv s → running s c = .proc p →
      Has (.proc p) [.proc p] s := by
    intro s c hs _ hc
    exact (hs.resolve_left fun h => h.1 c (running_proc.1 hc)).mono fun v hv =>
      ⟨hv.1.held, hv.1.noff, hv.1.intr, fun hne _ => hv.1.intena hne rfl, hv.1.rest⟩
  have hmain : (logic C P L table).Triple (.proc p) (Has (.proc p) [.proc p]) process
      fun _ _ => False := by
    refine Triple.bind (thisproc_rule quiet_noTrap (by simp)) fun r => Triple.of_pure ?_
    rintro ⟨⟩
    refine Triple.bind releaseOwn_rule fun _ => ?_
    exact (Triple.forever between_stable call_rule).pre fun s hs => ⟨[], hs⟩
  exact Triple.resume_op parked_stable hback hmain

theorem schedule_rule :
    (logic C P L table).Triple (.sched c) (Has (.sched c) []) (schedule p)
      fun _ => Has (.sched c) [] := by
  refine Triple.bind (acquire_rule quiet_trap (.proc p)) fun _ => ?_
  refine Triple.bind (state_rule fun v hv => hv.rest.owns _ List.mem_cons_self) fun state => ?_
  refine Triple.bind (R := fun _ => Away c p) (when_rule (fun hrunnable => ?_)
    fun _ s hs => .inr (hs.mono fun v hv => ?_)) fun _ => ?_
  · subst hrunnable
    exact swtchTo_rule
  · exact ⟨hv.1.held, hv.1.noff, hv.1.intr, fun _ h => h.elim, trivial⟩
  · refine (Triple.bind (Triple.resume away_stable (fun s d hs _ hd => hs.resolve_left fun h => ?_)
      (holding_rule _ _)) (release_found (K := False) (.proc p) (fun o st _ => ?_)
        fun q hq => ?_)).post fun _ s hs => ?_
    · obtain ⟨rfl, hidle⟩ := running_sched.1 hd
      obtain ⟨q, hq⟩ := h.1
      rw [hidle] at hq
      cases hq
    · refine ⟨fun q hq => ?_, ?_, fun l hl => ?_⟩
      · cases hq
      · simp
      · simp at hl
    · cases hq
    · rw [List.erase_cons_head] at hs
      exact Has.of_free hs

theorem scheduler_rule :
    (logic C P L table).Triple (.sched c) (Has (.sched c) []) (scheduler table)
      fun _ _ => False := by
  refine Triple.forever (on_stable _) ?_
  refine Triple.bind (R := fun _ => Has (.sched c) []) ?_ fun _ =>
    Triple.foldM (fun _ _ => Has (.sched c) []) fun p _ _ => schedule_rule
  refine intrOn_rule (fun v hv => hv.held) fun v hv => ?_
  exact ⟨hv.held, hv.noff, fun hne => absurd rfl hne, fun hne => absurd rfl hne, hv.rest⟩

/-! ## Every run -/

omit [DecidableEq C] [DecidableEq P] [DecidableEq L] in
theorem inv_new (intena intr : C → Bool) (state : P → ProcState) :
    Inv (State.new (L := L) intena intr state) where
  inj c d p h := by cases h
  awake c p h := by cases h
  held c l h := by cases h
  intr c h := absurd rfl h
  sched c p h := by cases h
  parked _ _ := rfl
  ran c p h := by cases h

theorem main_ok (intena intr : C → Bool) (state : P → ProcState) (table : List P) (u : Tid C P) :
    (logic C P L table).Ok u (main table u) (State.new (L := L) intena intr state) := by
  cases u with
  | proc p =>
    have hparked : Parked p true false (State.new (L := L) intena intr state) :=
      .inl ⟨fun _ h => (by cases h), rfl, fun h => (by cases h)⟩
    exact wp_mono (fun _ _ h => h.elim) (process_rule _ hparked)
  | sched c =>
    refine wp_mono (fun _ _ h => h.elim) (scheduler_rule _ ⟨c, rfl, rfl, rfl, ?_, ?_, ?_, ?_, ?_⟩)
    · exact fun h => absurd rfl h
    · exact fun h => absurd rfl h
    · exact fun p hp => (by cases hp)
    · exact List.nodup_nil
    · exact fun l hl => (by cases hl)

/-- Interrupts are off on a processor whose process holds a spinlock, and when
a process releases its last one they are as they were when it acquired the
first. -/
theorem interrupts_follow (intena intr : C → Bool) (state : P → ProcState) (table : List P)
    (g : Config (Op P L) (State C P L) (Tid C P))
    (hg : (machine C P L table).Reach Machine.always (start intena intr state table) g) :
    (∀ c p l, g.mem.current c = some p → g.mem.locked l = some c → (g.mem.cpu c).intr = false) ∧
      (∀ c p, (machine C P L table).Next g c .released → g.mem.current c = some p →
        g.mem.held (.proc p) = [] → (g.mem.cpu c).intr = g.mem.base (.proc p)) ∧
      (∀ c β msg, (machine C P L table).Next g c (.panic msg : Op P L β) →
        msg ≠ "pop_off" ∧ msg ≠ "sched locks") := by
  obtain ⟨hinv, hok⟩ := Logic.sound (L := logic C P L table) (fun _ => trivial)
    (fun _ _ _ _ hu => by cases hu) (inv_new intena intr state) (main_ok intena intr state table) hg
  refine ⟨fun c p l hp hl => ?_, fun c p hn hp hnil => ?_, fun c β msg hn => ?_⟩
  · exact hinv.intr c (List.ne_nil_of_mem (hinv.held c l hl))
  · exact (Logic.must_of_ok (L := logic C P L table) hinv hok hn trivial).1 p hp hnil
  · exact (Logic.must_of_ok (L := logic C P L table) hinv hok hn trivial).1

/-- One processor runs one process, which releases the lock that it comes with. -/
def firstRelease : List (Unit × Input Unit Unit) := List.replicate 31 ((), .none)

theorem interrupts_follow_firstRelease :
    ∃ g : Config (Op Unit Unit) (State Unit Unit Unit) (Tid Unit Unit),
      (machine Unit Unit Unit [()]).Reach Machine.always
        (start (fun _ => false) (fun _ => false) (fun _ => .runnable) [()]) g ∧
      g.mem.held (.proc ()) = [] ∧ (g.mem.cpu ()).intr = g.mem.base (.proc ()) := by
  have hview : ((machine Unit Unit Unit [()]).run Machine.always firstRelease
      (start (fun _ => false) (fun _ => false) (fun _ => .runnable) [()])).map
        (fun g => ((machine Unit Unit Unit [()]).next? g (), g.mem.current (),
          g.mem.held (.proc ()))) = some (some ⟨Unit, .released⟩, some (), []) := rfl
  obtain ⟨g, hrun, hg⟩ := Option.map_eq_some_iff.1 hview
  simp only [Prod.mk.injEq] at hg
  obtain ⟨hnext, hcurrent, hheld⟩ := hg
  have hreach := Machine.reach_of_run _ _ .start hrun
  obtain ⟨-, hbase, -⟩ := interrupts_follow _ _ _ [()] g hreach
  exact ⟨g, hreach, hheld, hbase () () ((Machine.next?_eq_some _).1 hnext) hcurrent hheld⟩

end Xv6.Spinlock
