import Xv6.Spinlock.Rules

/-!
# Acquiring and releasing

`noff` counts the locks that the thread holds, and from the first of them on
`intena` remembers for it how interrupts were (`Level`).
-/

namespace Xv6.Spinlock

open Conc Conc.Logic

variable {C P L : Type} {t : Tid C P} {p q : P} {l : Lock P L} {ls : List (Lock P L)} {n : Nat}
  {K : Prop} {R R' : (Lock P L → Bool) → (P → ProcState) → Prop} {table : List P}

/-- What a thread knows that holds the locks `ls`, after `n` calls of
`push_off` that are outstanding.  Under `K`, `intena` is about this thread. -/
structure Level (ls : List (Lock P L)) (n : Nat) (K : Prop)
    (R : (Lock P L → Bool) → (P → ProcState) → Prop) (v : View P L) : Prop where
  held : v.held = ls
  noff : v.cpu.noff = n
  intr : n ≠ 0 → v.cpu.intr = false
  intena : n ≠ 0 → K → v.cpu.intena = v.base
  rest : R v.owns v.state

/-- A process that runs is `RUNNING`. -/
def Self (t : Tid C P) (st : P → ProcState) : Prop := ∀ p, t = .proc p → st p = .running

/-- ... and these locks are held. -/
structure Holds (t : Tid C P) (ls : List (Lock P L)) (owns : Lock P L → Bool)
    (st : P → ProcState) : Prop where
  self : Self t st
  nodup : ls.Nodup
  owns : ∀ l ∈ ls, owns l = true

theorem Level.mono {v : View P L} (h : Level ls n K R v) (hR : ∀ o st, R o st → R' o st) :
    Level ls n K R' v := ⟨h.held, h.noff, h.intr, h.intena, hR _ _ h.rest⟩

/-- Without a lock nothing is said about `intena`. -/
theorem Level.free {v : View P L} (h : Level [] 0 K R v) (K' : Prop) : Level [] 0 K' R v :=
  ⟨h.held, h.noff, h.intr, fun hne => absurd rfl hne, h.rest⟩

variable [DecidableEq C] [DecidableEq P]

theorem On.mono {φ ψ : View P L → Prop} {s : State C P L} (h : On t φ s) (hφ : ∀ v, φ v → ψ v) :
    On t ψ s := by
  obtain ⟨c, hc, hs⟩ := h
  exact ⟨c, hc, hφ _ hs⟩

variable [DecidableEq L]

/-- Without `l`, all locks are held that there are. -/
structure Leaves (t : Tid C P) (ls : List (Lock P L)) (l : Lock P L) (owns : Lock P L → Bool)
    (st : P → ProcState) : Prop where
  self : Self t st
  nodup : (ls.erase l).Nodup
  owns : ∀ l' ∈ ls.erase l, l' ≠ l ∧ owns l' = true

omit [DecidableEq C] in
theorem Holds.leaves {owns : Lock P L → Bool} {st : P → ProcState} (h : Holds t ls owns st)
    (l : Lock P L) : Leaves t ls l owns st where
  self := h.self
  nodup := h.nodup.erase l
  owns l' hl' := by
    rw [h.nodup.mem_erase_iff] at hl'
    exact ⟨hl'.1, h.owns l' hl'.2⟩

theorem when_rule {φ : Prop} [Decidable φ] {A : State C P L → Prop} {m : Code P L Unit}
    {Q : State C P L → Prop} (hm : φ → (logic C P L table).Triple t A m fun _ => Q)
    (hskip : ¬ φ → ∀ s, A s → Q s) :
    (logic C P L table).Triple t A (when φ m) fun _ => Q := by
  unfold when
  by_cases hφ : φ
  · rw [if_pos hφ]
    exact hm hφ
  · rw [if_neg hφ]
    exact hskip hφ

/-- What code does that stands where interrupts may be taken: for the thread
it is as if nothing had happened. -/
def Quiet (table : List P) (t : Tid C P) (trap : Code P L Unit) : Prop :=
  ∀ (ls : List (Lock P L)) (K : Prop) (R : (Lock P L → Bool) → (P → ProcState) → Prop) (i : Bool),
    (ls = [] → R = Holds t []) →
      (logic C P L table).Triple t (On t fun v => Level ls ls.length K R v ∧ v.cpu.intr = i) trap
        fun _ => On t fun v => Level ls ls.length K R v ∧ v.cpu.intr = i

theorem quiet_noTrap : Quiet (C := C) (L := L) table t noTrap := fun _ _ _ _ _ _ hs => hs

/-! ## `push_off` and `pop_off` -/

/-- Interrupts are off, and nothing is counted yet. -/
structure Mid (ls : List (Lock P L)) (K : Prop) (R : (Lock P L → Bool) → (P → ProcState) → Prop)
    (b : Bool) (v : View P L) : Prop where
  held : v.held = ls
  noff : v.cpu.noff = ls.length
  intr : v.cpu.intr = false
  base : ls = [] → v.base = b
  intena : ls ≠ [] → K → v.cpu.intena = v.base
  rest : R v.owns v.state

/-- `push_off` after it has seen whether interrupts are on. -/
theorem pushOff_rest {trap : Code P L Unit} (htrap : Quiet table t trap)
    (hR : ls = [] → R = Holds t []) (old : Bool) :
    (logic C P L table).Triple t (On t fun v => Level ls ls.length K R v ∧ v.cpu.intr = old)
      (do
        trap
        .perform .intrOff
        let noff ← read Cpu.noff
        when (noff = 0) (.perform (.setIntena old))
        .perform (.addNoff 1) : Code P L Unit)
      fun _ => On t (Level ls (ls.length + 1) K R) := by
  refine Triple.bind (htrap ls K R old hR) fun _ => ?_
  refine Triple.bind (intrOff_rule (ψ := Mid ls K R old) fun v hv => ?_) fun _ => ?_
  · obtain ⟨hlevel, hold⟩ := hv
    refine ⟨hlevel.held, hlevel.noff, rfl, fun hnil => ?_, fun hne hK => ?_, hlevel.rest⟩
    · show (if v.held = [] then v.cpu.intr else v.base) = old
      rw [if_pos (hlevel.held.trans hnil), hold]
    · show v.cpu.intena = if v.held = [] then v.cpu.intr else v.base
      rw [if_neg (hlevel.held ▸ hne)]
      exact hlevel.intena (fun hzero => hne (List.length_eq_zero_iff.1 hzero)) hK
  refine Triple.bind (read_rule _ _) fun noff => ?_
  refine Triple.bind (R := fun _ => On t fun v => Mid ls K R old v ∧
    (ls = [] → v.cpu.intena = v.base)) (when_rule (fun hzero => ?_) fun hzero s hs => ?_)
    fun _ => ?_
  · refine setIntena_rule old fun v hv => ?_
    obtain ⟨hmid, hnoff⟩ := hv
    have hnil : ls = [] := by
      rw [hzero, hmid.noff] at hnoff
      exact List.length_eq_zero_iff.1 (by omega)
    exact ⟨⟨hmid.held, hmid.noff, hmid.intr, hmid.base, fun hne => absurd hnil hne, hmid.rest⟩,
      fun _ => (hmid.base hnil).symm⟩
  · refine On.mono hs fun v hv => ⟨hv.1, fun hnil => absurd ?_ hzero⟩
    rw [hv.2, hv.1.noff, hnil]
    rfl
  · refine addNoff_rule 1 fun v hv => ?_
    obtain ⟨hmid, hnil⟩ := hv
    refine ⟨hmid.held, ?_, fun _ => hmid.intr, fun _ hK => ?_, hmid.rest⟩
    · show v.cpu.noff + 1 = _
      rw [hmid.noff]
      push_cast
      rfl
    · by_cases hls : ls = []
      · exact hnil hls
      · exact hmid.intena hls hK

theorem pushOff_rule {trap : Code P L Unit} (htrap : Quiet table t trap)
    (hR : ls = [] → R = Holds t []) :
    (logic C P L table).Triple t (On t (Level ls ls.length K R)) (pushOff trap) fun _ =>
      On t (Level ls (ls.length + 1) K R) := by
  rintro s ⟨c, hc, hlevel⟩
  have hmain : (logic C P L table).Triple t
      (On t fun v => Level ls ls.length K R v ∧ v.cpu.intr = (s.cpu c).intr) (pushOff trap)
      fun _ => On t (Level ls (ls.length + 1) K R) := by
    refine Triple.bind (htrap ls K R _ hR) fun _ => ?_
    refine Triple.bind (read_rule _ _) fun old => ?_
    exact (pushOff_rest htrap hR old).pre fun s hs => hs.mono fun v hv => ⟨hv.1.1, hv.2.symm⟩
  exact hmain s ⟨c, hc, hlevel, rfl⟩

/-- The last `pop_off` leaves interrupts as they were. -/
theorem popOff_rule :
    (logic C P L table).Triple t (On t (Level ls (ls.length + 1) K R)) popOff fun _ =>
      On t fun v => Level ls ls.length K R v ∧ (ls = [] → K → v.cpu.intr = v.base) := by
  refine Triple.bind (read_rule _ _) fun intr => ?_
  refine Triple.ite (fun hintr => ?_) fun _ => ?_
  · refine panic_rule fun v hv => ?_
    have hoff := hv.1.intr (Nat.succ_ne_zero _)
    rw [← hv.2, hintr] at hoff
    cases hoff
  refine Triple.bind ((read_rule _ _).pre fun s hs => hs.mono fun _ hv => hv.1) fun noff => ?_
  refine Triple.ite (fun hnoff => ?_) fun _ => ?_
  · refine panic_rule fun v hv => ?_
    have hcount := hv.1.noff
    rw [hv.2, hcount] at hnoff
    omega
  have hoff : ∀ {v : View P L}, Level ls (ls.length + 1) K R v → v.cpu.intr = false :=
    fun hv => hv.intr (Nat.succ_ne_zero _)
  refine Triple.bind (addNoff_rule (ψ := fun v => Level ls ls.length K R v ∧ v.cpu.intr = false ∧
    (K → v.cpu.intena = v.base)) (-1) fun v hv => ?_) fun _ => ?_
  · obtain ⟨hlevel, -⟩ := hv
    have hintr := hoff hlevel
    refine ⟨⟨hlevel.held, ?_, fun _ => hintr,
      fun _ hK => hlevel.intena (Nat.succ_ne_zero _) hK, hlevel.rest⟩, hintr,
      fun hK => hlevel.intena (Nat.succ_ne_zero _) hK⟩
    show v.cpu.noff + -1 = _
    rw [hlevel.noff]
    push_cast
    omega
  refine Triple.bind (read_rule _ _) fun on => ?_
  refine when_rule (fun hon => ?_) fun hon s hs => ?_
  · have hlast : ∀ v : View P L, (Level ls ls.length K R v ∧ v.cpu.intr = false ∧
        (K → v.cpu.intena = v.base)) ∧ on = (decide (v.cpu.noff = 0) && v.cpu.intena) →
        ls = [] ∧ v.cpu.intena = true := by
      intro v hv
      have htest := hv.2
      rw [hon] at htest
      simp only [Bool.true_eq, Bool.and_eq_true, decide_eq_true_eq] at htest
      refine ⟨List.length_eq_zero_iff.1 ?_, htest.2⟩
      have hcount := hv.1.1.noff
      omega
    refine intrOn_rule (fun v hv => hv.1.1.held.trans (hlast v hv).1) fun v hv => ?_
    obtain ⟨hnil, hintena⟩ := hlast v hv
    obtain ⟨⟨hlevel, -, hbase⟩, -⟩ := hv
    refine ⟨⟨hlevel.held, hlevel.noff, fun hne => ?_, hlevel.intena, hlevel.rest⟩, fun _ hK => ?_⟩
    · simp [hnil] at hne
    · exact hintena.symm.trans (hbase hK)
  · refine hs.mono fun v hv => ⟨hv.1.1, fun hnil hK => ?_⟩
    obtain ⟨⟨hlevel, hintr, hbase⟩, htest⟩ := hv
    have hcount := hlevel.noff
    rw [hnil] at hcount
    rw [hintr, ← hbase hK]
    cases hintena : v.cpu.intena with
    | false => rfl
    | true =>
      rw [hintena, hcount] at htest
      exact absurd htest hon

theorem myproc_rule {trap : Code P L Unit} (htrap : Quiet table t trap)
    (hR : ls = [] → R = Holds t []) :
    (logic C P L table).Triple t (On t (Level ls ls.length K R)) (myproc trap) fun r s =>
      ProcOf t r ∧ On t (Level ls ls.length K R) s := by
  refine Triple.bind (pushOff_rule htrap hR) fun _ => ?_
  refine Triple.bind (proc_rule _) fun r => Triple.of_pure fun hr => ?_
  refine Triple.bind popOff_rule fun _ => fun s hs => ?_
  exact ⟨hr, hs.mono fun _ hv => hv.1⟩

theorem thisproc_rule {trap : Code P L Unit} (htrap : Quiet table t trap)
    (hR : ls = [] → R = Holds t []) :
    (logic C P L table).Triple t (On t (Level ls ls.length K R)) (thisproc trap) fun p s =>
      t = .proc p ∧ On t (Level ls ls.length K R) s := by
  refine Triple.bind (myproc_rule htrap hR) fun r => Triple.of_pure fun hr => ?_
  cases r with
  | none => exact panic_rule fun _ _ => by decide
  | some p => exact fun s hs => ⟨(hr p).1 rfl, hs⟩

/-! ## Locks -/

/-- The lock was free, and is taken. -/
theorem lock_rule (l : Lock P L) :
    (logic C P L table).Triple t
      (On t fun v => Level ls (ls.length + 1) K (Holds t ls) v ∧ v.owns l = false)
      (.perform (.lock l)) fun _ =>
        On t (Level (l :: ls) (l :: ls).length K (Holds t (l :: ls))) := by
  refine on_act (fun _ _ _ _ => trivial) fun s c i b s' hc hφ hinv hx => ?_
  simp only [exec, Option.ite_none_right_eq_some, Option.some.injEq, Prod.mk.injEq] at hx
  obtain ⟨hfree, -, rfl⟩ := hx
  obtain ⟨hlevel, hnot⟩ := hφ
  have hoff : (s.cpu c).intr = false := hlevel.intr (Nat.succ_ne_zero _)
  have hlocked : ∀ l' d, d ≠ c →
      (Function.update s.locked l (some c) l' = some d ↔ s.locked l' = some d) := by
    intro l' d hd
    by_cases hl : l' = l
    · simp [hl, hfree, Ne.symm hd]
    · simp [hl]
  refine ⟨stay_guar rfl rfl (fun d hd => ?_) (fun u hu => ?_) (fun _ _ => rfl) (fun p hp => ?_)
    (fun l' hl' => ?_) fun _ => hoff, c, hc, ?_⟩
  · have hne : running s d ≠ running s c := fun heq => hd (hinv.running_inj heq)
    exact view_congr rfl rfl rfl (by simp [hne]) (fun l' => hlocked l' d hd) fun _ _ => rfl
  · simp [hu]
  · rcases hinv.awake c p hp with hrun | hown
    · exact .inl hrun
    · right
      by_cases hl : Lock.proc p = l
      · simp [hl]
      · simpa [hl] using hown
  · by_cases hl : l' = l
    · simp [hl]
    · have hl' : Function.update s.locked l (some c) l' = some c := hl'
      rw [Function.update_of_ne hl] at hl'
      simpa [hl] using hinv.held c l' hl'
  · refine ⟨?_, hlevel.noff, fun _ => hoff,
      fun _ hK => hlevel.intena (Nat.succ_ne_zero _) hK, fun p hp => ?_, ?_, fun l' hl' => ?_⟩
    · show Function.update s.held (running s c) _ (running s c) = _
      rw [Function.update_self]
      exact congrArg (l :: ·) hlevel.held
    · have hself : (s.view c).state p = .running := hlevel.rest.self p hp
      have hcurrent : s.current c = some p := running_proc.1 (hc.trans hp)
      simp only [State.view, hcurrent, true_or, if_true] at hself ⊢
      exact hself
    · refine hlevel.rest.nodup.cons fun hmem => ?_
      have hyes := hlevel.rest.owns l hmem
      rw [hnot] at hyes
      cases hyes
    · by_cases hl : l' = l
      · simp [State.view, hl]
      · have hyes := hlevel.rest.owns l' ((List.mem_cons.1 hl').resolve_left hl)
        simpa [State.view, hl] using hyes

theorem acquire_rule {trap : Code P L Unit} (htrap : Quiet table t trap) (l : Lock P L) :
    (logic C P L table).Triple t (On t (Level ls ls.length K (Holds t ls))) (acquire trap l)
      fun _ => On t (Level (l :: ls) (l :: ls).length K (Holds t (l :: ls))) := by
  refine Triple.bind (pushOff_rule htrap fun hnil => by rw [hnil]) fun _ => ?_
  refine Triple.bind (holding_rule _ l) fun holding => ?_
  refine Triple.ite (fun _ => panic_rule fun _ _ => by decide) fun hholding => ?_
  refine (lock_rule l).pre fun s hs => hs.mono fun v hv => ⟨hv.1, ?_⟩
  rw [← hv.2]
  simpa using hholding

/-- A thread gives up a lock that its processor holds. -/
theorem unlock_rule (l : Lock P L) (hR : ∀ o st, R o st → Leaves t ls l o st) :
    (logic C P L table).Triple t (On t fun v => Level ls ls.length K R v ∧ v.owns l = true)
      (.perform (.unlock l)) fun _ =>
        On t (Level (ls.erase l) ((ls.erase l).length + 1) K (Holds t (ls.erase l))) := by
  refine on_act (fun _ _ _ _ => trivial) fun s c i b s' hc hφ hinv hx => ?_
  simp only [exec, Option.some.injEq, Prod.mk.injEq] at hx
  obtain ⟨-, rfl⟩ := hx
  obtain ⟨hlevel, howns⟩ := hφ
  have hleaves := hR _ _ hlevel.rest
  have hown : s.locked l = some c := of_decide_eq_true howns
  have hheld : s.held (running s c) = ls := hlevel.held
  have hmem : l ∈ ls := hheld ▸ hinv.held c l hown
  have hpos : ls.length ≠ 0 := (List.length_pos_of_mem hmem).ne'
  have hoff : (s.cpu c).intr = false := hlevel.intr hpos
  have hself : ∀ p, t = .proc p → s.state p = .running := by
    intro p hp
    have hstate : (s.view c).state p = .running := hleaves.self p hp
    have hcurrent : s.current c = some p := running_proc.1 (hc.trans hp)
    simpa only [State.view, hcurrent, true_or, if_true] using hstate
  have hlocked : ∀ l' d, d ≠ c →
      (Function.update s.locked l none l' = some d ↔ s.locked l' = some d) := by
    intro l' d hd
    by_cases hl : l' = l
    · simp [hl, hown, Ne.symm hd]
    · simp [hl]
  refine ⟨stay_guar rfl rfl (fun d hd => ?_) (fun u hu => ?_) (fun _ _ => rfl)
    (fun p hp => .inl (hself p (hc.symm.trans (running_proc.2 hp)))) (fun l' hl' => ?_)
    fun _ => hoff, c, hc, ?_⟩
  · have hne : running s d ≠ running s c := fun heq => hd (hinv.running_inj heq)
    exact view_congr rfl rfl rfl (by simp [hne]) (fun l' => hlocked l' d hd) fun _ _ => rfl
  · simp [hu]
  · have hl' : Function.update s.locked l none l' = some c := hl'
    by_cases hl : l' = l
    · simp [hl] at hl'
    · rw [Function.update_of_ne hl] at hl'
      have hin := hinv.held c l' hl'
      simpa using (List.mem_erase_of_ne hl).2 hin
  · refine ⟨?_, ?_, fun _ => hoff, fun _ hK => hlevel.intena hpos hK, fun p hp => ?_,
      hleaves.nodup, fun l' hl' => ?_⟩
    · show Function.update s.held (running s c) _ (running s c) = _
      rw [Function.update_self, hheld]
    · show (s.cpu c).noff = _
      have hnoff : (s.cpu c).noff = ls.length := hlevel.noff
      rw [hnoff, List.length_erase_of_mem hmem]
      omega
    · have hcurrent : s.current c = some p := running_proc.1 (hc.trans hp)
      show (if s.current c = some p ∨ _ then s.state p else .unused) = .running
      rw [if_pos (.inl hcurrent)]
      exact hself p hp
    · obtain ⟨hne, hyes⟩ := hleaves.owns l' hl'
      simpa [State.view, hne] using hyes

/-- `release` after it has found the lock held. -/
theorem unlock_popOff (l : Lock P L) (hR : ∀ o st, R o st → Leaves t ls l o st)
    (hK : ∀ p, t = .proc p → K) :
    (logic C P L table).Triple t (On t fun v => Level ls ls.length K R v ∧ v.owns l = true)
      (do
        .perform (.unlock l)
        popOff
        .perform .released : Code P L Unit)
      fun _ => On t (Level (ls.erase l) (ls.erase l).length K (Holds t (ls.erase l))) := by
  refine Triple.bind (unlock_rule l hR) fun _ => ?_
  refine Triple.bind popOff_rule fun _ => ?_
  refine look_act (fun s c hc hφ p hp hnil => ?_) fun s c i b s' _ hφ _ hx => ?_
  · have hproc : t = .proc p := hc.symm.trans (running_proc.2 hp)
    have hheld : s.held (running s c) = ls.erase l := hφ.1.held
    rw [hc, hproc, hnil] at hheld
    have hbase : (s.cpu c).intr = s.base (running s c) := hφ.2 hheld.symm (hK p hproc)
    rw [hbase, hc, hproc]
  · simp only [exec, Option.some.injEq, Prod.mk.injEq] at hx
    exact ⟨hx.2.symm, hφ.1⟩

theorem release_found (l : Lock P L) (hR : ∀ o st, R o st → Leaves t ls l o st)
    (hK : ∀ p, t = .proc p → K) (holding : Bool) :
    (logic C P L table).Triple t
      (On t fun v => Level ls ls.length K R v ∧ holding = v.owns l)
      (if holding then (do
          .perform (.unlock l)
          popOff
          .perform .released : Code P L Unit)
        else panic "release")
      fun _ => On t (Level (ls.erase l) (ls.erase l).length K (Holds t (ls.erase l))) := by
  refine Triple.ite (fun hholding => ?_) fun _ => panic_rule fun _ _ => by decide
  refine (unlock_popOff l hR hK).pre fun s hs => hs.mono fun v hv => ⟨hv.1, ?_⟩
  rw [← hv.2]
  exact hholding

theorem release_rule (l : Lock P L) (hK : ∀ p, t = .proc p → K) :
    (logic C P L table).Triple t (On t (Level ls ls.length K (Holds t ls))) (release l) fun _ =>
      On t (Level (ls.erase l) (ls.erase l).length K (Holds t (ls.erase l))) :=
  Triple.bind (holding_rule _ l) (release_found l (fun _ _ h => h.leaves l) hK)

/-- The state of a process that does not run, or of the thread itself. -/
theorem setState_rule {φ ψ : View P L → Prop} (st : ProcState)
    (howns : ∀ v, φ v → v.owns (.proc q) = true)
    (hidle : ∀ v, φ v → t = .proc q ∨ v.state q ≠ .running)
    (h : ∀ v, φ v → ψ { v with state := Function.update v.state q st }) :
    (logic C P L table).Triple t (On t φ) (.perform (.setState q st)) fun _ => On t ψ := by
  refine on_act (fun _ _ _ _ => trivial) fun s c i b s' hc hφ hinv hx => ?_
  simp only [exec, Option.some.injEq, Prod.mk.injEq] at hx
  obtain ⟨-, rfl⟩ := hx
  have hown : s.locked (.proc q) = some c := of_decide_eq_true (howns _ hφ)
  have hvisible : (s.view c).state q = s.state q := if_pos (.inr hown)
  -- whoever runs the process elsewhere would see it running
  have helse : ∀ d, d ≠ c → s.current d ≠ some q := by
    intro d hd hq
    rcases hidle _ hφ with hself | hnot
    · exact hd (hinv.running_inj ((running_proc.2 hq).trans (hself.symm.trans hc.symm)))
    · rcases hinv.awake d q hq with hrun | hlocked
      · exact hnot (hvisible.trans hrun)
      · rw [hown] at hlocked
        exact hd (Option.some.inj hlocked).symm
  refine ⟨stay_guar rfl rfl (fun d hd => ?_) (fun _ _ => rfl) (fun _ _ => rfl) (fun p hp => ?_)
    (hinv.held c) (hinv.intr c), c, hc, ?_⟩
  · refine view_congr rfl rfl rfl rfl (fun _ => Iff.rfl) fun r hr => Function.update_of_ne ?_ ..
    rintro rfl
    rcases hr with hr | hr
    · exact helse d hd hr
    · rw [hown] at hr
      exact hd (Option.some.inj hr).symm
  · by_cases hpq : p = q
    · rw [hpq]
      exact .inr hown
    · simpa [hpq] using hinv.awake c p hp
  · have hview : ({ s with state := Function.update s.state q st } : State C P L).view c =
        { s.view c with state := Function.update (s.view c).state q st } := by
      simp only [State.view, running]
      congr 1
      funext r
      by_cases hr : r = q
      · simp [hr, hown]
      · simp [hr]
    rw [hview]
    exact h _ hφ

end Xv6.Spinlock
