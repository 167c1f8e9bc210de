import Xv6.Sleeplock.Code
import Xv6.Conc.Guarantee

/-!
# What the operations on a sleep-lock do

While `lk->lk` is free and the lock is not taken, nobody has given `lk->lk` up
to sleep without having been woken up since.  The holder of `lk->lk` may break
this for a while, and nobody else gives it up then, so one round of `wakeup`
is enough (`Woken`).
-/

namespace Xv6.Sleeplock

open Conc Conc.Logic

variable {P : Type} {t : P} {procs : Procs P}

/-! ## What holds -/

/-- The invariant. -/
structure Inv (procs : Procs P) (s : State P) : Prop where
  locked : s.locked = 0 ↔ s.owner = none
  pid : s.spin .lk = none → ∀ p, s.owner = some p → s.pid = procs.pid p
  inside : ∀ p, s.inside p = true → s.owner = some p
  quiet : s.spin .lk = none → s.locked = 0 → ∀ p, s.waits p = false
  asleep : ∀ p, s.state p = .sleeping → s.chan p = true → s.waits p = true
  /-- Who has given `lk->lk` up sleeps, or has its own lock until it does. -/
  dozing : ∀ p, s.waits p = true →
    s.spin (.proc p) = some p ∨ s.state p = .sleeping ∧ s.chan p = true

/-- What a process may do. -/
structure Guar (procs : Procs P) (t : P) (s s' : State P) : Prop where
  inv : Inv procs s → Inv procs s'
  lk : ∀ u, u ≠ t → s.spin .lk = some u → s'.spin .lk = some u ∧ s'.locked = s.locked ∧
    s'.pid = s.pid ∧ s'.owner = s.owner ∧ ∀ q, s'.waits q = true → s.waits q = true
  proc : ∀ u, u ≠ t → ∀ q, s.spin (.proc q) = some u → s'.spin (.proc q) = some u ∧
    s'.state q = s.state q ∧ s'.chan q = s.chan q ∧ s'.waits q = s.waits q
  own : ∀ u, u ≠ t → s'.inside u = s.inside u ∧ (s'.owner = some u ↔ s.owner = some u) ∧
    (s'.waits u = true → s.waits u = true)

/-- `holdingsleep` says whether the process is between its calls. -/
def safe : Machine.OpPred (Op P) (State P) P := fun _ p o s =>
  match o with
  | .answer r => r = s.inside p
  | _ => True

/-- What the operations on processes leave alone. -/
structure Apart (s s' : State P) : Prop where
  spin : s'.spin .lk = s.spin .lk
  locked : s'.locked = s.locked
  pid : s'.pid = s.pid
  owner : s'.owner = s.owner
  inside : s'.inside = s.inside
  waits : ∀ q, s'.waits q = true → s.waits q = true

theorem Inv.apart {s s' : State P} (h : Inv procs s) (ha : Apart s s')
    (hasleep : ∀ p, s'.state p = .sleeping → s'.chan p = true → s'.waits p = true)
    (hdozing : ∀ p, s'.waits p = true →
      s'.spin (.proc p) = some p ∨ s'.state p = .sleeping ∧ s'.chan p = true) : Inv procs s' where
  locked := by
    rw [ha.locked, ha.owner]
    exact h.locked
  pid hfree := by
    rw [ha.owner, ha.pid]
    exact h.pid (ha.spin ▸ hfree)
  inside p := by
    rw [ha.inside, ha.owner]
    exact h.inside p
  quiet hfree hlocked p := by
    have hq := h.quiet (ha.spin ▸ hfree) (ha.locked ▸ hlocked) p
    cases hw : s'.waits p with
    | false => rfl
    | true => rw [← hq, ha.waits p hw]
  asleep := hasleep
  dozing := hdozing

theorem guar_of_apart {s s' : State P} (ha : Apart s s') (hinv : Inv procs s → Inv procs s')
    (hproc : ∀ u, u ≠ t → ∀ q, s.spin (.proc q) = some u → s'.spin (.proc q) = some u ∧
      s'.state q = s.state q ∧ s'.chan q = s.chan q ∧ s'.waits q = s.waits q) :
    Guar procs t s s' where
  inv := hinv
  lk u _ hu := ⟨ha.spin.trans hu, ha.locked, ha.pid, ha.owner, ha.waits⟩
  proc := hproc
  own u _ := by
    rw [ha.inside, ha.owner]
    exact ⟨rfl, Iff.rfl, ha.waits u⟩

/-! ## The logic -/

variable [DecidableEq P]

abbrev logic (procs : Procs P) : Logic (machine procs) :=
  ofGuarantee (machine procs) (Inv procs) (fun _ _ _ _ => True) safe (Guar procs)
    fun _ _ _ hinv hg => hg.inv hinv

omit [DecidableEq P] in
theorem waits_of_false {s s' : State P} {q : P} (h : s'.waits q = true → s.waits q = true)
    (hq : s.waits q = false) : s'.waits q = false := by
  cases hw : s'.waits q with
  | false => rfl
  | true => rw [← hq, h hw]

/-- `i`: the process is between its calls, and `o`: it has set `locked`. -/
def Own (t : P) (i o : Bool) (s : State P) : Prop :=
  s.inside t = i ∧ (s.owner = some t ↔ o = true)

/-- ... and it is not on its way to sleep. -/
def Base (t : P) (i o : Bool) (s : State P) : Prop := Own t i o s ∧ s.waits t = false

/-- `t` has `lk->lk`. -/
def HasLk (t : P) (φ : I32 → I32 → Option P → Prop) (s : State P) : Prop :=
  s.spin .lk = some t ∧ φ s.locked s.pid s.owner

/-- `t` has `lk->lk`, and these processes do not wait. -/
def Woken (t : P) (qs : List P) (s : State P) : Prop :=
  s.spin .lk = some t ∧ ∀ q ∈ qs, s.waits q = false

/-- `t` has `lk->lk`, and nobody waits for a lock that is free. -/
def Calm (t : P) (s : State P) : Prop :=
  s.spin .lk = some t ∧ (s.locked = 0 → ∀ q, s.waits q = false)

/-- `t` has the lock of `q`. -/
def HasProc (t q : P) (ψ : ProcState → Bool → Bool → Prop) (s : State P) : Prop :=
  s.spin (.proc q) = some t ∧ ψ (s.state q) (s.chan q) (s.waits q)

/-- What an operation on processes does not touch. -/
structure Ctx (procs : Procs P) (t : P) (F : State P → Prop) : Prop where
  stable : (logic procs).Stable t F
  frame : ∀ s s', Apart s s' → F s → F s'

theorem stable_of {A : State P → Prop}
    (h : ∀ u s s', u ≠ t → Inv procs s → Guar procs u s s' → A s → A s') :
    (logic procs).Stable t A := stable_of_guarantee (fun _ _ => rfl) h

theorem Ctx.and {F G : State P → Prop} (hF : Ctx procs t F) (hG : Ctx procs t G) :
    Ctx procs t fun s => F s ∧ G s where
  stable := hF.stable.and _ hG.stable
  frame s s' ha hs := ⟨hF.frame s s' ha hs.1, hG.frame s s' ha hs.2⟩

theorem ctx_own (i o : Bool) : Ctx procs t (Own t i o) where
  stable := stable_of fun u s s' hu _ hg hs => by
    obtain ⟨hinside, howner, -⟩ := hg.own t (Ne.symm hu)
    exact ⟨hinside.trans hs.1, howner.trans hs.2⟩
  frame s s' ha hs := by
    rw [Own, ha.inside, ha.owner]
    exact hs

theorem ctx_base (i o : Bool) : Ctx procs t (Base t i o) where
  stable := stable_of fun u s s' hu hinv hg hs => by
    obtain ⟨hinside, howner, hwaits⟩ := hg.own t (Ne.symm hu)
    exact ⟨⟨hinside.trans hs.1.1, howner.trans hs.1.2⟩, waits_of_false hwaits hs.2⟩
  frame s s' ha hs := by
    refine ⟨?_, waits_of_false (ha.waits t) hs.2⟩
    rw [Own, ha.inside, ha.owner]
    exact hs.1

theorem ctx_hasLk (φ : I32 → I32 → Option P → Prop) : Ctx procs t (HasLk t φ) where
  stable := stable_of fun u s s' hu _ hg hs => by
    obtain ⟨hspin, hlocked, hpid, howner, -⟩ := hg.lk t (Ne.symm hu) hs.1
    rw [HasLk, hlocked, hpid, howner]
    exact ⟨hspin, hs.2⟩
  frame s s' ha hs := by
    rw [HasLk, ha.spin, ha.locked, ha.pid, ha.owner]
    exact hs

theorem ctx_woken (qs : List P) : Ctx procs t (Woken t qs) where
  stable := stable_of fun u s s' hu _ hg hs => by
    obtain ⟨hspin, -, -, -, hwaits⟩ := hg.lk t (Ne.symm hu) hs.1
    exact ⟨hspin, fun q hq => waits_of_false (hwaits q) (hs.2 q hq)⟩
  frame s s' ha hs :=
    ⟨ha.spin.trans hs.1, fun q hq => waits_of_false (ha.waits q) (hs.2 q hq)⟩

theorem ctx_calm : Ctx procs t (Calm t) where
  stable := stable_of fun u s s' hu _ hg hs => by
    obtain ⟨hspin, hlocked, -, -, hwaits⟩ := hg.lk t (Ne.symm hu) hs.1
    refine ⟨hspin, fun hzero q => waits_of_false (hwaits q) (hs.2 ?_ q)⟩
    rwa [hlocked] at hzero
  frame s s' ha hs := by
    refine ⟨ha.spin.trans hs.1, fun hzero q => waits_of_false (ha.waits q) (hs.2 ?_ q)⟩
    rwa [ha.locked] at hzero

theorem hasProc_stable (q : P) (ψ : ProcState → Bool → Bool → Prop) :
    (logic procs).Stable t (HasProc t q ψ) :=
  stable_of fun u s s' hu _ hg hs => by
    obtain ⟨hspin, hstate, hchan, hwaits⟩ := hg.proc t (Ne.symm hu) q hs.1
    rw [HasProc, hstate, hchan, hwaits]
    exact ⟨hspin, hs.2⟩

/-! ## Looking -/

omit [DecidableEq P] in
theorem guar_refl (s : State P) : Guar procs t s s where
  inv h := h
  lk _ _ h := ⟨h, rfl, rfl, rfl, fun _ h => h⟩
  proc _ _ _ h := ⟨h, rfl, rfl, rfl⟩
  own _ _ := ⟨rfl, Iff.rfl, fun h => h⟩

/-- An operation that changes nothing. -/
theorem look_act {β : Type} {A : State P → Prop} {o : Op P β} {Q : β → State P → Prop}
    (hA : (logic procs).Stable t A) (hsafe : ∀ s, A s → safe β t o s)
    (hstep : ∀ s i b s', A s → Inv procs s → exec t i s o = some (b, s') → s' = s ∧ Q b s) :
    (logic procs).Triple t A (.perform o) Q := by
  refine Triple.act (fun _ _ => rfl) hA (fun s hs _ _ => hsafe s hs) fun s i b s' hs hinv _ hx => ?_
  obtain ⟨rfl, hQ⟩ := hstep s i b s' hs hinv hx
  exact ⟨guar_refl s', hQ⟩

theorem read_rule {β : Type} {A : State P → Prop} (hA : (logic procs).Stable t A)
    (f : State P → β) :
    (logic procs).Triple t A (read f) fun b s => A s ∧ Inv procs s ∧ f s = b := by
  refine look_act hA (fun _ _ => trivial) fun s i b s' hs hinv hx => ?_
  simp only [exec, Option.some.injEq, Prod.mk.injEq] at hx
  exact ⟨hx.2.symm, hs, hinv, hx.1⟩

theorem myproc_rule {A : State P → Prop} (hA : (logic procs).Stable t A) :
    (logic procs).Triple t A (.perform .myproc) fun p s => p = t ∧ A s := by
  refine look_act hA (fun _ _ => trivial) fun s i b s' hs _ hx => ?_
  simp only [exec, Option.some.injEq, Prod.mk.injEq] at hx
  exact ⟨hx.2.symm, hx.1.symm, hs⟩

theorem next_rule {A : State P → Prop} (hA : (logic procs).Stable t A) :
    (logic procs).Triple t A (.perform .next) fun _ => A := by
  refine look_act hA (fun _ _ => trivial) fun s i b s' hs _ hx => ?_
  simp only [exec, Option.some.injEq, Prod.mk.injEq] at hx
  exact ⟨hx.2.symm, hs⟩

theorem answer_rule {i o : Bool} :
    (logic procs).Triple t (Base t i o) (.perform (.answer i)) fun _ => Base t i o := by
  refine look_act (ctx_base i o).stable (fun s hs => hs.1.1.symm) fun s i b s' hs _ hx => ?_
  simp only [exec, Option.some.injEq, Prod.mk.injEq] at hx
  exact ⟨hx.2.symm, hs⟩

/-! ## The locks of the processes -/

/-- An operation on processes. -/
theorem proc_act {β : Type} {F R : State P → Prop} {o : Op P β} {Q : β → State P → Prop}
    (hF : Ctx procs t F) (hR : (logic procs).Stable t R) (hsafe : ∀ s, safe β t o s)
    (hstep : ∀ s i b s', F s → R s → Inv procs s → exec t i s o = some (b, s') →
      Apart s s' ∧
        (∀ p, s'.state p = .sleeping → s'.chan p = true → s'.waits p = true) ∧
        (∀ p, s'.waits p = true →
          s'.spin (.proc p) = some p ∨ s'.state p = .sleeping ∧ s'.chan p = true) ∧
        (∀ u, u ≠ t → ∀ q, s.spin (.proc q) = some u → s'.spin (.proc q) = some u ∧
          s'.state q = s.state q ∧ s'.chan q = s.chan q ∧ s'.waits q = s.waits q) ∧ Q b s') :
    (logic procs).Triple t (fun s => F s ∧ R s) (.perform o) fun b s => F s ∧ Q b s := by
  refine Triple.act (fun _ _ => rfl) (hF.stable.and _ hR) (fun s _ _ _ => hsafe s)
    fun s i b s' hs hinv _ hx => ?_
  obtain ⟨ha, hasleep, hdozing, hproc, hQ⟩ := hstep s i b s' hs.1 hs.2 hinv hx
  exact ⟨guar_of_apart ha (fun h => h.apart ha hasleep hdozing) hproc, hF.frame s s' ha hs.1, hQ⟩

theorem acquire_proc {F : State P → Prop} (hF : Ctx procs t F) (q : P) :
    (logic procs).Triple t F (acquire (.proc q)) fun _ s =>
      F s ∧ HasProc t q (fun _ _ _ => True) s := by
  refine (proc_act (o := .acquire (.proc q)) (R := fun _ => True) hF (fun _ _ _ _ => trivial) (fun _ => trivial)
    fun s i b s' _ _ hinv hx => ?_).pre fun s hs => ⟨hs, trivial⟩
  simp only [exec, Option.ite_none_right_eq_some, Option.some.injEq, Prod.mk.injEq] at hx
  obtain ⟨hfree, -, rfl⟩ := hx
  refine ⟨⟨by simp, rfl, rfl, rfl, rfl, fun _ h => h⟩, hinv.asleep, fun p hp => ?_,
    fun u _ r hr => ?_, by simp [HasProc]⟩
  · rcases hinv.dozing p hp with hspin | hsleep
    · by_cases heq : p = q
      · simp [← heq, hspin] at hfree
      · left
        simpa [heq] using hspin
    · exact .inr hsleep
  · by_cases heq : r = q
    · simp [← heq, hr] at hfree
    · simpa [heq] using hr

theorem release_proc {F : State P → Prop} (hF : Ctx procs t F) {q : P}
    {ψ : ProcState → Bool → Bool → Prop} (hself : ∀ s, F s → q = t → s.waits t = false) :
    (logic procs).Triple t (fun s => F s ∧ HasProc t q ψ s) (release (.proc q)) fun _ => F := by
  refine (proc_act (o := .release (.proc q)) (Q := fun _ _ => True) hF (hasProc_stable q ψ) (fun _ => trivial)
    fun s i b s' hs hproc hinv hx => ?_).post fun _ _ h => h.1
  simp only [exec, Option.some.injEq, Prod.mk.injEq] at hx
  obtain ⟨-, rfl⟩ := hx
  refine ⟨⟨by simp, rfl, rfl, rfl, rfl, fun _ h => h⟩, hinv.asleep, fun p hp => ?_,
    fun u hu r hr => ?_, trivial⟩
  · rcases hinv.dozing p hp with hspin | hsleep
    · by_cases heq : p = q
      · -- only the process itself gives its lock up before it sleeps
        rw [heq, hproc.1] at hspin
        have hq : q = t := (Option.some.inj hspin).symm
        have hno := hself s hs hq
        simp [heq, hq, hno] at hp
      · left
        simpa [heq] using hspin
    · exact .inr hsleep
  · by_cases heq : r = q
    · rw [heq, hproc.1] at hr
      exact absurd (Option.some.inj hr).symm hu
    · simpa [heq] using hr

/-- `q->state = RUNNABLE`. -/
theorem wake_rule {F : State P → Prop} (hF : Ctx procs t F) {q : P}
    {ψ : ProcState → Bool → Bool → Prop} :
    (logic procs).Triple t (fun s => F s ∧ HasProc t q ψ s) (.perform (.wake q)) fun _ s =>
      F s ∧ HasProc t q (fun _ _ w => w = false) s := by
  refine proc_act hF (hasProc_stable q ψ) (fun _ => trivial) fun s i b s' _ hproc hinv hx => ?_
  simp only [exec, Option.some.injEq, Prod.mk.injEq] at hx
  obtain ⟨-, rfl⟩ := hx
  refine ⟨⟨rfl, rfl, rfl, rfl, rfl, fun p hp => ?_⟩, fun p hp hchan => ?_, fun p hp => ?_,
    fun u hu r hr => ?_, hproc.1, by simp⟩
  · by_cases heq : p = q
    · simp [heq] at hp
    · simpa [heq] using hp
  · by_cases heq : p = q
    · simp [heq] at hp
    · simp only [Function.update_of_ne heq] at hp ⊢
      exact hinv.asleep p hp hchan
  · by_cases heq : p = q
    · simp [heq] at hp
    · simp only [Function.update_of_ne heq] at hp ⊢
      exact hinv.dozing p hp
  · by_cases heq : r = q
    · rw [heq, hproc.1] at hr
      exact absurd (Option.some.inj hr).symm hu
    · simpa [heq] using hr

theorem kill_flag_rule {F : State P → Prop} (hF : Ctx procs t F) {q : P}
    {ψ : ProcState → Bool → Bool → Prop} :
    (logic procs).Triple t (fun s => F s ∧ HasProc t q ψ s) (.perform (.kill q)) fun _ s =>
      F s ∧ HasProc t q ψ s := by
  refine proc_act hF (hasProc_stable q ψ) (fun _ => trivial) fun s i b s' _ hproc hinv hx => ?_
  simp only [exec, Option.some.injEq, Prod.mk.injEq] at hx
  obtain ⟨-, rfl⟩ := hx
  exact ⟨⟨rfl, rfl, rfl, rfl, rfl, fun _ h => h⟩, hinv.asleep, hinv.dozing,
    fun _ _ _ h => ⟨h, rfl, rfl, rfl⟩, hproc⟩

/-! ## On the way to sleep -/

/-- An operation of a process on itself, with its own lock. -/
theorem self_act {β : Type} {F : State P → Prop} {o : Op P β}
    {ψ : ProcState → Bool → Bool → Prop} {Q : State P → Prop}
    (hF : Ctx procs t F) (hsafe : ∀ s, safe β t o s)
    (hstep : ∀ s i b s', F s → HasProc t t ψ s → Inv procs s → exec t i s o = some (b, s') →
      s' = { s with state := s'.state, chan := s'.chan } ∧
        (∀ p, p ≠ t → s'.state p = s.state p ∧ s'.chan p = s.chan p) ∧
        (s'.state t = .sleeping → s'.chan t = true → s.waits t = true) ∧ Q s') :
    (logic procs).Triple t (fun s => F s ∧ HasProc t t ψ s) (.perform o) fun _ s => F s ∧ Q s := by
  refine proc_act hF (hasProc_stable t ψ) hsafe fun s i b s' hs hproc hinv hx => ?_
  obtain ⟨hsame, hothers, hself, hQ⟩ := hstep s i b s' hs hproc hinv hx
  have hspin : s'.spin = s.spin := by rw [hsame]
  have hwaits : s'.waits = s.waits := by rw [hsame]
  refine ⟨⟨by rw [hspin], ?_, ?_, ?_, ?_, fun p hp => by rwa [hwaits] at hp⟩, fun p hp hchan => ?_,
    fun p hp => ?_, fun u hu r hr => ?_, hQ⟩
  · rw [hsame]
  · rw [hsame]
  · rw [hsame]
  · rw [hsame]
  · rw [hwaits]
    by_cases heq : p = t
    · subst heq
      exact hself hp hchan
    · rw [(hothers p heq).1] at hp
      rw [(hothers p heq).2] at hchan
      exact hinv.asleep p hp hchan
  · rw [hwaits] at hp
    rw [hspin]
    by_cases heq : p = t
    · subst heq
      exact .inl hproc.1
    · rw [(hothers p heq).1, (hothers p heq).2]
      exact hinv.dozing p hp
  · have hne : r ≠ t := by
      intro heq
      rw [heq, hproc.1] at hr
      exact hu (Option.some.inj hr).symm
    rw [hspin, hwaits]
    exact ⟨hr, (hothers r hne).1, (hothers r hne).2, rfl⟩

/-- `p->chan = lk`. -/
theorem setChan_rule {F : State P → Prop} (hF : Ctx procs t F) :
    (logic procs).Triple t (fun s => F s ∧ HasProc t t (fun _ _ w => w = true) s)
      (.perform (.setChan true)) fun _ s => F s ∧ HasProc t t (fun _ c w => c = true ∧ w = true) s := by
  refine self_act hF (fun _ => trivial) fun s i b s' _ hproc hinv hx => ?_
  simp only [exec, Option.some.injEq, Prod.mk.injEq] at hx
  obtain ⟨-, rfl⟩ := hx
  refine ⟨rfl, fun p hp => ⟨rfl, by simp [hp]⟩, fun _ _ => hproc.2, hproc.1, ?_, hproc.2⟩
  simp

/-- `p->chan = 0`. -/
theorem clearChan_rule {F : State P → Prop} (hF : Ctx procs t F)
    {ψ : ProcState → Bool → Bool → Prop} :
    (logic procs).Triple t (fun s => F s ∧ HasProc t t ψ s)
      (.perform (.setChan false)) fun _ s => F s ∧ HasProc t t (fun _ _ _ => True) s := by
  refine self_act hF (fun _ => trivial) fun s i b s' _ hproc hinv hx => ?_
  simp only [exec, Option.some.injEq, Prod.mk.injEq] at hx
  obtain ⟨-, rfl⟩ := hx
  refine ⟨rfl, fun p hp => ⟨rfl, by simp [hp]⟩, fun _ h => ?_, hproc.1, trivial⟩
  simp at h

theorem fallAsleep_rule {F : State P → Prop} (hF : Ctx procs t F) :
    (logic procs).Triple t (fun s => F s ∧ HasProc t t (fun _ c w => c = true ∧ w = true) s)
      (.perform .fallAsleep) fun _ s =>
        F s ∧ HasProc t t (fun st c _ => st = .sleeping ∧ c = true) s := by
  refine self_act hF (fun _ => trivial) fun s i b s' _ hproc hinv hx => ?_
  simp only [exec, Option.some.injEq, Prod.mk.injEq] at hx
  obtain ⟨-, rfl⟩ := hx
  refine ⟨rfl, fun p hp => ⟨by simp [hp], rfl⟩, fun _ _ => hproc.2.2, hproc.1, ?_, hproc.2.1⟩
  simp

theorem swtch_rule {F : State P → Prop} (hF : Ctx procs t F) :
    (logic procs).Triple t
      (fun s => F s ∧ HasProc t t (fun st c _ => st = .sleeping ∧ c = true) s)
      (.perform .swtch) fun _ => F := by
  refine (proc_act (o := .swtch) (Q := fun _ _ => True) hF (hasProc_stable t _) (fun _ => trivial)
    fun s i b s' hs hproc hinv hx => ?_).post fun _ _ h => h.1
  simp only [exec, Option.some.injEq, Prod.mk.injEq] at hx
  obtain ⟨-, rfl⟩ := hx
  refine ⟨⟨by simp, rfl, rfl, rfl, rfl, fun _ h => h⟩, hinv.asleep, fun p hp => ?_,
    fun u hu r hr => ?_, trivial⟩
  · by_cases heq : p = t
    · subst heq
      exact .inr hproc.2
    · simpa [heq] using hinv.dozing p hp
  · by_cases heq : r = t
    · rw [heq, hproc.1] at hr
      exact absurd (Option.some.inj hr).symm hu
    · simpa [heq] using hr

/-- A process that goes on has been woken up. -/
theorem resume_rule (i o : Bool) :
    (logic procs).Triple t (Own t i o) (.perform .resume) fun _ s =>
      Base t i o s ∧ HasProc t t (fun _ _ _ => True) s := by
  have hact : (logic procs).Triple t (fun s => Own t i o s ∧ True) (.perform .resume)
      fun _ s => Own t i o s ∧ s.waits t = false ∧ HasProc t t (fun _ _ _ => True) s :=
    proc_act (o := .resume) (ctx_own i o) (fun _ _ _ _ => trivial) (fun _ => trivial)
      fun s j b s' _ _ hinv hx => ?_
  · exact (hact.pre fun s hs => ⟨hs, trivial⟩).post fun _ s hs => ⟨⟨hs.1, hs.2.1⟩, hs.2.2⟩
  simp only [exec, Option.ite_none_right_eq_some, Option.some.injEq, Prod.mk.injEq] at hx
  obtain ⟨⟨hfree, hrunnable⟩, -, rfl⟩ := hx
  have hwoken : s.waits t = false := by
    cases hw : s.waits t with
    | false => rfl
    | true =>
      rcases hinv.dozing t hw with hspin | hsleep
      · simp [hfree] at hspin
      · simp [hrunnable] at hsleep
  refine ⟨⟨by simp, rfl, rfl, rfl, rfl, fun _ h => h⟩, fun p hp hchan => ?_, fun p hp => ?_,
    fun u hu r hr => ?_, hwoken, by simp [HasProc]⟩
  · by_cases heq : p = t
    · simp [heq] at hp
    · simp only [Function.update_of_ne heq] at hp
      exact hinv.asleep p hp hchan
  · by_cases heq : p = t
    · rw [heq, hwoken] at hp
      cases hp
    · simpa [heq] using hinv.dozing p hp
  · by_cases heq : r = t
    · simp [heq, hfree] at hr
    · simpa [heq] using hr

/-! ## The lock -/

/-- What the numbers of the lock say while `lk->lk` is free. -/
def Good (procs : Procs P) (_ pid : I32) (owner : Option P) : Prop :=
  ∀ p, owner = some p → pid = procs.pid p

/-- An operation of the process that has `lk->lk`. -/
theorem lk_act {β : Type} {A : State P → Prop} {o : Op P β} {Q : β → State P → Prop}
    (hA : (logic procs).Stable t A) (hlk : ∀ s, A s → s.spin .lk = some t)
    (hsafe : ∀ s, safe β t o s)
    (hstep : ∀ s i b s', A s → Inv procs s → exec t i s o = some (b, s') →
      Inv procs s' ∧
        (∀ u, u ≠ t → ∀ q, s.spin (.proc q) = some u → s'.spin (.proc q) = some u ∧
          s'.state q = s.state q ∧ s'.chan q = s.chan q ∧ s'.waits q = s.waits q) ∧
        (∀ u, u ≠ t → s'.inside u = s.inside u ∧ (s'.owner = some u ↔ s.owner = some u) ∧
          (s'.waits u = true → s.waits u = true)) ∧ Q b s') :
    (logic procs).Triple t A (.perform o) Q := by
  refine Triple.act (fun _ _ => rfl) hA (fun s _ _ _ => hsafe s) fun s i b s' hs hinv _ hx => ?_
  obtain ⟨hinv', hproc, hown, hQ⟩ := hstep s i b s' hs hinv hx
  refine ⟨⟨fun _ => hinv', fun u hu hheld => ?_, hproc, hown⟩, hQ⟩
  rw [hlk s hs] at hheld
  exact absurd (Option.some.inj hheld).symm hu

theorem acquire_lk (i o : Bool) :
    (logic procs).Triple t (Base t i o) (acquire .lk) fun _ s =>
      Base t i o s ∧ HasLk t (Good procs) s ∧ Calm t s := by
  refine Triple.act (fun _ _ => rfl) (ctx_base i o).stable (fun _ _ _ _ => trivial)
    fun s j b s' hs hinv _ hx => ?_
  have hx : exec t j s (.acquire .lk) = some (b, s') := hx
  simp only [exec, Option.ite_none_right_eq_some, Option.some.injEq, Prod.mk.injEq] at hx
  obtain ⟨hfree, -, rfl⟩ := hx
  refine ⟨⟨fun h => ⟨h.locked, by simp, h.inside, by simp, h.asleep, ?_⟩, fun u _ hu => ?_,
    fun u _ r hr => ⟨?_, rfl, rfl, rfl⟩, fun _ _ => ⟨rfl, Iff.rfl, fun h => h⟩⟩, hs,
    ⟨by simp, hinv.pid hfree⟩, by simp, hinv.quiet hfree⟩
  · simpa using h.dozing
  · simp [hfree] at hu
  · simpa using hr

theorem release_lk {A : State P → Prop} {i o : Bool} {φ : I32 → I32 → Option P → Prop}
    (hA : Ctx procs t A) (hbase : ∀ s, A s → Base t i o s)
    (hgood : ∀ l p ow, φ l p ow → Good procs l p ow)
    (hquiet : ∀ s, A s → Inv procs s → φ s.locked s.pid s.owner → s.locked = 0 →
      ∀ q, s.waits q = false) :
    (logic procs).Triple t (fun s => A s ∧ HasLk t φ s) (release .lk) fun _ => Base t i o := by
  refine lk_act (hA.stable.and _ (ctx_hasLk φ).stable) (fun s hs => hs.2.1) (fun _ => trivial)
    fun s j b s' hs hinv hx => ?_
  simp only [exec, Option.some.injEq, Prod.mk.injEq] at hx
  obtain ⟨-, rfl⟩ := hx
  refine ⟨⟨hinv.locked, fun _ => hgood _ _ _ hs.2.2, hinv.inside,
    fun _ hlocked => hquiet s hs.1 hinv hs.2.2 hlocked, hinv.asleep, ?_⟩,
    fun u _ r hr => ⟨?_, rfl, rfl, rfl⟩, fun _ _ => ⟨rfl, Iff.rfl, fun h => h⟩, hbase s hs.1⟩
  · simpa using hinv.dozing
  · simpa using hr

/-- `release(lk)` in `sleep`. -/
theorem giveUp_rule (i o : Bool) :
    (logic procs).Triple t
      (fun s => (Base t i o s ∧ HasLk t (fun l p ow => l ≠ 0 ∧ Good procs l p ow) s) ∧
        HasProc t t (fun _ _ _ => True) s)
      (.perform .giveUp) fun _ s => Own t i o s ∧ HasProc t t (fun _ _ w => w = true) s := by
  refine lk_act (((ctx_base i o).and (ctx_hasLk _)).stable.and _ (hasProc_stable t _))
    (fun s hs => hs.1.2.1) (fun _ => trivial) fun s j b s' hs hinv hx => ?_
  simp only [exec, Option.some.injEq, Prod.mk.injEq] at hx
  obtain ⟨-, rfl⟩ := hx
  obtain ⟨⟨hbase, hlk⟩, hproc⟩ := hs
  refine ⟨⟨hinv.locked, fun _ => hlk.2.2, hinv.inside, fun _ hlocked => absurd hlocked hlk.2.1,
    fun p hp hchan => ?_, fun p hp => ?_⟩, fun u hu r hr => ?_, fun u hu => ?_, hbase.1, ?_⟩
  · by_cases heq : p = t
    · simp [heq]
    · simpa [heq] using hinv.asleep p hp hchan
  · by_cases heq : p = t
    · simp [heq, hproc.1]
    · simp only [Function.update_of_ne heq] at hp
      simpa using hinv.dozing p hp
  · have hne : r ≠ t := by
      intro heq
      rw [heq, hproc.1] at hr
      exact hu (Option.some.inj hr).symm
    simp [hne, hr]
  · simp [hu]
  · simp [HasProc, hproc.1]

theorem setLocked_rule (o : Bool) (v : I32) {φ : I32 → I32 → Option P → Prop}
    (hφ : ∀ l p ow, φ l p ow → ow = none ∨ ow = some t) :
    (logic procs).Triple t (fun s => Base t false o s ∧ HasLk t φ s) (.perform (.setLocked v))
      fun _ s => Base t false (decide (v ≠ 0)) s ∧
        HasLk t (fun l _ ow => l = v ∧ ow = if v = 0 then none else some t) s := by
  refine lk_act ((ctx_base false o).and (ctx_hasLk φ)).stable (fun s hs => hs.2.1)
    (fun _ => trivial) fun s j b s' hs hinv hx => ?_
  simp only [exec, Option.some.injEq, Prod.mk.injEq] at hx
  obtain ⟨-, rfl⟩ := hx
  obtain ⟨hbase, hlk⟩ := hs
  have howner := hφ _ _ _ hlk.2
  have hnobody : ∀ p, s.inside p = false := by
    intro p
    cases hp : s.inside p with
    | false => rfl
    | true =>
      have hp' := hinv.inside p hp
      rcases howner with hnone | hself
      · simp [hnone] at hp'
      · rw [hself] at hp'
        have hinside := hbase.1.1
        rw [Option.some.inj hp', hp] at hinside
        cases hinside
  refine ⟨⟨?_, fun hfree => ?_, fun p hp => ?_, fun hfree => ?_, hinv.asleep, hinv.dozing⟩,
    fun u _ r hr => ⟨hr, rfl, rfl, rfl⟩, fun u hu => ⟨rfl, ?_, fun h => h⟩, ?_, hlk.1, rfl, rfl⟩
  · by_cases hv : v = 0 <;> simp [hv]
  · simp [hlk.1] at hfree
  · simp [hnobody p] at hp
  · simp [hlk.1] at hfree
  · rcases howner with hnone | hself
    · by_cases hv : v = 0 <;> simp [hv, hnone, Ne.symm hu]
    · by_cases hv : v = 0 <;> simp [hv, hself, Ne.symm hu]
  · refine ⟨⟨hbase.1.1, ?_⟩, hbase.2⟩
    by_cases hv : v = 0 <;> simp [hv]

theorem setPid_rule (v : I32) {φ ψ : I32 → I32 → Option P → Prop}
    {i o : Bool} (hψ : ∀ l p ow, φ l p ow → ψ l v ow) :
    (logic procs).Triple t (fun s => Base t i o s ∧ HasLk t φ s) (.perform (.setPid v))
      fun _ s => Base t i o s ∧ HasLk t ψ s := by
  refine lk_act ((ctx_base i o).and (ctx_hasLk φ)).stable (fun s hs => hs.2.1)
    (fun _ => trivial) fun s j b s' hs hinv hx => ?_
  simp only [exec, Option.some.injEq, Prod.mk.injEq] at hx
  obtain ⟨-, rfl⟩ := hx
  have hlk := hs.2.1
  refine ⟨⟨hinv.locked, fun hfree => ?_, hinv.inside, hinv.quiet, hinv.asleep, hinv.dozing⟩,
    fun u _ r hr => ⟨hr, rfl, rfl, rfl⟩, fun u _ => ⟨rfl, Iff.rfl, fun h => h⟩, hs.1, hlk,
    hψ _ _ _ hs.2.2⟩
  simp [hlk] at hfree

/-- The process marks in history where it is. -/
theorem mark_act {o : Op P Unit} {i i' : Bool}
    (hsafe : ∀ s, safe Unit t o s)
    (hstep : ∀ s j b s', exec t j s o = some (b, s') →
      s' = { s with inside := Function.update s.inside t i' }) :
    (logic procs).Triple t (Base t i true) (.perform o) fun _ => Base t i' true := by
  refine Triple.act (fun _ _ => rfl) (ctx_base i true).stable (fun s _ _ _ => hsafe s)
    fun s j b s' hs hinv _ hx => ?_
  obtain rfl := hstep s j b s' hx
  have howner : s.owner = some t := hs.1.2.2 rfl
  refine ⟨⟨fun h => ⟨h.locked, h.pid, fun p hp => ?_, h.quiet, h.asleep, h.dozing⟩,
    fun u _ hu => ⟨hu, rfl, rfl, rfl, fun _ h => h⟩, fun u _ r hr => ⟨hr, rfl, rfl, rfl⟩,
    fun u hu => ⟨by simp [hu], Iff.rfl, fun h => h⟩⟩, ⟨by simp, hs.1.2⟩, hs.2⟩
  by_cases heq : p = t
  · rw [heq]
    exact howner
  · simp only [Function.update_of_ne heq] at hp
    exact h.inside p hp

end Xv6.Sleeplock
