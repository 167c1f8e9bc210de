import Xv6.Log.Ops
import Xv6.Conc.Guarantee

/-!
# Who sleeps in `begin_op`

While the lock of the log is free, a process sleeps on the log only if an
operation is outstanding or a commit is in progress, and a header with blocks
in it waits for one of the two.  The holder of the lock may break this
condition (`Good`) for a while.  What the others may do meanwhile is `Rest`:
the one that commits works without the lock, but only on the header.
-/

namespace Xv6.LogOps

open Conc Conc.Logic Log

variable {P : Type} {t : P}

/-- What holds whenever the lock is free. -/
structure Good (s : State P) : Prop where
  sleepers : ∀ q, s.asleep q = true → 0 < s.log.outstanding ∨ s.log.committing = true
  empty : s.log.outstanding = 0 → s.log.committing = false → s.log.lh.n = 0

/-- The invariant. -/
structure Inv (s : State P) : Prop where
  count : s.log.outstanding = s.active.length
  committing : s.log.committing = s.committer.isSome
  quiet : s.committer ≠ none → s.active = []
  good : s.lock = none → Good s

/-- What the others may change while a process holds the lock. -/
structure Rest (s s' : State P) : Prop where
  outstanding : s'.log.outstanding = s.log.outstanding
  committing : s'.log.committing = s.log.committing
  active : s'.active = s.active
  committer : s'.committer = s.committer
  n : s.committer = none → s'.log.lh.n = s.log.lh.n
  woken : ∀ q, s'.asleep q = true → s.asleep q = true

/-- What a process may do. -/
structure Guar (t : P) (s s' : State P) : Prop where
  inv : Inv s → Inv s'
  held : ∀ u, u ≠ t → s.lock = some u → s'.lock = some u ∧ Rest s s'
  active : ∀ u, u ≠ t → u ∈ s.active → u ∈ s'.active
  committer : ∀ u, u ≠ t → s.committer = some u →
    s'.committer = some u ∧ s'.log.lh.n = s.log.lh.n

/-- The accesses of `commit` to buffers and to `log.lh.n` come while no
operation is outstanding, and when the commit ends the header is empty. -/
def safe : Machine.OpPred (Op P) (State P) P := fun _ _ o s =>
  match o with
  | .bread _ | .bwrite _ | .bunpin _ | .brelse _ | .clear =>
    s.log.committing = true ∧ s.log.outstanding = 0
  | .commits false => s.log.lh.n = 0
  | _ => True

theorem Rest.refl (s : State P) : Rest s s := ⟨rfl, rfl, rfl, rfl, fun _ => rfl, fun _ h => h⟩

theorem Inv.outstanding_nonneg {s : State P} (h : Inv s) : 0 ≤ s.log.outstanding := by
  rw [h.count]
  omega

theorem Inv.committer_eq_none {s : State P} (h : Inv s) (hc : s.log.committing = false) :
    s.committer = none := by
  simpa [hc] using h.committing

theorem Inv.committer_eq_none_of_outstanding {s : State P} (h : Inv s)
    (ho : 0 < s.log.outstanding) : s.committer = none := by
  by_contra hne
  have hcount := h.count
  rw [h.quiet hne, List.length_nil] at hcount
  omega

theorem Inv.commits {s : State P} (h : Inv s) (hc : s.committer = some t) :
    s.log.committing = true ∧ s.log.outstanding = 0 := by
  constructor
  · simp [h.committing, hc]
  · simp [h.count, h.quiet (by simp [hc])]

/-- The others that wake up or look around leave `Good` as it is. -/
theorem Good.rest {s s' : State P} (h : Good s) (hinv : Inv s) (hr : Rest s s') : Good s' where
  sleepers q hq := by
    rw [hr.outstanding, hr.committing]
    exact h.sleepers q (hr.woken q hq)
  empty ho hc := by
    rw [hr.outstanding] at ho
    rw [hr.committing] at hc
    rw [hr.n (hinv.committer_eq_none hc)]
    exact h.empty ho hc

theorem Good.of_outstanding {s : State P} (ho : 0 < s.log.outstanding) : Good s :=
  ⟨fun _ _ => .inl ho, fun h => by omega⟩

/-! ## The logic -/

variable [DecidableEq P]

abbrev logic (P : Type) [DecidableEq P] : Logic (machine P) :=
  ofGuarantee (machine P) Inv (fun _ _ _ _ => True) safe Guar fun _ _ _ hinv hg => hg.inv hinv

/-- What holds while `t` has the lock. -/
def Held (t : P) (φ : State P → Prop) (s : State P) : Prop := s.lock = some t ∧ φ s

/-- A statement that the others keep while they do not have the lock. -/
def Kept (φ : State P → Prop) : Prop := ∀ s s', Inv s → Rest s s' → φ s → φ s'

/-- `t` is in the middle of an operation, if `K`. -/
def Mine (K : Prop) (t : P) (s : State P) : Prop := K → t ∈ s.active

/-- `t` commits. -/
def Commits (t : P) (ν : Nat → Prop) (s : State P) : Prop :=
  s.committer = some t ∧ ν s.log.lh.n

/-- What a process knows with or without the lock. -/
structure Ctx (t : P) (F : State P → Prop) : Prop where
  stable : (logic P).Stable t F
  frame : ∀ s l a, F s → F { s with lock := l, asleep := a }

theorem held_stable {φ : State P → Prop} (hφ : Kept φ) : (logic P).Stable t (Held t φ) := by
  refine stable_of_guarantee (fun _ _ => rfl) fun u s s' hu hinv hg hs => ?_
  have hrest := hg.held t (Ne.symm hu) hs.1
  exact ⟨hrest.1, hφ s s' hinv hrest.2 hs.2⟩

theorem ctx_true : Ctx t fun _ => True := ⟨fun _ _ _ _ => trivial, fun _ _ _ _ => trivial⟩

theorem ctx_mine (K : Prop) : Ctx t (Mine K t) where
  stable := stable_of_guarantee (fun _ _ => rfl) fun _ _ _ hu _ hg hs hK =>
    hg.active t (Ne.symm hu) (hs hK)
  frame _ _ _ h := h

theorem ctx_commits (ν : Nat → Prop) : Ctx t (Commits t ν) where
  stable := stable_of_guarantee (fun _ _ => rfl) fun u s s' hu _ hg hs => by
    have hkeep := hg.committer t (Ne.symm hu) hs.1
    refine ⟨hkeep.1, ?_⟩
    rw [hkeep.2]
    exact hs.2
  frame _ _ _ h := h

omit [DecidableEq P] in
theorem Kept.and {φ ψ : State P → Prop} (hφ : Kept φ) (hψ : Kept ψ) :
    Kept fun s => φ s ∧ ψ s :=
  fun s s' hinv hr hs => ⟨hφ s s' hinv hr hs.1, hψ s s' hinv hr hs.2⟩

omit [DecidableEq P] in
theorem kept_good : Kept (P := P) Good := fun _ _ hinv hr hs => hs.rest hinv hr

omit [DecidableEq P] in
theorem kept_committing (c : Bool) : Kept fun s : State P => s.log.committing = c :=
  fun _ _ _ hr hs => hr.committing.trans hs

omit [DecidableEq P] in
theorem kept_outstanding (p : Int → Prop) : Kept fun s : State P => p s.log.outstanding :=
  fun s s' _ hr hs => by
    have hs : p s.log.outstanding := hs
    rwa [← hr.outstanding] at hs

omit [DecidableEq P] in
/-- While nobody commits, the header changes under the lock only. -/
theorem kept_n (p : Nat → Prop) : Kept fun s : State P => s.committer = none ∧ p s.log.lh.n :=
  fun s s' _ hr hs => by
    refine ⟨hr.committer.trans hs.1, ?_⟩
    rw [hr.n hs.1]
    exact hs.2

theorem Ctx.held {F φ : State P → Prop} (hF : Ctx t F) (hφ : Kept φ) :
    (logic P).Stable t fun s => F s ∧ Held t φ s :=
  Stable.and _ hF.stable (held_stable hφ)

omit [DecidableEq P] in
theorem guar_refl (s : State P) : Guar t s s where
  inv h := h
  held _ _ h := ⟨h, Rest.refl s⟩
  active _ _ h := h
  committer _ _ h := ⟨h, rfl⟩

/-! ## The operations -/

/-- An operation that changes nothing. -/
theorem look_act {β : Type} {A : State P → Prop} {o : Op P β} {Q : β → State P → Prop}
    (hA : (logic P).Stable t A) (hsafe : ∀ s, A s → Inv s → safe β t o s)
    (hstep : ∀ s i b s', A s → Inv s → exec t i s o = some (b, s') → s' = s ∧ Q b s) :
    (logic P).Triple t A (.perform o) Q := by
  refine Triple.act (fun _ _ => rfl) hA (fun s hs hinv _ => hsafe s hs hinv)
    fun s i b s' hs hinv _ hx => ?_
  obtain ⟨rfl, hQ⟩ := hstep s i b s' hs hinv hx
  exact ⟨guar_refl s', hQ⟩

theorem read_rule {β : Type} {A : State P → Prop} (hA : (logic P).Stable t A) (f : Vars → β) :
    (logic P).Triple t A (read f) fun b s => A s ∧ Inv s ∧ f s.log = b := by
  refine look_act hA (fun _ _ _ => trivial) fun s i b s' hs hinv hx => ?_
  simp only [exec, Option.some.injEq, Prod.mk.injEq] at hx
  exact ⟨hx.2.symm, hs, hinv, hx.1⟩

theorem panic_rule {A : State P → Prop} {Q : Unit → State P → Prop}
    (hA : (logic P).Stable t A) (msg : String) : (logic P).Triple t A (panic msg) Q := by
  refine look_act hA (fun _ _ _ => trivial) fun s i b s' _ _ hx => ?_
  simp [exec] at hx

/-- An operation of the process that has the lock. -/
theorem held_act {β : Type} {F φ : State P → Prop} {o : Op P β} {Q : β → State P → Prop}
    (hF : Ctx t F) (hφ : Kept φ) (hsafe : ∀ s, F s ∧ Held t φ s → Inv s → safe β t o s)
    (hstep : ∀ s i b s', F s ∧ Held t φ s → Inv s → exec t i s o = some (b, s') →
      Inv s' ∧ (∀ u, u ≠ t → u ∈ s.active → u ∈ s'.active) ∧
        (∀ u, u ≠ t → s.committer = some u →
          s'.committer = some u ∧ s'.log.lh.n = s.log.lh.n) ∧ Q b s') :
    (logic P).Triple t (fun s => F s ∧ Held t φ s) (.perform o) Q := by
  refine Triple.act (fun _ _ => rfl) (hF.held hφ) (fun s hs hinv _ => hsafe s hs hinv)
    fun s i b s' hs hinv _ hx => ?_
  obtain ⟨hinv', hactive, hcommitter, hQ⟩ := hstep s i b s' hs hinv hx
  refine ⟨⟨fun _ => hinv', fun u hu hlock => ?_, hactive, hcommitter⟩, hQ⟩
  rw [hs.2.1] at hlock
  exact absurd (Option.some.inj hlock).symm hu

omit [DecidableEq P] in
/-- The invariant does not look at the lock while it is held. -/
theorem Inv.relock {s : State P} (h : Inv s) (l : Option P) (a : P → Bool)
    (hgood : l = none → Good { s with lock := l, asleep := a }) :
    Inv { s with lock := l, asleep := a } :=
  ⟨h.count, h.committing, h.quiet, hgood⟩

theorem acquire_rule {F : State P → Prop} (hF : Ctx t F) :
    (logic P).Triple t F acquire fun _ s => F s ∧ Held t Good s := by
  refine Triple.act (fun _ _ => rfl) hF.stable (fun _ _ _ _ => trivial)
    fun s i b s' hs hinv _ hx => ?_
  have hx : exec t i s .acquire = some (b, s') := hx
  simp only [exec, Option.ite_none_right_eq_some, Option.some.injEq, Prod.mk.injEq] at hx
  obtain ⟨hfree, -, rfl⟩ := hx
  have hgood := hinv.good hfree
  refine ⟨⟨fun h => h.relock _ s.asleep (by simp), fun u _ hu => ?_, fun _ _ h => h,
    fun _ _ h => ⟨h, rfl⟩⟩, hF.frame s _ s.asleep hs, rfl, hgood.sleepers, hgood.empty⟩
  simp [hfree] at hu

theorem release_rule {F φ : State P → Prop} (hF : Ctx t F) (hφ : Kept φ)
    (hgood : ∀ s, Inv s → F s → φ s → Good s) :
    (logic P).Triple t (fun s => F s ∧ Held t φ s) release fun _ => F := by
  refine held_act hF hφ (fun _ _ _ => trivial) fun s i b s' hs hinv hx => ?_
  simp only [exec, Option.some.injEq, Prod.mk.injEq] at hx
  obtain ⟨-, rfl⟩ := hx
  have hg := hgood s hinv hs.1 hs.2.2
  exact ⟨hinv.relock none s.asleep fun _ => ⟨hg.sleepers, hg.empty⟩, fun _ _ h => h,
    fun _ _ h => ⟨h, rfl⟩, hF.frame s _ s.asleep hs.1⟩

/-- `sleep` gives the lock up, for a reason, and takes it again. -/
theorem sleep_rule {φ : State P → Prop} (hφ : Kept φ)
    (hgood : ∀ s, Inv s → φ s → Good s ∧ (0 < s.log.outstanding ∨ s.log.committing = true)) :
    (logic P).Triple t (fun s => True ∧ Held t φ s) sleep fun _ s => True ∧ Held t Good s := by
  refine Triple.bind (held_act (Q := fun _ _ => True) ctx_true hφ (fun _ _ _ => trivial)
    fun s i b s' hs hinv hx => ?_) fun _ => Triple.bind (R := fun _ _ => True) ?_
      fun _ => acquire_rule ctx_true
  · simp only [exec, Option.some.injEq, Prod.mk.injEq] at hx
    obtain ⟨-, rfl⟩ := hx
    obtain ⟨hg, hreason⟩ := hgood s hinv hs.2.2
    exact ⟨hinv.relock none _ fun _ => ⟨fun _ _ => hreason, hg.empty⟩, fun _ _ h => h,
      fun _ _ h => ⟨h, rfl⟩, trivial⟩
  · refine look_act ctx_true.stable (fun _ _ _ => trivial) fun s i b s' _ _ hx => ?_
    simp only [exec, Option.ite_none_right_eq_some, Option.some.injEq, Prod.mk.injEq] at hx
    exact ⟨hx.2.2.symm, trivial⟩

theorem wakeup_rule {F φ : State P → Prop} (hF : Ctx t F) (hφ : Kept φ)
    (hframe : ∀ s a, φ s → φ { s with asleep := a }) :
    (logic P).Triple t (fun s => F s ∧ Held t φ s) wakeup
      fun _ s => F s ∧ Held t (fun s => φ s ∧ ∀ q, s.asleep q = false) s := by
  refine held_act hF hφ (fun _ _ _ => trivial) fun s i b s' hs hinv hx => ?_
  simp only [exec, Option.some.injEq, Prod.mk.injEq] at hx
  obtain ⟨-, rfl⟩ := hx
  refine ⟨hinv.relock s.lock _ fun hfree => ?_, fun _ _ h => h, fun _ _ h => ⟨h, rfl⟩,
    hF.frame s s.lock _ hs.1, hs.2.1, hframe s _ hs.2.2, fun _ => rfl⟩
  simp [hs.2.1] at hfree

omit [DecidableEq P] in
theorem kept_awake : Kept fun s : State P => ∀ q, s.asleep q = false := by
  intro s s' _ hr hs q
  cases hq : s'.asleep q with
  | false => rfl
  | true => rw [← hs q, hr.woken q hq]

omit [DecidableEq P] in
theorem Inv.next_of_held {s s' : State P} (hlock : s.lock = some t) (heq : s'.lock = s.lock)
    (hcount : s'.log.outstanding = s'.active.length)
    (hcommitting : s'.log.committing = s'.committer.isSome)
    (hquiet : s'.committer ≠ none → s'.active = []) : Inv s' where
  count := hcount
  committing := hcommitting
  quiet := hquiet
  good h := by simp [heq, hlock] at h

/-- `log.outstanding += 1`. -/
theorem reserve_rule {φ : State P → Prop} (hφ : Kept φ)
    (hidle : ∀ s, Inv s → φ s → s.committer = none) :
    (logic P).Triple t (fun s => True ∧ Held t φ s) (.perform .reserve)
      fun _ s => Mine True t s ∧ Held t (fun s => 0 < s.log.outstanding) s := by
  refine held_act ctx_true hφ (fun _ _ _ => trivial) fun s i b s' hs hinv hx => ?_
  simp only [exec, Option.some.injEq, Prod.mk.injEq] at hx
  obtain ⟨-, rfl⟩ := hx
  have hnone := hidle s hinv hs.2.2
  have hnonneg := hinv.outstanding_nonneg
  refine ⟨Inv.next_of_held hs.2.1 rfl ?_ hinv.committing fun h => absurd hnone h,
    fun u _ h => List.mem_cons_of_mem t h, fun _ _ h => ⟨h, rfl⟩,
    fun _ => List.mem_cons_self, hs.2.1, ?_⟩
  · simp [hinv.count]
  · show 0 < s.log.outstanding + 1
    omega

/-- `log.outstanding -= 1`. -/
theorem unreserve_rule :
    (logic P).Triple t (fun s => Mine True t s ∧ Held t Good s) (.perform .unreserve)
      fun _ s => True ∧ Held t (fun s => s.committer = none ∧ True) s := by
  refine held_act (ctx_mine True) kept_good (fun _ _ _ => trivial) fun s i b s' hs hinv hx => ?_
  simp only [exec, Option.some.injEq, Prod.mk.injEq] at hx
  obtain ⟨-, rfl⟩ := hx
  have hmem : t ∈ s.active := hs.1 trivial
  have hlen := List.length_pos_of_mem hmem
  have hnone : s.committer = none := by
    by_contra hne
    simp [hinv.quiet hne] at hmem
  refine ⟨Inv.next_of_held hs.2.1 rfl ?_ hinv.committing fun h => absurd hnone h,
    fun u hu h => (List.mem_erase_of_ne hu).2 h, fun _ _ h => ⟨h, rfl⟩, trivial, hs.2.1,
    hnone, trivial⟩
  simp only [hinv.count, List.length_erase_of_mem hmem]
  omega

/-- `log.committing = 1`. -/
theorem commits_rule :
    (logic P).Triple t
      (fun s => True ∧ Held t (fun s => (s.committer = none ∧ True) ∧ s.log.outstanding = 0) s)
      (.perform (.commits true))
      fun _ s => Commits t (fun _ => True) s ∧ Held t (fun _ => True) s := by
  refine held_act ctx_true ((kept_n fun _ => True).and (kept_outstanding (· = 0)))
    (fun _ _ _ => trivial) fun s i b s' hs hinv hx => ?_
  simp only [exec, Option.some.injEq, Prod.mk.injEq] at hx
  obtain ⟨-, rfl⟩ := hx
  have hidle := hs.2.2.1.1
  have hempty : s.active = [] := by
    have hcount := hinv.count
    rw [hs.2.2.2] at hcount
    exact List.length_eq_zero_iff.1 (by omega)
  refine ⟨Inv.next_of_held hs.2.1 rfl hinv.count rfl fun _ => hempty, fun _ _ h => h,
    fun u _ h => ?_, ⟨rfl, trivial⟩, hs.2.1, trivial⟩
  simp [hidle] at h

/-- `log.committing = 0`. -/
theorem uncommits_rule :
    (logic P).Triple t (fun s => Commits t (· = 0) s ∧ Held t Good s)
      (.perform (.commits false))
      fun _ s => True ∧ Held t (fun s => s.committer = none ∧ s.log.lh.n = 0) s := by
  refine held_act (ctx_commits _) kept_good (fun s hs _ => hs.1.2) fun s i b s' hs hinv hx => ?_
  simp only [exec, Option.some.injEq, Prod.mk.injEq] at hx
  obtain ⟨-, rfl⟩ := hx
  refine ⟨Inv.next_of_held hs.2.1 rfl hinv.count rfl fun h => absurd rfl h, fun _ _ h => h,
    fun u hu h => ?_, trivial, hs.2.1, rfl, hs.1.2⟩
  rw [hs.1.1] at h
  exact absurd (Option.some.inj h).symm hu

/-- What the holder of the lock reads. -/
theorem see_rule {β : Type} {F φ : State P → Prop} (ψ : β → State P → Prop) (hF : Ctx t F)
    (hφ : Kept φ) (f : Vars → β) (h : ∀ s, Inv s → φ s → ψ (f s.log) s) :
    (logic P).Triple t (fun s => F s ∧ Held t φ s) (read f)
      fun b s => F s ∧ Held t (fun s => φ s ∧ ψ b s) s := by
  refine (read_rule (hF.held hφ) f).post fun b s hs => ?_
  obtain ⟨⟨hF, hlock, hφs⟩, hinv, rfl⟩ := hs
  exact ⟨hF, hlock, hφs, h s hinv hφs⟩

/-! ## `begin_op` -/

omit [DecidableEq P] in
/-- Who finds no room in the log does not wait for nothing: an operation is
outstanding, since an idle log is empty. -/
theorem outstanding_of_full {s : State P} (hinv : Inv s) (hgood : Good s)
    (hidle : s.log.committing = false)
    (hfull : (s.log.lh.n : Int) + (s.log.outstanding + 1) * MAXOPBLOCKS > LOGSIZE) :
    0 < s.log.outstanding := by
  have hnonneg := hinv.outstanding_nonneg
  by_contra hnot
  have hzero : s.log.outstanding = 0 := by omega
  have hempty := hgood.empty hzero hidle
  rw [hempty, hzero] at hfull
  exact absurd hfull (by decide)

theorem beginOp_rule : (logic P).Triple t (fun _ => True) beginOp fun _ => Mine True t := by
  refine Triple.bind (acquire_rule ctx_true) fun _ => ?_
  refine Triple.loop (fun _ s => True ∧ Held t Good s) (fun _ => ctx_true.held kept_good)
    fun _ => ?_
  refine (see_rule (fun c s => s.log.committing = c) ctx_true kept_good Vars.committing
    fun _ _ _ => rfl).bind fun committing => ?_
  have hcommitting := kept_good.and (kept_committing (P := P) committing)
  refine Triple.ite (fun hyes => ?_) fun hno => ?_
  · refine (sleep_rule hcommitting fun s _ hs => ⟨hs.1, .inr ?_⟩).bind fun _ _ hs => hs
    rw [hs.2, hyes]
  · have hidle : committing = false := by simpa using hno
    refine (see_rule (fun n s => s.committer = none ∧ s.log.lh.n = n) ctx_true hcommitting _
      fun s hinv hs => ⟨hinv.committer_eq_none (hs.2.trans hidle), rfl⟩).bind fun n => ?_
    have hn := hcommitting.and (kept_n (P := P) (· = n))
    refine (see_rule (fun o s => s.log.outstanding = o) ctx_true hn Vars.outstanding
      fun _ _ _ => rfl).bind fun outstanding => ?_
    have hseen := hn.and (kept_outstanding (P := P) (· = outstanding))
    refine Triple.ite (fun hfull => ?_) fun _ => ?_
    · refine (sleep_rule hseen fun s hinv hs => ?_).bind fun _ _ hs => hs
      obtain ⟨⟨⟨hgood, hcom⟩, -, rfl⟩, rfl⟩ := hs
      exact ⟨hgood, .inl (outstanding_of_full hinv hgood (hcom.trans hidle) hfull)⟩
    · refine (reserve_rule hseen fun s _ hs => hs.1.2.1).bind fun _ => ?_
      exact (release_rule (ctx_mine True) (kept_outstanding _) fun s _ _ ho =>
        .of_outstanding ho).bind fun _ _ hs => hs

/-! ## `log_write` -/

omit [DecidableEq P] in
theorem kept_busy : Kept fun s : State P => 0 < s.log.outstanding := kept_outstanding (0 < ·)

theorem busy_stable (K : Prop) :
    (logic P).Stable t fun s => Mine K t s ∧ Held t (fun s => 0 < s.log.outstanding) s :=
  (ctx_mine K).held kept_busy

theorem busy_read {β : Type} (K : Prop) (f : Vars → β) :
    (logic P).Triple t (fun s => Mine K t s ∧ Held t (fun s => 0 < s.log.outstanding) s) (read f)
      fun _ s => Mine K t s ∧ Held t (fun s => 0 < s.log.outstanding) s :=
  (read_rule (busy_stable K) f).post fun _ _ hs => hs.1

/-- A change of the header during an operation. -/
theorem header_rule (K : Prop) {o : Op P Unit} (f : Header → Header)
    (hsafe : ∀ s, safe Unit t o s)
    (hexec : ∀ i s, exec t i s o = some ((), { s with log := { s.log with lh := f s.log.lh } })) :
    (logic P).Triple t (fun s => Mine K t s ∧ Held t (fun s => 0 < s.log.outstanding) s)
      (.perform o)
      fun _ s => Mine K t s ∧ Held t (fun s => 0 < s.log.outstanding) s := by
  refine held_act (ctx_mine K) kept_busy (fun s _ _ => hsafe s) fun s i b s' hs hinv hx => ?_
  simp only [hexec, Option.some.injEq, Prod.mk.injEq] at hx
  obtain ⟨-, rfl⟩ := hx
  -- nobody commits while an operation is outstanding
  have hnone := hinv.committer_eq_none_of_outstanding hs.2.2
  refine ⟨Inv.next_of_held hs.2.1 rfl hinv.count hinv.committing hinv.quiet, fun _ _ h => h,
    fun u _ h => ?_, hs.1, hs.2.1, hs.2.2⟩
  simp [hnone] at h

theorem findBlock_rule (K : Prop) (b : BlockNo) :
    (logic P).Triple t (fun s => Mine K t s ∧ Held t (fun s => 0 < s.log.outstanding) s)
      (findBlock b)
      fun _ s => Mine K t s ∧ Held t (fun s => 0 < s.log.outstanding) s := by
  refine Triple.loop (fun _ s => Mine K t s ∧ Held t (fun s => 0 < s.log.outstanding) s)
    (fun _ => busy_stable K) fun i => ?_
  refine (busy_read K _).bind fun n => Triple.ite (fun _ => ?_) fun _ _ hs => hs
  exact (busy_read K _).bind fun b' => Triple.ite (fun _ _ hs => hs) fun _ _ hs => hs

theorem logWrite_rule (K : Prop) (b : BlockNo) :
    (logic P).Triple t (Mine K t) (logWrite b) fun _ => Mine K t := by
  have hstable := (ctx_mine (t := t) K).held (kept_good (P := P))
  refine Triple.bind (acquire_rule (ctx_mine K)) fun _ => ?_
  refine Triple.bind ((read_rule hstable _).post fun _ _ hs => hs.1) fun n => ?_
  refine Triple.bind ((read_rule hstable _).post fun _ _ hs => hs.1) fun size => ?_
  refine Triple.ite (fun _ => panic_rule hstable _) fun _ => ?_
  refine (see_rule (fun o s => s.log.outstanding = o) (ctx_mine K) kept_good Vars.outstanding
    fun _ _ _ => rfl).bind fun outstanding => ?_
  have hseen := kept_good.and (kept_outstanding (P := P) (· = outstanding))
  refine Triple.ite (fun _ => panic_rule ((ctx_mine K).held hseen) _) fun hbusy => ?_
  refine Triple.bind ((findBlock_rule K b).pre fun s hs => ⟨hs.1, hs.2.1, ?_⟩) fun i => ?_
  · have ho := hs.2.2.2
    omega
  refine (header_rule (t := t) K (o := .setBlock i b)
    (fun lh => { lh with block := Function.update lh.block i b }) (fun _ => trivial)
    fun _ _ => rfl).bind fun _ => ?_
  have hrelease := release_rule (ctx_mine (t := t) K) (kept_busy (P := P)) fun s _ _ ho =>
    .of_outstanding ho
  refine (busy_read K _).bind fun n' => Triple.ite (fun _ => ?_) fun _ => hrelease
  refine Triple.bind
    (R := fun _ s => Mine K t s ∧ Held t (fun s => 0 < s.log.outstanding) s)
    (look_act (busy_stable K) (fun _ _ _ => trivial) fun s i b s' hs _ hx => ?_) fun _ => ?_
  · simp only [exec, Option.some.injEq, Prod.mk.injEq] at hx
    exact ⟨hx.2.symm, hs⟩
  · exact (header_rule (t := t) K (o := .push) (fun lh => { lh with n := lh.n + 1 }) (fun _ => trivial)
      fun _ _ => rfl).bind fun _ => hrelease

/-! ## `commit` -/

theorem commit_read {β : Type} (ν : Nat → Prop) (f : Vars → β) :
    (logic P).Triple t (Commits t ν) (read f) fun _ => Commits t ν :=
  (read_rule (ctx_commits ν).stable f).post fun _ _ hs => hs.1

/-- A use of a buffer during a commit. -/
theorem buffer_rule (ν : Nat → Prop) {o : Op P Unit}
    (hsafe : ∀ s, s.log.committing = true ∧ s.log.outstanding = 0 → safe Unit t o s)
    (hexec : ∀ i s, exec t i s o = some ((), s)) :
    (logic P).Triple t (Commits t ν) (.perform o) fun _ => Commits t ν := by
  refine look_act (ctx_commits ν).stable (fun s hs hinv => hsafe s (hinv.commits hs.1))
    fun s i b s' hs _ hx => ?_
  simp only [hexec, Option.some.injEq, Prod.mk.injEq] at hx
  exact ⟨hx.2.symm, hs⟩

theorem bread_rule (ν : Nat → Prop) (b : BlockNo) :
    (logic P).Triple t (Commits t ν) (bread b) fun _ => Commits t ν :=
  buffer_rule ν (fun _ h => h) fun _ _ => rfl

theorem bwrite_rule (ν : Nat → Prop) (b : BlockNo) :
    (logic P).Triple t (Commits t ν) (bwrite b) fun _ => Commits t ν :=
  buffer_rule ν (fun _ h => h) fun _ _ => rfl

theorem brelse_rule (ν : Nat → Prop) (b : BlockNo) :
    (logic P).Triple t (Commits t ν) (brelse b) fun _ => Commits t ν :=
  buffer_rule ν (fun _ h => h) fun _ _ => rfl

theorem forTail_rule (ν : Nat → Prop) {body : Nat → Code P Unit}
    (hbody : ∀ tail, (logic P).Triple t (Commits t ν) (body tail) fun _ => Commits t ν) :
    (logic P).Triple t (Commits t ν) (forTail body) fun _ => Commits t ν := by
  refine Triple.loop (fun _ => Commits t ν) (fun _ => (ctx_commits ν).stable) fun tail => ?_
  refine (commit_read ν _).bind fun n => Triple.ite (fun _ => ?_) fun _ _ hs => hs
  exact (hbody tail).bind fun _ _ hs => hs

theorem writeLog_rule (ν : Nat → Prop) :
    (logic P).Triple t (Commits t ν) writeLog fun _ => Commits t ν := by
  refine forTail_rule ν fun tail => ?_
  refine (commit_read ν _).bind fun start => (bread_rule ν _).bind fun _ => ?_
  refine (commit_read ν _).bind fun b => (bread_rule ν _).bind fun _ => ?_
  exact (bwrite_rule ν _).bind fun _ => (brelse_rule ν _).bind fun _ => brelse_rule ν _

theorem writeHead_rule (ν : Nat → Prop) :
    (logic P).Triple t (Commits t ν) writeHead fun _ => Commits t ν := by
  refine (commit_read ν _).bind fun start => (bread_rule ν _).bind fun _ => ?_
  refine (commit_read ν _).bind fun n => Triple.bind (R := fun _ => Commits t ν) ?_ fun _ => ?_
  · exact forTail_rule ν fun i => (commit_read ν _).bind fun _ _ hs => hs
  · exact (bwrite_rule ν _).bind fun _ => brelse_rule ν _

theorem installTrans_rule (ν : Nat → Prop) :
    (logic P).Triple t (Commits t ν) installTrans fun _ => Commits t ν := by
  refine forTail_rule ν fun tail => ?_
  refine (commit_read ν _).bind fun start => (bread_rule ν _).bind fun _ => ?_
  refine (commit_read ν _).bind fun b => (bread_rule ν _).bind fun _ => ?_
  refine (bwrite_rule ν _).bind fun _ => Triple.bind ?_ fun _ =>
    (brelse_rule ν _).bind fun _ => brelse_rule ν _
  exact buffer_rule ν (fun _ h => h) fun _ _ => rfl

/-- `log.lh.n = 0`. -/
theorem clear_rule :
    (logic P).Triple t (Commits t fun _ => True) (.perform .clear) fun _ => Commits t (· = 0) := by
  refine Triple.act (fun _ _ => rfl) (ctx_commits _).stable
    (fun s hs hinv _ => hinv.commits hs.1) fun s i b s' hs hinv _ hx => ?_
  have hx : exec t i s .clear = some (b, s') := hx
  simp only [exec, Option.some.injEq, Prod.mk.injEq] at hx
  obtain ⟨-, rfl⟩ := hx
  have hcommitting := (hinv.commits hs.1).1
  refine ⟨⟨fun h => ⟨h.count, h.committing, h.quiet, fun hfree => ?_⟩, fun u _ hu => ?_,
    fun _ _ h => h, fun u hu h => ?_⟩, hs.1, rfl⟩
  · exact ⟨fun _ _ => .inr hcommitting, fun _ _ => rfl⟩
  · exact ⟨hu, rfl, rfl, rfl, rfl, fun h => by simp [hs.1] at h, fun _ h => h⟩
  · rw [hs.1] at h
    exact absurd (Option.some.inj h).symm hu

/-- After a commit the header is empty. -/
theorem commit_rule :
    (logic P).Triple t (Commits t fun _ => True) commit fun _ => Commits t (· = 0) := by
  refine Triple.bind (R := fun n => Commits t (· = n))
    ((read_rule (ctx_commits _).stable _).post fun _ _ hs => ⟨hs.1.1, hs.2.2⟩) fun n => ?_
  refine Triple.ite (fun _ => ?_) fun hn s hs => ⟨hs.1, ?_⟩
  · refine Triple.pre (?_ : (logic P).Triple t (Commits t fun _ => True) _ _)
      fun s hs => ⟨hs.1, trivial⟩
    refine Triple.bind (writeLog_rule _) fun _ => Triple.bind (writeHead_rule _) fun _ => ?_
    refine Triple.bind (installTrans_rule _) fun _ => ?_
    exact Triple.bind clear_rule fun _ => writeHead_rule _
  · have hempty := hs.2
    omega

/-! ## `end_op` -/

theorem endOp_rule : (logic P).Triple t (Mine True t) endOp fun _ _ => True := by
  refine Triple.bind (acquire_rule (ctx_mine True)) fun _ => unreserve_rule.bind fun _ => ?_
  have hidle := kept_n (P := P) fun _ => True
  refine Triple.bind ((read_rule (ctx_true.held hidle) _).post fun _ _ hs => hs.1) fun c => ?_
  refine Triple.ite (fun _ => panic_rule (ctx_true.held hidle) _) fun _ => ?_
  refine (see_rule (fun o s => s.log.outstanding = o) ctx_true hidle Vars.outstanding
    fun _ _ _ => rfl).bind fun outstanding => ?_
  refine Triple.ite (fun hlast => ?_) fun hmore => ?_
  · -- the last outstanding operation commits
    refine Triple.bind (commits_rule.pre fun s hs => ⟨hs.1, hs.2.1, hs.2.2.1, ?_⟩) fun _ => ?_
    · rw [← hlast]
      exact hs.2.2.2
    refine (release_rule (ctx_commits _) (fun _ _ _ _ h => h) fun s hinv hs _ => ?_).bind
      fun _ => ?_
    · have hcommitting := (hinv.commits hs.1).1
      exact ⟨fun _ _ => .inr hcommitting, fun _ hno => by simp [hcommitting] at hno⟩
    refine commit_rule.bind fun _ => (acquire_rule (ctx_commits _)).bind fun _ => ?_
    refine uncommits_rule.bind fun _ => ?_
    refine (wakeup_rule ctx_true (kept_n (· = 0)) fun _ _ h => h).bind fun _ => ?_
    refine release_rule ctx_true ((kept_n (P := P) (· = 0)).and kept_awake) fun s _ _ hs => ?_
    exact ⟨fun q hq => by simp [hs.2 q] at hq, fun _ _ => hs.1.2⟩
  · have hseen := hidle.and (kept_outstanding (P := P) (· = outstanding))
    refine (wakeup_rule ctx_true hseen fun _ _ h => h).bind fun _ => ?_
    refine release_rule ctx_true (hseen.and kept_awake) fun s _ _ hs => ?_
    exact ⟨fun q hq => by simp [hs.2 q] at hq, fun ho => absurd (hs.1.2.symm.trans ho) hmore⟩

/-! ## Every run -/

theorem next_rule (K : Prop) :
    (logic P).Triple t (Mine K t) (.perform .next) fun _ => Mine K t := by
  refine look_act (ctx_mine K).stable (fun _ _ _ => trivial) fun s i b s' hs _ hx => ?_
  simp only [exec, Option.some.injEq, Prod.mk.injEq] at hx
  exact ⟨hx.2.symm, hs⟩

theorem fsOp_rule : (logic P).Triple t (fun _ => True) fsOp fun _ _ => True := by
  refine Triple.bind beginOp_rule fun _ => Triple.bind (R := fun _ => Mine True t) ?_
    fun _ => endOp_rule
  refine Triple.loop (fun _ => Mine True t) (fun _ => (ctx_mine True).stable) fun _ => ?_
  refine (next_rule True).bind fun call => ?_
  rcases call with _ | (_ | b | q)
  · exact fun _ hs => hs
  · exact fun _ hs => hs
  · exact (logWrite_rule True b).bind fun _ _ hs => hs
  · exact fun _ hs => hs

theorem kill_rule (q : P) :
    (logic P).Triple t (fun _ => True) (.perform (.kill q)) fun _ _ => True := by
  refine Triple.act (fun _ _ => rfl) ctx_true.stable (fun _ _ _ _ => trivial)
    fun s i b s' _ hinv _ hx => ?_
  have hx : exec t i s (.kill q) = some (b, s') := hx
  simp only [exec, Option.some.injEq, Prod.mk.injEq] at hx
  obtain ⟨-, rfl⟩ := hx
  have hwoken : ∀ u, Function.update s.asleep q false u = true → s.asleep u = true := by
    intro u hu
    by_cases heq : u = q
    · simp [heq] at hu
    · simpa [heq] using hu
  refine ⟨⟨fun h => h.relock s.lock _ fun hfree => ⟨fun u hu => ?_, (h.good hfree).empty⟩,
    fun _ _ hu => ⟨hu, rfl, rfl, rfl, rfl, fun _ => rfl, hwoken⟩, fun _ _ h => h,
    fun _ _ h => ⟨h, rfl⟩⟩, trivial⟩
  exact (h.good hfree).sleepers u (hwoken u hu)

theorem main_rule : (logic P).Triple t (fun _ => True) main fun _ _ => False := by
  refine Triple.forever ctx_true.stable ?_
  refine Triple.bind (((next_rule False).pre fun _ _ h => h.elim).post fun _ _ _ => trivial)
    fun call => ?_
  rcases call with _ | (_ | b | q)
  · exact fun _ hs => hs
  · exact fsOp_rule
  · exact ((logWrite_rule False b).pre fun _ _ h => h.elim).post fun _ _ _ => trivial
  · exact kill_rule q

omit [DecidableEq P] in
theorem inv_new (logstart size : Int) : Inv (State.new (P := P) logstart size) where
  count := rfl
  committing := rfl
  quiet h := absurd rfl h
  good _ := ⟨fun q hq => by simp [State.new] at hq, fun _ _ => rfl⟩

/-- Who sleeps in `begin_op` will be woken up, and a commit is alone. -/
theorem sleepers_awaited (logstart size : Int) (g : Config (Op P) (State P) P)
    (hg : (machine P).Reach Machine.always (start logstart size) g) :
    (g.mem.lock = none → ∀ p, g.mem.asleep p = true →
        g.mem.active ≠ [] ∨ g.mem.committer ≠ none) ∧
      (g.mem.log.outstanding = g.mem.active.length ∧
        g.mem.log.committing = g.mem.committer.isSome) ∧
      (g.mem.committer ≠ none → g.mem.active = []) ∧
      (∀ p (o : Op P Unit), (machine P).Next g p o → safe Unit p o g.mem) ∧
      (g.mem.lock = none → g.mem.active = [] → g.mem.committer = none → g.mem.log.lh.n = 0) := by
  obtain ⟨hinv, hsafe⟩ := Logic.inv_of_reach (fun _ => trivial) (fun _ => rfl)
    (inv_new logstart size) (fun _ => wp_mono (fun _ _ h => h.elim) (main_rule _ trivial)) hg
  refine ⟨fun hfree p hp => ?_, ⟨hinv.count, hinv.committing⟩, hinv.quiet,
    fun p o hn => hsafe Unit p o hn trivial, fun hfree hactive hcommitter => ?_⟩
  · rcases (hinv.good hfree).sleepers p hp with ho | hc
    · refine .inl fun hactive => ?_
      simp [hinv.count, hactive] at ho
    · refine .inr fun hcommitter => ?_
      simp [hinv.committing, hcommitter] at hc
  · exact (hinv.good hfree).empty (by simp [hinv.count, hactive])
      (by simp [hinv.committing, hcommitter])

/-- Three operations use up the log, and a fourth process sleeps. -/
def fourth : List (Fin 4 × Input (Fin 4)) :=
  let begins (p : Fin 4) : List (Fin 4 × Input (Fin 4)) := (p, none) :: (p, some .op) :: List.replicate 7 (p, none)
  begins 0 ++ begins 1 ++ begins 2 ++ (begins 3).take 8

theorem sleepers_awaited_fourth : ∃ g : Config (Op (Fin 4)) (State (Fin 4)) (Fin 4),
    (machine (Fin 4)).Reach Machine.always (start 2 30) g ∧ g.mem.asleep 3 = true ∧
      (g.mem.active ≠ [] ∨ g.mem.committer ≠ none) := by
  have hview : ((machine (Fin 4)).run Machine.always fourth (start 2 30)).map
      (fun g => (g.mem.lock, g.mem.asleep 3)) = some (none, true) := by decide
  obtain ⟨g, hrun, hg⟩ := Option.map_eq_some_iff.1 hview
  obtain ⟨hlock, hasleep⟩ := Prod.mk.inj hg
  have hreach := Machine.reach_of_run _ _ .start hrun
  exact ⟨g, hreach, hasleep, (sleepers_awaited _ _ g hreach).1 hlock 3 hasleep⟩

end Xv6.LogOps
