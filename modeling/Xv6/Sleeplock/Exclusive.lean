import Xv6.Sleeplock.Rules

/-!
# A sleep-lock excludes, and nobody oversleeps

The calls of `kernel/sleeplock.c`, one rule for each, and from them what holds
in every run.
-/

namespace Xv6.Sleeplock

open Conc Conc.Logic

variable {P : Type} [DecidableEq P] {t : P} {procs : Procs P} {i o b : Bool}

/-- What the process knows that has just taken `lk->lk`. -/
def Fresh (procs : Procs P) (t : P) (i o : Bool) (s : State P) : Prop :=
  Base t i o s ∧ HasLk t (Good procs) s ∧ Calm t s

theorem ctx_fresh : Ctx procs t (Fresh procs t i o) :=
  (ctx_base i o).and ((ctx_hasLk _).and ctx_calm)

/-! ## `sleep`, `wakeup` and `kill` -/

theorem sleep_rule :
    (logic procs).Triple t
      (fun s => Base t i o s ∧ HasLk t (fun l p ow => l ≠ 0 ∧ Good procs l p ow) s) sleep
      fun _ => Fresh procs t i o := by
  have hlocked : Ctx procs t fun s =>
      Base t i o s ∧ HasLk t (fun l p ow => l ≠ 0 ∧ Good procs l p ow) s :=
    (ctx_base i o).and (ctx_hasLk _)
  refine Triple.bind (myproc_rule hlocked.stable) fun p => Triple.of_pure ?_
  rintro rfl
  refine Triple.bind (acquire_proc hlocked p) fun _ => ?_
  refine Triple.bind (giveUp_rule i o) fun _ => ?_
  refine Triple.bind (setChan_rule (ctx_own i o)) fun _ => ?_
  refine Triple.bind (fallAsleep_rule (ctx_own i o)) fun _ => ?_
  refine Triple.bind (swtch_rule (ctx_own i o)) fun _ => ?_
  refine Triple.bind (resume_rule i o) fun _ => ?_
  refine Triple.bind (clearChan_rule (ctx_base i o)) fun _ => ?_
  refine Triple.bind (release_proc (ctx_base i o) fun s hs _ => hs.2) fun _ => ?_
  exact acquire_lk i o

theorem wakeOne_rule {φ : I32 → I32 → Option P → Prop} (qs : List P) (q : P) :
    (logic procs).Triple t (fun s => (Base t i o s ∧ HasLk t φ s) ∧ Woken t qs s)
      (wakeOne q)
      fun _ s => (Base t i o s ∧ HasLk t φ s) ∧ Woken t (q :: qs) s := by
  have hF : Ctx procs t fun s => (Base t i o s ∧ HasLk t φ s) ∧ Woken t qs s :=
    ((ctx_base i o).and (ctx_hasLk φ)).and (ctx_woken qs)
  have hF' : Ctx procs t fun s => (Base t i o s ∧ HasLk t φ s) ∧ Woken t (q :: qs) s :=
    ((ctx_base i o).and (ctx_hasLk φ)).and (ctx_woken (q :: qs))
  have hcons : ∀ s, (Base t i o s ∧ HasLk t φ s) ∧ Woken t qs s → s.waits q = false →
      (Base t i o s ∧ HasLk t φ s) ∧ Woken t (q :: qs) s := by
    intro s hs hq
    refine ⟨hs.1, hs.2.1, fun r hr => ?_⟩
    rcases List.mem_cons.1 hr with rfl | hr
    · exact hq
    · exact hs.2.2 r hr
  have hrelease : (logic procs).Triple t
      (fun s => ((Base t i o s ∧ HasLk t φ s) ∧ Woken t (q :: qs) s) ∧
        HasProc t q (fun _ _ _ => True) s) (release (.proc q))
      fun _ s => (Base t i o s ∧ HasLk t φ s) ∧ Woken t (q :: qs) s :=
    release_proc hF' fun s hs _ => hs.1.1.2
  refine Triple.bind (myproc_rule hF.stable) fun p => Triple.of_pure ?_
  rintro rfl
  refine Triple.ite (fun hne => ?_) fun heq => ?_
  · refine Triple.bind (acquire_proc hF q) fun _ => ?_
    have hheld := hF.stable.and _ (hasProc_stable q fun _ _ _ => True)
    refine Triple.bind ((read_rule hheld _).post
      (Q := fun state s => (((Base p i o s ∧ HasLk p φ s) ∧ Woken p qs s)) ∧
        HasProc p q (fun st _ _ => st = state) s) fun _ s hs => ⟨hs.1.1, hs.1.2.1, hs.2.2⟩)
      fun state => ?_
    have hheld' := hF.stable.and _ (hasProc_stable q fun st _ _ => st = state)
    refine Triple.bind (read_rule hheld' _) fun chan => ?_
    refine Triple.ite (fun _ => ?_) fun hawake => ?_
    · refine Triple.bind ((wake_rule hF).pre fun s hs => hs.1) fun _ => ?_
      exact hrelease.pre fun s hs => ⟨hcons s hs.1 hs.2.2, hs.2.1, trivial⟩
    · refine hrelease.pre fun s hs => ?_
      obtain ⟨⟨hall, hspin, hstate⟩, hinv, hchan⟩ := hs
      refine ⟨hcons s hall ?_, hspin, trivial⟩
      -- its lock is not its own, so it would have to sleep
      cases hw : s.waits q with
      | false => rfl
      | true =>
        rcases hinv.dozing q hw with hself | hsleep
        · rw [hspin] at hself
          exact absurd (Option.some.inj hself).symm hne
        · rw [hstate, hchan] at hsleep
          exact absurd hsleep hawake
  · intro s hs
    obtain rfl : q = p := not_not.1 heq
    exact hcons s hs hs.1.1.2

/-- After `wakeup` nobody waits. -/
theorem wakeup_rule {φ : I32 → I32 → Option P → Prop} :
    (logic procs).Triple t (fun s => Base t i o s ∧ HasLk t φ s) (wakeup procs) fun _ s =>
      (Base t i o s ∧ HasLk t φ s) ∧ ∀ q, s.waits q = false := by
  have hloop : (logic procs).Triple t
      (fun s => ∃ qs, (∀ q ∈ procs.table, q ∈ qs ∨ q ∈ procs.table) ∧
        (Base t i o s ∧ HasLk t φ s) ∧ Woken t qs s) (wakeup procs)
      fun _ s => ∃ qs, (∀ q ∈ procs.table, q ∈ qs ∨ q ∈ []) ∧
        (Base t i o s ∧ HasLk t φ s) ∧ Woken t qs s :=
    Triple.foldM (fun rest _ s => ∃ qs, (∀ q ∈ procs.table, q ∈ qs ∨ q ∈ rest) ∧
      (Base t i o s ∧ HasLk t φ s) ∧ Woken t qs s) fun q rest _ => ?_
  · refine (hloop.pre fun s hs => ?_).post fun _ s hs => ?_
    · exact ⟨[], fun q hq => .inr hq, hs, hs.2.1, fun _ h => by cases h⟩
    · obtain ⟨qs, hqs, hall, hwoken⟩ := hs
      refine ⟨hall, fun q => ?_⟩
      rcases hqs q (procs.complete q) with hq | hq
      · exact hwoken.2 q hq
      · cases hq
  · rintro s ⟨qs, hqs, hs⟩
    refine wp_mono (fun _ s' hs' => ⟨q :: qs, fun r hr => ?_, hs'⟩) (wakeOne_rule qs q s hs)
    rcases hqs r hr with hr | hr
    · exact .inl (List.mem_cons_of_mem q hr)
    · rcases List.mem_cons.1 hr with rfl | hr
      · exact .inl List.mem_cons_self
      · exact .inr hr

theorem kill_rule (pid : I32) :
    (logic procs).Triple t (Base t i o) (kill procs pid) fun _ => Base t i o := by
  have hF : Ctx procs t (Base t i o) := ctx_base i o
  have hrelease : ∀ q ψ, (logic procs).Triple t (fun s => Base t i o s ∧ HasProc t q ψ s)
      (release (.proc q)) fun _ => Base t i o := fun q ψ => release_proc hF fun s hs _ => hs.2
  refine Triple.bind (R := fun _ => Base t i o) ?_ fun _ => fun _ hs => hs
  refine (Triple.findM? (J := fun _ => Base t i o) (Q := fun _ => Base t i o)
    fun q _ => ?_).post fun r s hs => ?_
  · refine Triple.bind (acquire_proc hF q) fun _ => ?_
    refine Triple.ite (fun _ => ?_) fun _ => ?_
    · refine Triple.bind (kill_flag_rule hF) fun _ => ?_
      refine Triple.bind (read_rule (hF.stable.and _ (hasProc_stable q _)) _) fun state => ?_
      refine Triple.ite (fun _ => ?_) fun _ => ?_
      · refine Triple.bind ((wake_rule hF).pre fun s hs => hs.1) fun _ => ?_
        exact Triple.bind (hrelease q _) fun _ => fun _ hs => hs
      · exact Triple.bind ((hrelease q _).pre fun s hs => hs.1) fun _ => fun _ hs => hs
    · exact Triple.bind (hrelease q _) fun _ => fun _ hs => hs
  · cases r <;> exact hs

/-! ## The lock -/

/-- `while (lk->locked) sleep(lk, &lk->lk)`. -/
theorem wait_rule :
    (logic procs).Triple t (Fresh procs t b b)
      (Prog.loop (fun () => do
        let locked ← read State.locked
        if locked ≠ 0 then
          sleep
          return .inl ()
        else
          return .inr ()) () : Code P Unit)
      fun _ s => Base t false false s ∧ HasLk t (fun _ _ ow => ow = none) s := by
  refine Triple.loop (fun _ => Fresh procs t b b) (fun _ => ctx_fresh.stable) fun _ => ?_
  refine Triple.bind (read_rule ctx_fresh.stable _) fun locked => ?_
  refine Triple.ite (fun htaken => ?_) fun hfree => ?_
  · refine Triple.bind (sleep_rule.pre fun s hs => ?_) fun _ => fun _ hs => hs
    obtain ⟨⟨hbase, hlk, -⟩, -, hlocked⟩ := hs
    refine ⟨hbase, hlk.1, ?_, hlk.2⟩
    rw [hlocked]
    exact htaken
  · intro s hs
    obtain ⟨⟨hbase, hlk, -⟩, hinv, hlocked⟩ := hs
    have hzero : s.locked = 0 := hlocked.trans (not_not.1 hfree)
    have hnone : s.owner = none := hinv.locked.1 hzero
    have hb : b = false := by
      have howner := hbase.1.2
      cases b with
      | false => rfl
      | true => simp [hnone] at howner
    subst hb
    exact ⟨hbase, hlk.1, hnone⟩

theorem acquiresleep_rule :
    (logic procs).Triple t (Base t b b) (acquiresleep procs) fun _ => Base t false true := by
  refine Triple.bind (acquire_lk b b) fun _ => ?_
  refine Triple.bind wait_rule fun _ => ?_
  refine Triple.bind (setLocked_rule false 1 fun _ _ _ h => .inl h) fun _ => ?_
  have htaken : Ctx procs t fun s => Base t false true s ∧
      HasLk t (fun l _ ow => l ≠ 0 ∧ ow = some t) s := (ctx_base false true).and (ctx_hasLk _)
  refine Triple.bind ((myproc_rule htaken.stable).pre fun s hs => ?_) fun p => Triple.of_pure ?_
  · obtain ⟨hbase, hlk, hlocked, howner⟩ := hs
    exact ⟨hbase, hlk, by simp [hlocked], howner⟩
  rintro rfl
  refine Triple.bind (setPid_rule (ψ := fun l pid ow => l ≠ 0 ∧ pid = procs.pid p ∧ ow = some p)
    (procs.pid p) fun _ _ _ h => ⟨h.1, rfl, h.2⟩) fun _ => ?_
  refine release_lk (ctx_base false true) (fun _ hs => hs) (fun l pid ow h q hq => ?_)
    fun s _ _ h hzero => absurd hzero h.1
  rw [h.2.2] at hq
  rw [h.2.1, Option.some.inj hq]

theorem releasesleep_rule :
    (logic procs).Triple t (Base t false true) (releasesleep procs) fun _ =>
      Base t false false := by
  refine Triple.bind (acquire_lk false true) fun _ => ?_
  refine Triple.bind (R := fun _ s => Base t false false s ∧
    HasLk t (fun _ _ ow => ow = none) s) ?_ fun _ => ?_
  · have hmine : ∀ s, Fresh procs t false true s →
        Base t false true s ∧ HasLk t (fun _ _ ow => ow = some t) s :=
      fun s hs => ⟨hs.1, hs.2.1.1, hs.1.1.2.2 rfl⟩
    refine ((setLocked_rule true 0 fun _ _ _ h => .inr h).pre hmine).post fun _ s hs => ?_
    exact ⟨hs.1, hs.2.1, hs.2.2.2⟩
  refine Triple.bind (setPid_rule (ψ := fun _ _ ow => ow = none) 0 fun _ _ _ h => h) fun _ => ?_
  refine Triple.bind (R := fun _ s => (Base t false false s ∧ Woken t procs.table s) ∧
    HasLk t (fun _ _ ow => ow = none) s) ?_ fun _ => ?_
  · refine wakeup_rule.post fun _ s hs => ?_
    exact ⟨⟨hs.1.1, hs.1.2.1, fun q _ => hs.2 q⟩, hs.1.2⟩
  · refine release_lk ((ctx_base false false).and (ctx_woken _)) (fun _ hs => hs.1)
      (fun _ _ ow h q hq => ?_) fun s hs _ _ _ q => hs.2.2 q (procs.complete q)
    rw [h] at hq
    cases hq

/-- `holdingsleep` gives the right answer. -/
theorem holdingsleep_rule :
    (logic procs).Triple t (Base t b b) (holdingsleep procs) fun r s => r = b ∧ Base t b b s := by
  have hrelease : (logic procs).Triple t (Fresh procs t b b) (release .lk) fun _ => Base t b b :=
    (release_lk ((ctx_base b b).and ctx_calm) (fun _ hs => hs.1) (fun _ _ _ h => h)
      fun s hs _ _ => hs.2.2).pre fun s hs => ⟨⟨hs.1, hs.2.2⟩, hs.2.1⟩
  refine Triple.bind (acquire_lk b b) fun _ => ?_
  refine Triple.bind (read_rule ctx_fresh.stable _) fun locked => ?_
  refine Triple.ite (fun htaken => ?_) fun hfree => ?_
  · -- the process that has set `locked` has set `pid` too
    have hpid : ∀ pid s, (Fresh procs t b b s ∧ HasLk t (fun l _ _ => l ≠ 0) s) ∧
        Inv procs s ∧ s.pid = pid → decide (pid = procs.pid t) = b ∧ Fresh procs t b b s := by
      rintro pid s ⟨⟨hfresh, hlocked⟩, hinv, rfl⟩
      refine ⟨?_, hfresh⟩
      obtain ⟨q, hq⟩ := Option.ne_none_iff_exists'.1 fun hnone => hlocked.2 (hinv.locked.2 hnone)
      have hown := hfresh.1.1.2
      have hgood := hfresh.2.1.2 q hq
      rw [hq, Option.some.injEq] at hown
      rw [hgood, Bool.eq_iff_iff, decide_eq_true_iff, ← hown]
      exact procs.distinct.eq_iff
    have hctx : Ctx procs t fun s => Fresh procs t b b s ∧ HasLk t (fun l _ _ => l ≠ 0) s :=
      ctx_fresh.and (ctx_hasLk _)
    refine Triple.bind ((read_rule hctx.stable _).pre fun s hs => ⟨hs.1, hs.1.2.1.1, ?_⟩)
      fun pid => ?_
    · rw [hs.2.2]
      exact htaken
    refine Triple.bind (R := fun p s => p = t ∧ decide (pid = procs.pid t) = b ∧
      Fresh procs t b b s) ?_ fun p => Triple.of_pure fun hp => Triple.of_pure fun hanswer => ?_
    · exact (myproc_rule ((Stable.const _ t _).and _ ctx_fresh.stable)).pre (hpid pid)
    · refine Triple.bind hrelease fun _ => fun s hs => ?_
      rw [hp]
      exact ⟨hanswer, hs⟩
  · have hnot : ∀ s, Fresh procs t b b s ∧ Inv procs s ∧ s.locked = locked →
        b = false ∧ Fresh procs t b b s := by
      rintro s ⟨hfresh, hinv, hlocked⟩
      have hnone := hinv.locked.1 (hlocked.trans (not_not.1 hfree))
      have hown := hfresh.1.1.2
      refine ⟨?_, hfresh⟩
      cases b with
      | false => rfl
      | true => simp [hnone] at hown
    refine Triple.pre (Triple.of_pure fun hb => ?_) hnot
    exact Triple.bind hrelease fun _ => fun s hs => ⟨hb.symm, hs⟩

/-! ## Every run -/

/-- A process between two calls. -/
def Idle (t : P) (s : State P) : Prop := ∃ b, Base t b b s

theorem call_rule : (logic procs).Triple t (Base t b b) (call procs) fun _ => Idle t := by
  refine Triple.bind (next_rule (ctx_base b b).stable) fun call => ?_
  rcases call with _ | (_ | _ | _ | pid)
  · exact fun s hs => ⟨b, hs⟩
  · refine Triple.bind acquiresleep_rule fun _ => ?_
    refine (mark_act (t := t) (o := .enter) (fun _ => trivial) fun s i a s' hx => ?_).post
      fun _ s hs => ⟨true, hs⟩
    simp only [exec, Option.some.injEq, Prod.mk.injEq] at hx
    exact hx.2.symm
  · refine Triple.bind (myproc_rule (ctx_base b b).stable) fun p => Triple.of_pure ?_
    rintro rfl
    refine Triple.bind (read_rule (ctx_base b b).stable _) fun inside => ?_
    refine Triple.ite (fun hinside => ?_) fun _ => ?_
    · refine Triple.bind (R := fun _ => Base p false true) ?_ fun _ => ?_
      · refine (mark_act (t := p) (o := .leave) (i := true) (fun _ => trivial)
          fun s i a s' hx => ?_).pre fun s hs => ?_
        · simp only [exec, Option.some.injEq, Prod.mk.injEq] at hx
          exact hx.2.symm
        · have hb : b = true := by
            rw [← hs.1.1.1, hs.2.2, hinside]
          rw [← hb]
          exact hs.1
      · exact releasesleep_rule.post fun _ s hs => ⟨false, hs⟩
    · exact fun s hs => ⟨b, hs.1⟩
  · refine Triple.bind holdingsleep_rule fun r => Triple.of_pure ?_
    rintro rfl
    exact answer_rule.post fun _ s hs => ⟨r, hs⟩
  · exact Triple.bind (kill_rule pid) fun _ => fun s hs => ⟨b, hs⟩

theorem main_rule : (logic procs).Triple t (Idle t) (main procs) fun _ _ => False := by
  refine Triple.forever ?_ ?_
  · rintro s s' he ⟨b, hb⟩
    exact ⟨b, (ctx_base b b).stable s s' he hb⟩
  · rintro s ⟨b, hb⟩
    exact call_rule s hb

omit [DecidableEq P] in
theorem inv_new (procs : Procs P) : Inv procs .new where
  locked := by simp [State.new]
  pid _ p h := by simp [State.new] at h
  inside p h := by simp [State.new] at h
  quiet _ _ _ := rfl
  asleep p h := by simp [State.new] at h
  dozing p h := by simp [State.new] at h

/-- One process at a time has the lock, `holdingsleep` knows it, and nobody
sleeps on a lock that is free. -/
theorem sleeplock_excludes (procs : Procs P) (g : Config (Op P) (State P) P)
    (hg : (machine procs).Reach Machine.always (start procs) g) :
    (∀ p q, g.mem.inside p = true → g.mem.inside q = true → p = q) ∧
      (∀ p r, (machine procs).Next g p (.answer r) → r = g.mem.inside p) ∧
      (g.mem.spin .lk = none → g.mem.locked = 0 →
        ∀ p, ¬ (g.mem.state p = .sleeping ∧ g.mem.chan p = true)) := by
  obtain ⟨hinv, hsafe⟩ := Logic.inv_of_reach (fun _ => trivial) (fun _ => rfl) (inv_new procs)
    (fun u => wp_mono (fun _ _ h => h.elim) (main_rule (t := u) _ ⟨false, by simp [Base, Own, start, State.new]⟩))
    hg
  refine ⟨fun p q hp hq => ?_, fun p r hn => hsafe Unit p _ hn trivial, fun hfree hlocked p hp => ?_⟩
  · have hp := hinv.inside p hp
    rw [hinv.inside q hq] at hp
    exact (Option.some.inj hp).symm
  · have hwaits := hinv.asleep p hp.1 hp.2
    rw [hinv.quiet hfree hlocked p] at hwaits
    cases hwaits

/-- Two processes. -/
def twoProcs : Procs Bool where
  table := [false, true]
  pid p := if p then 2 else 1
  complete p := by cases p <;> simp
  distinct := by
    intro p q h
    cases p <;> cases q <;> simp_all

/-- One has the lock, and the other sleeps. -/
def oneSleeps : List (Bool × Input) :=
  (false, none) :: (false, some .acquire) :: List.replicate 8 (false, none) ++
    (true, none) :: (true, some .acquire) :: List.replicate 9 (true, none)

theorem sleeplock_excludes_oneSleeps : ∃ g : Config (Op Bool) (State Bool) Bool,
    (machine twoProcs).Reach Machine.always (start twoProcs) g ∧ g.mem.inside false = true ∧
      g.mem.state true = .sleeping ∧ g.mem.locked ≠ 0 := by
  have hview : ((machine twoProcs).run Machine.always oneSleeps (start twoProcs)).map
      (fun g => (g.mem.spin .lk, g.mem.inside false, g.mem.state true, g.mem.chan true)) =
        some (none, true, .sleeping, true) := by decide
  obtain ⟨g, hrun, hg⟩ := Option.map_eq_some_iff.1 hview
  simp only [Prod.mk.injEq] at hg
  obtain ⟨hfree, hinside, hstate, hchan⟩ := hg
  have hreach := Machine.reach_of_run _ _ .start hrun
  obtain ⟨-, -, hquiet⟩ := sleeplock_excludes twoProcs g hreach
  exact ⟨g, hreach, hinside, hstate, fun hzero => hquiet hfree hzero true ⟨hstate, hchan⟩⟩

end Xv6.Sleeplock
