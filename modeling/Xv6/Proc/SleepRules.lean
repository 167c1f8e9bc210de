import Xv6.Proc.SchedRules

/-!
# Sleeping, kills and the scheduler

`sleep`, `killed`, `setkilled` and `scheduler` obey the discipline.
-/

namespace Xv6

open Conc Conc.Machine

variable {K : Known} {t : Tid} {n : Nat} {S S' : List Lock} {F G : Table → Prop} {l : Lock}
variable {p q : Slot} {α β γ : Type}

/-! ## Sleeping -/

/-- Only the process itself says where it sleeps. -/
theorem site_stab {v : Site} : Stab K (.proc p) S fun T => (T p).site = v := by
  intro s w hinv hr hs
  obtain ⟨c, hc, hl, ha, hw, -⟩ := hr
  have hp : s.current c ≠ some p := fun h => hc (Kernel.running_eq_proc.2 h)
  cases w with
  | site q v' =>
    have hqp : p ≠ q := by
      intro h
      exact hp (h ▸ hw.1)
    simp only [Write.table, if_neg hqp]
    exact hs
  | _ =>
    simp only [Write.table]
    grind

/-- `wait_lock` keeps other threads from leaving a child to collect. -/
theorem noZombie_stab (hmem : .wait ∈ S) : Stab K t S fun T => ∀ q, ¬ Table.ZombieChild T p q := by
  intro s w hinv hr h q hz
  obtain ⟨c, hc, hl, ha, hw, -⟩ := hr
  exact h q (zombieChild_of_write hw (hl _ hmem) hz)

/-- `wait_lock` protects five fields only. -/
theorem LockInv.congr {T T' : Table} (h : LockInv K .wait T)
    (hstate : ∀ q, (T' q).state = (T q).state) (hparent : ∀ q, (T' q).parent = (T q).parent)
    (hdozing : ∀ q, (T' q).dozing = (T q).dozing) (hreaps : ∀ q, (T' q).reaps = (T q).reaps)
    (hpid : ∀ q, (T' q).pid = (T q).pid) : LockInv K .wait T' := by
  obtain ⟨hquiet, hsettled⟩ := h
  constructor
  · intro r q hr hd hz
    exact hquiet r q hr (hdozing r ▸ hd) ⟨hparent q ▸ hz.1, hstate q ▸ hz.2⟩
  · intro q hq hz
    rw [hparent q, hreaps q, hpid q]
    exact hsettled q hq (hstate q ▸ hz)

/-- Who has no child to collect may doze off. -/
theorem LockInv.doze {T : Table} {v : Bool} (h : LockInv K .wait T)
    (hz : v = true → ∀ q, ¬ Table.ZombieChild T p q) :
    LockInv K .wait ((Write.dozing p v).table T) := by
  obtain ⟨hquiet, hsettled⟩ := h
  constructor
  · intro r q hr hdoze hzr
    simp only [Table.ZombieChild, Write.table] at hdoze hzr hz
    have := hquiet r q hr
    simp only [Table.ZombieChild] at this
    grind
  · intro q hq
    have := hsettled q hq
    simp only [Write.table]
    grind

/-- A process with its lock held, on its way to sleep. -/
structure Nodding (K : Known) (p : Slot) (site : Site) (T : Table) : Prop where
  running : (T p).state = .running
  named : K .positive → (T p).pid ≠ 0
  dozing : (T p).dozing = site.forChild

namespace Nodding

variable {site : Site} {T : Table}

theorem stab (hmem : .proc p ∈ S) : Stab K t S (Nodding K p site) := by
  intro s w hinv hr h
  have hnamed : Named K p s.proc := ⟨by simp [h.running], by simp [h.running], h.named⟩
  exact ⟨state_stab (by simp) hmem s w hinv hr h.running, (Named.stab hmem s w hinv hr hnamed).2.2,
    dozing_stab hmem s w hinv hr h.dozing⟩

/-- The stores before the change of state leave it so. -/
theorem store (h : Nodding K p site T) {w : Write} (hstate : (w.table T p).state = (T p).state)
    (hpid : (w.table T p).pid = (T p).pid) (hdoze : (w.table T p).dozing = (T p).dozing) :
    Nodding K p site (w.table T) :=
  ⟨hstate ▸ h.running, hpid ▸ h.named, hdoze ▸ h.dozing⟩

/-- Asleep, it keeps the rule, if no kill is pending. -/
theorem asleep (h : Nodding K p site T) (hchan : site.forChild = true → (T p).chan = some (.proc p))
    (hkill : K .awake → (T p).site.interruptible = true → (T p).killed = false) :
    ProcInv K p ((Write.state p .sleeping).table T p) := by
  simp only [Write.table, if_pos]
  refine ⟨fun hK _ => hkill hK, fun hd => ⟨rfl, hchan ?_⟩, fun _ hs => by simp at hs,
    fun hK _ _ => h.named hK⟩
  rw [← h.dozing]
  exact hd

end Nodding

/-- The channel of a process that runs with its lock held. -/
theorem chan_stab {v : Option Chan} (hmem : .proc p ∈ S) :
    Stab K t S fun T => (T p).state = .running ∧ (T p).chan = v := by
  intro s w hinv hr h
  refine ⟨state_stab (by simp) hmem s w hinv hr h.1, ?_⟩
  obtain ⟨c, hc, hl, ha, hw, -⟩ := hr
  obtain hch | ⟨v', rfl, -⟩ := w.table_chan s.proc p
  · exact hch.trans h.2
  · obtain hlock | ⟨-, -, hz⟩ := hw
    · exact absurd hlock (hl _ hmem)
    · exact absurd (h.1.symm.trans hz) (by simp)

/-- `sleep` keeps a frame; the lock it gives up is not a `p->lock`.  Who
sleeps for a child gives up `wait_lock`, with no child to collect; who sleeps
in `waitall` has a child. -/
theorem sleep_spec {site : Site} {chan : Chan} (hF : Frame K (.proc p) [] F)
    (hl : ∀ q, l ≠ .proc q) (hsite : site.forChild = true → l = .wait ∧ chan = .proc p)
    (hchild : site = .waitall → K .live → ∀ T, F T → Table.HasChild T p) :
    (discipline K).Triple (.proc p)
      (On (.proc p) [l] fun T => (F T ∧ LockInv K l T) ∧
        (site.forChild = true → ∀ q, ¬ Table.ZombieChild T p q)) (sleep site chan l)
      fun _ => On (.proc p) [l] fun T => F T ∧ LockInv K l T := by
  have hpre : Stab K (.proc p) [l] fun T => (F T ∧ LockInv K l T) ∧
      (site.forChild = true → ∀ q, ¬ Table.ZombieChild T p q) :=
    (hF.mono.stab.and (lockInv_stab List.mem_cons_self)).and
      (.imp fun h => noZombie_stab (by simp [(hsite h).1]))
  refine (myproc_spec hpre).bind fun p' => ?_
  intro s hs
  obtain ⟨hp', hs⟩ := hs
  obtain rfl : p = p' := Tid.proc.inj hp'
  refine Logic.Triple.bind (acquire_proc hpre (NoProc.nil.cons hl)) (fun _ => ?_) s hs
  have hG : Stab K (.proc p) [.proc p] fun T => F T ∧ Guarded K (.proc p) p T :=
    (hF.stab.cons _).and (Guarded.stab List.mem_cons_self)
  have hN : Stab K (.proc p) [.proc p] fun T => F T ∧ Nodding K p site T :=
    (hF.stab.cons _).and (Nodding.stab List.mem_cons_self)
  -- it dozes off before it gives up `wait_lock`
  refine Logic.Triple.bind (triple_write (G := fun T =>
    (F T ∧ Nodding K p site T) ∧ LockInv K l T)
    ((hpre.cons _).and (Guarded.stab List.mem_cons_self)) id ?_) fun _ => ?_
  · intro s c hinv hc h ha
    obtain ⟨⟨⟨hFs, hli⟩, hzombie⟩, hg⟩ := h
    have hrun := hg.2 rfl
    have hlp : s.locked (.proc p) = some c := (hc.held _).2 List.mem_cons_self
    refine ⟨?_, ⟨hF.mild _ _ (.inr ⟨rfl, rfl⟩) hFs, ?_⟩, ?_⟩
    · cases hv : site.forChild with
      | true =>
        refine ⟨hlp, (hc.held _).2 ?_, hc.current, hrun, hzombie hv⟩
        simp [(hsite hv).1]
      | false => exact ⟨hlp, by simp [hrun]⟩
    · refine ⟨?_, fun hK => ?_, ?_⟩
      · simpa only [Write.table, if_pos] using hrun
      · simpa only [Write.table, if_pos] using hg.1.named hK (by simp [hrun]) (by simp [hrun])
      · simp only [Write.table, if_pos]
    · by_cases hw : l = .wait
      · subst hw
        exact hli.doze hzombie
      · exact Lock.Plain.inv ⟨hw, hl⟩ _
  refine Logic.Triple.bind (Logic.Triple.pre (release_other hl hN (by simp))
    fun s hs => hs.swap) fun _ => ?_
  -- the history field, while the process is still running
  refine Logic.Triple.bind (triple_write (G := fun T =>
    (F T ∧ Nodding K p site T) ∧ (T p).site = site) hN id ?_) fun _ => ?_
  · intro s c hinv hc h ha
    refine ⟨⟨hc.current, (hc.held _).2 List.mem_cons_self, h.2.running⟩,
      ⟨hF.mild _ _ ⟨rfl, rfl⟩ h.1, h.2.store ?_ ?_ ?_⟩, ?_⟩ <;>
    simp only [Write.table, if_pos]
  have hN' : Stab K (.proc p) [.proc p] fun T => (F T ∧ Nodding K p site T) ∧ (T p).site = site :=
    hN.and site_stab
  refine Logic.Triple.bind (triple_write (G := fun T =>
    ((F T ∧ Nodding K p site T) ∧ (T p).site = site) ∧
      (T p).state = .running ∧ (T p).chan = some chan) hN' id ?_) fun _ => ?_
  · intro s c hinv hc h ha
    obtain ⟨⟨hFs, hnod⟩, hst⟩ := h
    refine ⟨.inl ((hc.held _).2 List.mem_cons_self),
      ⟨⟨hF.mild _ _ ⟨rfl, rfl⟩ hFs, hnod.store ?_ ?_ ?_⟩, ?_⟩, ?_, ?_⟩ <;>
    simp only [Write.table, if_pos]
    · exact hst
    · exact hnod.running
  -- the run may be known to have no kill pending here
  refine Logic.Triple.bind (triple_write (G := fun T => F T ∧ ProcInv K p (T p))
    (hN'.and (chan_stab List.mem_cons_self)) id ?_) fun _ => ?_
  · intro s c hinv hc h ha
    obtain ⟨⟨⟨hFs, hnod⟩, hst⟩, hrun, hch⟩ := h
    refine ⟨⟨(hc.held _).2 List.mem_cons_self, hc.current, hrun, fun hK hw => ?_, fun hfor => ?_⟩,
      hF.mild _ _ ⟨rfl, rfl⟩ hFs, hnod.asleep (fun hfor => ?_) fun hK => ha .awake hK⟩
    · exact hchild (hst.symm.trans hw) hK _ hFs
    · rw [hnod.dozing, ← hst]
      exact hfor
    · rw [hch, (hsite hfor).2]
  refine (sched_spec hF.stab).bind fun _ => ?_
  refine Logic.Triple.bind (triple_write (G := fun T => F T ∧ Guarded K (.proc p) p T) hG id ?_)
    fun _ => Logic.Triple.bind (release_proc hF.stab fun _ => kerneltrap_moves F hF)
      fun _ => acquire_first hF.stab hl
  intro s c hinv hc h ha
  obtain ⟨hFs, hpi, hrun⟩ := h
  have hrun := hrun rfl
  refine ⟨.inl ((hc.held _).2 List.mem_cons_self), hF.mild _ (.chan p none) ⟨rfl, rfl⟩ hFs, ?_,
    fun _ => ?_⟩ <;>
  simp only [Write.table, if_pos]
  · exact .of_awake (by simp [hrun]) (by simp [hrun]) (hpi.not_dozing (by simp [hrun])) fun hK =>
      hpi.named hK (by simp [hrun]) (by simp [hrun])
  · exact hrun

/-- A sleep that is not for a child. -/
theorem sleep_moves {site : Site} {chan : Chan} (hl : l.Plain) (hsite : site.forChild = false) :
    Moves K (.proc p) [l] (sleep site chan l) fun _ => [l] := by
  intro F hF
  refine (sleep_spec hF hl.2 (fun h => absurd h (by simp [hsite])) fun h => ?_).conseq
    (fun s hs => hs.imp fun T hT => ⟨⟨hT, hl.inv T⟩, fun h => absurd h (by simp [hsite])⟩)
    fun _ s hs => hs.imp fun T hT => hT.1
  subst h
  cases hsite

/-! ## `killed` -/

/-- Look at something that a `p->lock` guards. -/
theorem killed_spec (hF : Stab K t S F) (hS : NoProc S)
    (htrap : S = [] → (discipline K).Triple t (On t [] F) kerneltrap fun _ => On t [] F) :
    (discipline K).Triple t (On t S F) (killed p) fun _ => On t S F := by
  have hG : Stab K t (.proc p :: S) fun T => F T ∧ Guarded K t p T :=
    (hF.cons _).and (Guarded.stab List.mem_cons_self)
  refine (acquire_proc hF hS).bind fun _ => ?_
  refine Logic.Triple.bind (triple_read (G := fun _ T => F T ∧ Guarded K t p T) hG
    fun _ _ _ _ h => h) fun k => ?_
  exact Logic.Triple.bind (release_proc hF htrap) fun _ s hs => hs

theorem killed_moves (hS : NoProc S) : Moves K t S (killed p) fun _ => S :=
  fun F hF => killed_spec hF.mono.stab hS fun _ => kerneltrap_moves F hF

/-- A process sets its own flag, and it is not asleep. -/
theorem setkilled_calm : Calm K p (setkilled p) := by
  have hT : Frame K (.proc p) [] fun T => (T p).target = none := target_frame
  refine setTarget_spec.bind fun _ => ?_
  refine (acquire_proc hT.stab .nil).bind fun _ => ?_
  refine Logic.Triple.bind (triple_write (G := fun T => True ∧ Guarded K (.proc p) p T)
    ((hT.stab.cons _).and (Guarded.stab List.mem_cons_self)) id ?_)
    fun _ => release_proc stab_true fun _ => kerneltrap_moves.calm
  intro s c hinv hc h ha
  obtain ⟨htarget, hpi, hrun⟩ := h
  have hrun := hrun rfl
  refine ⟨⟨(hc.held _).2 List.mem_cons_self, fun _ => ⟨p, hc.current, .inl ⟨htarget, rfl, hrun⟩⟩⟩,
    trivial, ?_, fun _ => ?_⟩ <;>
  simp only [Write.table, if_pos]
  · exact .of_awake (by simp [hrun]) (by simp [hrun]) (hpi.not_dozing (by simp [hrun])) fun hK =>
      hpi.named hK (by simp [hrun]) (by simp [hrun])
  · exact hrun

/-! ## The scheduler -/

/-- The scheduler of `c` is about to switch to `p`, whose lock it holds. -/
def Ready (K : Known) (c : Cpu) (r : Option Slot) (p : Slot) (s : Kernel) : Prop :=
  s.current c = none ∧ (s.cpu c).proc = r ∧ (s.cpu c).noff = 1 ∧
    (∀ l, s.locked l = some c ↔ l = .proc p) ∧ (∀ d, s.current d ≠ some p) ∧
    (s.proc p).state = .running ∧ ProcInv K p (s.proc p)

/-- The scheduler of `c` has switched to `p`, and gets the lock of `p` back. -/
def Lent (K : Known) (c : Cpu) (p : Slot) (s : Kernel) : Prop :=
  s.current c = some p ∨
    s.current c = none ∧ (s.cpu c).noff = 1 ∧ (∀ l, s.locked l = some c ↔ l = .proc p) ∧
      ProcInv K p (s.proc p) ∧ (s.proc p).state ≠ .running

/-- A step of another thread keeps what is stable while `c` holds one lock. -/
private theorem Effect.keep {c d : Cpu} {s s' : Kernel} (he : Effect K d s s')
    (hF : Stab K t [l] F) (hinv : Inv K s) (hd : s.running d ≠ t) (hdc : d ≠ c)
    (hl : s.locked l = some c) (hFs : F s.proc) : F s'.proc := by
  obtain hp | ⟨w, haw, hw, hp⟩ := he.proc
  · rwa [hp]
  · rw [hp]
    refine hF s w hinv ⟨d, hd, fun k hk hld => ?_, haw, hw, fun k hk => ?_⟩ hFs
    · rw [List.mem_singleton] at hk
      subst hk
      exact hdc (Option.some.inj (hld.symm.trans hl))
    · rw [List.mem_singleton.1 hk, hl]
      simp

/-- The lock of `p` keeps other processors from running it. -/
private theorem Effect.not_resumed {c d : Cpu} {s s' : Kernel} (he : Effect K d s s')
    (hdc : d ≠ c) (hl : s.locked (.proc p) = some c) (hp : ∀ e, s.current e ≠ some p) :
    ∀ e, s'.current e ≠ some p := by
  intro e
  by_cases hed : e = d
  · subst hed
    intro hcur
    obtain ⟨-, hlock, -⟩ := he.resume p hcur (hp e)
    have h₁ := (hlock (.proc p)).2 rfl
    have h₂ := (he.locked c hdc.symm (.proc p)).2 hl
    exact hdc (Option.some.inj (h₁.symm.trans h₂))
  · rw [he.current e hed]
    exact hp e

theorem Ready.stable (c : Cpu) (r : Option Slot) (p : Slot) :
    (discipline K).Stable (.cpu c) (Ready K c r p) := by
  intro s s' hstep hs
  obtain ⟨β, d, i, o, b, hd, hinv, ha, hm, hx⟩ := hstep
  obtain ⟨hcur, hproc, hnoff, hl, hp, hrun⟩ := hs
  have he : Effect K d s s' := effect_of_exec ha hm hx
  have hdc : d ≠ c := Kernel.ne_of_running (Kernel.running_eq_cpu.2 ⟨hcur, rfl⟩) hd
  have hlp : s.locked (.proc p) = some c := (hl _).2 rfl
  refine ⟨by rw [he.current c hdc.symm, hcur], by rw [he.cpu c hdc.symm, hproc],
    by rw [he.cpu c hdc.symm, hnoff], fun l => (he.locked c hdc.symm l).trans (hl l),
    he.not_resumed hdc hlp hp, ?_⟩
  exact he.keep ((state_stab (by simp) List.mem_cons_self).and (procInv_stab List.mem_cons_self))
    hinv hd hdc hlp hrun

theorem Lent.stable (c : Cpu) (p : Slot) : (discipline K).Stable (.cpu c) (Lent K c p) := by
  intro s s' hstep hs
  obtain ⟨β, d, i, o, b, hd, hinv, ha, hm, hx⟩ := hstep
  have he : Effect K d s s' := effect_of_exec ha hm hx
  obtain hcur | ⟨hcur, hnoff, hl, hkept⟩ := hs
  · by_cases hdc : d = c
    · subst hdc
      by_cases hcur' : s'.current d = some p
      · exact .inl hcur'
      · obtain ⟨hnone, hl, hnoff, hkept⟩ := he.park p hcur hcur'
        exact .inr ⟨hnone, hnoff, hl, hkept⟩
    · exact .inl ((he.current c (Ne.symm hdc)).trans hcur)
  · have hdc : d ≠ c := Kernel.ne_of_running (Kernel.running_eq_cpu.2 ⟨hcur, rfl⟩) hd
    refine .inr ⟨by rw [he.current c hdc.symm, hcur], by rw [he.cpu c hdc.symm, hnoff],
      fun l => (he.locked c hdc.symm l).trans (hl l), ?_⟩
    exact he.keep ((procInv_stab List.mem_cons_self).and (not_running_stab List.mem_cons_self))
      hinv hd hdc ((hl _).2 rfl) hkept

/-- Who is `RUNNABLE`, with its lock held by a scheduler, runs nowhere. -/
theorem not_current_of_runnable {s : Kernel} {c : Cpu} (hinv : Inv K s)
    (hl : s.locked (.proc p) = some c) (hc : s.current c = none)
    (hp : (s.proc p).state = .runnable) (d : Cpu) : s.current d ≠ some p := by
  intro hd
  obtain hrun | hlock := hinv.current d p hd
  · rw [hp] at hrun
    cases hrun
  · obtain rfl : d = c := Option.some.inj (hlock.symm.trans hl)
    rw [hc] at hd
    cases hd

/-- A runnable process keeps its rule when it is made to run. -/
theorem ProcInv.dispatch {T : Table} (h : ProcInv K p (T p)) (hs : (T p).state = .runnable) :
    ProcInv K p ((Write.state p .running).table T p) := by
  simp only [Write.table, if_pos]
  exact .of_awake (by simp) (by simp) (h.not_dozing (by simp [hs])) fun hK =>
    h.named hK (by simp [hs]) (by simp [hs])

/-- The scheduler's turn for a runnable process. -/
theorem dispatch_spec {c : Cpu} {f : Unit → Code β} {Q : β → Kernel → Prop}
    (hf : (discipline K).Triple (.cpu c) (On (.cpu c) [.proc p] fun T => Guarded K (.cpu c) p T)
      (f ()) Q) :
    (discipline K).Triple (.cpu c)
      (On (.cpu c) [.proc p] fun T => (T p).state = .runnable ∧ ProcInv K p (T p)) (do
        write (.state p .running)
        .perform (.cpu fun x => ((), { x with proc := some p }))
        .perform (.swtch (some p))
        let u ← .perform (.cpu fun x => ((), { x with proc := none }))
        f u) Q := by
  have hrunnable : Stab K (.cpu c) [.proc p] fun T =>
      (T p).state = .runnable ∧ ProcInv K p (T p) :=
    (state_stab (by simp) List.mem_cons_self).and (procInv_stab List.mem_cons_self)
  refine Logic.Triple.bind (R := fun _ => Ready K c none p) ?_ fun _ => ?_
  · refine triple_op hrunnable fun s d hinv hd hp ha => ?_
    have hlp : s.locked (.proc p) = some d := (hd.held _).2 List.mem_cons_self
    have hcur : s.current d = none := hd.current
    refine ⟨⟨hlp, hp.1, hcur⟩, fun i b s' hx => ?_⟩
    obtain ⟨-, rfl⟩ := Prod.mk.inj (Option.some.inj hx)
    obtain rfl : c = d := (Kernel.running_eq_cpu.1 hd.running).2.symm
    have hnot := not_current_of_runnable hinv hlp hcur hp.1
    refine ⟨hcur, hd.proc, hd.noff, fun l => (hd.held l).trans List.mem_singleton, hnot, ?_⟩
    rw [Write.apply_proc]
    exact ⟨by simp only [Write.table, if_pos], hp.2.dispatch hp.1⟩
  refine Logic.Triple.bind (R := fun _ => Ready K c (some p) p) ?_ fun _ => ?_
  · refine Logic.Triple.perform (Ready.stable c none p) fun s d hs hinv hd ha => ?_
    obtain ⟨hcur, -, hnoff, hl, hp, hrun⟩ := hs
    obtain rfl : c = d := (Kernel.running_eq_cpu.1 hd).2.symm
    refine ⟨.inr ⟨hcur, fun p' hp' => ?_⟩, fun i b s' hx => ?_⟩
    · obtain rfl : p = p' := Option.some.inj hp'
      exact ⟨(hl _).2 rfl, hp⟩
    · obtain ⟨-, rfl⟩ := Prod.mk.inj (Option.some.inj hx)
      refine ⟨hcur, ?_, ?_, hl, hp, hrun⟩
      · simp only [Kernel.modCpu, if_pos]
      · simp only [Kernel.modCpu, if_pos]
        exact hnoff
  refine Logic.Triple.bind (R := fun _ => Lent K c p) ?_ fun _ => ?_
  · refine Logic.Triple.perform (Ready.stable c (some p) p) fun s d hs hinv hd ha => ?_
    obtain ⟨hcur, hproc, hnoff, hl, hp, hrun⟩ := hs
    obtain rfl : c = d := (Kernel.running_eq_cpu.1 hd).2.symm
    refine ⟨⟨hcur, hp, hl, hproc, hnoff, hrun⟩, fun i b s' hx => ?_⟩
    obtain ⟨-, rfl⟩ := Prod.mk.inj (Option.some.inj hx)
    exact .inl (if_pos rfl)
  refine Logic.Triple.bind (R := fun _ => On (.cpu c) [.proc p] fun T => Guarded K (.cpu c) p T)
    ?_ fun _ => hf
  refine Logic.Triple.perform (Lent.stable c p) fun s d hs hinv hd ha => ?_
  obtain ⟨hcur, rfl⟩ := Kernel.running_eq_cpu.1 hd
  refine ⟨.inr ⟨hcur, fun p' hp' => by cases hp'⟩, fun i b s' hx => ?_⟩
  obtain ⟨-, rfl⟩ := Prod.mk.inj (Option.some.inj hx)
  obtain hcur' | ⟨-, hnoff, hl, hpi, hstate⟩ := hs
  · rw [hcur] at hcur'
    cases hcur'
  · refine ⟨d, ⟨hd, ?_, ?_, List.nodup_singleton _, ?_, fun q hq _ hr => ?_⟩, hpi,
      by simp⟩
    · simp only [Kernel.modCpu, if_pos, Tid.slot_cpu]
    · simp only [Kernel.modCpu, if_pos]
      exact hnoff
    · exact fun l => (hl l).trans List.mem_singleton.symm
    · obtain rfl : q = p := Lock.proc.inj (List.mem_singleton.1 hq)
      exact absurd hr hstate

/-- Between two turns the scheduler has no process. -/
theorem scheduler_start {c : Cpu} :
    (discipline K).Triple (.cpu c) (On (.cpu c) [] fun _ => True)
      (.perform (.cpu fun x => ((), { x with proc := none })))
      fun _ => On (.cpu c) [] fun _ => True :=
  triple_cpu (m := fun _ => 0) (Stab.const True) fun _ _ hn => ⟨rfl, hn⟩

/-- The scheduler runs forever. -/
theorem scheduler_spec {c : Cpu} {Q : Empty → Kernel → Prop} :
    (discipline K).Triple (.cpu c) (On (.cpu c) [] fun _ => True) scheduler Q := by
  have hF : Frame K (.cpu c) [] fun _ => True := .const True
  refine scheduler_start.bind fun _ => ?_
  refine Logic.Triple.forever hF.stab.stable ?_
  refine (intrOn_moves _ hF).bind fun _ => ?_
  refine Logic.Triple.foldM (fun _ _ => On (.cpu c) [] fun _ => True) fun p _ _ => ?_
  refine (acquire_proc hF.stab .nil).bind fun _ => ?_
  have hG : Stab K (.cpu c) [.proc p] fun T => True ∧ Guarded K (.cpu c) p T :=
    (hF.stab.cons _).and (Guarded.stab List.mem_cons_self)
  have hrelease : (discipline K).Triple (.cpu c)
      (On (.cpu c) [.proc p] fun T => True ∧ Guarded K (.cpu c) p T) (release (.proc p))
      fun _ => On (.cpu c) [] fun _ => True :=
    release_proc hF.stab fun _ => kerneltrap_moves _ hF
  refine Logic.Triple.bind (triple_read (G := fun v T =>
    (True ∧ Guarded K (.cpu c) p T) ∧ (v = .runnable → (T p).state = .runnable)) hG ?_)
    fun v => ?_
  · exact fun s d _ _ h => ⟨h, id⟩
  by_cases hv : v = .runnable
  · rw [if_pos hv]
    refine Logic.Triple.pre (dispatch_spec (f := fun _ => release (.proc p)) ?_) fun s hs => ?_
    · exact hrelease.pre fun s hs => hs.imp fun T hT => ⟨trivial, hT⟩
    · exact hs.imp fun T hT => ⟨hT.2 hv, hT.1.2.1⟩
  · rw [if_neg hv]
    exact hrelease.pre fun s hs => hs.imp fun T hT => hT.1

end Xv6
