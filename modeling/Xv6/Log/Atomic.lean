import Xv6.Log.Commit

/-!
# Crashes

Whenever the system crashes, recovery gives the home blocks after the
transactions that were durable then: those whose header was on the disk.
-/

namespace Xv6.Log

open Conc Conc.Logic
open Function (update)

variable {A : LogArea} {base : Disk} {s s' : Fs A} {t : Tid} {K : Prop} {e k : Nat}

/-! ## Operations -/

/-- Operation `k` of this boot has not begun. -/
def Waits (k : Nat) (s : Fs A) : Prop := ∀ id ∈ s.hist.begun, id.2 = k → id.1 < s.hist.epoch

/-- An operation may begin. -/
structure Begins (e k : Nat) (s : Fs A) : Prop where
  ready : s.ready = true
  epoch : s.hist.epoch = e
  fresh : (e, k) ∉ s.hist.begun

/-- An operation runs. -/
def Runs (e k : Nat) (s : Fs A) : Prop := (e, k) ∈ s.hist.active

theorem waits_stable : (logic A base K).Stable (.op k) (Waits k) :=
  stable_of_guarantee (fun _ _ => rfl) fun u s s' hu _ hg hs id hid heq => by
    rw [hg.epoch]
    obtain ⟨i, j⟩ := id
    exact hs _ (hg.begun j (fun hj => hu (by rw [hj, ← heq])) i hid) heq

theorem begins_stable : (logic A base K).Stable (.op k) (Begins e k) :=
  stable_of_guarantee (fun _ _ => rfl) fun _ _ _ hu _ hg hs =>
    ⟨hg.ready hs.ready, hg.epoch.trans hs.epoch, fun hmem => hs.fresh (hg.begun k hu e hmem)⟩

theorem runs_stable : (logic A base K).Stable (.op k) (Runs e k) :=
  stable_of_guarantee (fun _ _ => rfl) fun _ _ _ hu _ hg hs => hg.active k hu e hs

theorem true_stable : (logic A base K).Stable t fun _ => True := fun _ _ _ _ => trivial

theorem start_rule :
    (logic A base K).Triple (.op k) (Waits k) (.perform .start) fun e => Begins e k := by
  refine Triple.act (fun _ _ => rfl) waits_stable (fun _ _ _ _ => trivial)
    fun s i e s' hs hinv _ hx => ?_
  obtain ⟨hready, heq⟩ := Option.ite_none_right_eq_some.1 hx
  cases heq
  exact ⟨.refl hinv _, hready, rfl, fun hmem => Nat.lt_irrefl _ (hs _ hmem rfl)⟩

theorem beginOp_rule :
    (logic A base K).Triple (.op k) (Begins e k) (beginOp (e, k)) fun _ => Runs e k := by
  refine Triple.loop (fun _ => Begins e k) (fun _ => begins_stable) fun _ => ?_
  refine Triple.bind (R := fun b s => if b = true then Runs e k s else Begins e k s) ?_ fun b => ?_
  · refine Triple.act (fun _ _ => rfl) begins_stable (fun _ _ _ _ => trivial)
      fun s i b s' hs hinv _ hx => ?_
    simp only [machine, exec] at hx
    split at hx
    · cases hx
      exact ⟨.refl hinv _, hs⟩
    · rename_i l hl
      cases hx
      have hepoch : (e, k).1 = s.hist.epoch := hs.epoch.symm
      have hnone := hinv.committer_of_not_committing hs.ready (LogState.beginOp_eq_some hl).1
      refine ⟨⟨inv_beginOp hinv hs.ready hepoch hs.fresh hl, rfl, id, fun u _ hc => ?_,
        fun j _ i hmem => List.mem_cons_of_mem _ hmem, fun j hj i hmem => ?_,
        (fun hno => by cases hno), fun hno _ => absurd hs.ready (by simp [hno])⟩,
        List.mem_cons_self⟩
      · rw [hnone] at hc
        cases hc
      · refine (List.mem_cons.1 hmem).resolve_left fun heq => hj ?_
        rw [(Prod.mk.inj heq).2]
  · cases b with
    | true => exact fun s hs => hs
    | false => exact fun s hs => hs

theorem input_rule {P : Fs A → Prop} (hP : (logic A base K).Stable t P) :
    (logic A base K).Triple t P (.perform .input) fun _ => P :=
  Triple.act (fun _ _ => rfl) hP (fun _ _ _ _ => trivial) fun s i r s' hs hinv _ hx => by
    cases hx
    exact ⟨.refl hinv t, hs⟩

/-- `log.lh` lists each block that has been logged once. -/
theorem card_current (h : LhOk s) : s.current.card = s.log.lh.length := by
  rw [← List.toFinset_card_of_nodup h.nodup]
  congr 1
  ext b
  simp [Fs.current, h.mem]

/-- The log takes one more write just when it has room. -/
theorem tooBig_iff (h : LhOk s) : s.log.TooBig A.nlog ↔ ¬ s.Room := by
  rw [Fs.Room, card_current h, LogState.TooBig]
  omega

/-- While operations run, `log_write` fails just when there is no room. -/
theorem logWrite_ok_iff (hinv : Inv base s) {id : OpId} (hid : id ∈ s.hist.active) (b : BlockNo) :
    (∃ l, s.log.logWrite A.nlog b = .ok l) ↔ s.Room := by
  have hlh := (hinv.free (hinv.committer_of_active hid)).2.2.1
  have hpos : 0 < s.hist.active.length := List.length_pos_of_mem hid
  have hout : ¬ s.log.outstanding < 1 := by
    rw [hinv.count]
    omega
  constructor
  · rintro ⟨l, hl⟩
    by_contra hno
    exact (LogState.logWrite_eq_ok hl).1 ((tooBig_iff hlh).2 hno)
  · intro hroom
    have hbig : ¬ s.log.TooBig A.nlog := fun hbig => (tooBig_iff hlh).1 hbig hroom
    unfold LogState.logWrite
    rw [if_neg hbig, if_neg hout]
    split <;> exact ⟨_, rfl⟩

theorem panic_rule {β : Type} {msg : String} {P : Fs A → Prop}
    (hP : (logic A base K).Stable t P) (hK : ¬ K) {Q : β → Fs A → Prop} :
    (logic A base K).Triple t P (panic msg) Q :=
  Triple.act (fun _ _ => rfl) hP (fun _ _ _ _ => hK) fun _ _ _ _ _ _ _ hx => by cases hx

theorem logWrite_rule (b : HomeBlock A) (d : Block) :
    (logic A base K).Triple (.op k) (Runs e k) (logWrite (e, k) b d) fun _ => Runs e k := by
  refine Triple.bind (R := fun r s => (r.isOk = false → ¬ K) ∧ Runs e k s) ?_ fun r => ?_
  · refine Triple.act (fun _ _ => rfl) runs_stable (fun _ hs _ _ => hs)
      fun s i r s' hs hinv hroom hx => ?_
    simp only [machine, exec] at hx
    split at hx
    · rename_i msg hl
      cases hx
      refine ⟨.refl hinv _, fun _ hK => ?_, hs⟩
      obtain ⟨l, hok⟩ := (logWrite_ok_iff hinv hs b).2 (hroom hK)
      rw [hok] at hl
      cases hl
    · rename_i l hl
      cases hx
      exact ⟨.of_op hinv hs (inv_logWrite hinv hs hl) rfl rfl (fun _ _ h => h) rfl,
        (fun hno => by cases hno), hs⟩
  · cases r with
    | error msg => exact Triple.of_pure fun hK => panic_rule runs_stable (hK rfl)
    | ok u => exact fun s hs => hs.2

/-- An operation has ended, and may have to commit. -/
def Ended (base : Disk) (t : Tid) : Except String Bool → Fs A → Prop
  | .error _, _ => False
  | .ok false, _ => True
  | .ok true, s => ∃ lh, Holds t (Prepared base lh 0) s

theorem endOp_rule :
    (logic A base K).Triple (.op k) (Runs e k) (endOp (e, k)) fun _ _ => True := by
  refine Triple.bind (R := Ended base (.op k)) ?_ fun r => ?_
  · refine Triple.act (fun _ _ => rfl) runs_stable (fun _ _ _ _ => trivial)
      fun s i r s' hs hinv _ hx => ?_
    have hnone := hinv.committer_of_active hs
    have hready := hinv.ready_of_none hnone
    have herase : ∀ id, id ≠ (e, k) → id ∈ s.hist.active → id ∈ s.hist.active.erase (e, k) :=
      fun id hne hmem => (List.mem_erase_of_ne hne).2 hmem
    simp only [machine, exec] at hx
    split at hx
    · rename_i msg hl
      exact absurd hnone ((hinv.committing hready).1 (LogState.endOp_eq_error hl))
    · rename_i l hl
      cases hx
      exact ⟨.of_op hinv hs (inv_endOp hinv hs hl) rfl rfl herase rfl, trivial⟩
    · rename_i l hl
      cases hx
      obtain ⟨hheader, -, hlh, hpins⟩ := hinv.free hnone
      obtain ⟨rfl, -, -⟩ := LogState.endOp_eq_ok hl
      refine ⟨.of_op hinv hs (inv_endOp_commits hinv hs (by simp) hl) rfl rfl herase rfl,
        s.log.lh, rfl, hready, rfl, hlh.nodup, fun b hb => ?_, hlh.fits, hheader, hpins,
        fun i hi => absurd hi (Nat.not_lt_zero i)⟩
      obtain ⟨w, -, rfl⟩ := (hlh.mem b).1 hb
      exact w.block.2
  · cases r with
    | error msg => exact fun s hs => hs.elim
    | ok c =>
      cases c with
      | false => exact fun s hs => hs
      | true =>
        rintro s ⟨lh, hs⟩
        refine Triple.bind (commit_rule (by simp)) (fun _ => ?_) s hs
        refine Triple.act (fun _ _ => rfl) (holds_stable _) (fun _ _ _ _ => trivial)
          fun s i r s' hs hinv _ hx => ?_
        cases hx
        have hclear := hs.2.clear hinv hs.1
        exact ⟨.of_committer hinv hs.1 (inv_endCommit hinv hs.2.ready hclear hs.2.durable) rfl
          (.inl rfl) rfl (fun hno => by cases hno), trivial⟩

theorem fsOp_rule :
    (logic A base K).Triple (.op k) (Waits k) (fsOp k) fun _ _ => True := by
  refine Triple.bind start_rule fun e => ?_
  refine Triple.bind beginOp_rule fun _ => ?_
  refine Triple.bind (Triple.loop (fun _ => Runs e k) (fun _ => runs_stable) fun _ => ?_)
    fun _ => endOp_rule
  refine Triple.bind (input_rule runs_stable) fun i => ?_
  cases i with
  | write b d => exact Triple.bind (logWrite_rule b d) fun _ s hs => hs
  | fill b => exact fun s hs => hs
  | evict b => exact fun s hs => hs
  | stop => exact fun s hs => hs

theorem idle_rule {Q : Empty → Fs A → Prop} :
    (logic A base K).Triple t (fun _ => True) idle Q :=
  Triple.forever true_stable fun _ _ => trivial

/-- Buffers are used outside of operations. -/
theorem useCache_rule {Q : Empty → Fs A → Prop} :
    (logic A base K).Triple t (fun _ => True) useCache Q := by
  refine Triple.forever true_stable (Triple.bind (input_rule true_stable) fun i => ?_)
  cases i with
  | write b d => exact fun s hs => hs
  | stop => exact fun s hs => hs
  | fill b =>
    refine Triple.bind (R := fun _ _ => True) ?_ fun _ s hs => hs
    refine Triple.act (fun _ _ => rfl) true_stable (fun _ _ _ _ => trivial)
      fun s i r s' _ hinv _ hx => ?_
    cases hx
    exact ⟨.of_view hinv (view_bread s b), trivial⟩
  | evict b =>
    refine Triple.act (fun _ _ => rfl) true_stable (fun _ _ _ _ => trivial)
      fun s i r s' _ hinv _ hx => ?_
    obtain ⟨hpin, heq⟩ := Option.ite_none_right_eq_some.1 hx
    cases heq
    exact ⟨.of_view hinv (view_evict hinv hpin), trivial⟩

/-! ## Recovery -/

/-- The system has just come up. -/
structure Booting (v : Seen A) : Prop where
  ready : v.ready = false
  calm : v.log.committing = false
  durable : v.hist.durable = v.hist.started.length
  pins : ∀ b, v.pins b = 0
  view : ∀ b, v.view b = v.disk b

/-- Recovery takes the header as it finds it. -/
theorem readHead_rule :
    (logic A base K).Triple t (Holds t Booting) readHead fun _ s =>
      ∃ lh, Holds t (fun v => v.log.lh = lh ∧ Installing base true lh 0 v) s := by
  refine Triple.bind (bread_rule _ _) fun hb => ?_
  refine ((setLh_rule (φ := fun v => v.log.lh = readHeader hb ∧
    Installing base true (readHeader hb) 0 v) _).pre fun s hs => hs.mono fun v hv => ?_).post
    fun _ s hs => ⟨_, hs⟩
  obtain ⟨hv, rfl⟩ := hv
  refine ⟨rfl, hv.ready, fun _ => hv.calm, (fun hno => by cases hno), ?_, hv.durable,
    (fun i hi => absurd hi (Nat.not_lt_zero i)), fun b => ?_⟩
  · show readHeader (v.disk A.logstart) = readHeader (v.view A.logstart)
    rw [hv.view]
  · exact (hv.pins b).trans (by simp)

theorem boot_rule {Q : Empty → Fs A → Prop} :
    (logic A base K).Triple .boot (Holds .boot Booting) ((machine A).main .boot) Q := by
  refine Triple.bind (R := fun _ => Holds .boot (Erased base true)) ?_ fun _ => ?_
  · unfold initlog
    refine Triple.ite (fun hno => absurd hno (by decide)) fun _ => ?_
    refine Triple.bind (R := fun _ s => ∃ lh, Holds .boot (fun v => v.log.lh = lh ∧
      Installing base true lh 0 v) s) readHead_rule fun _ => ?_
    rintro s ⟨lh, hs⟩
    refine Triple.bind installTrans_rule (fun _ => ?_) s hs
    exact Triple.bind setLh_erases fun _ => writeHead_erases
  · refine Triple.bind (R := fun _ _ => True) ?_ fun _ => idle_rule
    refine Triple.act (fun _ _ => rfl) (holds_stable _) (fun _ _ _ _ => trivial)
      fun s i r s' hs hinv _ hx => ?_
    cases hx
    have hinv' := inv_ready hinv (hs.2.calm rfl) (hs.2.clear hinv hs.1) hs.2.durable
    exact ⟨.of_committer hinv hs.1 hinv' rfl (.inr ⟨rfl, rfl⟩) rfl fun _ => ⟨rfl, rfl, rfl⟩,
      trivial⟩

/-! ## Runs with crashes -/

/-- A state in which the system comes up. -/
structure Fresh (base : Disk) (s : Fs A) : Prop where
  inv : Inv base s
  booting : Holds .boot Booting s
  begun : ∀ id ∈ s.hist.begun, id.1 < s.hist.epoch

theorem fresh_image (img : Image A) : Fresh img.disk img.fs where
  inv := inv_image img
  booting := ⟨rfl, rfl, rfl, rfl, fun _ => rfl, fun _ => rfl⟩
  begun _ hid := by cases hid

theorem fresh_reboot (h : Inv base s) : Fresh base s.reboot where
  inv := inv_reboot h
  booting := ⟨rfl, rfl, rfl, by simp [Fs.reboot, Fs.seen, h.order.2], fun _ => rfl, fun _ => rfl⟩
  begun id hid := Nat.lt_succ_of_le (h.ops.epoch id hid)

theorem Fresh.ok (h : Fresh base s) (u : Tid) : (logic A base K).Ok u ((boot s).code u) s := by
  refine wp_mono (Q := fun _ _ => False) (fun _ _ hno => hno.elim) ?_
  cases u with
  | boot => exact boot_rule s h.booting
  | op k =>
    exact Triple.bind fsOp_rule (fun _ => idle_rule) s fun id hid _ => h.begun id hid
  | cache => exact useCache_rule s trivial

variable {P : Machine.OpPred (LogOp A) (Fs A) Tid} {img : Image A} {g g' : System A}

/-- Since the system has last come up there has been no crash. -/
theorem Run.since (hP : ∀ {β : Type} {t : Tid} {o : LogOp A β} {s : Fs A}, P β t o s →
    K → Roomy β t o s) (h : Run P img g) :
    ∃ s₀, Fresh img.disk s₀ ∧ (machine A).Reach P (Log.boot s₀) g := by
  induction h with
  | boot => exact ⟨img.fs, fresh_image img, .start⟩
  | step _ hstep hs ih =>
    obtain ⟨s₀, hfresh, hreach⟩ := ih
    exact ⟨s₀, hfresh, hreach.step hstep hs⟩
  | crash _ ih =>
    obtain ⟨s₀, hfresh, hreach⟩ := ih
    have hinv := (Logic.inv_of_reach (fun h hK => hP h hK) (fun _ => rfl) hfresh.inv
      (fun u => hfresh.ok (K := K) u) hreach).1
    exact ⟨_, fresh_reboot hinv, .start⟩

theorem Run.inv (h : Run Machine.always img g) : Inv img.disk g.mem := by
  obtain ⟨s₀, hfresh, hreach⟩ := h.since (K := False) fun _ hno => hno.elim
  exact (Logic.inv_of_reach (fun _ hno => hno.elim) (fun _ => rfl) hfresh.inv
    (fun u => hfresh.ok (K := False) u) hreach).1

theorem Run.guar (h : Run Machine.always img g) {t : Tid} {i : Input A}
    (hs : (machine A).step t i g = some g') : g'.mem = g.mem ∨ Guar img.disk t g.mem g'.mem := by
  obtain ⟨s₀, hfresh, hreach⟩ := h.since (K := False) fun _ hno => hno.elim
  exact Logic.guar_of_step (fun _ hno => hno.elim) (fun _ => rfl) hfresh.inv
    (fun u => hfresh.ok (K := False) u) hreach (fun _ _ _ hno => hno.elim) hs

theorem Recovers.run (h : Run Machine.always img g) (hr : Recovers g g') :
    Run Machine.always img g' := by
  induction hr with
  | crash => exact h.crash
  | step _ _ hs ih => exact ih.step (fun _ _ _ => trivial) hs
  | again _ _ ih => exact ih.crash

/-- What was durable at the crash. -/
structure Kept (h h' : History A) : Prop where
  current : h'.current = []
  started : h'.started = h.started.take h.durable
  durable : h'.durable = h.durable

/-- Recovery commits nothing, however often it is interrupted. -/
theorem Recovers.kept (h : Run Machine.always img g) (hr : Recovers g g') :
    Kept g.mem.hist g'.mem.hist := by
  induction hr with
  | crash => exact ⟨rfl, rfl, rfl⟩
  | @step g₁ g₂ t i hr₁ hready hs ih =>
    have hrun := hr₁.run h
    rcases hrun.guar hs with hmem | hguar
    · rw [hmem]
      exact ih
    · have hboot : g₁.mem.hist.committer = some .boot := hrun.inv.boot.1 hready
      by_cases ht : t = .boot
      · have hsame := hguar.boot ht
        exact ⟨hsame.current.trans ih.current, hsame.started.trans ih.started,
          hsame.durable.trans ih.durable⟩
      · have hhist : g₂.mem.hist = g₁.mem.hist :=
          congrArg Seen.hist (hguar.seen .boot (Ne.symm ht) hboot)
        rw [hhist]
        exact ih
  | @again g₁ hr₁ hready ih =>
    refine ⟨rfl, ?_, ih.durable⟩
    show g₁.mem.hist.started.take g₁.mem.hist.durable = _
    rw [ih.started, ih.durable, List.take_take, Nat.min_self]

theorem Recovers.up (h : Run Machine.always img g) (hr : Recovers g g')
    (hready : g'.mem.ready = true) : g'.mem.hist.committer = none := by
  cases hr with
  | crash => cases hready
  | step hr₁ hno hs =>
    rcases (hr₁.run h).guar hs with hmem | hguar
    · rw [hmem, hno] at hready
      cases hready
    · exact hguar.up hno hready
  | again => cases hready

/-- After a crash, and any number of crashes during recovery, the home blocks
are as the transactions left them that were durable at the crash.  These are the
first ones, and all that were finished; of each operation they have all writes or
none. -/
theorem crash_atomic (hg : Run Machine.always img g) (hr : Recovers g g')
    (hready : g'.mem.ready = true) :
    g.mem.hist.finished ≤ g.mem.hist.durable ∧
      g.mem.hist.durable ≤ g.mem.hist.started.length ∧
      (∀ b, A.Home b → g'.mem.disk b = after img.disk (g.mem.hist.upTo g.mem.hist.durable) b ∧
        g'.mem.view b = g'.mem.disk b) ∧
      ∀ id, byOp id (g.mem.hist.upTo g.mem.hist.durable) = [] ∨
        byOp id (g.mem.hist.upTo g.mem.hist.durable) = byOp id g.mem.hist.written := by
  have hinv := hg.inv
  have hinv' := (hr.run hg).inv
  have hkept := hr.kept hg
  refine ⟨hinv.order.1, hinv.order.2, fun b hb => ?_, fun id => hinv.ops.upTo id _⟩
  obtain ⟨hheader, hdurable, -, -⟩ := hinv'.free (hr.up hg hready)
  have hlatest : g'.mem.hist.committed img.disk = g'.mem.hist.latest img.disk :=
    History.committed_eq_latest hdurable hkept.current
  have hdisk : g'.mem.disk b = g'.mem.hist.latest img.disk b := by
    rw [hinv'.disk.rest b hb (by rw [hheader]; exact List.not_mem_nil), hlatest]
  refine ⟨?_, (hinv'.view hready b hb).trans hdisk.symm⟩
  rw [hdisk, ← hlatest, History.committed, hdurable, History.upTo_length, hkept.started,
    History.upTo]

/-! ## A crash in a commit, and another in the recovery -/

theorem Run.reach {g₀ : System A} (h : Run P img g₀) (hg : (machine A).Reach P g₀ g) :
    Run P img g := by
  induction hg with
  | start => exact h
  | step _ hP hs ih => exact ih.step hP hs

/-- Follow a schedule while the system recovers. -/
def recoverRun : List (Tid × Input A) → System A → Option (System A)
  | [], g => some g
  | (t, i) :: sched, g =>
    if g.mem.ready = false then ((machine A).step t i g).bind (recoverRun sched) else none

theorem recovers_of_run {sched : List (Tid × Input A)} {g₁ g₂ : System A} (hg : Recovers g g₁)
    (h : recoverRun sched g₁ = some g₂) : Recovers g g₂ := by
  induction sched generalizing g₁ with
  | nil =>
    simp only [recoverRun, Option.some.injEq] at h
    exact h ▸ hg
  | cons ti sched ih =>
    obtain ⟨t, i⟩ := ti
    simp only [recoverRun, Option.ite_none_right_eq_some, Option.bind_eq_some_iff] at h
    obtain ⟨hready, g₃, hs, hrest⟩ := h
    exact ih (hg.step hready hs) hrest

def zeroImage : Image mkfsArea := ⟨fun _ _ => 0, rfl⟩

/-- A block behind the log. -/
def homeBlock (n : Nat) (h : 32 ≤ n ∧ n < 2 ^ 32) : HomeBlock mkfsArea :=
  ⟨BitVec.ofNat 32 n, .inr (by
    rw [BitVec.toNat_ofNat, Nat.mod_eq_of_lt h.2]
    exact h.1)⟩

/-- The system boots, and an operation logs a block and commits as far as the
write of the header. -/
def headerWritten : List (Tid × Input mkfsArea) :=
  List.replicate 8 (.boot, .stop) ++
    List.replicate 5 (.op 0, .write (homeBlock 100 (by decide)) fun _ => 7) ++
    List.replicate 12 (.op 0, .stop)

/-- Recovery is interrupted once; the block is there in the end. -/
theorem crash_atomic_twice : ∃ g g' : System mkfsArea,
    Run Machine.always zeroImage g ∧ Recovers g g' ∧ g'.mem.ready = true ∧
      g.mem.hist.finished = 0 ∧ g.mem.hist.durable = 1 ∧
      g'.mem.disk 100 = after zeroImage.disk (g.mem.hist.upTo g.mem.hist.durable) 100 := by
  have hview : (((machine mkfsArea).run Machine.always headerWritten (boot zeroImage.fs)).bind
      fun g => (recoverRun (List.replicate 7 (.boot, .stop)) (boot g.mem.reboot)).bind
        fun g₁ => (if g₁.mem.ready = false then recoverRun (List.replicate 12 (.boot, .stop))
            (boot g₁.mem.reboot) else none).map
          fun g' => (g'.mem.ready, g.mem.hist.finished, g.mem.hist.durable)) =
      some (true, 0, 1) := by decide +kernel
  obtain ⟨g, hg, hview⟩ := Option.bind_eq_some_iff.1 hview
  obtain ⟨g₁, hg₁, hview⟩ := Option.bind_eq_some_iff.1 hview
  obtain ⟨g', hg', hview⟩ := Option.map_eq_some_iff.1 hview
  obtain ⟨hno, hg'⟩ := Option.ite_none_right_eq_some.1 hg'
  have hrun : Run Machine.always zeroImage g :=
    Run.reach .boot (Machine.reach_of_run _ _ .start hg)
  have hr : Recovers g g' := recovers_of_run ((recovers_of_run .crash hg₁).again hno) hg'
  obtain ⟨hready, hfinished, hdurable⟩ : g'.mem.ready = true ∧ g.mem.hist.finished = 0 ∧
      g.mem.hist.durable = 1 := by simpa using hview
  exact ⟨g, g', hrun, hr, hready, hfinished, hdurable,
    ((crash_atomic hrun hr hready).2.2.1 100 (by decide)).1⟩

end Xv6.Log
