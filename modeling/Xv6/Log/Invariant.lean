import Xv6.Conc.Logic
import Xv6.Log.Code

/-!
# The invariant of the log

At every moment the disk is `Recoverable`: replaying the log that its header
announces gives the home blocks after all durable transactions.  `Inv` adds
what the memory holds, and what each operation has logged in which
transaction.  Only the thread that recovers or commits writes to the disk.
-/

namespace Xv6.Log

open Conc Function

variable {A : LogArea} {base : Disk} {s s' : Fs A} {t : Tid}

/-! ## What the disk should hold -/

/-- The writes of one operation. -/
def byOp (id : OpId) (ws : List (LoggedWrite A)) : List (LoggedWrite A) :=
  ws.filter fun w => w.op = id

@[simp] theorem byOp_append (id : OpId) (ws ws' : List (LoggedWrite A)) :
    byOp id (ws ++ ws') = byOp id ws ++ byOp id ws' := List.filter_append _ _

theorem byOp_eq_nil {id : OpId} {ws : List (LoggedWrite A)} :
    byOp id ws = [] ↔ ∀ w ∈ ws, w.op ≠ id := by
  simp [byOp, List.filter_eq_nil_iff]

theorem byOp_singleton (id : OpId) (w : LoggedWrite A) :
    byOp id [w] = if w.op = id then [w] else [] := by
  simp [byOp, List.filter_cons]

namespace History

variable (h : History A)

/-- The writes of the first `k` transactions. -/
def upTo (k : Nat) : List (LoggedWrite A) := (h.started.take k).flatten

/-- The blocks after all durable transactions. -/
def committed (base : Disk) : Disk := after base (h.upTo h.durable)

/-- The blocks after everything that has been logged. -/
def latest (base : Disk) : Disk := after base (h.started.flatten ++ h.current)

theorem upTo_length : h.upTo h.started.length = h.started.flatten := by
  rw [upTo, List.take_length]

end History

/-- The header on the disk. -/
def Fs.header (s : Fs A) : List BlockNo := readHeader (s.disk A.logstart)

/-- Replaying the log on the disk gives the blocks after all durable
transactions. -/
structure Recoverable (base : Disk) (s : Fs A) : Prop where
  home : ∀ b ∈ s.header, A.Home b
  fits : s.header.length ≤ LOGSIZE ∧ s.header.length < A.nlog
  replay : ∀ i b, s.header[i]? = some b → s.disk (A.slot i) = s.hist.committed base b
  rest : ∀ b, A.Home b → b ∉ s.header → s.disk b = s.hist.committed base b

/-! ## The invariant -/

/-- Which operations have logged what. -/
structure OpsOk (h : History A) : Prop where
  epoch : ∀ id ∈ h.begun, id.1 ≤ h.epoch
  begun : ∀ w ∈ h.written, w.op ∈ h.begun
  active : ∀ id ∈ h.active, id ∈ h.begun ∧
    byOp id h.started.flatten = [] ∧ byOp id h.current = byOp id h.written
  current : ∀ id, byOp id h.current = [] ∨
    byOp id h.started.flatten = [] ∧ byOp id h.current = byOp id h.written
  upTo : ∀ id k, byOp id (h.upTo k) = [] ∨ byOp id (h.upTo k) = byOp id h.written

/-- The blocks in `log.lh` are those logged since the last commit. -/
structure LhOk (s : Fs A) : Prop where
  nodup : s.log.lh.Nodup
  mem : ∀ b, b ∈ s.log.lh ↔ ∃ w ∈ s.hist.current, w.block.val = b
  fits : s.log.lh.length ≤ LOGSIZE ∧ s.log.lh.length < A.nlog

/-- What holds between operations of the log. -/
structure Inv (base : Disk) (s : Fs A) : Prop where
  disk : Recoverable base s
  ops : OpsOk s.hist
  order : s.hist.finished ≤ s.hist.durable ∧ s.hist.durable ≤ s.hist.started.length
  /-- Buffers that are not pinned are clean. -/
  clean : ∀ b, s.pins b = 0 → s.view b = s.disk b
  view : s.ready = true → ∀ b, A.Home b → s.view b = s.hist.latest base b
  count : s.log.outstanding = s.hist.active.length
  nodup : s.hist.active.Nodup
  boot : s.ready = false ↔ s.hist.committer = some .boot
  committing : s.ready = true → (s.log.committing = true ↔ s.hist.committer ≠ none)
  quiet : s.hist.committer ≠ none → s.hist.active = [] ∧ s.hist.current = []
  /-- Between commits the log on the disk is empty. -/
  free : s.hist.committer = none → s.header = [] ∧ s.hist.durable = s.hist.started.length ∧
    LhOk s ∧ ∀ b, s.pins b = if b ∈ s.log.lh then 1 else 0

/-- All that has been logged is on the disk, and the log is empty. -/
structure Clear (base : Disk) (s : Fs A) : Prop where
  current : s.hist.current = []
  header : s.header = []
  home : ∀ b, A.Home b → s.disk b = s.hist.latest base b
  pins : ∀ b, s.pins b = 0
  lh : s.log.lh = []

/-! ## What does not concern the disk -/

theorem Recoverable.congr (h : Recoverable base s) (hdisk : s'.disk = s.disk)
    (hcommitted : s'.hist.committed base = s.hist.committed base) : Recoverable base s' := by
  have hheader : s'.header = s.header := by rw [Fs.header, hdisk, Fs.header]
  refine ⟨?_, ?_, ?_, ?_⟩
  · rw [hheader]
    exact h.home
  · rw [hheader]
    exact h.fits
  · rw [hheader, hdisk, hcommitted]
    exact h.replay
  · rw [hheader, hdisk, hcommitted]
    exact h.rest

theorem LhOk.congr (h : LhOk s) (hlh : s'.log.lh = s.log.lh)
    (hcurrent : s'.hist.current = s.hist.current) : LhOk s' := by
  refine ⟨?_, ?_, ?_⟩
  · rw [hlh]
    exact h.nodup
  · rw [hlh, hcurrent]
    exact h.mem
  · rw [hlh]
    exact h.fits

/-- Reading or dropping a buffer changes nothing but the cache. -/
theorem Inv.of_view (h : Inv base s) {cache : BlockNo → Option Block}
    (hview : ∀ b, (cache b).getD (s.disk b) = s.view b) : Inv base { s with cache := cache } where
  disk := h.disk.congr rfl rfl
  ops := h.ops
  order := h.order
  clean b hb := (hview b).trans (h.clean b hb)
  view hr b hb := (hview b).trans (h.view hr b hb)
  count := h.count
  nodup := h.nodup
  boot := h.boot
  committing := h.committing
  quiet := h.quiet
  free hc := ⟨(h.free hc).1, (h.free hc).2.1, (h.free hc).2.2.1.congr rfl rfl, (h.free hc).2.2.2⟩

theorem view_bread (s : Fs A) (b b' : BlockNo) :
    (update s.cache b (some (s.view b)) b').getD (s.disk b') = s.view b' := by
  by_cases hb : b' = b
  · subst hb
    rw [update_self, Option.getD_some]
  · rw [update_of_ne hb]
    rfl

theorem view_evict (h : Inv base s) {b : BlockNo} (hb : s.pins b = 0) (b' : BlockNo) :
    (update s.cache b none b').getD (s.disk b') = s.view b' := by
  by_cases hb' : b' = b
  · subst hb'
    rw [update_self, Option.getD_none, h.clean b' hb]
  · rw [update_of_ne hb']
    rfl

/-! ## Operations begin, log and end -/

namespace OpsOk

variable {h : History A} {id : OpId}

theorem byOp_upTo (hnil : byOp id h.started.flatten = []) (k : Nat) : byOp id (h.upTo k) = [] := by
  rw [byOp_eq_nil] at hnil ⊢
  intro w hw
  obtain ⟨ws, hws, hw⟩ := List.mem_flatten.1 hw
  exact hnil w (List.mem_flatten.2 ⟨ws, List.mem_of_mem_take hws, hw⟩)

/-- An operation that has not begun has logged nothing. -/
theorem written_nil (hok : OpsOk h) (hid : id ∉ h.begun) : byOp id h.written = [] := by
  rw [byOp_eq_nil]
  intro w hw heq
  exact hid (heq ▸ hok.begun w hw)

theorem begin (hok : OpsOk h) (hid : id ∉ h.begun) (hepoch : id.1 = h.epoch) :
    OpsOk { h with begun := id :: h.begun, active := id :: h.active } where
  epoch id' hid' := by
    obtain rfl | hid' := List.mem_cons.1 hid'
    · exact hepoch.le
    · exact hok.epoch id' hid'
  begun w hw := List.mem_cons_of_mem _ (hok.begun w hw)
  active id' hid' := by
    obtain rfl | hid' := List.mem_cons.1 hid'
    · have hnil := hok.written_nil hid
      have hstarted : byOp id' h.started.flatten = [] := by
        rw [← History.upTo_length]
        rcases hok.upTo id' h.started.length with hup | hup
        · exact hup
        · rw [hup, hnil]
      refine ⟨List.mem_cons_self, hstarted, ?_⟩
      rcases hok.current id' with hcur | ⟨-, hcur⟩
      · exact hcur.trans hnil.symm
      · exact hcur
    · obtain ⟨hbegun, hrest⟩ := hok.active id' hid'
      exact ⟨List.mem_cons_of_mem _ hbegun, hrest⟩
  current := hok.current
  upTo := hok.upTo

theorem log (hok : OpsOk h) (hid : id ∈ h.active) (b : HomeBlock A) (d : Block) :
    OpsOk { h with written := h.written ++ [⟨id, b, d⟩], current := h.current ++ [⟨id, b, d⟩] } where
  epoch := hok.epoch
  begun w hw := by
    rcases List.mem_append.1 hw with hw | hw
    · exact hok.begun w hw
    · rw [List.mem_singleton.1 hw]
      exact (hok.active id hid).1
  active id' hid' := by
    obtain ⟨hbegun, hstarted, hcur⟩ := hok.active id' hid'
    exact ⟨hbegun, hstarted, by rw [byOp_append, byOp_append, hcur]⟩
  current id' := by
    by_cases hid' : id = id'
    · subst hid'
      obtain ⟨-, hstarted, hcur⟩ := hok.active id hid
      exact .inr ⟨hstarted, by rw [byOp_append, byOp_append, hcur]⟩
    · simpa only [byOp_append, byOp_singleton, if_neg hid', List.append_nil] using hok.current id'
  upTo id' k := by
    by_cases hid' : id = id'
    · subst hid'
      exact .inl (byOp_upTo (hok.active id hid).2.1 k)
    · simp only [byOp_append, byOp_singleton, if_neg hid', List.append_nil]
      exact hok.upTo id' k

/-- The current transaction becomes one of those that `commit` has started. -/
theorem commit (hok : OpsOk h) (c : Option Tid) :
    OpsOk { h with
      active := [], current := [], started := h.started ++ [h.current], committer := c } where
  epoch := hok.epoch
  begun := hok.begun
  active _ hid := by cases hid
  current _ := .inl rfl
  upTo id k := by
    rcases Nat.lt_or_ge h.started.length k with hk | hk
    · have htake : (h.started ++ [h.current]).take k = h.started ++ [h.current] :=
        List.take_of_length_le (by rw [List.length_append]; exact hk)
      simp only [History.upTo, htake, List.flatten_append, List.flatten_singleton, byOp_append]
      rcases hok.current id with hcur | ⟨hstarted, hcur⟩
      · rw [hcur, List.append_nil, ← History.upTo_length]
        exact hok.upTo id _
      · rw [hstarted, hcur]
        exact .inr rfl
    · simpa only [History.upTo, List.take_append_of_le_length hk] using hok.upTo id k

/-- An operation ends. -/
theorem finish (hok : OpsOk h) (id : OpId) :
    OpsOk { h with active := h.active.erase id } where
  epoch := hok.epoch
  begun := hok.begun
  active id' hid' := hok.active id' (List.mem_of_mem_erase hid')
  current := hok.current
  upTo := hok.upTo

/-- A crash loses the current transaction and those that are not durable. -/
theorem reboot (hok : OpsOk h) (c : Option Tid) :
    OpsOk { h with
      epoch := h.epoch + 1, active := [], current := [], started := h.started.take h.durable,
      committer := c } where
  epoch id hid := (hok.epoch id hid).trans (Nat.le_succ _)
  begun := hok.begun
  active _ hid := by cases hid
  current _ := .inl rfl
  upTo id k := by
    simp only [History.upTo, List.take_take]
    exact hok.upTo id _

end OpsOk

/-! ## What the critical sections do -/

namespace LogState

variable {l l' : LogState} {size : Nat} {b : BlockNo} {c : Bool}

theorem beginOp_eq_some (h : l.beginOp = some l') :
    l.committing = false ∧ l' = { l with outstanding := l.outstanding + 1 } := by
  unfold beginOp at h
  split at h
  · cases h
  · rename_i hc
    split at h
    · cases h
    · exact ⟨by simpa using hc, (Option.some.inj h).symm⟩

theorem endOp_eq_ok (h : l.endOp = .ok (c, l')) :
    l' = ⟨l.outstanding - 1, c, l.lh⟩ ∧ (c = true → l.outstanding - 1 = 0) ∧
      l.committing = false := by
  unfold endOp at h
  simp only at h
  split at h
  · cases h
  · rename_i hc
    have hc : l.committing = false := by simpa using hc
    split at h
    · rename_i hzero
      cases h
      exact ⟨rfl, fun _ => hzero, hc⟩
    · cases h
      exact ⟨by rw [hc], (fun hf => by cases hf), hc⟩

theorem endOp_eq_error {msg : String} (h : l.endOp = .error msg) : l.committing = true := by
  unfold endOp at h
  simp only at h
  split at h
  · assumption
  · split at h <;> cases h

theorem logWrite_eq_ok (h : l.logWrite size b = .ok l') :
    ¬ l.TooBig size ∧ (b ∈ l.lh ∧ l' = l ∨ b ∉ l.lh ∧ l' = { l with lh := l.lh ++ [b] }) := by
  unfold logWrite at h
  split at h
  · cases h
  · rename_i hbig
    split at h
    · cases h
    · split at h
      · rename_i hmem
        exact ⟨hbig, .inl ⟨hmem, (Except.ok.inj h).symm⟩⟩
      · rename_i hmem
        exact ⟨hbig, .inr ⟨hmem, (Except.ok.inj h).symm⟩⟩

end LogState

/-! ## Each step keeps the invariant -/

/-- Operations run only while nobody commits. -/
theorem Inv.committer_of_active (h : Inv base s) {id : OpId} (hid : id ∈ s.hist.active) :
    s.hist.committer = none := by
  by_contra hc
  have hnil := (h.quiet hc).1
  rw [hnil] at hid
  cases hid

theorem Inv.committer_of_not_committing (h : Inv base s) (hr : s.ready = true)
    (hc : s.log.committing = false) : s.hist.committer = none := by
  by_contra hne
  rw [(h.committing hr).2 hne] at hc
  cases hc

theorem inv_beginOp {id : OpId} {l : LogState} (h : Inv base s) (hr : s.ready = true)
    (hepoch : id.1 = s.hist.epoch) (hid : id ∉ s.hist.begun) (hl : s.log.beginOp = some l) :
    Inv base { s with
      log := l
      hist := { s.hist with begun := id :: s.hist.begun, active := id :: s.hist.active } } := by
  obtain ⟨hcommitting, rfl⟩ := LogState.beginOp_eq_some hl
  have hnone := h.committer_of_not_committing hr hcommitting
  have hfree := h.free hnone
  have hnot : id ∉ s.hist.active := fun hmem => hid (h.ops.active id hmem).1
  exact
    { disk := h.disk.congr rfl rfl
      ops := h.ops.begin hid hepoch
      order := h.order
      clean := h.clean
      view := h.view
      count := by simp [h.count]
      nodup := List.nodup_cons.2 ⟨hnot, h.nodup⟩
      boot := h.boot
      committing := h.committing
      quiet := fun hc => absurd hnone hc
      free := fun _ => ⟨hfree.1, hfree.2.1, hfree.2.2.1.congr rfl rfl, hfree.2.2.2⟩ }

/-- The blocks after one more logged write. -/
theorem History.latest_log (h : History A) (w : LoggedWrite A) :
    { h with written := h.written ++ [w], current := h.current ++ [w] }.latest base =
      update (h.latest base) w.block.val w.data := by
  simp only [History.latest, ← List.append_assoc]
  exact after_concat

theorem LhOk.log (h : LhOk s) {b : HomeBlock A} {l : LogState} (w : LoggedWrite A)
    (hw : w.block = b) (hl : s.log.logWrite A.nlog b = .ok l)
    (hlog : s'.log = l) (hcurrent : s'.hist.current = s.hist.current ++ [w]) : LhOk s' := by
  obtain ⟨hbig, hcases⟩ := LogState.logWrite_eq_ok hl
  have hcur : ∀ c : BlockNo, (∃ v ∈ s.hist.current ++ [w], v.block.val = c) ↔
      (∃ v ∈ s.hist.current, v.block.val = c) ∨ b.val = c := by
    intro c
    simp [hw, or_and_right, exists_or]
  unfold LogState.TooBig at hbig
  rcases hcases with ⟨hmem, rfl⟩ | ⟨hmem, rfl⟩
  · refine ⟨by rw [hlog]; exact h.nodup, fun c => ?_, by rw [hlog]; exact h.fits⟩
    rw [hlog, hcurrent, hcur, ← h.mem]
    constructor
    · exact .inl
    · rintro (hc | rfl)
      · exact hc
      · exact hmem
  · refine ⟨?_, fun c => ?_, ?_⟩
    · rw [hlog]
      exact List.nodup_append.2 ⟨h.nodup, List.nodup_singleton _, by
        rintro x hx y hy rfl
        rw [List.mem_singleton] at hy
        exact hmem (hy ▸ hx)⟩
    · rw [hlog, hcurrent, hcur, ← h.mem, List.mem_append, List.mem_singleton, eq_comm (b := c)]
    · rw [hlog, List.length_append, List.length_singleton]
      omega

theorem inv_logWrite {id : OpId} {b : HomeBlock A} {d : Block} {l : LogState} (h : Inv base s)
    (hid : id ∈ s.hist.active) (hl : s.log.logWrite A.nlog b = .ok l) :
    Inv base { s with
      cache := update s.cache b (some d)
      pins := if b.val ∈ s.log.lh then s.pins else update s.pins b (s.pins b + 1)
      log := l
      hist := { s.hist with
        written := s.hist.written ++ [⟨id, b, d⟩]
        current := s.hist.current ++ [⟨id, b, d⟩] } } := by
  have hnone := h.committer_of_active hid
  obtain ⟨hheader, hdurable, hlh, hpins⟩ := h.free hnone
  obtain ⟨-, hcases⟩ := LogState.logWrite_eq_ok hl
  have hout : l.outstanding = s.log.outstanding ∧ l.committing = s.log.committing ∧
      ∀ c, c ∈ l.lh ↔ c ∈ s.log.lh ∨ c = b.val := by
    rcases hcases with ⟨hmem, rfl⟩ | ⟨hmem, rfl⟩
    · refine ⟨rfl, rfl, fun c => ⟨.inl, ?_⟩⟩
      rintro (hc | rfl)
      · exact hc
      · exact hmem
    · exact ⟨rfl, rfl, fun c => by simp⟩
  have hpins' : ∀ c, (if b.val ∈ s.log.lh then s.pins else update s.pins b (s.pins b + 1)) c =
      if c ∈ l.lh then 1 else 0 := by
    intro c
    simp only [hout.2.2 c]
    by_cases hmem : b.val ∈ s.log.lh
    · rw [if_pos hmem, hpins c]
      by_cases hcb : c = b.val
      · simp [hcb, hmem]
      · simp [hcb]
    · rw [if_neg hmem]
      by_cases hcb : c = b.val
      · rw [hcb, update_self, hpins, if_neg hmem]
        simp
      · rw [update_of_ne hcb, hpins c]
        simp [hcb]
  exact
    { disk := h.disk.congr rfl rfl
      ops := h.ops.log hid b d
      order := h.order
      clean := fun c hc => by
        have hc : (if b.val ∈ s.log.lh then s.pins else update s.pins b (s.pins b + 1)) c = 0 := hc
        rw [hpins' c] at hc
        have hnot : c ∉ l.lh := by
          intro hmem
          rw [if_pos hmem] at hc
          cases hc
        rw [hout.2.2 c, not_or] at hnot
        have hclean := h.clean c (by rw [hpins, if_neg hnot.1])
        show (update s.cache b (some d) c).getD (s.disk c) = s.disk c
        rw [update_of_ne hnot.2]
        exact hclean
      view := fun hr c hc => by
        rw [History.latest_log]
        show (update s.cache b (some d) c).getD (s.disk c) = _
        by_cases hcb : c = b.val
        · subst hcb
          rw [update_self, update_self, Option.getD_some]
        · rw [update_of_ne hcb, update_of_ne hcb]
          exact h.view hr c hc
      count := hout.1.trans h.count
      nodup := h.nodup
      boot := h.boot
      committing := fun hr => by
        rw [show ({ s with log := l } : Fs A).log.committing = s.log.committing from hout.2.1]
        exact h.committing hr
      quiet := fun hc => absurd hnone hc
      free := fun _ => ⟨hheader, hdurable, hlh.log ⟨id, b, d⟩ rfl hl rfl rfl, hpins'⟩ }

theorem Inv.ready_of_none (h : Inv base s) (hc : s.hist.committer = none) : s.ready = true := by
  by_contra hr
  rw [Bool.not_eq_true, h.boot, hc] at hr
  cases hr

theorem inv_endOp {id : OpId} {l : LogState} (h : Inv base s) (hid : id ∈ s.hist.active)
    (hl : s.log.endOp = .ok (false, l)) :
    Inv base { s with log := l, hist := { s.hist with active := s.hist.active.erase id } } := by
  have hnone := h.committer_of_active hid
  obtain ⟨rfl, -, hcommitting⟩ := LogState.endOp_eq_ok hl
  obtain ⟨hheader, hdurable, hlh, hpins⟩ := h.free hnone
  exact
    { disk := h.disk.congr rfl rfl
      ops := h.ops.finish id
      order := h.order
      clean := h.clean
      view := h.view
      count := by
        show s.log.outstanding - 1 = (s.hist.active.erase id).length
        rw [h.count, List.length_erase_of_mem hid]
      nodup := h.nodup.erase id
      boot := h.boot
      committing := fun hr => by
        rw [← h.committing hr, hcommitting]
      quiet := fun hc => absurd hnone hc
      free := fun _ => ⟨hheader, hdurable, hlh.congr rfl rfl, hpins⟩ }

/-- The last operation of a transaction ends. -/
theorem inv_endOp_commits {id : OpId} {l : LogState} (h : Inv base s) (hid : id ∈ s.hist.active)
    (ht : t ≠ .boot) (hl : s.log.endOp = .ok (true, l)) :
    Inv base { s with
      log := l
      hist := { s.hist with
        active := s.hist.active.erase id
        current := []
        started := s.hist.started ++ [s.hist.current]
        committer := some t } } := by
  have hnone := h.committer_of_active hid
  have hready := h.ready_of_none hnone
  obtain ⟨rfl, hzero, -⟩ := LogState.endOp_eq_ok hl
  obtain ⟨hheader, hdurable, hlh, hpins⟩ := h.free hnone
  have hnil : s.hist.active.erase id = [] := by
    rw [← List.length_eq_zero_iff, List.length_erase_of_mem hid, ← h.count]
    exact hzero rfl
  rw [hnil]
  have htake : (s.hist.started ++ [s.hist.current]).take s.hist.durable =
      s.hist.started.take s.hist.durable := List.take_append_of_le_length hdurable.le
  exact
    { disk := h.disk.congr rfl (by simp only [History.committed, History.upTo, htake])
      ops := h.ops.commit (some t)
      order := ⟨h.order.1, by simp [hdurable]⟩
      clean := h.clean
      view := fun hr b hb => (h.view hr b hb).trans (by simp [History.latest])
      count := hzero rfl
      nodup := List.nodup_nil
      boot := by simp [hready, ht]
      committing := fun _ => by simp
      quiet := fun _ => ⟨rfl, rfl⟩
      free := fun hc => by cases hc }

/-- What the thread that recovers or commits may do to the disk, the cache, the
pins and `log.lh`. -/
theorem Inv.advance (h : Inv base s) (hc : s.hist.committer ≠ none) {disk : Disk}
    {cache : BlockNo → Option Block} {pins : BlockNo → Nat} {lh : List BlockNo} {d f : Nat}
    (hs : s' = { s with
      disk := disk, cache := cache, pins := pins, log := { s.log with lh := lh }
      hist := { s.hist with durable := d, finished := f } })
    (hdisk : Recoverable base s') (horder : f ≤ d ∧ d ≤ s.hist.started.length)
    (hclean : ∀ b, pins b = 0 → s'.view b = disk b)
    (hview : s.ready = true → ∀ b, A.Home b → s'.view b = s.hist.latest base b) : Inv base s' := by
  subst hs
  exact
    { disk := hdisk
      ops := ⟨h.ops.epoch, h.ops.begun, h.ops.active, h.ops.current, h.ops.upTo⟩
      order := horder
      clean := hclean
      view := hview
      count := h.count
      nodup := h.nodup
      boot := h.boot
      committing := h.committing
      quiet := h.quiet
      free := fun hnone => absurd hnone hc }

/-- The disk after `bwrite`. -/
def Fs.bwrite (s : Fs A) (b : BlockNo) (d : Block) (commits : Bool) : Fs A :=
  { s with
    cache := update s.cache b (some d)
    disk := update s.disk b d
    hist := if commits then { s.hist with durable := s.hist.started.length } else s.hist }

@[simp] theorem disk_bwrite (s : Fs A) (b : BlockNo) (d : Block) (commits : Bool) :
    (s.bwrite b d commits).disk = update s.disk b d := rfl

theorem view_bwrite (s : Fs A) (b : BlockNo) (d : Block) (commits : Bool) (c : BlockNo) :
    (s.bwrite b d commits).view c = if c = b then d else s.view c := by
  show (update s.cache b (some d) c).getD (update s.disk b d c) = _
  by_cases hcb : c = b
  · subst hcb
    rw [update_self, update_self, Option.getD_some, if_pos rfl]
  · rw [update_of_ne hcb, update_of_ne hcb, if_neg hcb]
    rfl

theorem inv_bwrite {b : BlockNo} {d : Block} {commits : Bool} (h : Inv base s)
    (hc : s.hist.committer ≠ none) (hdisk : Recoverable base (s.bwrite b d commits))
    (hd : A.Home b → d = s.hist.latest base b) : Inv base (s.bwrite b d commits) := by
  have hclean : ∀ c, s.pins c = 0 → (s.bwrite b d commits).view c = update s.disk b d c := by
    intro c hpin
    rw [view_bwrite]
    by_cases hcb : c = b
    · rw [if_pos hcb, hcb, update_self]
    · rw [if_neg hcb, update_of_ne hcb]
      exact h.clean c hpin
  have hview : s.ready = true → ∀ c, A.Home c →
      (s.bwrite b d commits).view c = s.hist.latest base c := by
    intro hr c hhome
    rw [view_bwrite]
    by_cases hcb : c = b
    · rw [if_pos hcb, hcb]
      exact hd (hcb ▸ hhome)
    · rw [if_neg hcb]
      exact h.view hr c hhome
  cases commits with
  | false => exact h.advance hc rfl hdisk h.order hclean hview
  | true => exact h.advance hc rfl hdisk ⟨h.order.1.trans h.order.2, le_rfl⟩ hclean hview

theorem inv_setLh (h : Inv base s) (hc : s.hist.committer ≠ none) (lh : List BlockNo) :
    Inv base { s with log := { s.log with lh := lh } } :=
  h.advance hc rfl (h.disk.congr rfl rfl) h.order h.clean h.view

theorem inv_bunpin {b : BlockNo} (h : Inv base s) (hc : s.hist.committer ≠ none)
    (hb : s.view b = s.disk b) :
    Inv base { s with pins := update s.pins b (s.pins b - 1) } := by
  refine h.advance hc rfl (h.disk.congr rfl rfl) h.order (fun c hpin => ?_) h.view
  by_cases hcb : c = b
  · rw [hcb]
    exact hb
  · rw [update_of_ne hcb] at hpin
    exact h.clean c hpin

theorem inv_finished (h : Inv base s) (hc : s.hist.committer ≠ none) (hclear : Clear base s) :
    Inv base { s with hist := { s.hist with
      durable := s.hist.started.length, finished := s.hist.started.length } } := by
  refine h.advance hc rfl ⟨?_, ?_, ?_, fun b hb _ => ?_⟩ ⟨le_rfl, le_rfl⟩ h.clean h.view
  · show ∀ b ∈ s.header, A.Home b
    rw [hclear.header]
    exact fun b hb => absurd hb List.not_mem_nil
  · show s.header.length ≤ LOGSIZE ∧ s.header.length < A.nlog
    rw [hclear.header]
    exact ⟨Nat.zero_le _, A.pos⟩
  · show ∀ i b, s.header[i]? = some b → _
    rw [hclear.header]
    exact fun i b hb => by simp at hb
  · rw [History.committed, History.upTo_length]
    have hhome := hclear.home b hb
    rw [History.latest, hclear.current, List.append_nil] at hhome
    exact hhome

/-- A thread has recovered or committed, and operations may run again. -/
theorem Inv.release (h : Inv base s) (hclear : Clear base s)
    (hdurable : s.hist.durable = s.hist.started.length)
    (hs : s' = { s with
      ready := true
      log := { s.log with committing := false }
      hist := { s.hist with committer := none } }) : Inv base s' := by
  subst hs
  have hlh : LhOk { s with
      ready := true
      log := { s.log with committing := false }
      hist := { s.hist with committer := none } } := by
    refine ⟨?_, fun b => ?_, ?_⟩
    · show s.log.lh.Nodup
      rw [hclear.lh]
      exact List.nodup_nil
    · show b ∈ s.log.lh ↔ ∃ w ∈ s.hist.current, w.block.val = b
      simp [hclear.lh, hclear.current]
    · show s.log.lh.length ≤ LOGSIZE ∧ s.log.lh.length < A.nlog
      rw [hclear.lh]
      exact ⟨Nat.zero_le _, A.pos⟩
  exact
    { disk := h.disk.congr rfl rfl
      ops := ⟨h.ops.epoch, h.ops.begun, h.ops.active, h.ops.current, h.ops.upTo⟩
      order := h.order
      clean := h.clean
      view := fun _ b hb => (h.clean b (hclear.pins b)).trans (hclear.home b hb)
      count := h.count
      nodup := h.nodup
      boot := by simp
      committing := fun _ => by simp
      quiet := fun hc => absurd rfl hc
      free := fun _ => ⟨hclear.header, hdurable, hlh, fun b => by
        show s.pins b = if b ∈ s.log.lh then 1 else 0
        rw [hclear.pins, hclear.lh]
        rfl⟩ }

theorem inv_endCommit (h : Inv base s) (hr : s.ready = true) (hclear : Clear base s)
    (hdurable : s.hist.durable = s.hist.started.length) :
    Inv base { s with
      log := { s.log with committing := false }, hist := { s.hist with committer := none } } :=
  h.release hclear hdurable (by rw [← hr])

theorem inv_ready (h : Inv base s) (hcommitting : s.log.committing = false)
    (hclear : Clear base s) (hdurable : s.hist.durable = s.hist.started.length) :
    Inv base { s with ready := true, hist := { s.hist with committer := none } } :=
  h.release hclear hdurable (by rw [← hcommitting])

/-! ## A crash -/

theorem inv_reboot (h : Inv base s) : Inv base s.reboot := by
  have hcommitted : s.reboot.hist.committed base = s.hist.committed base := by
    simp [History.committed, History.upTo, Fs.reboot, List.take_take]
  exact
    { disk := h.disk.congr rfl hcommitted
      ops := h.ops.reboot (some .boot)
      order := ⟨h.order.1, by simp [Fs.reboot, h.order.2]⟩
      clean := fun _ _ => rfl
      view := fun hr => by cases hr
      count := rfl
      nodup := List.nodup_nil
      boot := by simp [Fs.reboot]
      committing := fun hr => by cases hr
      quiet := fun _ => ⟨rfl, rfl⟩
      free := fun hc => by cases hc }

theorem inv_image (img : Image A) : Inv img.disk img.fs := by
  have hheader : img.fs.header = [] := readHeader_of_zero img.empty
  exact
    { disk :=
        { home := fun b hb => by rw [hheader] at hb; cases hb
          fits := by rw [hheader]; exact ⟨Nat.zero_le _, A.pos⟩
          replay := fun i b hb => by rw [hheader] at hb; simp at hb
          rest := fun _ _ _ => rfl }
      ops :=
        { epoch := fun _ hid => by cases hid
          begun := fun _ hw => by cases hw
          active := fun _ hid => by cases hid
          current := fun _ => .inl rfl
          upTo := fun _ k => .inl (by simp [History.upTo, Image.fs, byOp]) }
      order := ⟨le_rfl, le_rfl⟩
      clean := fun _ _ => rfl
      view := fun hr => by cases hr
      count := rfl
      nodup := List.nodup_nil
      boot := by simp [Image.fs]
      committing := fun hr => by cases hr
      quiet := fun _ => ⟨rfl, rfl⟩
      free := fun hc => by cases hc }

end Xv6.Log
