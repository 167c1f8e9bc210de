import Xv6.Log.Rules

/-!
# Commit and recovery

The blocks of a transaction go to the log, the header makes them durable, they
are installed, and the header is cleared.  Recovery starts in the middle of
this, with the header that it finds.
-/

namespace Xv6.Log

open Conc Conc.Logic
open Function (update)

variable {A : LogArea} {base : Disk} {s : Fs A} {t : Tid} {K : Prop} {lh : List BlockNo} {n : Nat}
  {recovering : Bool}

def Seen.header (v : Seen A) : List BlockNo := readHeader (v.disk A.logstart)

/-- A transaction is to be committed, and `n` of its blocks are in the log. -/
structure Prepared (base : Disk) (lh : List BlockNo) (n : Nat) (v : Seen A) : Prop where
  ready : v.ready = true
  logged : v.log.lh = lh
  nodup : lh.Nodup
  home : ∀ b ∈ lh, A.Home b
  fits : lh.length ≤ LOGSIZE ∧ lh.length < A.nlog
  header : v.header = []
  pins : ∀ b, v.pins b = if b ∈ lh then 1 else 0
  copied : ∀ i < n, ∀ b, lh[i]? = some b → v.disk (A.slot i) = v.hist.latest base b

/-- The blocks `lh` are durable in the log, and `n` of them are installed. -/
structure Installing (base : Disk) (recovering : Bool) (lh : List BlockNo) (n : Nat)
    (v : Seen A) : Prop where
  ready : v.ready = !recovering
  calm : recovering = true → v.log.committing = false
  nodup : recovering = false → lh.Nodup
  header : v.header = lh
  durable : v.hist.durable = v.hist.started.length
  done : ∀ i < n, ∀ b, lh[i]? = some b → v.disk b = v.hist.latest base b
  pins : ∀ b, v.pins b = if recovering = false ∧ b ∈ lh.drop n then 1 else 0

/-- All blocks are installed, and the log is empty. -/
structure Erased (base : Disk) (recovering : Bool) (v : Seen A) : Prop where
  ready : v.ready = !recovering
  calm : recovering = true → v.log.committing = false
  lh : v.log.lh = []
  header : v.header = []
  durable : v.hist.durable = v.hist.started.length
  home : ∀ b, A.Home b → v.disk b = v.hist.latest base b
  pins : ∀ b, v.pins b = 0

theorem getD_of_getElem? {i : Nat} {b : BlockNo} (h : lh[i]? = some b) : lh.getD i 0 = b := by
  rw [List.getD_eq_getElem?_getD, h, Option.getD_some]

/-- All that is logged is durable. -/
theorem History.committed_eq_latest {h : History A} (hdurable : h.durable = h.started.length)
    (hcurrent : h.current = []) : h.committed base = h.latest base := by
  rw [committed, latest, hdurable, upTo_length, hcurrent, List.append_nil]

theorem Erased.clear (hinv : Inv base s) (hc : s.hist.committer = some t)
    (h : Erased base recovering s.seen) : Clear base s :=
  ⟨(hinv.quiet (by simp [hc])).2, h.header, h.home, h.pins, h.lh⟩

/-- An empty transaction has nothing to write. -/
theorem Prepared.clear (hinv : Inv base s) (hc : s.hist.committer = some t)
    (h : Prepared base [] 0 s.seen) : Clear base s := by
  have hpins : ∀ b, s.pins b = 0 := fun b => (h.pins b).trans (if_neg List.not_mem_nil)
  refine ⟨(hinv.quiet (by simp [hc])).2, h.header, fun b hb => ?_, hpins, h.logged⟩
  rw [← hinv.clean b (hpins b)]
  exact hinv.view h.ready b hb

/-! ## The log is written -/

theorem Prepared.write (h : Prepared base lh n s.seen) (hinv : Inv base s) (hn : n < lh.length)
    {b : BlockNo} (hb : lh[n]? = some b) {d : Block} (hd : d = s.view b) :
    Recoverable base (s.bwrite (A.slot n) d false) ∧
      (A.Home (A.slot n) → d = s.hist.latest base (A.slot n)) ∧
      Prepared base lh (n + 1) (s.bwrite (A.slot n) d false).seen := by
  have hfits := h.fits
  have hslot : n + 1 < A.nlog := by omega
  have hnot : ¬ A.Home (A.slot n) := fun hhome => hhome.ne_slot hslot rfl
  have hstart := A.slot_ne_logstart hslot
  have hheader : s.header = [] := h.header
  have hlatest : d = s.hist.latest base b := by
    rw [hd]
    exact hinv.view h.ready b (h.home b (List.mem_of_getElem? hb))
  refine ⟨hinv.disk.bwrite hstart (fun i hi => ?_) fun hhome => absurd hhome hnot,
    fun hhome => absurd hhome hnot, h.ready, h.logged, h.nodup, h.home, h.fits, ?_, h.pins,
    fun i hi c hc => ?_⟩
  · rw [hheader] at hi
    exact absurd hi (Nat.not_lt_zero i)
  · show readHeader (update s.disk (A.slot n) d A.logstart) = []
    rw [Function.update_of_ne hstart.symm]
    exact h.header
  · show update s.disk (A.slot n) d (A.slot i) = s.hist.latest base c
    have hlt : i < lh.length := (List.getElem?_eq_some_iff.1 hc).1
    by_cases hin : i = n
    · subst hin
      rw [hb] at hc
      rw [Function.update_self, ← Option.some.inj hc]
      exact hlatest
    · rw [Function.update_of_ne fun heq => hin (A.slot_inj (by omega) hslot heq)]
      exact h.copied i (by omega) c hc

theorem writeLog_rule :
    (logic A base K).Triple t (Holds t (Prepared base lh 0)) writeLog
      fun _ => Holds t (Prepared base lh lh.length) := by
  refine Triple.bind (readLog_rule (r := lh.length) fun v hv => by rw [hv.logged])
    fun m => Triple.of_pure fun hm => ?_
  subst hm
  refine Triple.forRange (fun i => Holds t (Prepared base lh i)) fun i hi => ?_
  have hb : lh[i]? = some lh[i] := List.getElem?_eq_getElem hi
  refine Triple.bind (readLog_rule (r := lh[i]) fun v hv => by
    rw [hv.logged, getD_of_getElem? hb]) fun b => Triple.of_pure fun hbi => ?_
  subst hbi
  refine Triple.bind (bread_rule _ _) fun d => ?_
  exact bwrite_rule (fun _ => rfl) fun s hinv _ hs => hs.1.write hinv hi hb hs.2

/-- The true point at which the transaction commits. -/
theorem Prepared.commit (h : Prepared base lh lh.length s.seen) (hinv : Inv base s)
    (hc : s.hist.committer = some t) (hb : Block) :
    Recoverable base (s.bwrite A.logstart (storeHeader hb lh) true) ∧
      (A.Home A.logstart → storeHeader hb lh = s.hist.latest base A.logstart) ∧
      (s.log.lh = lh ∧ Installing base false lh 0
        (s.bwrite A.logstart (storeHeader hb lh) true).seen) := by
  have hcurrent : s.hist.current = [] := (hinv.quiet (by simp [hc])).2
  refine ⟨recoverable_writeHead (s.hist.latest base) h.home h.fits ?_ (fun i b hib => ?_)
    fun b hhome hmem => ?_,
    fun hhome => absurd rfl hhome.ne_logstart, h.logged, ?_⟩
  · exact History.committed_eq_latest (h := { s.hist with durable := s.hist.started.length }) rfl
      hcurrent
  · exact h.copied i (List.getElem?_eq_some_iff.1 hib).1 b hib
  · rw [← hinv.clean b ((h.pins b).trans (if_neg hmem))]
    exact hinv.view h.ready b hhome
  · refine ⟨h.ready, (fun hno => by cases hno), fun _ => h.nodup, ?_, rfl,
      (fun i hi => absurd hi (Nat.not_lt_zero i)), fun b => ?_⟩
    · show readHeader (update s.disk A.logstart (storeHeader hb lh) A.logstart) = lh
      rw [Function.update_self, readHeader_storeHeader hb h.fits.1]
    · rw [List.drop_zero]
      exact (h.pins b).trans (by simp)

theorem writeHead_commits (ht : t ≠ .boot) :
    (logic A base K).Triple t (Holds t (Prepared base lh lh.length)) (writeHead true)
      fun _ => Holds t fun v => v.log.lh = lh ∧ Installing base false lh 0 v := by
  refine Triple.bind (bread_rule _ _) fun hb => ?_
  refine Triple.bind (readLog_rule (r := lh) fun v hv => hv.1.logged) fun l => Triple.of_pure fun hl => ?_
  subst hl
  exact bwrite_rule (fun hboot => absurd hboot ht) fun s hinv hc hs => hs.1.commit hinv hc hb

/-! ## The blocks are installed -/

/-- The copy of a block in the log is what the block should be. -/
theorem Installing.copy (h : Installing base recovering lh n s.seen) (hinv : Inv base s)
    (hc : s.hist.committer = some t) {i : Nat} {b : BlockNo} (hb : lh[i]? = some b) :
    s.view (A.slot i) = s.hist.latest base b := by
  have hheader : s.header = lh := h.header
  have hi : i < lh.length := (List.getElem?_eq_some_iff.1 hb).1
  have hfits := hinv.disk.fits
  rw [hheader] at hfits
  have hpin : s.pins (A.slot i) = 0 := by
    refine (h.pins (A.slot i)).trans (if_neg ?_)
    rintro ⟨-, hmem⟩
    have hhome : A.Home (A.slot i) := hinv.disk.home _ (hheader ▸ List.mem_of_mem_drop hmem)
    exact hhome.ne_slot (by omega) rfl
  rw [hinv.clean _ hpin, hinv.disk.replay i b (hheader ▸ hb)]
  exact congrFun (History.committed_eq_latest h.durable (hinv.quiet (by simp [hc])).2) b

theorem Installing.install (h : Installing base recovering lh n s.seen) (hinv : Inv base s)
    {i : Nat} {b : BlockNo} (hb : lh[i]? = some b) {d : Block} (hd : d = s.hist.latest base b) :
    Recoverable base (s.bwrite b d false) ∧ (A.Home b → d = s.hist.latest base b) ∧
      Installing base recovering lh n (s.bwrite b d false).seen ∧
      (s.bwrite b d false).disk b = s.hist.latest base b ∧
      (s.bwrite b d false).view b = (s.bwrite b d false).disk b := by
  have hheader : s.header = lh := h.header
  have hmem : b ∈ s.header := hheader ▸ List.mem_of_getElem? hb
  have hhome : A.Home b := hinv.disk.home b hmem
  have hfits := hinv.disk.fits
  refine ⟨hinv.disk.bwrite hhome.ne_logstart (fun j hj => hhome.ne_slot (by omega)) fun _ => hmem,
    fun _ => hd, ⟨h.ready, h.calm, h.nodup, ?_, h.durable, fun j hj c hcj => ?_, h.pins⟩, ?_, ?_⟩
  · show readHeader (update s.disk b d A.logstart) = lh
    rw [Function.update_of_ne hhome.ne_logstart.symm]
    exact h.header
  · show update s.disk b d c = s.hist.latest base c
    by_cases hcb : c = b
    · rw [hcb, Function.update_self]
      exact hd
    · rw [Function.update_of_ne hcb]
      exact h.done j hj c hcj
  · rw [disk_bwrite, Function.update_self]
    exact hd
  · rw [view_bwrite, if_pos rfl, disk_bwrite, Function.update_self]

theorem Installing.next {v : Seen A} (h : Installing base recovering lh n v) {b : BlockNo}
    (hb : lh[n]? = some b) (hdone : v.disk b = v.hist.latest base b) :
    ∀ i < n + 1, ∀ c, lh[i]? = some c → v.disk c = v.hist.latest base c := by
  intro i hi c hc
  by_cases hin : i = n
  · subst hin
    rw [hb] at hc
    rw [← Option.some.inj hc]
    exact hdone
  · exact h.done i (by omega) c hc

/-- A block is unpinned, once it is installed. -/
theorem Installing.unpin {v : Seen A} (h : Installing base false lh n v) {b : BlockNo}
    (hb : lh[n]? = some b) (hdone : v.disk b = v.hist.latest base b) :
    Installing base false lh (n + 1) { v with pins := update v.pins b (v.pins b - 1) } := by
  refine ⟨h.ready, h.calm, h.nodup, h.header, h.durable, h.next hb hdone, fun c => ?_⟩
  have hdrop : lh.drop n = b :: lh.drop (n + 1) := by
    obtain ⟨hlt, hget⟩ := List.getElem?_eq_some_iff.1 hb
    rw [← hget]
    exact List.drop_eq_getElem_cons hlt
  have hnot : b ∉ lh.drop (n + 1) := by
    have hnodup := (h.nodup rfl).sublist (List.drop_sublist n lh)
    rw [hdrop] at hnodup
    exact (List.nodup_cons.1 hnodup).1
  show update v.pins b (v.pins b - 1) c = _
  by_cases hcb : c = b
  · rw [hcb, Function.update_self, h.pins, hdrop]
    simp [hnot]
  · rw [Function.update_of_ne hcb, h.pins, hdrop]
    simp [hcb]

theorem installTrans_rule :
    (logic A base K).Triple t
      (Holds t fun v => v.log.lh = lh ∧ Installing base recovering lh 0 v)
      (installTrans recovering)
      fun _ => Holds t fun v => v.log.lh = lh ∧ Installing base recovering lh lh.length v := by
  refine Triple.bind (readLog_rule (r := lh.length) fun v hv => by rw [hv.1])
    fun m => Triple.of_pure fun hm => ?_
  subst hm
  refine Triple.forRange
    (fun i => Holds t fun v => v.log.lh = lh ∧ Installing base recovering lh i v) fun i hi => ?_
  have hb : lh[i]? = some lh[i] := List.getElem?_eq_getElem hi
  refine Triple.bind (bread_rule _ _) fun d => ?_
  refine Triple.bind (readLog_rule (r := lh[i]) fun v hv => by
    rw [hv.1.1, getD_of_getElem? hb]) fun b => Triple.of_pure fun hbi => ?_
  subst hbi
  refine Triple.bind (bread_rule _ _) fun _ => ?_
  refine Triple.bind (R := fun _ => Holds t fun v => v.log.lh = lh ∧
    Installing base recovering lh i v ∧ v.disk lh[i] = v.hist.latest base lh[i] ∧
      v.view lh[i] = v.disk lh[i])
    (bwrite_rule (fun _ => rfl) fun s hinv hc hs => ?_) fun _ => ?_
  · obtain ⟨⟨⟨hlh, hs⟩, hd⟩, -⟩ := hs
    have hd : d = s.hist.latest base lh[i] := hd.trans (hs.copy hinv hc hb)
    obtain ⟨hdisk, hhome, hinst, hdone, hview⟩ := hs.install hinv hb hd
    exact ⟨hdisk, hhome, hlh, hinst, hdone, hview⟩
  · cases recovering with
    | false =>
      exact bunpin_rule (fun v hv => hv.2.2.2) fun v hv =>
        ⟨hv.1, hv.2.1.unpin hb hv.2.2.1⟩
    | true =>
      refine Triple.ite (fun hno => by cases hno) fun _ s hs => ?_
      refine Holds.mono (ψ := fun v => v.log.lh = lh ∧ Installing base true lh (i + 1) v) hs
        fun v hv => ⟨hv.1, hv.2.1.ready, hv.2.1.calm, hv.2.1.nodup, hv.2.1.header,
        hv.2.1.durable, hv.2.1.next hb hv.2.2.1, fun c => ?_⟩
      simpa using hv.2.1.pins c

/-! ## The log is erased -/

theorem Installing.erase (h : Installing base recovering lh lh.length s.seen) (hinv : Inv base s)
    (hc : s.hist.committer = some t) (hlh : s.log.lh = []) (hb : Block) :
    Recoverable base (s.bwrite A.logstart (storeHeader hb []) false) ∧
      (A.Home A.logstart → storeHeader hb [] = s.hist.latest base A.logstart) ∧
      Erased base recovering (s.bwrite A.logstart (storeHeader hb []) false).seen := by
  have hheader : s.header = lh := h.header
  have hcommitted : s.hist.committed base = s.hist.latest base :=
    History.committed_eq_latest h.durable (hinv.quiet (by simp [hc])).2
  have hall : ∀ b, A.Home b → s.disk b = s.hist.latest base b := by
    intro b hhome
    by_cases hmem : b ∈ lh
    · obtain ⟨i, hi⟩ := List.getElem?_of_mem hmem
      exact h.done i (List.getElem?_eq_some_iff.1 hi).1 b hi
    · rw [hinv.disk.rest b hhome (hheader ▸ hmem), hcommitted]
  refine ⟨recoverable_writeHead (s.hist.latest base) (fun b hb => absurd hb List.not_mem_nil)
    ⟨Nat.zero_le _, A.pos⟩ hcommitted (fun i b hib => by simp at hib)
    fun b hhome _ => hall b hhome, fun hhome => absurd rfl hhome.ne_logstart,
    h.ready, h.calm, hlh, ?_, h.durable, fun b hhome => ?_, fun b => ?_⟩
  · show readHeader (update s.disk A.logstart (storeHeader hb []) A.logstart) = []
    rw [Function.update_self, readHeader_storeHeader hb (Nat.zero_le _)]
  · show update s.disk A.logstart (storeHeader hb []) b = _
    rw [Function.update_of_ne hhome.ne_logstart]
    exact hall b hhome
  · refine (h.pins b).trans (if_neg ?_)
    rw [List.drop_length]
    exact fun hno => List.not_mem_nil hno.2

theorem setLh_erases :
    (logic A base K).Triple t
      (Holds t fun v => v.log.lh = lh ∧ Installing base recovering lh lh.length v) (setLh [])
      fun _ => Holds t fun v => v.log.lh = [] ∧ Installing base recovering lh lh.length v :=
  (setLh_rule []).pre fun _ hs => hs.mono fun _ hv => ⟨rfl, hv.2.ready, hv.2.calm, hv.2.nodup,
    hv.2.header, hv.2.durable, hv.2.done, hv.2.pins⟩

theorem writeHead_erases :
    (logic A base K).Triple t
      (Holds t fun v => v.log.lh = [] ∧ Installing base recovering lh lh.length v)
      (writeHead false) fun _ => Holds t (Erased base recovering) := by
  refine Triple.bind (bread_rule _ _) fun hb => ?_
  refine Triple.bind (readLog_rule (r := []) fun v hv => hv.1.1) fun l => Triple.of_pure fun hl => ?_
  subst hl
  exact bwrite_rule (fun _ => rfl) fun s hinv hc hs => hs.1.2.erase hinv hc hs.1.1 hb

/-! ## `commit` -/

theorem finished_rule {φ : Seen A → Prop} (ht : t ≠ .boot)
    (h : ∀ s, Inv base s → s.hist.committer = some t → φ s.seen →
      s.ready = true ∧ Clear base s) :
    (logic A base K).Triple t (Holds t φ) (.perform .finished)
      fun _ => Holds t (Erased base false) := by
  refine Triple.act (fun _ _ => rfl) (holds_stable _) (fun _ _ _ _ => trivial)
    fun s i r s' hs hinv _ hx => ?_
  cases hx
  obtain ⟨hready, hclear⟩ := h s hinv hs.1 hs.2
  have hc : s.hist.committer ≠ none := by simp [hs.1]
  exact ⟨.of_committer hinv hs.1 (inv_finished hinv hc hclear) rfl (.inl rfl) rfl
    fun hboot => absurd hboot ht, hs.1, hready, (fun hno => by cases hno), hclear.lh,
    hclear.header, rfl, hclear.home, hclear.pins⟩

theorem commit_rule (ht : t ≠ .boot) :
    (logic A base K).Triple t (Holds t (Prepared base lh 0)) commit
      fun _ => Holds t (Erased base false) := by
  refine Triple.bind (readLog_rule (r := lh.length) fun v hv => by rw [hv.logged])
    fun m => Triple.of_pure fun hm => ?_
  subst hm
  refine Triple.ite (fun _ => ?_) fun hzero => ?_
  · refine Triple.bind writeLog_rule fun _ => ?_
    refine Triple.bind (writeHead_commits ht) fun _ => ?_
    refine Triple.bind installTrans_rule fun _ => ?_
    refine Triple.bind setLh_erases fun _ => ?_
    refine Triple.bind writeHead_erases fun _ => ?_
    exact finished_rule (φ := Erased base false) ht fun s hinv hc hs =>
      ⟨hs.ready, hs.clear hinv hc⟩
  · obtain rfl : lh = [] := List.length_eq_zero_iff.1 (by omega)
    exact finished_rule (φ := Prepared base [] 0) ht fun s hinv hc hs =>
      ⟨hs.ready, hs.clear hinv hc⟩

end Xv6.Log
