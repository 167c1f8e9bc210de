import Xv6.Bio.Cache
import Xv6.Bio.Pinned
import Xv6.Conc.Guarantee

/-!
# No buffers

`bget` panics when all buffers are in use.  The processes that read blocks
outside transactions are not counted by `begin_op`, so nothing but the number
of busy blocks keeps them from it.
-/

namespace Xv6.Bio.Calls

open Conc Conc.Logic
open Function (update)

variable {D : Type} {F : Format D} {s s' : Fs D} {p : Slot} {b : Buf} {K : Prop}
  {hs : List (Buf × Key)} {R : Fs D → Prop} {lh : List BlockNo} {n : Nat}

/-- The block that an operation looks for in the cache. -/
def wanted {β : Type} : Op D β → Option Key
  | .cache (.bget dev blockno) => some (dev, blockno)
  | _ => none

/-- When `bget` looks for a block there is room for it. -/
def Roomy (β : Type) (_ : Slot) (o : Op D β) (s : Fs D) : Prop := ∀ k ∈ wanted o, s.Room k

instance {β : Type} (p : Slot) (o : Op D β) (s : Fs D) : Decidable (Roomy β p o s) :=
  Option.decidableForallMem (wanted o)

/-- What an operation of the cache needs. -/
def Safe (K : Prop) (β : Type) (p : Slot) (o : Op D β) (s : Fs D) : Prop :=
  match o with
  | .cache o => Bio.Safe K β p o s.cache
  | _ => True

abbrev logic (F : Format D) (K : Prop) : Logic (machine F) :=
  ofGuarantee (machine F) Tracked (fun β p o s => K → Roomy β p o s) (Safe K) Guar
    fun _ _ _ hinv hg => hg.inv hinv

/-- What a process knows besides the cache. -/
structure Aside (p : Slot) (R : Fs D → Prop) : Prop where
  keeps : ∀ u s s', u ≠ p → Guar u s s' → R s → R s'
  frame : ∀ s c, R s → R { s with cache := c }

/-- A process does not commit. -/
def Rest (p : Slot) (s : Fs D) : Prop := s.committer ≠ some p

/-- A process does not commit, and is in a transaction or not. -/
def Within (p : Slot) (i : Bool) (s : Fs D) : Prop := s.inOp p = i ∧ Rest p s

/-- A process commits the blocks `lh`, of which it has installed `n`. -/
structure Commits (p : Slot) (lh : List BlockNo) (n : Nat) (s : Fs D) : Prop where
  committer : s.committer = some p
  lh : s.log.lh = lh
  installed : s.installed = n

theorem aside_rest : Aside (D := D) p (Rest p) where
  keeps _ _ _ hu hg h heq := h ((hg.committer p (Ne.symm hu)).1 heq)
  frame _ _ h := h

theorem aside_within {i : Bool} : Aside (D := D) p (Within p i) where
  keeps u s s' hu hg h := ⟨(hg.inOp p (Ne.symm hu)).trans h.1, aside_rest.keeps u s s' hu hg h.2⟩
  frame _ _ h := h

theorem aside_commits : Aside (D := D) p (Commits p lh n) where
  keeps u s s' hu hg h := by
    obtain ⟨hlh, hinstalled⟩ := hg.log p (Ne.symm hu) h.committer
    exact ⟨(hg.committer p (Ne.symm hu)).2 h.committer, hlh.trans h.lh, hinstalled.trans h.installed⟩
  frame _ _ h := ⟨h.committer, h.lh, h.installed⟩

theorem stable {P : State D → Prop} (hP : Keeps p P) (hR : Aside p R) :
    (logic F K).Stable p fun s => P s.cache ∧ R s :=
  stable_of_guarantee (fun _ _ => rfl) fun u s s' hu hinv hg hs =>
    ⟨hP u s.cache s'.cache (Ne.symm hu) hinv.cache hg.others hs.1, hR.keeps u s s' hu hg hs.2⟩

/-! ## The cache -/

/-- An operation on the cache that pins nothing. -/
theorem guar_onCache {β : Type} {o : Bio.Op D β} {r : β} {P : State D → Prop}
    {Q : β → State D → Prop} (ho : Light o) (hspec : Spec K p P o Q) (hR : Aside p R)
    (hinv : Tracked s) (hs : P s.cache ∧ R s) (havail : Avail K β p o s.cache)
    (hx : onCache p s o = some (r, s')) : Guar p s s' ∧ Q r s'.cache ∧ R s' := by
  obtain ⟨⟨r', c⟩, hr, heq⟩ := Option.map_eq_some_iff.1 hx
  obtain ⟨rfl, rfl⟩ := Prod.mk.inj heq
  obtain ⟨hinv', hothers, hq⟩ := hspec _ _ _ _ hs.1 hinv.cache havail hr
  obtain ⟨hpins, hdev⟩ := ho.keeps hr
  exact ⟨Guar.of_cache (hinv.onCache hinv' hothers hpins hdev) hothers (fun _ _ => rfl) rfl
    fun _ _ _ => ⟨rfl, rfl⟩, hq, hR.frame _ _ hs.2⟩

theorem host (hR : Aside p R) : Host K Light (logic F K) onDisk Fs.cache p R := by
  intro β o P Q ho hP hsafe hspec
  refine Triple.act (fun _ _ => rfl) (stable hP hR) (fun s hs hinv _ => hsafe _ hs.1 hinv.cache)
    fun s i b s' hs hinv ha hx => ?_
  have havail : Avail K β p o s.cache := by
    cases o with
    | bget dev blockno => exact fun hK => hinv.found_iff.2 (ha hK _ rfl)
    | _ => trivial
  exact guar_onCache ho hspec hR hinv hs havail hx

/-- A process works on fewer of its buffers. -/
theorem Calm.sub {hs' : List (Buf × Key)} {c : State D} (h : Calm p none none hs c)
    (hsub : ∀ e ∈ hs', e ∈ hs) : Calm p none none hs' c :=
  ⟨h.transit, h.valid, fun e he => h.held e (hsub e he)⟩

theorem Calm.holding {c : State D} {k : Key} (h : Calm p none none hs c) (hb : (b, k) ∈ hs) :
    Holding p b hs (fun _ => True) c :=
  ⟨h, (h.held _ hb).1, trivial⟩

/-- A block is read and is then one of those that the process works on. -/
theorem bread_rule (hR : Aside p R) (blockno : BlockNo) :
    (logic F K).Triple p (fun s => Calm p none none hs s.cache ∧ R s) (bread blockno) fun b s =>
      (∀ e ∈ hs, e.1 ≠ b) ∧ Calm p none none ((b, ROOTDEV, blockno) :: hs) s.cache ∧ R s := by
  refine Triple.post (Host.bread (K := K) (host hR) (by decide) light_of_plain) fun b s h => ?_
  obtain ⟨⟨⟨hcalm, hlock, -⟩, hkey, hapart⟩, hr⟩ := h
  refine ⟨hapart, ⟨hcalm.transit, hcalm.valid, fun e he => ?_⟩, hr⟩
  rcases List.mem_cons.1 he with rfl | he
  · exact ⟨hlock, hkey⟩
  · exact hcalm.held e he

theorem bwrite_rule (hR : Aside p R) {k : Key} (hb : (b, k) ∈ hs) :
    (logic F K).Triple p (fun s => Calm p none none hs s.cache ∧ R s) (bwrite b) fun _ s =>
      Calm p none none hs s.cache ∧ R s :=
  (Host.bwrite (K := K) (ψ := fun _ => True) (host hR) ROOTDEV light_of_plain).conseq (fun _ h => ⟨Calm.holding h.1 hb, h.2⟩)
    fun _ _ h => ⟨h.1.1, h.2⟩

theorem brelse_rule {hs' : List (Buf × Key)} (hR : Aside p R) {k : Key} (hb : (b, k) ∈ hs)
    (hsub : ∀ e ∈ hs', e ∈ hs) (hapart : ∀ e ∈ hs', e.1 ≠ b) :
    (logic F K).Triple p (fun s => Calm p none none hs s.cache ∧ R s) (brelse b) fun _ s =>
      Calm p none none hs' s.cache ∧ R s :=
  (Host.brelse (K := K) (ψ := fun _ => True) (host hR) ROOTDEV light_of_plain hapart).pre fun _ h =>
    ⟨⟨Calm.sub h.1 hsub, (h.1.held _ hb).1, trivial⟩, h.2⟩

/-- The data of a locked buffer are changed. -/
theorem store_rule (hR : Aside p R) {k : Key} (hb : (b, k) ∈ hs) {o : Op D Unit} (d : Fs D → D)
    (hsafe : ∀ s, Safe K Unit p o s)
    (ho : ∀ i s, exec F p i s o = onCache p s (.store b (d s))) :
    (logic F K).Triple p (fun s => Calm p none none hs s.cache ∧ R s) (.perform o) fun _ s =>
      Calm p none none hs s.cache ∧ R s := by
  refine Triple.act (fun _ _ => rfl) (stable Calm.keeps hR) (fun s _ _ _ => hsafe s)
    fun s i r s' hs hinv _ hx => ?_
  have hx := (ho i s).symm.trans hx
  obtain ⟨hguar, hq, hr⟩ := guar_onCache (K := K) (o := .store b (d s)) trivial
    (store_spec (ψ := fun _ => True) (d s)) hR hinv ⟨Calm.holding hs.1 hb, hs.2⟩ trivial hx
  exact ⟨hguar, hq.1, hr⟩

/-! ## The log -/

variable (F K) in
/-- `lh` does not change under the process that commits. -/
theorem readLog_rule {β : Type} (f : List BlockNo → β) :
    (logic F K).Triple p (fun s => Calm p none none hs s.cache ∧ Commits p lh n s)
      (readLog fun l => f l.lh) fun r s =>
        r = f lh ∧ Calm p none none hs s.cache ∧ Commits p lh n s := by
  refine Triple.act (fun _ _ => rfl) (stable Calm.keeps aside_commits) (fun _ _ _ _ => trivial)
    fun s i r s' hs hinv _ hx => ?_
  obtain ⟨rfl, rfl⟩ := Prod.mk.inj (Option.some.inj hx)
  refine ⟨Guar.of_cache hinv (.refl p s.cache) (fun _ _ => rfl) rfl fun _ _ _ => ⟨rfl, rfl⟩,
    congrArg f hs.2.lh, hs⟩

theorem write_log_rule :
    (logic F K).Triple p (fun s => Calm p none none [] s.cache ∧ Commits p lh 0 s) (write_log F)
      fun _ s => Calm p none none [] s.cache ∧ Commits p lh 0 s := by
  refine Triple.bind (readLog_rule F K List.length) fun m => Triple.of_pure fun _ => ?_
  refine Triple.foldM (fun _ _ s => Calm p none none [] s.cache ∧ Commits p lh 0 s)
    fun tail _ _ => ?_
  refine Triple.bind (bread_rule aside_commits _) fun dst => Triple.of_pure fun _ => ?_
  refine Triple.bind (readLog_rule F K fun l => l.getD tail 0) fun block =>
    Triple.of_pure fun _ => ?_
  refine Triple.bind (bread_rule aside_commits _) fun src => Triple.of_pure fun hapart => ?_
  refine Triple.bind (store_rule aside_commits (List.mem_cons_of_mem _ (List.mem_cons_self ..))
    (fun s => s.cache.data src) (fun _ => trivial) fun _ _ => rfl) fun _ => ?_
  refine Triple.bind (bwrite_rule aside_commits
    (List.mem_cons_of_mem _ (List.mem_cons_self ..))) fun _ => ?_
  refine Triple.bind (brelse_rule aside_commits (List.mem_cons_self ..)
    (fun e he => List.mem_cons_of_mem _ he) hapart) fun _ => ?_
  exact brelse_rule aside_commits (List.mem_cons_self ..) (fun e he => List.mem_cons_of_mem _ he)
    fun e he => absurd he List.not_mem_nil

theorem write_head_rule :
    (logic F K).Triple p (fun s => Calm p none none [] s.cache ∧ Commits p lh n s) (write_head F)
      fun _ s => Calm p none none [] s.cache ∧ Commits p lh n s := by
  refine Triple.bind (bread_rule aside_commits _) fun buf => Triple.of_pure fun _ => ?_
  refine Triple.bind (store_rule aside_commits (List.mem_cons_self ..)
    (fun s => F.encode s.log.lh (s.cache.data buf)) (fun _ => trivial) fun _ _ => rfl) fun _ => ?_
  refine Triple.bind (bwrite_rule aside_commits (List.mem_cons_self ..)) fun _ => ?_
  exact brelse_rule aside_commits (List.mem_cons_self ..) (fun e he => List.mem_cons_of_mem _ he)
    fun e he => absurd he List.not_mem_nil

/-- The pin of the block that has just been installed is taken back. -/
theorem bunpin_rule (hlt : n < lh.length) (hb : (b, ROOTDEV, lh.getD n 0) ∈ hs) :
    (logic F K).Triple p (fun s => Calm p none none hs s.cache ∧ Commits p lh n s)
      (.perform (.bunpin b)) fun _ s =>
        Calm p none none hs s.cache ∧ Commits p lh (n + 1) s := by
  refine Triple.act (fun _ _ => rfl) (stable Calm.keeps aside_commits) (fun _ _ _ _ => trivial)
    fun s i r s' hs hinv _ hx => ?_
  obtain ⟨hcalm, hc⟩ := hs
  have heq := (Prod.mk.inj (Option.some.inj hx)).2.symm
  obtain ⟨hlock, hkey⟩ := hcalm.held _ hb
  have hguar := hinv.bunpin hc.committer hlock (by rw [hc.lh, hc.installed]; exact hlt)
    (by rw [hc.lh, hc.installed]; exact hkey) heq
  rw [heq]
  exact ⟨heq ▸ hguar, ⟨hcalm.transit, hcalm.valid, hcalm.held⟩, hc.committer, hc.lh,
    congrArg (· + 1) hc.installed⟩

/-- While blocks are installed: those that are left are the last ones. -/
theorem install_trans_rule :
    (logic F K).Triple p (fun s => Calm p none none [] s.cache ∧ Commits p lh 0 s)
      (install_trans F) fun _ s =>
        Calm p none none [] s.cache ∧ Commits p lh lh.length s := by
  refine Triple.bind (readLog_rule F K List.length) fun m => Triple.of_pure fun hm => ?_
  subst hm
  refine Triple.conseq (Triple.foldM
    (fun is _ s => ∃ n, (is = (List.range lh.length).drop n ∧ n ≤ lh.length) ∧
      Calm p none none [] s.cache ∧ Commits p lh n s) fun tail is _ => ?_)
    (fun s h => ⟨0, ⟨rfl, Nat.zero_le _⟩, h⟩) fun _ s h => ?_
  · rintro s ⟨n, ⟨his, -⟩, h⟩
    have hlt : n < lh.length := by
      by_contra hge
      rw [List.drop_eq_nil_of_le (by rw [List.length_range]; exact Nat.le_of_not_lt hge)] at his
      cases his
    rw [List.drop_eq_getElem_cons (by rw [List.length_range]; exact hlt), List.getElem_range] at his
    obtain ⟨rfl, his⟩ := List.cons.inj his
    refine wp_mono (fun _ s h => ⟨tail + 1, ⟨his, hlt⟩, h⟩) (?_ : (logic F K).wp p _ (fun _ s =>
      Calm p none none [] s.cache ∧ Commits p lh (tail + 1) s) s)
    revert s
    refine Triple.bind (bread_rule aside_commits _) fun lbuf => Triple.of_pure fun _ => ?_
    refine Triple.bind (readLog_rule F K fun l => l.getD tail 0) fun block =>
      Triple.of_pure fun hblock => ?_
    subst hblock
    refine Triple.bind (bread_rule aside_commits _) fun dbuf => Triple.of_pure fun hapart => ?_
    refine Triple.bind (store_rule aside_commits (List.mem_cons_self ..)
      (fun s => s.cache.data lbuf) (fun _ => trivial) fun _ _ => rfl) fun _ => ?_
    refine Triple.bind (bwrite_rule aside_commits (List.mem_cons_self ..)) fun _ => ?_
    refine Triple.bind (bunpin_rule hlt (List.mem_cons_self ..)) fun _ => ?_
    have hne : dbuf ≠ lbuf := (hapart _ (List.mem_cons_self ..)).symm
    have hone : ∀ e ∈ [(dbuf, ROOTDEV, lh.getD tail 0)], e.1 ≠ lbuf := by
      intro e he
      rw [List.mem_singleton.1 he]
      exact hne
    refine Triple.bind (brelse_rule aside_commits
      (List.mem_cons_of_mem _ (List.mem_cons_self ..))
      (fun e he => List.mem_singleton.1 he ▸ List.mem_cons_self ..) hone) fun _ => ?_
    exact brelse_rule aside_commits (List.mem_cons_self ..)
      (fun e he => absurd he List.not_mem_nil) fun e he => absurd he List.not_mem_nil
  · obtain ⟨n, ⟨hnil, hle⟩, h⟩ := h
    have hge := List.drop_eq_nil_iff.1 hnil.symm
    rw [List.length_range] at hge
    rwa [Nat.le_antisymm hle hge] at h

/-- All blocks are installed, and the log is empty from now on. -/
theorem clear_rule :
    (logic F K).Triple p (fun s => Calm p none none hs s.cache ∧ Commits p lh lh.length s)
      (.perform .clear) fun _ s => Calm p none none hs s.cache ∧ Commits p [] 0 s := by
  refine Triple.act (fun _ _ => rfl) (stable Calm.keeps aside_commits) (fun _ _ _ _ => trivial)
    fun s i r s' hs hinv _ hx => ?_
  obtain ⟨hcalm, hc⟩ := hs
  have heq := (Prod.mk.inj (Option.some.inj hx)).2.symm
  have hguar := hinv.clear hc.committer (by rw [hc.installed, hc.lh]) heq
  rw [heq]
  exact ⟨heq ▸ hguar, hcalm, hc.committer, rfl, rfl⟩

theorem commit_rule :
    (logic F K).Triple p (fun s => Calm p none none [] s.cache ∧ Commits p lh 0 s) (commit F)
      fun _ s => Calm p none none [] s.cache ∧ Commits p [] 0 s := by
  refine Triple.bind (readLog_rule F K List.length) fun m => Triple.of_pure fun hm => ?_
  subst hm
  refine Triple.ite (fun _ => ?_) fun hempty => ?_
  · refine Triple.bind write_log_rule fun _ => ?_
    refine Triple.bind write_head_rule fun _ => ?_
    refine Triple.bind install_trans_rule fun _ => ?_
    exact Triple.bind clear_rule fun _ => write_head_rule
  · obtain rfl : lh = [] := List.eq_nil_of_length_eq_zero (Nat.eq_zero_of_not_pos hempty)
    exact fun _ h => h

/-! ## The calls -/

/-- Between two calls. -/
def Ready (p : Slot) (s : Fs D) : Prop := Calm p none none [] s.cache ∧ Rest p s

variable (F) in
theorem exec_beginOp_none (i : Call D) (h : s.log.beginOp = none) :
    exec F p i s .beginOp = some (false, s) := by
  unfold exec
  rw [h]

variable (F) in
theorem exec_beginOp_some (i : Call D) {l : Log.LogState} (h : s.log.beginOp = some l) :
    exec F p i s .beginOp = some (true, { s with log := l, inOp := update s.inOp p true }) := by
  unfold exec
  rw [h]

theorem beginOp_rule :
    (logic F K).Triple p (fun s => Calm p none none [] s.cache ∧ Within p false s)
      (.perform .beginOp) fun r s => Calm p none none [] s.cache ∧ Within p r s := by
  refine Triple.act (fun _ _ => rfl) (stable Calm.keeps aside_within) (fun _ _ _ _ => trivial)
    fun s i r s' hs hinv _ hx => ?_
  obtain ⟨hcalm, hp, hrest⟩ := hs
  cases hl : s.log.beginOp with
  | none =>
    obtain ⟨rfl, rfl⟩ := Prod.mk.inj (Option.some.inj ((exec_beginOp_none F i hl).symm.trans hx))
    exact ⟨Guar.of_cache hinv (.refl p s.cache) (fun _ _ => rfl) rfl fun _ _ _ => ⟨rfl, rfl⟩,
      hcalm, hp, hrest⟩
  | some l =>
    obtain ⟨rfl, rfl⟩ := Prod.mk.inj (Option.some.inj ((exec_beginOp_some F i hl).symm.trans hx))
    obtain ⟨hc, rfl⟩ := beginOp_eq_some hl
    exact ⟨hinv.beginOp hp hc rfl, hcalm, Function.update_self .., hrest⟩

/-- A process waits in `begin_op` until it is admitted. -/
theorem begin_op_rule :
    (logic F K).Triple p (fun s => Calm p none none [] s.cache ∧ Within p false s) begin_op
      fun _ => Ready p := by
  refine Triple.loop (L := logic F K) (fun _ s => Calm p none none [] s.cache ∧ Within p false s)
    (fun _ => stable Calm.keeps aside_within) fun _ => ?_
  refine Triple.bind beginOp_rule fun r => ?_
  cases r with
  | false => exact fun _ h => h
  | true => exact fun _ h => ⟨h.1, h.2.2⟩

/-- After the first critical section of `end_op`. -/
def Ended (p : Slot) (r : Except String Bool) (s : Fs D) : Prop :=
  Calm p none none [] s.cache ∧
    (r = .ok true → ∃ lh, Commits p lh 0 s) ∧ (r = .ok false → Rest p s)

variable (F) in
theorem exec_endOp (i : Call D) (h : Tracked s) (hp : s.inOp p = true) :
    exec F p i s .endOp = if s.log.outstanding - 1 = 0 then
        some (.ok true, { s with
          log := { s.log with outstanding := s.log.outstanding - 1, committing := true }
          inOp := update s.inOp p false
          committer := some p })
      else some (.ok false, { s with
          log := { s.log with outstanding := s.log.outstanding - 1 }
          inOp := update s.inOp p false }) := by
  unfold exec
  rw [h.endOp_eq hp]
  by_cases hlast : s.log.outstanding - 1 = 0
  · rw [if_pos hlast, if_pos hlast]
  · rw [if_neg hlast, if_neg hlast]

theorem endOp_rule :
    (logic F K).Triple p (fun s => Calm p none none [] s.cache ∧ Within p true s)
      (.perform .endOp) (Ended p) := by
  refine Triple.act (fun _ _ => rfl) (stable Calm.keeps aside_within) (fun _ _ _ _ => trivial)
    fun s i r s' hs hinv _ hx => ?_
  obtain ⟨hcalm, hp, hrest⟩ := hs
  have hx := (exec_endOp F i hinv hp).symm.trans hx
  by_cases hlast : s.log.outstanding - 1 = 0
  · rw [if_pos hlast] at hx
    obtain ⟨rfl, rfl⟩ := Prod.mk.inj (Option.some.inj hx)
    refine ⟨hinv.endOp_true hp hlast rfl, hcalm, fun _ => ⟨_, rfl, rfl, ?_⟩, fun h => by cases h⟩
    exact hinv.installed (hinv.not_committing hp)
  · rw [if_neg hlast] at hx
    obtain ⟨rfl, rfl⟩ := Prod.mk.inj (Option.some.inj hx)
    exact ⟨hinv.endOp_false hp rfl, hcalm, fun h => (by cases h), fun _ => hrest⟩

theorem endCommit_rule :
    (logic F K).Triple p (fun s => Calm p none none [] s.cache ∧ Commits p [] 0 s)
      (.perform .endCommit) fun _ => Ready p := by
  refine Triple.act (fun _ _ => rfl) (stable Calm.keeps aside_commits) (fun _ _ _ _ => trivial)
    fun s i r s' hs hinv _ hx => ?_
  obtain ⟨hcalm, hc⟩ := hs
  have heq := (Prod.mk.inj (Option.some.inj hx)).2.symm
  have hguar := hinv.endCommit hc.committer hc.installed heq
  rw [heq]
  exact ⟨heq ▸ hguar, hcalm, fun h => by cases h⟩

/-- A panic ends what a process does. -/
theorem panic_rule {β : Type} {msg : String} {Q : β → Fs D → Prop} :
    (logic F K).Triple p (fun _ => True) (.perform (.panic msg)) Q := by
  refine Triple.act (fun _ _ => rfl) (fun _ _ _ _ => trivial) (fun _ _ _ _ => trivial)
    fun s i r s' _ _ _ hx => ?_
  cases hx

theorem end_op_rule :
    (logic F K).Triple p (fun s => Calm p none none [] s.cache ∧ Within p true s) (end_op F)
      fun _ => Ready p := by
  refine Triple.bind endOp_rule fun r => ?_
  cases r with
  | error msg => exact panic_rule.pre fun _ _ => trivial
  | ok last =>
    cases last with
    | false => exact fun _ h => ⟨h.1, h.2.2 rfl⟩
    | true =>
      rintro s ⟨hcalm, hc, -⟩
      obtain ⟨lh, hc⟩ := hc rfl
      exact (Triple.bind commit_rule fun _ => endCommit_rule) s ⟨hcalm, hc⟩

variable (F) in
theorem exec_logWrite_error (i : Call D) {msg : String}
    (h : s.log.logWrite F.area.nlog (s.cache.blockno b) = .error msg) :
    exec F p i s (.logWrite b) = some (.error msg, s) := by
  dsimp only [exec]
  rw [h]

variable (F) in
theorem exec_logWrite_ok (i : Call D) {l : Log.LogState}
    (h : s.log.logWrite F.area.nlog (s.cache.blockno b) = .ok l) :
    exec F p i s (.logWrite b) = if s.cache.blockno b ∈ s.log.lh then
        some (.ok (), { s with log := l })
      else some (.ok (), { s with
        cache := { s.cache with
          refcnt := update s.cache.refcnt b (s.cache.refcnt b + 1)
          pins := update s.cache.pins b (s.cache.pins b + 1) }
        log := l }) := by
  dsimp only [exec]
  rw [h]
  rfl

theorem logWrite_rule :
    (logic F K).Triple p (fun s => Holding p b [] (fun _ => True) s.cache ∧ Within p true s)
      (.perform (.logWrite b)) fun _ => Ready p := by
  refine Triple.act (fun _ _ => rfl) (stable Holding.keeps aside_within) (fun _ _ _ _ => trivial)
    fun s i r s' hs hinv _ hx => ?_
  obtain ⟨⟨hcalm, hlock, -⟩, hp, hrest⟩ := hs
  cases hl : s.log.logWrite F.area.nlog (s.cache.blockno b) with
  | error msg =>
    obtain ⟨rfl, rfl⟩ := Prod.mk.inj (Option.some.inj ((exec_logWrite_error F i hl).symm.trans hx))
    exact ⟨Guar.of_cache hinv (.refl p s.cache) (fun _ _ => rfl) rfl fun _ _ _ => ⟨rfl, rfl⟩,
      hcalm, hrest⟩
  | ok l =>
    have hx := (exec_logWrite_ok F i hl).symm.trans hx
    have hlog := logWrite_eq_ok hl
    by_cases hmem : s.cache.blockno b ∈ s.log.lh
    · rw [if_pos hmem] at hx hlog
      obtain ⟨rfl, rfl⟩ := Prod.mk.inj (Option.some.inj hx)
      rw [hlog]
      exact ⟨Guar.of_cache hinv (.refl p s.cache) (fun _ _ => rfl) rfl fun _ _ _ => ⟨rfl, rfl⟩,
        hcalm, hrest⟩
    · rw [if_neg hmem] at hx hlog
      obtain ⟨rfl, rfl⟩ := Prod.mk.inj (Option.some.inj hx)
      rw [hlog]
      exact ⟨hinv.logWrite hp hlock hmem rfl, ⟨hcalm.transit, hcalm.valid, hcalm.held⟩, hrest⟩

theorem log_write_rule :
    (logic F K).Triple p (fun s => Holding p b [] (fun _ => True) s.cache ∧ Within p true s)
      (log_write b) fun _ => Ready p := by
  refine Triple.bind logWrite_rule fun r => ?_
  cases r with
  | error msg => exact panic_rule.pre fun _ _ => trivial
  | ok => exact fun _ h => h

theorem next_rule :
    (logic F K).Triple p (Ready p) (.perform .next) fun c s => Ready p s ∧ c.Proper p s := by
  refine Triple.act (fun _ _ => rfl) (stable Calm.keeps aside_rest) (fun _ _ _ _ => trivial)
    fun s i c s' hs hinv _ hx => ?_
  have hx : (if i.Proper p s then some (i, s) else none) = some (c, s') := hx
  by_cases hproper : i.Proper p s
  · rw [if_pos hproper] at hx
    obtain ⟨rfl, rfl⟩ := Prod.mk.inj (Option.some.inj hx)
    exact ⟨Guar.of_cache hinv (.refl p s.cache) (fun _ _ => rfl) rfl fun _ _ _ => ⟨rfl, rfl⟩,
      hs, hproper⟩
  · rw [if_neg hproper] at hx
    cases hx

theorem main_rule : (logic F K).Triple p (Ready p) (main F) fun _ _ => False := by
  refine Triple.forever (stable Calm.keeps aside_rest) (next_rule.bind fun c => ?_)
  cases c with
  | read blockno =>
    refine Triple.bind (R := fun _ => Ready p) (fun s hs => ?_) fun _ _ h => h
    exact wp_mono (fun b s h => ⟨Calm.sub h.2.1 fun e he => absurd he List.not_mem_nil, h.2.2⟩)
      (bread_rule aside_rest blockno s hs.1)
  | store b d =>
    exact (host (o := .store b d) aside_rest trivial Holding.keeps (fun _ _ _ => trivial)
      (store_spec (ψ := fun _ => True) d)).conseq (fun s hs => ⟨⟨hs.1.1, hs.2, trivial⟩, hs.1.2⟩)
        fun _ _ hs => ⟨hs.1.1, hs.2⟩
  | release b =>
    exact (Host.brelse (K := K) (ψ := fun _ => True) (host aside_rest) ROOTDEV light_of_plain
      fun _ he => absurd he List.not_mem_nil).pre fun s hs => ⟨⟨hs.1.1, hs.2, trivial⟩, hs.1.2⟩
  | beginOp => exact begin_op_rule.pre fun s hs => ⟨hs.1.1, hs.2, hs.1.2⟩
  | logWrite b =>
    exact log_write_rule.pre fun s hs => ⟨⟨hs.1.1, hs.2.2, trivial⟩, hs.2.1, hs.1.2⟩
  | endOp => exact end_op_rule.pre fun s hs => ⟨hs.1.1, hs.2, hs.1.2⟩

/-! ## Every run -/

theorem tracked_start (disk : Key → D) (data : Buf → D) : Tracked (start F disk data).mem := by
  have hinv := inv_start disk data
  obtain ⟨next, prev, heq⟩ := binit_links (State.zero disk data)
  refine ⟨hinv, ?_, List.nodup_nil, fun _ k hk => ?_, ?_, fun k hk => ?_, ?_, ?_, fun _ => rfl,
    fun _ => rfl⟩
  · show ∀ b, (binit _).dev b = 0 ∨ _
    rw [heq]
    exact fun _ => .inl rfl
  · cases hk
  · show ∀ b, _ → (binit _).pins b = 0
    rw [heq]
    exact fun _ _ => rfl
  · cases hk
  · show 0 = (Finset.univ.filter fun p : Slot => false = true).card
    rw [Finset.filter_false_of_mem fun _ _ => Bool.false_ne_true]
    rfl
  · exact ⟨fun h => Bool.noConfusion h, fun h => absurd rfl h⟩

theorem main_ok (disk : Key → D) (data : Buf → D) (p : Slot) :
    (logic F K).Ok p ((start F disk data).code p) (start F disk data).mem := by
  refine wp_mono (Q := fun _ _ => False) (fun _ _ h => h.elim) (main_rule _ ?_)
  obtain ⟨next, prev, heq⟩ := binit_links (State.zero disk data)
  refine ⟨?_, fun h => by cases h⟩
  show Calm p none none [] (binit _)
  rw [heq]
  exact ⟨rfl, fun c _ hlock => (by cases hlock), fun _ he => absurd he List.not_mem_nil⟩

/-- In a run in which there is room for every block that is looked for, the
cache does not panic.  In every run, `bget` finds a buffer exactly when there
is room. -/
theorem no_buffers (F : Format D) (disk : Key → D) (data : Buf → D) :
    (∀ g, (machine F).Reach Roomy (start F disk data) g →
      ∀ (β : Type) (p : Slot) (msg : String),
        ¬ (machine F).Next g p (.cache (.panic msg) : Op D β)) ∧
    ∀ g, (machine F).Reach Machine.always (start F disk data) g →
      ∀ (p : Slot) (dev blockno : I32), (machine F).Next g p (.cache (.bget dev blockno)) →
        ((∃ b c, bget p dev blockno g.mem.cache = some (some b, c)) ↔
          g.mem.Room (dev, blockno)) := by
  constructor
  · intro g hg β p msg hn
    have hsafe := (Logic.inv_of_reach (fun h _ => h) (fun _ => rfl) (tracked_start disk data)
      (main_ok (K := True) disk data) hg).2 β p _ hn fun _ k hk => (by cases hk)
    exact hsafe.2 trivial
  · intro g hg p dev blockno _
    exact (Logic.inv_of_reach (fun _ h => h.elim) (fun _ => rfl) (tracked_start disk data)
      (main_ok (K := False) disk data) hg).1.found_iff

/-! ## A run that needs one buffer more -/

/-- The log area of `mkfs`, over blocks whose contents do not matter. -/
def plainFormat : Format Unit := ⟨Log.mkfsArea, fun _ d => d⟩

/-- So many processes look for a block each. -/
def crowd (n : Nat) : List (Slot × Call Unit) :=
  ((List.finRange NPROC).take n).flatMap fun p =>
    List.replicate 3 (p, .read (BitVec.ofNat 32 (100 + p)))

/-- Whether the operation is a panic of the cache. -/
def isPanic : (Σ β, Op Unit β) → Bool
  | ⟨_, .cache (.panic _)⟩ => true
  | _ => false

/-- With two processes there is room. -/
theorem no_buffers_crowd : ∃ g : Config (Op Unit) (Fs Unit) Slot,
    g.mem.taken.card = 2 ∧ ∀ (β : Type) (p : Slot) (msg : String),
      ¬ (machine plainFormat).Next g p (.cache (.panic msg) : Op Unit β) := by
  have hview : ((machine plainFormat).run Roomy (crowd 2)
      (start plainFormat (fun _ => ()) fun _ => ())).map (fun g => g.mem.taken.card) = some 2 := by
    decide +kernel
  obtain ⟨g, hrun, hg⟩ := Option.map_eq_some_iff.1 hview
  exact ⟨g, hg, (no_buffers plainFormat _ _).1 g (Machine.reach_of_run _ _ .start hrun)⟩

theorem panic_of_isPanic {g : Config (Op Unit) (Fs Unit) Slot} {p : Slot}
    (h : ((machine plainFormat).next? g p).any isPanic = true) :
    ∃ (β : Type) (msg : String), (machine plainFormat).Next g p (.cache (.panic msg) : Op Unit β) := by
  cases hn : (machine plainFormat).next? g p with
  | none =>
    rw [hn] at h
    cases h
  | some o =>
    rw [hn] at h
    obtain ⟨β, o⟩ := o
    cases o with
    | cache o =>
      cases o with
      | panic msg => exact ⟨β, msg, Machine.next?_eq_some _ |>.1 hn⟩
      | _ => cases h
    | _ => cases h

/-- Thirty-one processes that read a block each bring the cache to its panic. -/
theorem crowd_panics : ¬ ∀ g : Config (Op Unit) (Fs Unit) Slot,
    (machine plainFormat).Reach Machine.always (start plainFormat (fun _ => ()) fun _ => ()) g →
      ∀ (β : Type) (p : Slot) (msg : String),
        ¬ (machine plainFormat).Next g p (.cache (.panic msg) : Op Unit β) := by
  have hview : ((machine plainFormat).run Machine.always (crowd 31)
      (start plainFormat (fun _ => ()) fun _ => ())).map
        (fun g => ((machine plainFormat).next? g 30).any isPanic) = some true := by
    decide +kernel
  intro h
  obtain ⟨g, hrun, hg⟩ := Option.map_eq_some_iff.1 hview
  obtain ⟨β, msg, hn⟩ := panic_of_isPanic hg
  exact h g (Machine.reach_of_run _ _ .start hrun) β 30 msg hn

end Xv6.Bio.Calls
