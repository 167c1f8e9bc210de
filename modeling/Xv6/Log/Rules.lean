import Xv6.Log.Invariant
import Xv6.Conc.Guarantee

/-!
# Rules for the log

While a thread recovers or commits, nobody else changes what it sees: the disk,
the pins, `struct log` and what `bread` finds.  Its code keeps the disk
recoverable with every block that it writes.
-/

namespace Xv6.Log

open Conc Conc.Logic
open Function (update)

variable {A : LogArea} {base : Disk} {s s' : Fs A} {t : Tid} {K : Prop}

/-! ## What a step may do -/

/-- What the thread that recovers or commits sees. -/
structure Seen (A : LogArea) where
  disk : Disk
  pins : BlockNo → Nat
  log : LogState
  ready : Bool
  hist : History A
  view : BlockNo → Block

def Fs.seen (s : Fs A) : Seen A := ⟨s.disk, s.pins, s.log, s.ready, s.hist, s.view⟩

theorem seen_of_view {cache : BlockNo → Option Block}
    (hview : ∀ b, (cache b).getD (s.disk b) = s.view b) :
    ({ s with cache := cache } : Fs A).seen = s.seen := by
  have heq : ({ s with cache := cache } : Fs A).view = s.view := funext hview
  simp [Fs.seen, heq]

/-- The same has been logged and is committed. -/
structure History.Same (h' h : History A) : Prop where
  current : h'.current = h.current
  started : h'.started = h.started
  durable : h'.durable = h.durable

/-- A step of thread `u`. -/
structure Guar (base : Disk) (u : Tid) (s s' : Fs A) : Prop where
  inv : Inv base s'
  epoch : s'.hist.epoch = s.hist.epoch
  ready : s.ready = true → s'.ready = true
  seen : ∀ t, t ≠ u → s.hist.committer = some t → s'.seen = s.seen
  active : ∀ k, u ≠ .op k → ∀ e, (e, k) ∈ s.hist.active → (e, k) ∈ s'.hist.active
  begun : ∀ k, u ≠ .op k → ∀ e, (e, k) ∈ s'.hist.begun → (e, k) ∈ s.hist.begun
  /-- The thread that boots commits nothing. -/
  boot : u = .boot → s'.hist.Same s.hist
  up : s.ready = false → s'.ready = true → s'.hist.committer = none

/-- A step that changes the cache at most. -/
theorem Guar.of_view (hinv : Inv base s) {cache : BlockNo → Option Block}
    (hview : ∀ b, (cache b).getD (s.disk b) = s.view b) :
    Guar base t s { s with cache := cache } :=
  ⟨hinv.of_view hview, rfl, id, fun _ _ _ => seen_of_view hview, fun _ _ _ h => h,
    fun _ _ _ h => h, fun _ => ⟨rfl, rfl, rfl⟩, fun hno hr => absurd hr (by simp [hno])⟩

theorem Guar.refl (hinv : Inv base s) (t : Tid) : Guar base t s s :=
  ⟨hinv, rfl, id, fun _ _ _ => rfl, fun _ _ _ h => h, fun _ _ _ h => h, fun _ => ⟨rfl, rfl, rfl⟩,
    fun hno hr => absurd hr (by simp [hno])⟩

/-- A step of the thread that recovers or commits. -/
theorem Guar.of_committer (hinv : Inv base s) (hc : s.hist.committer = some t)
    (hinv' : Inv base s') (hepoch : s'.hist.epoch = s.hist.epoch)
    (hready : s'.ready = s.ready ∨ s'.ready = true ∧ s'.hist.committer = none)
    (hbegun : s'.hist.begun = s.hist.begun)
    (hboot : t = .boot → s'.hist.Same s.hist) : Guar base t s s' where
  inv := hinv'
  boot := hboot
  epoch := hepoch
  ready h := by
    rcases hready with heq | ⟨hr, -⟩
    · exact heq.trans h
    · exact hr
  up hno hr := by
    rcases hready with heq | ⟨-, hnone⟩
    · rw [heq, hno] at hr
      cases hr
    · exact hnone
  seen u hu hcu := by
    rw [hc] at hcu
    exact absurd (Option.some.inj hcu).symm hu
  active k _ e hmem := by
    have hnone := hinv.committer_of_active hmem
    rw [hc] at hnone
    cases hnone
  begun k _ e hmem := by rwa [hbegun] at hmem

/-- A step of an operation that runs. -/
theorem Guar.of_op {k e : Nat} (hinv : Inv base s) (hid : (e, k) ∈ s.hist.active)
    (hinv' : Inv base s') (hepoch : s'.hist.epoch = s.hist.epoch) (hready : s'.ready = s.ready)
    (hactive : ∀ id, id ≠ (e, k) → id ∈ s.hist.active → id ∈ s'.hist.active)
    (hbegun : s'.hist.begun = s.hist.begun) : Guar base (.op k) s s' where
  inv := hinv'
  boot hk := by cases hk
  up hno hr := absurd hr (by simp [hready, hno])
  epoch := hepoch
  ready h := hready.trans h
  seen u _ hcu := by
    rw [hinv.committer_of_active hid] at hcu
    cases hcu
  active j hj i hmem := by
    refine hactive (i, j) (fun heq => hj ?_) hmem
    rw [(Prod.mk.inj heq).2]
  begun j _ i hmem := by rwa [hbegun] at hmem

/-! ## The logic -/

/-- The blocks that have been logged since the last commit. -/
def Fs.current (s : Fs A) : Finset BlockNo := (s.hist.current.map fun w => w.block.val).toFinset

/-- The log has room for one more block. -/
def Fs.Room (s : Fs A) : Prop := s.current.card < LOGSIZE ∧ s.current.card + 1 < A.nlog

instance (s : Fs A) : Decidable s.Room := inferInstanceAs (Decidable (_ ∧ _))

/-- When a block is logged there is room for it. -/
def Roomy (β : Type) (_ : Tid) (o : LogOp A β) (s : Fs A) : Prop :=
  match o with
  | .logWrite _ _ _ => s.Room
  | _ => True

instance {β : Type} (t : Tid) (o : LogOp A β) (s : Fs A) : Decidable (Roomy β t o s) := by
  cases o <;> unfold Roomy <;> infer_instance

/-- Operations log blocks while they run; with room for the blocks, nothing
panics. -/
def Safe (K : Prop) (β : Type) (_ : Tid) (o : LogOp A β) (s : Fs A) : Prop :=
  match o with
  | .logWrite id _ _ => id ∈ s.hist.active
  | .panic _ => ¬ K
  | _ => True

abbrev logic (A : LogArea) (base : Disk) (K : Prop) : Logic (machine A) :=
  ofGuarantee (machine A) (Inv base) (fun β t o s => K → Roomy β t o s) (Safe K) (Guar base)
    fun _ _ _ _ hg => hg.inv

/-- Thread `t` recovers or commits, and sees what `φ` says. -/
def Holds (t : Tid) (φ : Seen A → Prop) (s : Fs A) : Prop :=
  s.hist.committer = some t ∧ φ s.seen

theorem holds_stable (φ : Seen A → Prop) : (logic A base K).Stable t (Holds t φ) := by
  refine stable_of_guarantee (fun _ _ => rfl) fun u s s' hu _ hg hs => ?_
  have hseen := hg.seen t hu.symm hs.1
  have hhist : s'.hist = s.hist := congrArg Seen.hist hseen
  exact ⟨by rw [hhist]; exact hs.1, by rw [hseen]; exact hs.2⟩

theorem Holds.mono {φ ψ : Seen A → Prop} (h : Holds t φ s) (hφ : ∀ v, φ v → ψ v) : Holds t ψ s :=
  ⟨h.1, hφ _ h.2⟩

variable {φ ψ : Seen A → Prop}

theorem readLog_rule {β : Type} {f : LogState → β} {r : β} (hf : ∀ v, φ v → f v.log = r) :
    (logic A base K).Triple t (Holds t φ) (readLog f) fun b s => b = r ∧ Holds t φ s :=
  Triple.act (fun _ _ => rfl) (holds_stable φ) (fun _ _ _ _ => trivial)
    fun s i b s' hs hinv _ hx => by
      cases hx
      exact ⟨.refl hinv t, hf _ hs.2, hs⟩

theorem bread_rule (φ : Seen A → Prop) (b : BlockNo) :
    (logic A base K).Triple t (Holds t φ) (bread b) fun d =>
      Holds t fun v => φ v ∧ d = v.view b := by
  refine Triple.act (fun _ _ => rfl) (holds_stable φ) (fun _ _ _ _ => trivial)
    fun s i d s' hs hinv _ hx => ?_
  cases hx
  refine ⟨.of_view hinv (view_bread s b), hs.1, ?_⟩
  rw [seen_of_view (view_bread s b)]
  exact ⟨hs.2, rfl⟩

theorem bwrite_rule {b : BlockNo} {d : Block} {commits : Bool}
    (hboot : t = .boot → commits = false)
    (h : ∀ s, Inv base s → s.hist.committer = some t → φ s.seen →
      Recoverable base (s.bwrite b d commits) ∧ (A.Home b → d = s.hist.latest base b) ∧
        ψ (s.bwrite b d commits).seen) :
    (logic A base K).Triple t (Holds t φ) (bwrite b d commits) fun _ => Holds t ψ := by
  refine Triple.act (fun _ _ => rfl) (holds_stable φ) (fun _ _ _ _ => trivial)
    fun s i r s' hs hinv _ hx => ?_
  obtain rfl : s.bwrite b d commits = s' := (Prod.mk.inj (Option.some.inj hx)).2
  obtain ⟨hdisk, hd, hψ⟩ := h s hinv hs.1 hs.2
  have hc : s.hist.committer ≠ none := by simp [hs.1]
  have hhist : (s.bwrite b d commits).hist.committer = s.hist.committer ∧
      (s.bwrite b d commits).hist.epoch = s.hist.epoch ∧
      (s.bwrite b d commits).hist.begun = s.hist.begun := by
    cases commits <;> exact ⟨rfl, rfl, rfl⟩
  refine ⟨.of_committer hinv hs.1 (inv_bwrite hinv hc hdisk hd) hhist.2.1 (.inl rfl) hhist.2.2
    fun ht => ?_, hhist.1.trans hs.1, hψ⟩
  rw [hboot ht]
  exact ⟨rfl, rfl, rfl⟩

theorem setLh_rule (lh : List BlockNo) :
    (logic A base K).Triple t
      (Holds t fun v => φ { v with log := { v.log with lh := lh } }) (setLh lh)
      fun _ => Holds t φ := by
  refine Triple.act (fun _ _ => rfl) (holds_stable _) (fun _ _ _ _ => trivial)
    fun s i r s' hs hinv _ hx => ?_
  cases hx
  have hc : s.hist.committer ≠ none := by simp [hs.1]
  exact ⟨.of_committer hinv hs.1 (inv_setLh hinv hc lh) rfl (.inl rfl) rfl fun _ => ⟨rfl, rfl, rfl⟩,
    hs.1, hs.2⟩

theorem bunpin_rule {b : BlockNo} (h : ∀ v, φ v → v.view b = v.disk b)
    (hψ : ∀ v, φ v → ψ { v with pins := update v.pins b (v.pins b - 1) }) :
    (logic A base K).Triple t (Holds t φ) (.perform (.bunpin b)) fun _ => Holds t ψ := by
  refine Triple.act (fun _ _ => rfl) (holds_stable _) (fun _ _ _ _ => trivial)
    fun s i r s' hs hinv _ hx => ?_
  cases hx
  have hc : s.hist.committer ≠ none := by simp [hs.1]
  exact ⟨.of_committer hinv hs.1 (inv_bunpin hinv hc (h _ hs.2)) rfl (.inl rfl) rfl
    fun _ => ⟨rfl, rfl, rfl⟩, hs.1, hψ _ hs.2⟩

/-! ## What may be written -/

/-- A block of the log that the header does not announce, or a home block that
it does. -/
theorem Recoverable.bwrite (h : Recoverable base s) {b : BlockNo} {d : Block}
    (hb : b ≠ A.logstart) (hslot : ∀ i < s.header.length, A.slot i ≠ b)
    (hhome : A.Home b → b ∈ s.header) : Recoverable base (s.bwrite b d false) := by
  have hheader : (s.bwrite b d false).header = s.header := by
    rw [Fs.header, disk_bwrite, Function.update_of_ne hb.symm, Fs.header]
  refine ⟨?_, ?_, fun i c hc => ?_, fun c hc hmem => ?_⟩
  · rw [hheader]
    exact h.home
  · rw [hheader]
    exact h.fits
  · rw [hheader] at hc
    have hi : i < s.header.length := (List.getElem?_eq_some_iff.1 hc).1
    rw [disk_bwrite, Function.update_of_ne (hslot i hi)]
    exact h.replay i c hc
  · rw [hheader] at hmem
    have hne : c ≠ b := by
      rintro rfl
      exact hmem (hhome hc)
    rw [disk_bwrite, Function.update_of_ne hne]
    exact h.rest c hc hmem

/-- The header is written, for blocks whose copies are in the log. -/
theorem recoverable_writeHead {hb : Block} {lh : List BlockNo} {commits : Bool} (goal : Disk)
    (hlh : ∀ b ∈ lh, A.Home b) (hfits : lh.length ≤ LOGSIZE ∧ lh.length < A.nlog)
    (hgoal : (s.bwrite A.logstart (storeHeader hb lh) commits).hist.committed base =
      goal)
    (hreplay : ∀ i b, lh[i]? = some b → s.disk (A.slot i) = goal b)
    (hrest : ∀ b, A.Home b → b ∉ lh → s.disk b = goal b) :
    Recoverable base (s.bwrite A.logstart (storeHeader hb lh) commits) := by
  have hheader : (s.bwrite A.logstart (storeHeader hb lh) commits).header = lh := by
    rw [Fs.header, disk_bwrite, Function.update_self, readHeader_storeHeader hb hfits.1]
  refine ⟨?_, ?_, fun i b hib => ?_, fun b hb hmem => ?_⟩
  · rw [hheader]
    exact hlh
  · rw [hheader]
    exact hfits
  · rw [hheader] at hib
    have hi : i < lh.length := (List.getElem?_eq_some_iff.1 hib).1
    rw [hgoal, disk_bwrite, Function.update_of_ne (A.slot_ne_logstart (by omega))]
    exact hreplay i b hib
  · rw [hheader] at hmem
    rw [hgoal, disk_bwrite, Function.update_of_ne hb.ne_logstart]
    exact hrest b hb hmem

end Xv6.Log
