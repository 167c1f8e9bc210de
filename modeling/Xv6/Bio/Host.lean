import Xv6.Bio.Steps
import Xv6.Conc.Guarantee

/-!
# The code of the buffer cache, wherever it runs

What a process knows of the cache between operations, and from it the rules
for `bread`, `bwrite` and `brelse`.  A machine hosts the cache when it has its
operations, among others, and does not interfere with them.
-/

namespace Xv6.Bio

open Conc Conc.Logic
open Function (update)

variable {D : Type} {s s' : State D} {p : Slot} {b : Buf} {k : Key} {K : Prop}
  {hs : List (Buf × Key)}

/-- Under the condition `K` on a run, `bget` finds a buffer. -/
def Avail (K : Prop) (β : Type) (p : Slot) (o : Op D β) (s : State D) : Prop :=
  match o with
  | .bget dev blockno => K → ∃ b s', bget p dev blockno s = some (some b, s')
  | _ => True

/-- A buffer that is recycled is the unused one that was released first, the
latest contents of the block are what `bread` returns, and there is no panic
but that of `bget`. -/
def Safe (K : Prop) (β : Type) (p : Slot) (o : Op D β) (s : State D) : Prop :=
  match o with
  | .bget dev blockno => ∃ r s', bget p dev blockno s = some (r, s') ∧
      ∀ b, r = some b → s.key b ≠ (dev, blockno) →
        s.refcnt b = 0 ∧ ∀ c, s.refcnt c = 0 → s.released b ≤ s.released c
  | .got dev blockno b => s.lock b = some p ∧ s.key b = (dev, blockno) ∧
      s.data b = s.contents (dev, blockno)
  | .panic msg => msg = "bget: no buffers" ∧ ¬ K
  | _ => True

theorem Others.refl (p : Slot) (s : State D) : Others p s s :=
  ⟨fun _ _ => rfl, fun _ _ _ => Iff.rfl, fun _ _ _ _ => ⟨rfl, rfl, rfl, rfl⟩, fun _ _ => rfl⟩

/-- What other processes do does not make `P` false. -/
def Keeps (p : Slot) (P : State D → Prop) : Prop :=
  ∀ u s s', p ≠ u → Inv s → Others u s s' → P s → P s'

/-- An operation keeps the invariant and what others know, and makes `Q` true. -/
def Spec (K : Prop) (p : Slot) (P : State D → Prop) {β : Type} (o : Op D β)
    (Q : β → State D → Prop) : Prop :=
  ∀ s i b s', P s → Inv s → Avail K β p o s → exec p i s o = some (b, s') →
    Inv s' ∧ Others p s s' ∧ Q b s'

/-! ## What a process knows -/

/-- A process is on the way to the buffer `t`, or to none, and all buffers
that it has locked but `b` have their data.  It has locked the buffers `hs`,
which stand for the blocks that go with them. -/
structure Calm (p : Slot) (t : Option Buf) (b : Option Buf) (hs : List (Buf × Key))
    (s : State D) : Prop where
  transit : s.transit p = t
  valid : ∀ c, some c ≠ b → s.lock c = some p → s.valid c = true
  held : ∀ e ∈ hs, s.lock e.1 = some p ∧ s.key e.1 = e.2

/-- It has locked a buffer for a block besides. -/
structure Here (p : Slot) (b : Buf) (k : Key) (hs : List (Buf × Key)) (φ : Bool → Prop)
    (s : State D) : Prop where
  calm : Calm p none (some b) hs s
  lock : s.lock b = some p
  key : s.key b = k
  valid : φ (s.valid b)
  apart : ∀ e ∈ hs, e.1 ≠ b

theorem Inv.refcnt_of_lock (h : Inv s) (hlock : s.lock b = some p) : s.refcnt b ≠ 0 :=
  h.refcnt_ne_zero.2 (.inl (by rw [hlock]; exact Option.some_ne_none p))

theorem Inv.refcnt_of_transit (h : Inv s) (htransit : s.transit p = some b) : s.refcnt b ≠ 0 :=
  h.refcnt_ne_zero.2 (.inr (.inl ⟨p, htransit⟩))

theorem Calm.others {t b : Option Buf} {u : Slot} (h : Calm p t b hs s) (hinv : Inv s)
    (hg : Others u s s') (hne : p ≠ u) : Calm p t b hs s' := by
  refine ⟨(hg.transit p hne).trans h.transit, fun c hc hlock => ?_, fun e he => ?_⟩
  · have hlock' := (hg.lock p c hne).1 hlock
    rw [(hg.locked p c hne hlock').1]
    exact h.valid c hc hlock'
  · obtain ⟨hlock, hkey⟩ := h.held e he
    exact ⟨(hg.lock p e.1 hne).2 hlock, (hg.key e.1 (hinv.refcnt_of_lock hlock)).trans hkey⟩

theorem Calm.keeps {t b : Option Buf} : Keeps p (Calm (D := D) p t b hs) :=
  fun _ _ _ hne hinv hg h => h.others hinv hg hne

theorem Here.others {φ : Bool → Prop} {u : Slot} (h : Here p b k hs φ s) (hinv : Inv s)
    (hg : Others u s s') (hne : p ≠ u) : Here p b k hs φ s' where
  calm := h.calm.others hinv hg hne
  lock := (hg.lock p b hne).2 h.lock
  key := by rw [hg.key b (hinv.refcnt_of_lock h.lock), h.key]
  valid := by
    rw [(hg.locked p b hne h.lock).1]
    exact h.valid
  apart := h.apart

theorem Here.keeps {φ : Bool → Prop} : Keeps p (Here (D := D) p b k hs φ) :=
  fun _ _ _ hne hinv hg h => h.others hinv hg hne

/-- The way to a buffer leads to its block. -/
theorem coming_keeps : Keeps p fun s : State D => Calm p (some b) none hs s ∧ s.key b = k :=
  fun _ _ _ hne hinv hg h => ⟨h.1.others hinv hg hne, by
    rw [hg.key b (hinv.refcnt_of_transit h.1.transit), h.2]⟩

/-- What has been read into a buffer stays there. -/
theorem loaded_keeps {φ : Bool → Prop} :
    Keeps p fun s : State D => Here p b k hs φ s ∧ s.data b = s.contents k := by
  intro u s s' hne hinv hg h
  obtain ⟨-, hdata, hcontents, -⟩ := hg.locked p b hne h.1.lock
  refine ⟨h.1.others hinv hg hne, ?_⟩
  rw [hdata, h.2, ← h.1.key, hcontents]

/-- Between calls: a process has the buffer `b` locked, which has its data and
so many pins. -/
def Holding (p : Slot) (b : Buf) (hs : List (Buf × Key)) (ψ : Nat → Prop) (s : State D) : Prop :=
  Calm p none none hs s ∧ s.lock b = some p ∧ ψ (s.pins b)

theorem Holding.keeps {ψ : Nat → Prop} : Keeps p (Holding (D := D) p b hs ψ) := by
  intro u s s' hne hinv hg h
  refine ⟨h.1.others hinv hg hne, (hg.lock p b hne).2 h.2.1, ?_⟩
  rw [(hg.locked p b hne h.2.1).2.2.2]
  exact h.2.2

/-! ## The operations -/

theorem bget_spec {dev blockno : I32} (hdev : dev ≠ 0) :
    Spec K p (Calm (D := D) p none none hs) (.bget dev blockno) fun r s =>
      (r = none → ¬ K ∧ Calm p none none hs s) ∧
        ∀ b, r = some b → Calm p (some b) none hs s ∧ s.key b = (dev, blockno) := by
  intro s i r s' h hinv ha hx
  obtain ⟨r', s'', heq, hinv', hothers, hlock, hvalid, hnone, hr⟩ :=
    hinv.bget h.transit hdev blockno
  obtain ⟨rfl, rfl⟩ := Prod.mk.inj (Option.some.inj (heq.symm.trans hx))
  refine ⟨hinv', hothers, fun hno => ⟨fun hK => ?_, ?_⟩, fun b hb =>
    ⟨⟨(hr b hb).1, fun c hc hlock' => ?_, fun e he => ?_⟩, (hr b hb).2.1⟩⟩
  · obtain ⟨b, s₁, hfound⟩ := ha hK
    obtain ⟨rfl, -⟩ := Prod.mk.inj (Option.some.inj (heq.symm.trans hfound))
    cases hno
  · rw [hnone hno]
    exact h
  · rw [hlock] at hlock'
    rw [hvalid c p hlock']
    exact h.valid c hc hlock'
  · obtain ⟨hheld, hkey⟩ := h.held e he
    rw [hlock]
    exact ⟨hheld, (hothers.key e.1 (hinv.refcnt_of_lock hheld)).trans hkey⟩

theorem acquiresleep_spec :
    Spec K p (fun s : State D => Calm p (some b) none hs s ∧ s.key b = k) (.acquiresleep b)
      fun _ => Here p b k hs fun _ => True := by
  intro s i r s' h hinv _ hx
  have hx : (if s.lock b = none then _ else none) = some (r, s') := hx
  by_cases hlock : s.lock b = none
  · rw [if_pos hlock] at hx
    have heq := (Prod.mk.inj (Option.some.inj hx)).2.symm
    obtain ⟨hinv', hothers⟩ := hinv.acquiresleep h.1.transit hlock heq
    -- a process that has the buffer already waits for ever
    have hapart : ∀ e ∈ hs, e.1 ≠ b := by
      rintro e he rfl
      rw [(h.1.held e he).1] at hlock
      cases hlock
    refine ⟨hinv', hothers, ?_⟩
    rw [heq]
    refine ⟨⟨Function.update_self .., fun c hc hc' => ?_, fun e he => ?_⟩,
      Function.update_self .., h.2, trivial, hapart⟩
    · have hcb : c ≠ b := fun heq => hc (heq ▸ rfl)
      exact h.1.valid c (Option.some_ne_none c) ((Function.update_of_ne hcb ..).symm.trans hc')
    · exact ⟨(Function.update_of_ne (hapart e he) ..).trans (h.1.held e he).1, (h.1.held e he).2⟩
  · rw [if_neg hlock] at hx
    cases hx

theorem valid_spec :
    Spec K p (Here (D := D) p b k hs fun _ => True) (.valid b) fun v => Here p b k hs (· = v) := by
  intro s i r s' h hinv _ hx
  obtain ⟨rfl, rfl⟩ := Prod.mk.inj (Option.some.inj hx)
  exact ⟨hinv, .refl p s, h.calm, h.lock, h.key, rfl, h.apart⟩

theorem load_spec :
    Spec K p (Here (D := D) p b k hs (· = false)) (.load b) fun _ s =>
      Here p b k hs (· = false) s ∧ s.data b = s.contents k := by
  intro s i r s' h hinv _ hx
  have heq := (Prod.mk.inj (Option.some.inj hx)).2.symm
  obtain ⟨hinv', hothers, hdata⟩ := hinv.load h.lock h.valid heq
  have hkey : s'.key b = k := by
    rw [heq]
    exact h.key
  rw [hkey] at hdata
  refine ⟨hinv', hothers, ?_, hdata⟩
  rw [heq]
  exact ⟨⟨h.calm.transit, h.calm.valid, h.calm.held⟩, h.lock, h.key, h.valid, h.apart⟩

theorem setValid_spec :
    Spec K p (fun s : State D => Here p b k hs (· = false) s ∧ s.data b = s.contents k)
      (.setValid b) fun _ => Here p b k hs (· = true) := by
  intro s i r s' h hinv _ hx
  have heq := (Prod.mk.inj (Option.some.inj hx)).2.symm
  have hdata := h.2
  rw [← h.1.key] at hdata
  obtain ⟨hinv', hothers⟩ := hinv.setValid h.1.lock hdata heq
  refine ⟨hinv', hothers, ?_⟩
  rw [heq]
  refine ⟨⟨h.1.calm.transit, fun c hc hlock => ?_, h.1.calm.held⟩, h.1.lock, h.1.key,
    Function.update_self .., h.1.apart⟩
  have hcb : c ≠ b := fun heq => hc (heq ▸ rfl)
  exact (Function.update_of_ne hcb ..).trans (h.1.calm.valid c hc hlock)

/-- What `bread` returns: a buffer that is locked, for the block. -/
def Read (p : Slot) (b : Buf) (k : Key) (hs : List (Buf × Key)) (s : State D) : Prop :=
  Holding p b hs (fun _ => True) s ∧ s.key b = k ∧ ∀ e ∈ hs, e.1 ≠ b

theorem got_spec {dev blockno : I32} :
    Spec K p (Here (D := D) p b (dev, blockno) hs (· = true)) (.got dev blockno b)
      fun _ => Read p b (dev, blockno) hs := by
  intro s i r s' h hinv _ hx
  obtain rfl := (Prod.mk.inj (Option.some.inj hx)).2
  refine ⟨hinv, .refl p s, ⟨⟨h.calm.transit, fun c _ hlock => ?_, h.calm.held⟩, h.lock, trivial⟩,
    h.key, h.apart⟩
  by_cases hcb : c = b
  · rw [hcb, h.valid]
  · exact h.calm.valid c (fun heq => hcb (Option.some.inj heq)) hlock

theorem holdingsleep_spec {ψ : Nat → Prop} :
    Spec K p (Holding (D := D) p b hs ψ) (.holdingsleep b) fun r s =>
      r = true ∧ Holding p b hs ψ s := by
  intro s i r s' h hinv _ hx
  obtain ⟨rfl, rfl⟩ := Prod.mk.inj (Option.some.inj hx)
  exact ⟨hinv, .refl p s, decide_eq_true h.2.1, h⟩

theorem flush_spec {ψ : Nat → Prop} :
    Spec K p (Holding (D := D) p b hs ψ) (.flush b) fun _ => Holding p b hs ψ := by
  intro s i r s' h hinv _ hx
  have heq := (Prod.mk.inj (Option.some.inj hx)).2.symm
  obtain ⟨hinv', hothers⟩ := hinv.flush (p := p) (h.1.valid b (Option.some_ne_none b) h.2.1) heq
  refine ⟨hinv', hothers, ?_⟩
  rw [heq]
  exact ⟨⟨h.1.transit, h.1.valid, h.1.held⟩, h.2⟩

theorem releasesleep_spec {ψ : Nat → Prop} (hapart : ∀ e ∈ hs, e.1 ≠ b) :
    Spec K p (Holding (D := D) p b hs ψ) (.releasesleep b) fun _ => Calm p (some b) none hs := by
  intro s i r s' h hinv _ hx
  have heq := (Prod.mk.inj (Option.some.inj hx)).2.symm
  obtain ⟨hinv', hothers⟩ := hinv.releasesleep h.1.transit h.2.1 heq
  refine ⟨hinv', hothers, ?_⟩
  rw [heq]
  refine ⟨Function.update_self .., fun c hc hlock => ?_, fun e he => ?_⟩
  · have hlock : update s.lock b none c = some p := hlock
    by_cases hcb : c = b
    · rw [hcb, Function.update_self] at hlock
      cases hlock
    · rw [Function.update_of_ne hcb] at hlock
      exact h.1.valid c hc hlock
  · exact ⟨(Function.update_of_ne (hapart e he) ..).trans (h.1.held e he).1, (h.1.held e he).2⟩

theorem put_spec :
    Spec K p (Calm (D := D) p (some b) none hs) (.put b) fun _ => Calm p none none hs := by
  intro s i r s' h hinv _ hx
  obtain rfl := (Prod.mk.inj (Option.some.inj hx)).2
  obtain ⟨hinv', hothers, hlock, hvalid, htransit⟩ := hinv.put h.transit
  refine ⟨hinv', hothers, htransit, fun c hc hlock' => ?_, fun e he => ?_⟩
  · rw [hlock] at hlock'
    rw [hvalid]
    exact h.valid c hc hlock'
  · obtain ⟨hheld, hkey⟩ := h.held e he
    rw [hlock]
    exact ⟨hheld, (hothers.key e.1 (hinv.refcnt_of_lock hheld)).trans hkey⟩

theorem store_spec {ψ : Nat → Prop} (d : D) :
    Spec K p (Holding p b hs ψ) (.store b d) fun _ => Holding p b hs ψ := by
  intro s i r s' h hinv _ hx
  have heq := (Prod.mk.inj (Option.some.inj hx)).2.symm
  obtain ⟨hinv', hothers⟩ := hinv.store h.2.1 (h.1.valid b (Option.some_ne_none b) h.2.1) d heq
  refine ⟨hinv', hothers, ?_⟩
  rw [heq]
  exact ⟨⟨h.1.transit, h.1.valid, h.1.held⟩, h.2⟩

theorem bpin_spec :
    Spec K p (Holding (D := D) p b hs fun n => n + NPROC + 2 < 2 ^ 32) (.bpin b)
      fun _ => Holding p b hs fun _ => True := by
  intro s i r s' h hinv _ hx
  have heq := (Prod.mk.inj (Option.some.inj hx)).2.symm
  obtain ⟨hinv', hothers⟩ := hinv.bpin h.2.1 h.2.2 heq
  refine ⟨hinv', hothers, ?_⟩
  rw [heq]
  exact ⟨⟨h.1.transit, h.1.valid, h.1.held⟩, h.2.1, trivial⟩

theorem bunpin_spec :
    Spec K p (Holding (D := D) p b hs (· ≠ 0)) (.bunpin b)
      fun _ => Holding p b hs fun _ => True := by
  intro s i r s' h hinv _ hx
  have heq := (Prod.mk.inj (Option.some.inj hx)).2.symm
  obtain ⟨hinv', hothers⟩ := hinv.bunpin h.2.1 h.2.2 heq
  refine ⟨hinv', hothers, ?_⟩
  rw [heq]
  exact ⟨⟨h.1.transit, h.1.valid, h.1.held⟩, h.2.1, trivial⟩

/-! ## Hosts -/

/-- The operations of `bread`, `bwrite` and `brelse` for blocks of device
`dev`. -/
def Plain (dev : I32) {β : Type} (o : Op D β) : Prop :=
  match o with
  | .bget d _ => d = dev
  | .store _ _ | .bpin _ | .bunpin _ | .next => False
  | _ => True

section host

variable {Op' : Type → Type 1} {σ Input : Type} {M : Machine Op' σ Slot Slot Input} {L : Logic M}
  {perform : {β : Type} → Op D β → Prog Op' β} {π : σ → State D} {R : σ → Prop}
  {A : {β : Type} → Op D β → Prop}

/-- In the logic `L` process `p` can perform the operations `A` of the cache,
which is the part `π` of the memory, while it knows `R` of the rest. -/
def Host (K : Prop) (A : {β : Type} → Op D β → Prop) (L : Logic M)
    (perform : {β : Type} → Op D β → Prog Op' β) (π : σ → State D) (p : Slot) (R : σ → Prop) :
    Prop :=
  ∀ {β : Type} {o : Op D β} {P : State D → Prop} {Q : β → State D → Prop}, A o → Keeps p P →
    (∀ s, P s → Inv s → Safe K β p o s) → Spec K p P o Q →
    L.Triple p (fun s => P (π s) ∧ R s) (perform o) fun b s => Q b (π s) ∧ R s

/-- `bread` ends in the panic of `bget`, or returns the block, locked. -/
theorem Host.bread (h : Host K A L perform π p R) {dev blockno : I32} (hdev : dev ≠ 0)
    (hA : ∀ {β : Type} (o : Op D β), Plain dev o → A o) :
    L.Triple p (fun s => Calm p none none hs (π s) ∧ R s) (bread perform dev blockno) fun b s =>
      Read p b (dev, blockno) hs (π s) ∧ R s := by
  refine Triple.bind (h (hA (.bget dev blockno) rfl) Calm.keeps (fun s hs hinv => ?_)
    (bget_spec hdev)) fun r => ?_
  · obtain ⟨r, s', heq, -, -, -, -, -, hr⟩ := hinv.bget hs.transit hdev blockno
    exact ⟨r, s', heq, fun b hb => (hr b hb).2.2⟩
  cases r with
  | none =>
    have hpanic : Keeps p fun s : State D => ¬ K ∧ Calm p none none hs s :=
      fun _ _ _ hne hinv hg hs => ⟨hs.1, hs.2.others hinv hg hne⟩
    refine Triple.conseq (h (Q := fun b => Read p b (dev, blockno) hs)
      (hA (.panic "bget: no buffers") trivial) hpanic (fun s hs _ => ⟨rfl, hs.1⟩)
      fun s i b s' _ _ _ hx => ?_) (fun s hs => ⟨hs.1.1 rfl, hs.2⟩) fun _ _ hs => hs
    cases hx
  | some b =>
    refine Triple.bind (Triple.pre (h (hA (.acquiresleep b) trivial) coming_keeps
      (fun _ _ _ => trivial) acquiresleep_spec) fun s hs => ⟨hs.1.2 b rfl, hs.2⟩) fun _ => ?_
    refine Triple.bind (h (hA (.valid b) trivial) Here.keeps (fun _ _ _ => trivial) valid_spec)
      fun v => ?_
    have hlast : L.Triple p (fun s => Here p b (dev, blockno) hs (· = true) (π s) ∧ R s)
        ((perform (.got dev blockno b)).bind fun _ => .ret b) fun b s =>
          Read p b (dev, blockno) hs (π s) ∧ R s := by
      refine Triple.bind (h (hA (.got dev blockno b) trivial) Here.keeps
        (fun s hs hinv => ⟨hs.lock, hs.key, ?_⟩) got_spec) fun _ _ h => h
      rw [(hinv.valid b hs.valid).2, hs.key]
    cases v with
    | false =>
      refine Triple.ite (fun _ => ?_) fun h => absurd rfl h
      refine Triple.bind (h (hA (.load b) trivial) Here.keeps (fun _ _ _ => trivial) load_spec)
        fun _ => ?_
      exact Triple.bind (h (hA (.setValid b) trivial) loaded_keeps (fun _ _ _ => trivial)
        setValid_spec) fun _ => hlast
    | true => exact Triple.ite (fun h => Bool.noConfusion h) fun _ => hlast

theorem Host.bwrite (h : Host K A L perform π p R) (dev : I32)
    (hA : ∀ {β : Type} (o : Op D β), Plain dev o → A o) {ψ : Nat → Prop} :
    L.Triple p (fun s => Holding p b hs ψ (π s) ∧ R s) (bwrite perform b) fun _ s =>
      Holding p b hs ψ (π s) ∧ R s := by
  refine Triple.bind (h (hA (.holdingsleep b) trivial) Holding.keeps (fun _ _ _ => trivial)
    holdingsleep_spec) fun r => ?_
  rintro s ⟨⟨rfl, hheld⟩, hR⟩
  refine Triple.ite (P := fun s => Holding p b hs ψ (π s) ∧ R s)
    (fun h => Bool.noConfusion h) (fun _ => ?_) s ⟨hheld, hR⟩
  exact h (hA (.flush b) trivial) Holding.keeps (fun _ _ _ => trivial) flush_spec

theorem Host.brelse (h : Host K A L perform π p R) (dev : I32)
    (hA : ∀ {β : Type} (o : Op D β), Plain dev o → A o) {ψ : Nat → Prop}
    (hapart : ∀ e ∈ hs, e.1 ≠ b) :
    L.Triple p (fun s => Holding p b hs ψ (π s) ∧ R s) (brelse perform b) fun _ s =>
      Calm p none none hs (π s) ∧ R s := by
  refine Triple.bind (h (hA (.holdingsleep b) trivial) Holding.keeps (fun _ _ _ => trivial)
    holdingsleep_spec) fun r => ?_
  rintro s ⟨⟨rfl, hheld⟩, hR⟩
  refine Triple.ite (P := fun s => Holding p b hs ψ (π s) ∧ R s)
    (fun h => Bool.noConfusion h) (fun _ => ?_) s ⟨hheld, hR⟩
  refine Triple.bind (h (hA (.releasesleep b) trivial) Holding.keeps (fun _ _ _ => trivial)
    (releasesleep_spec hapart)) fun _ => ?_
  exact h (hA (.put b) trivial) Calm.keeps (fun _ _ _ => trivial) put_spec

end host

end Xv6.Bio
