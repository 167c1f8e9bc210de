import Xv6.Virtio.Device
import Xv6.Virtio.Driver

/-!
# Every run of the driver

Any number of processes call `virtio_disk_rw`, and any number of handlers run
`virtio_disk_intr`, while the device works.  Whenever the lock is free the
requests in flight have their descriptors and nobody else has, and a process
finds its buffer's flag clear only when its own request is done.
-/

namespace Xv6.Virtio

open Conc Conc.Logic

variable {P B C : Type} {s s' : State P B C}

/-! ## What holds while the lock is free -/

/-- The driver has still to see that the chain at `h` is done. -/
def Unread (s : State P B C) (h : Fin NUM) : Prop :=
  ∃ j < (s.disk.usedIdx - s.disk.used_idx).toNat,
    s.disk.usedRing (slot (s.disk.used_idx + BitVec.ofNat 16 j)) = u32 h

/-- The requests in flight have what they need: three descriptors that nobody
else has, and a chain that says what they ask for.  A buffer is flagged while
its request waits for the device or for the interrupt. -/
structure Consistent (s : State P B C) : Prop where
  three : ∀ p r, s.requests p = some r → r.idx.Nodup
  disjoint : ∀ p q r r', s.requests p = some r → s.requests q = some r' → p ≠ q →
    r.idx.Disjoint r'.idx
  free : ∀ i, s.disk.free i = true ↔ ∀ p r, s.requests p = some r → i ∉ r.idx
  look : ∀ p r, s.requests p = some r → s.disk.look (u16 r.i0) = r.seen
  seen : ∀ e ∈ s.pending, ∃ p r, s.requests p = some r ∧ e = (u16 r.i0, r.seen)
  flag : ∀ b, s.disk.bdisk b = true ↔
    ∃ p r, s.requests p = some r ∧ r.b = b ∧ (s.done p = false ∨ Unread s r.i0)

theorem u32_inj {i j : Fin NUM} (h : u32 i = u32 j) : i = j := by
  apply Fin.ext
  rw [← u32_toNat i, ← u32_toNat j, h]

theorem Wf.unread_iff {avail work used : List (Fin NUM)} (h : Wf s avail work used)
    (i : Fin NUM) : Unread s i ↔ i ∈ used := by
  have hlen := h.usedRing.length
  rw [List.length_map] at hlen
  constructor
  · rintro ⟨j, hj, hget⟩
    have hj' : j < (used.map u32).length := by
      rw [List.length_map, hlen]
      exact hj
    have hcell := h.usedRing.get j hj'
    rw [List.getElem_map] at hcell
    rw [← u32_inj (hcell.symm.trans hget)]
    exact List.getElem_mem _
  · intro hi
    obtain ⟨j, hj, rfl⟩ := List.getElem_of_mem hi
    refine ⟨j, hlen ▸ hj, ?_⟩
    have hj' : j < (used.map u32).length := by
      rw [List.length_map]
      exact hj
    have hcell := h.usedRing.get j hj'
    rw [List.getElem_map] at hcell
    exact hcell

/-- A request is flagged until it is done and the driver has seen that. -/
theorem Wf.flag_iff {avail work used : List (Fin NUM)} (h : Wf s avail work used) {p : P}
    {r : Request B} (hr : s.requests p = some r) :
    s.disk.bdisk r.b = true ↔ s.done p = false ∨ Unread s r.i0 := by
  rw [← h.live_iff hr, h.unread_iff, List.mem_append]
  refine or_congr ?_ Iff.rfl
  have hdone := h.done p r hr
  cases hd : s.done p with
  | true =>
    rw [hd] at hdone
    exact ⟨fun hmem => absurd hmem (hdone.1 rfl), fun hfalse => Bool.noConfusion hfalse⟩
  | false =>
    rw [hd] at hdone
    exact ⟨fun _ => rfl, fun _ => by_contra fun hnot => Bool.noConfusion (hdone.2 hnot)⟩

theorem Inv.consistent (h : Inv s) (hfree : s.vdisk_lock = none) : Consistent s := by
  obtain ⟨⟨avail, work, used, hwf⟩, hfreeBut⟩ := h
  refine ⟨fun p r hr => (hwf.placed p r hr).nodup, hwf.disjoint, fun i => ?_,
    fun p r hr => (hwf.placed p r hr).look, hwf.seen, fun b => ⟨fun hb => ?_, ?_⟩⟩
  · refine ((hfreeBut hfree).free_iff i).trans ⟨fun hi => hi.2, fun hi => ?_⟩
    exact ⟨List.not_mem_nil, hi⟩
  · obtain ⟨p, r, hr, rfl⟩ := hwf.flag b hb
    exact ⟨p, r, hr, rfl, (hwf.flag_iff hr).1 hb⟩
  · rintro ⟨p, r, hr, rfl, hstate⟩
    exact (hwf.flag_iff hr).2 hstate

/-! ## The logic -/

section logic

variable [DecidableEq P] [DecidableEq B] [DecidableEq C]

/-- What an operation needs, and what it makes sure of: the code of the driver
never panics; an interrupt clears the flags of buffers whose requests are done
and leaves none of them set; a request ends when it is done, and gives back
its own descriptors. -/
def Safe (β : Type) (t : Thread P C) (o : Op B β) (s : State P B C) : Prop :=
  match o with
  | .alloc3 => ∃ r, alloc3_desc s = .ok r
  | .turn => ∃ more s', virtio_disk_intr_turn s = .ok (more, s') ∧
      (∀ b, s.disk.bdisk b = true → s'.disk.bdisk b = false →
        ∃ p r, s.requests p = some r ∧ r.b = b ∧ s.done p = true) ∧
      (more = false → ∀ p r, s.requests p = some r → s.done p = true →
        s'.disk.bdisk r.b = false)
  | .finish i0 => ∃ p r s', t = .proc p ∧ s.requests p = some r ∧ r.i0 = i0 ∧
      s.done p = true ∧ finish p i0 s = .ok s' ∧
      ∀ i, s'.disk.free i = true ↔ s.disk.free i = true ∨ i ∈ r.idx
  | _ => True

structure Guar (t : Thread P C) (s s' : State P B C) : Prop where
  inv : Inv s → Inv s'
  requests : ∀ p, t ≠ .proc p → s'.requests p = s.requests p
  holder : ∀ p b, t ≠ .proc p → s.holder b = some p → s'.holder b = some p
  locked : ∀ u, u ≠ t → s.vdisk_lock = some u → s'.vdisk_lock = some u ∧
    s'.disk.free = s.disk.free ∧ s'.requests = s.requests ∧ s'.disk.bdisk = s.disk.bdisk

abbrev logic (P B C : Type) [DecidableEq P] [DecidableEq B] [DecidableEq C] :
    Logic (machine P B C) :=
  ofGuarantee (machine P B C) Inv Machine.always Safe Guar fun _ _ _ hinv hg => hg.inv hinv

omit [DecidableEq P] [DecidableEq B] [DecidableEq C] in
/-- A step of the thread that has the lock. -/
theorem Guar.of_lock {t : Thread P C} (hlock : s.vdisk_lock = some t) (hinv : Inv s')
    (hrequests : ∀ p, t ≠ .proc p → s'.requests p = s.requests p)
    (hholder : s'.holder = s.holder) : Guar t s s' where
  inv _ := hinv
  requests := hrequests
  holder p b _ hb := by
    rw [hholder, hb]
  locked u hu h := absurd (Option.some.inj (h.symm.trans hlock)) hu

/-- Process `p` holds `b`, and has a request or not. -/
def Own (p : P) (b : B) (ρ : Option (Request B) → Prop) (s : State P B C) : Prop :=
  ρ (s.requests p) ∧ s.holder b = some p

/-- It has the lock of the driver besides, and the descriptors `mine`. -/
def Held (p : P) (b : B) (mine : List (Fin NUM)) (ρ : Option (Request B) → Bool → Prop)
    (s : State P B C) : Prop :=
  s.vdisk_lock = some (.proc p) ∧ FreeBut s mine ∧ ρ (s.requests p) (s.disk.bdisk b) ∧
    s.holder b = some p

variable {p : P} {b : B} {mine : List (Fin NUM)} {c : C}

theorem own_stable {ρ : Option (Request B) → Prop} :
    (logic P B C).Stable (.proc p) (Own p b ρ) := by
  refine stable_of_guarantee (fun _ _ => rfl) fun u s s' hu _ hg hs => ?_
  have hr := hg.requests p hu
  exact ⟨by rw [hr]; exact hs.1, hg.holder p b hu hs.2⟩

omit [DecidableEq P] [DecidableEq B] [DecidableEq C] in
theorem FreeBut.congr (h : FreeBut s mine) (hfree : s'.disk.free = s.disk.free)
    (hrequests : s'.requests = s.requests) : FreeBut s' mine := by
  refine ⟨h.nodup, ?_, ?_⟩
  · rw [hrequests]
    exact h.apart
  · rw [hfree, hrequests]
    exact h.free_iff

theorem held_stable {ρ : Option (Request B) → Bool → Prop} :
    (logic P B C).Stable (.proc p) (Held p b mine ρ) := by
  refine stable_of_guarantee (fun _ _ => rfl) fun u s s' hu _ hg hs => ?_
  obtain ⟨hlock, hfree, hrequests, hbdisk⟩ := hg.locked _ (Ne.symm hu) hs.1
  refine ⟨hlock, hs.2.1.congr hfree hrequests, ?_, hg.holder p b hu hs.2.2.2⟩
  rw [hrequests, hbdisk]
  exact hs.2.2.1

/-- An operation of a process that has the lock. -/
theorem held_act {β : Type} {o : Op B β} {ρ : Option (Request B) → Bool → Prop}
    {Q : β → State P B C → Prop}
    (hsafe : ∀ s : State P B C, Held p b mine ρ s → Inv s → Safe β (.proc p) o s)
    (hstep : ∀ s i x s', Held p b mine ρ s → Inv s → exec (.proc p) i s o = some (x, s') →
      Inv s' ∧ (∀ q, q ≠ p → s'.requests q = s.requests q) ∧ s'.holder = s.holder ∧ Q x s') :
    (logic P B C).Triple (.proc p) (Held p b mine ρ) (.perform o) Q := by
  refine Triple.act (fun _ _ => rfl) held_stable (fun s hs hinv _ => hsafe s hs hinv)
    fun s i x s' hs hinv _ hx => ?_
  obtain ⟨hinv', hrequests, hholder, hq⟩ := hstep s i x s' hs hinv hx
  exact ⟨.of_lock hs.1 hinv' (fun q hne => hrequests q fun heq => hne (heq ▸ rfl)) hholder, hq⟩

/-! ## The operations of a process -/

theorem acquire_rule {ρ : Option (Request B) → Prop} :
    (logic P B C).Triple (.proc p) (Own p b ρ) (.perform .acquire) fun _ =>
      Held p b [] fun r _ => ρ r := by
  refine Triple.act (fun _ _ => rfl) own_stable (fun _ _ _ _ => trivial)
    fun s i x s' hs hinv _ hx => ?_
  have hx : (if s.vdisk_lock = none then some ((), { s with vdisk_lock := some (.proc p) })
    else none) = some (x, s') := hx
  by_cases hlock : s.vdisk_lock = none
  · rw [if_pos hlock] at hx
    obtain rfl := (Prod.mk.inj (Option.some.inj hx)).2
    obtain ⟨⟨avail, work, used, hwf⟩, hfree⟩ := hinv
    have hwf' : Wf { s with vdisk_lock := some (.proc p) } avail work used :=
      hwf.congr rfl rfl rfl rfl rfl fun q r hr => (hwf.placed q r hr).holder
    refine ⟨⟨fun _ => ⟨⟨_, _, _, hwf'⟩, fun h => by cases h⟩, fun _ _ => rfl,
      fun _ _ _ hb => hb, fun u _ hu => ?_⟩, rfl, (hfree hlock).congr rfl rfl, hs⟩
    rw [hlock] at hu
    cases hu
  · rw [if_neg hlock] at hx
    cases hx

/-- A process gives the lock up, with all descriptors that it has taken in
use. -/
theorem unlock_rule {o : Op B Unit} {ρ : Option (Request B) → Bool → Prop}
    {ρ' : Option (Request B) → Prop} (hρ : ∀ r f, ρ r f → ρ' r)
    (ho : o = .release ∨ ∃ chan, o = .doze chan) :
    (logic P B C).Triple (.proc p) (Held p b [] ρ) (.perform o) fun _ => Own p b ρ' := by
  refine held_act (fun s _ _ => ?_) fun s i x s' hs hinv hx => ?_
  · rcases ho with rfl | ⟨chan, rfl⟩ <;> trivial
  · obtain ⟨⟨avail, work, used, hwf⟩, -⟩ := hinv
    obtain ⟨asleep, rfl⟩ : ∃ a, s' = { s with vdisk_lock := none, asleep := a } := by
      rcases ho with rfl | ⟨chan, rfl⟩
      · exact ⟨s.asleep, (Prod.mk.inj (Option.some.inj hx)).2.symm⟩
      · exact ⟨_, (Prod.mk.inj (Option.some.inj hx)).2.symm⟩
    have hwf' : Wf { s with vdisk_lock := none, asleep := asleep } avail work used :=
      hwf.congr rfl rfl rfl rfl rfl fun q r hr => (hwf.placed q r hr).holder
    exact ⟨⟨⟨_, _, _, hwf'⟩, fun _ => hs.2.1.congr rfl rfl⟩, fun _ _ => rfl, rfl,
      hρ _ _ hs.2.2.1, hs.2.2.2⟩

theorem awake_rule {ρ : Option (Request B) → Prop} :
    (logic P B C).Triple (.proc p) (Own p b ρ) (.perform .awake) fun _ => Own p b ρ := by
  refine Triple.act (fun _ _ => rfl) own_stable (fun _ _ _ _ => trivial)
    fun s i x s' hs hinv _ hx => ?_
  have hx : (if s.asleep p = none then some ((), s) else none) = some (x, s') := hx
  by_cases hwake : s.asleep p = none
  · rw [if_pos hwake] at hx
    obtain rfl := (Prod.mk.inj (Option.some.inj hx)).2
    exact ⟨⟨fun h => h, fun _ _ => rfl, fun _ _ _ hb => hb, fun _ _ hu =>
      ⟨hu, rfl, rfl, rfl⟩⟩, hs⟩
  · rw [if_neg hwake] at hx
    cases hx

theorem sleep_rule {ρ : Option (Request B) → Bool → Prop} (chan : Chan B)
    (ρ' : Option (Request B) → Prop) (hρ : ∀ r f, ρ r f → ρ' r) :
    (logic P B C).Triple (.proc p) (Held p b [] ρ) (sleep chan) fun _ =>
      Held p b [] fun r _ => ρ' r :=
  (unlock_rule hρ (.inr ⟨chan, rfl⟩)).bind fun _ => awake_rule.bind fun _ => acquire_rule

theorem alloc3_rule :
    (logic P B C).Triple (.proc p) (Held p b [] fun r _ => r = none) (.perform .alloc3) fun x =>
      Held p b (x.elim [] three) fun r _ => r = none := by
  refine held_act (fun s _ _ => ?_) fun s i x s' hs hinv hx => ?_
  · obtain ⟨r, s', hok, -⟩ := alloc3_spec s
    exact ⟨_, hok⟩
  · obtain ⟨⟨avail, work, used, hwf⟩, -⟩ := hinv
    obtain ⟨r, s'', hok, ht⟩ := alloc3_spec s
    have hx : ok (alloc3_desc s) = some (x, s') := hx
    rw [hok] at hx
    obtain ⟨rfl, rfl⟩ := Prod.mk.inj (Option.some.inj hx)
    obtain ⟨hwf', hfree'⟩ := hwf.tried hs.2.1 ht
    obtain ⟨desc, free, asleep, rfl⟩ := ht.rest
    refine ⟨⟨⟨_, _, _, hwf'⟩, fun hlock => ?_⟩, fun _ _ => rfl, rfl, hs.1, hfree', hs.2.2⟩
    have hlock : s.vdisk_lock = none := hlock
    rw [hs.1] at hlock
    cases hlock

theorem submit_rule (write : Bool) (idx : Fin NUM × Fin NUM × Fin NUM) :
    (logic P B C).Triple (.proc p) (Held p b (three idx) fun r _ => r = none)
      (.perform (.submit b write idx)) fun _ =>
        Held p b [] fun x _ => ∃ r, x = some r ∧ r.b = b ∧ r.i0 = idx.1 := by
  refine held_act (fun _ _ _ => trivial) fun s i x s' hs hinv hx => ?_
  obtain ⟨⟨avail, work, used, hwf⟩, -⟩ := hinv
  obtain rfl := (Prod.mk.inj (Option.some.inj hx)).2
  obtain ⟨hwf', hfree', hr⟩ := hwf.submit write hs.2.1 hs.2.2.1 hs.2.2.2
  refine ⟨⟨⟨_, _, _, hwf'⟩, fun _ => hfree'⟩, fun q hq => ?_, rfl, hs.1, hfree', hr, hs.2.2.2⟩
  exact Function.update_of_ne hq ..

theorem busy_rule {ρ : Option (Request B) → Prop} :
    (logic P B C).Triple (.proc p) (Held p b [] fun r _ => ρ r) (.perform (.busy b)) fun x =>
      Held p b [] fun r f => ρ r ∧ f = x := by
  refine held_act (fun _ _ _ => trivial) fun s i x s' hs hinv hx => ?_
  obtain ⟨rfl, rfl⟩ := Prod.mk.inj (Option.some.inj hx)
  exact ⟨hinv, fun _ _ => rfl, rfl, hs.1, hs.2.1, ⟨hs.2.2.1, rfl⟩, hs.2.2.2⟩

theorem finish_rule (i0 : Fin NUM) :
    (logic P B C).Triple (.proc p)
      (Held p b [] fun x f => (∃ r, x = some r ∧ r.b = b ∧ r.i0 = i0) ∧ f = false)
      (.perform (.finish i0)) fun _ => Held p b [] fun r _ => r = none := by
  refine held_act (fun s hs hinv => ?_) fun s i x s' hs hinv hx => ?_
  · obtain ⟨⟨avail, work, used, hwf⟩, -⟩ := hinv
    obtain ⟨-, hfree, ⟨⟨r, hr, rfl, rfl⟩, hclear⟩, -⟩ := hs
    obtain ⟨s', hok, -, -, -, -, -, -, hback⟩ := hwf.finish hfree hr hclear
    refine ⟨p, r, s', rfl, hr, rfl, ?_, hok, hback⟩
    cases hdone : s.done p with
    | true => rfl
    | false =>
      have hflag := (hwf.flag_iff hr).2 (.inl hdone)
      rw [hclear] at hflag
      cases hflag
  · obtain ⟨⟨avail, work, used, hwf⟩, -⟩ := hinv
    obtain ⟨hlock, hfree, ⟨⟨r, hr, rfl, rfl⟩, hclear⟩, hholder⟩ := hs
    obtain ⟨s'', hok, hwf', hfree', hrequests, hholder', -, hlock', -⟩ :=
      hwf.finish hfree hr hclear
    have hx : (ok (finish p r.i0 s)).map (fun s => ((), s)) = some (x, s') := hx
    rw [hok] at hx
    obtain rfl := (Prod.mk.inj (Option.some.inj hx)).2
    refine ⟨⟨⟨_, _, _, hwf'⟩, fun _ => hfree'⟩, fun q hq => ?_, hholder', ?_, hfree', ?_, ?_⟩
    · rw [hrequests, Function.update_of_ne hq]
    · rw [hlock', hlock]
    · rw [hrequests, Function.update_self]
    · rw [hholder', hholder]

theorem virtio_disk_rw_rule (write : Bool) :
    (logic P B C).Triple (.proc p) (Own p b (· = none)) (virtio_disk_rw b write) fun _ =>
      Own p b (· = none) := by
  refine acquire_rule.bind fun _ => ?_
  refine Triple.bind (R := fun idx => Held p b (three idx) fun r _ => r = none)
    (Triple.loop (fun _ => Held p b [] fun r _ => r = none) (fun _ => held_stable) fun _ => ?_)
    fun idx => ?_
  · refine alloc3_rule.bind fun x => ?_
    cases x with
    | none => exact (sleep_rule .free (· = none) fun _ _ h => h).bind fun _ s hs => hs
    | some idx => exact fun s hs => hs
  · refine (submit_rule write idx).bind fun _ => ?_
    refine Triple.bind (R := fun _ => Held p b [] fun x f =>
        (∃ r, x = some r ∧ r.b = b ∧ r.i0 = idx.1) ∧ f = false)
      (Triple.loop (fun _ => Held p b [] fun x _ => ∃ r, x = some r ∧ r.b = b ∧ r.i0 = idx.1)
        (fun _ => held_stable) fun _ => ?_) fun _ => ?_
    · refine busy_rule.bind fun isbusy => ?_
      cases isbusy with
      | true =>
        refine Triple.ite (fun _ => ?_) fun h => absurd rfl h
        exact (sleep_rule (.buf b) (fun x => ∃ r, x = some r ∧ r.b = b ∧ r.i0 = idx.1)
          fun _ _ h => h.1).bind fun _ s hs => hs
      | false => exact Triple.ite (fun h => Bool.noConfusion h) fun _ s hs => hs
    · exact (finish_rule idx.1).bind fun _ => unlock_rule (fun _ _ h => h) (.inl rfl)

/-! ## The operations of a handler and of the device -/

/-- A handler has the lock. -/
def Handling (c : C) (s : State P B C) : Prop := s.vdisk_lock = some (.intr c) ∧ FreeBut s []

theorem handling_stable : (logic P B C).Stable (.intr c) (Handling c) := by
  refine stable_of_guarantee (fun _ _ => rfl) fun u s s' hu _ hg hs => ?_
  obtain ⟨hlock, hfree, hrequests, -⟩ := hg.locked _ (Ne.symm hu) hs.1
  exact ⟨hlock, hs.2.congr hfree hrequests⟩

theorem true_stable {t : Thread P C} : (logic P B C).Stable t fun _ => True :=
  fun _ _ _ _ => trivial

theorem turn_rule :
    (logic P B C).Triple (.intr c) (Handling c) (.perform .turn) fun _ => Handling c := by
  refine Triple.act (fun _ _ => rfl) handling_stable (fun s hs hinv _ => ?_)
    fun s i x s' hs hinv _ hx => ?_
  · obtain ⟨⟨avail, work, used, hwf⟩, -⟩ := hinv
    obtain ⟨more, s', hok, -, -, -, -, -, hlast, hclear⟩ := hwf.turn
    refine ⟨more, s', hok, fun b hb hb' => ?_, fun hmore p r hr hdone => ?_⟩
    · cases more with
      | false =>
        rw [(hlast rfl).2, hb] at hb'
        cases hb'
      | true =>
        obtain ⟨p, r, hr, -, hused, hbdisk⟩ := hclear rfl
        rw [hbdisk] at hb'
        have heq : b = r.b := by
          by_contra hne
          rw [Function.update_of_ne hne, hb] at hb'
          cases hb'
        refine ⟨p, r, hr, heq.symm, (hwf.done p r hr).2 fun hmem => ?_⟩
        exact (List.nodup_append.1 hwf.nodup).2.2 _ hmem _ hused rfl
    · obtain ⟨hnil, rfl⟩ := hlast hmore
      refine Bool.eq_false_iff.2 fun hflag => ?_
      rcases (hwf.flag_iff hr).1 hflag with hnot | hunread
      · rw [hdone] at hnot
        cases hnot
      · rw [hwf.unread_iff, hnil] at hunread
        cases hunread
  · obtain ⟨⟨avail, work, used, hwf⟩, -⟩ := hinv
    obtain ⟨more, s'', hok, ⟨used', hwf'⟩, hfree, hrequests, hholder, hlock, -⟩ := hwf.turn
    have hx : ok (virtio_disk_intr_turn s) = some (x, s') := hx
    rw [hok] at hx
    obtain ⟨rfl, rfl⟩ := Prod.mk.inj (Option.some.inj hx)
    have hfree' := hs.2.congr hfree hrequests
    refine ⟨.of_lock hs.1 ⟨⟨_, _, _, hwf'⟩, fun _ => hfree'⟩ (fun q _ => by rw [hrequests])
      hholder, hlock.trans hs.1, hfree'⟩

theorem virtio_disk_intr_rule :
    (logic P B C).Triple (.intr c) (fun _ => True) virtio_disk_intr fun _ _ => True := by
  refine Triple.bind (R := fun _ => Handling c) ?_ fun _ =>
    Triple.bind (R := fun _ => Handling c) ?_ fun _ => ?_
  · refine Triple.act (fun _ _ => rfl) true_stable (fun _ _ _ _ => trivial)
      fun s i x s' _ hinv _ hx => ?_
    have hx : (if s.vdisk_lock = none then some ((), { s with vdisk_lock := some (.intr c) })
      else none) = some (x, s') := hx
    by_cases hlock : s.vdisk_lock = none
    · rw [if_pos hlock] at hx
      obtain rfl := (Prod.mk.inj (Option.some.inj hx)).2
      obtain ⟨⟨avail, work, used, hwf⟩, hfree⟩ := hinv
      have hwf' : Wf { s with vdisk_lock := some (.intr c) } avail work used :=
        hwf.congr rfl rfl rfl rfl rfl fun q r hr => (hwf.placed q r hr).holder
      refine ⟨⟨fun _ => ⟨⟨_, _, _, hwf'⟩, fun h => by cases h⟩, fun _ _ => rfl,
        fun _ _ _ hb => hb, fun u _ hu => ?_⟩, rfl, (hfree hlock).congr rfl rfl⟩
      rw [hlock] at hu
      cases hu
    · rw [if_neg hlock] at hx
      cases hx
  · refine Triple.loop (fun _ => Handling c) (fun _ => handling_stable) fun _ => ?_
    refine turn_rule.bind fun more => ?_
    exact Triple.ite (fun _ s hs => hs) fun _ s hs => hs
  · refine Triple.act (fun _ _ => rfl) handling_stable (fun _ _ _ _ => trivial)
      fun s i x s' hs hinv _ hx => ?_
    obtain rfl := (Prod.mk.inj (Option.some.inj hx)).2
    obtain ⟨⟨avail, work, used, hwf⟩, -⟩ := hinv
    have hwf' : Wf { s with vdisk_lock := none } avail work used :=
      hwf.congr rfl rfl rfl rfl rfl fun q r hr => (hwf.placed q r hr).holder
    exact ⟨.of_lock hs.1 ⟨⟨_, _, _, hwf'⟩, fun _ => hs.2.congr rfl rfl⟩ (fun _ _ => rfl) rfl,
      trivial⟩

/-- The device keeps what the driver relies on. -/
theorem device_rule :
    (logic P B C).Triple .device (fun _ => True) (.perform .device) fun _ _ => True := by
  refine Triple.act (fun _ _ => rfl) true_stable (fun _ _ _ _ => trivial)
    fun s i x s' _ _ _ hx => ⟨?_, trivial⟩
  have hstep : ((∃ avail work used, Wf s avail work used) → ∃ avail work used,
        Wf s' avail work used) ∧ s'.disk.free = s.disk.free ∧ s'.requests = s.requests ∧
      s'.holder = s.holder ∧ s'.vdisk_lock = s.vdisk_lock ∧ s'.disk.bdisk = s.disk.bdisk := by
    cases i with
    | fetch =>
      obtain ⟨s'', hfetch, heq⟩ := Option.map_eq_some_iff.1 hx
      obtain rfl := (Prod.mk.inj heq).2
      refine ⟨?_, ?_⟩
      · rintro ⟨avail, work, used, hwf⟩
        obtain ⟨_, _, hwf'⟩ := hwf.fetch hfetch
        exact ⟨_, _, _, hwf'⟩
      · unfold fetch at hfetch
        by_cases hempty : s.fetched = s.disk.availIdx
        · rw [if_pos hempty] at hfetch
          cases hfetch
        · rw [if_neg hempty] at hfetch
          obtain rfl := Option.some.inj hfetch
          exact ⟨rfl, rfl, rfl, rfl, rfl⟩
    | complete k =>
      obtain ⟨s'', hcomplete, heq⟩ := Option.map_eq_some_iff.1 hx
      obtain rfl := (Prod.mk.inj heq).2
      refine ⟨?_, ?_⟩
      · rintro ⟨avail, work, used, hwf⟩
        obtain ⟨_, hwf'⟩ := hwf.complete hcomplete
        exact ⟨_, _, _, hwf'⟩
      · unfold complete at hcomplete
        cases hget : s.pending[k]? with
        | none =>
          rw [hget] at hcomplete
          cases hcomplete
        | some e =>
          rw [hget] at hcomplete
          obtain rfl := Option.some.inj hcomplete
          obtain ⟨hfree, hbdisk⟩ := storeStatus_driver s.disk e.2.chain
          exact ⟨hfree, rfl, rfl, rfl, hbdisk⟩
    | call c => cases hx
  obtain ⟨hwf, hfree, hrequests, hholder, hlock, hbdisk⟩ := hstep
  refine ⟨fun hinv => ⟨hwf hinv.1, fun hnone => ?_⟩, fun q _ => by rw [hrequests],
    fun q b _ hb => by rw [hholder, hb], fun u _ hu => ⟨by rw [hlock, hu], hfree, hrequests, hbdisk⟩⟩
  rw [hlock] at hnone
  exact (hinv.2 hnone).congr hfree hrequests

/-! ## Every run -/

theorem idle_stable : (logic P B C).Stable (.proc p) fun s => s.requests p = none :=
  stable_of_guarantee (fun _ _ => rfl) fun _ _ _ hu _ hg hs => (hg.requests p hu).trans hs

/-- A process takes a buffer that nobody has, or gives one back. -/
theorem next_rule :
    (logic P B C).Triple (.proc p) (fun s => s.requests p = none) (.perform .next) fun c s =>
      s.requests p = none ∧ ∀ b write, c = .rw b write → s.holder b = some p := by
  refine Triple.act (fun _ _ => rfl) idle_stable (fun _ _ _ _ => trivial)
    fun s i x s' hs _ _ hx => ?_
  cases i with
  | call c =>
    obtain ⟨s'', hbegin, heq⟩ := Option.map_eq_some_iff.1 hx
    obtain ⟨rfl, rfl⟩ := Prod.mk.inj heq
    cases c with
    | take b blockno =>
      have hbegin : (if s.holder b = none then _ else _) = some s'' := hbegin
      by_cases hb : s.holder b = none
      · rw [if_pos hb] at hbegin
        obtain rfl := Option.some.inj hbegin
        have hkeep : ∀ q c, s.holder c = some q →
            Function.update s.holder b (some p) c = some q := by
          intro q c hc
          rw [Function.update_of_ne]
          · exact hc
          · rintro rfl
            rw [hb] at hc
            cases hc
        refine ⟨⟨fun hinv => ?_, fun _ _ => rfl, fun q c _ hc => hkeep q c hc,
          fun u _ hu => ⟨hu, rfl, rfl, rfl⟩⟩, hs, fun _ _ h => by cases h⟩
        obtain ⟨⟨avail, work, used, hwf⟩, hfree⟩ := hinv
        exact ⟨⟨_, _, _, hwf.congr rfl rfl rfl rfl rfl fun q r hr =>
          hkeep q r.b (hwf.placed q r hr).holder⟩, fun hlock => (hfree hlock).congr rfl rfl⟩
      · rw [if_neg hb] at hbegin
        cases hbegin
    | drop b =>
      have hbegin : (if s.holder b = some p then _ else _) = some s'' := hbegin
      by_cases hb : s.holder b = some p
      · rw [if_pos hb] at hbegin
        obtain rfl := Option.some.inj hbegin
        have hkeep : ∀ q c, q ≠ p → s.holder c = some q →
            Function.update s.holder b none c = some q := by
          intro q c hq hc
          rw [Function.update_of_ne]
          · exact hc
          · rintro rfl
            rw [hb] at hc
            exact hq (Option.some.inj hc).symm
        refine ⟨⟨fun hinv => ?_, fun _ _ => rfl, fun q c hq hc =>
          hkeep q c (fun heq => hq (heq ▸ rfl)) hc, fun u _ hu => ⟨hu, rfl, rfl, rfl⟩⟩, hs,
          fun _ _ h => by cases h⟩
        obtain ⟨⟨avail, work, used, hwf⟩, hfree⟩ := hinv
        refine ⟨⟨_, _, _, hwf.congr rfl rfl rfl rfl rfl fun q r hr => ?_⟩,
          fun hlock => (hfree hlock).congr rfl rfl⟩
        refine hkeep q r.b ?_ (hwf.placed q r hr).holder
        rintro rfl
        rw [hs] at hr
        cases hr
      · rw [if_neg hb] at hbegin
        cases hbegin
    | rw b write =>
      have hbegin : (if s.holder b = some p then _ else _) = some s'' := hbegin
      by_cases hb : s.holder b = some p
      · rw [if_pos hb] at hbegin
        obtain rfl := Option.some.inj hbegin
        refine ⟨⟨fun h => h, fun _ _ => rfl, fun _ _ _ h => h, fun u _ hu => ⟨hu, rfl, rfl, rfl⟩⟩,
          hs, fun b' write' h => ?_⟩
        cases h
        exact hb
      · rw [if_neg hb] at hbegin
        cases hbegin
  | fetch => cases hx
  | complete k => cases hx

theorem main_ok (t : Thread P C) : (logic P B C).Ok t (main B t) (.init P B C) := by
  cases t with
  | proc p =>
    refine wp_mono (Q := fun _ _ => False) (fun a _ h => h.elim) ?_
    refine Triple.forever (J := fun s => s.requests p = none) idle_stable
      (next_rule.bind fun c => ?_) _ rfl
    cases c with
    | rw b write =>
      refine Triple.conseq (virtio_disk_rw_rule (b := b) write) (fun s hs => ?_) fun _ s hs => hs.1
      exact ⟨hs.1, hs.2 b write rfl⟩
    | take b blockno => exact fun s hs => hs.1
    | drop b => exact fun s hs => hs.1
  | intr c =>
    exact wp_mono (Q := fun _ _ => False) (fun a _ h => h.elim)
      (Triple.forever true_stable virtio_disk_intr_rule _ trivial)
  | device =>
    exact wp_mono (Q := fun _ _ => False) (fun a _ h => h.elim)
      (Triple.forever true_stable device_rule _ trivial)

omit [DecidableEq P] [DecidableEq B] [DecidableEq C] in
theorem inv_init : Inv (State.init P B C) := by
  refine ⟨⟨[], [], [], ?_⟩, fun _ => ⟨List.nodup_nil, fun _ h => absurd h List.not_mem_nil,
    fun i => ⟨fun _ => ⟨List.not_mem_nil, fun p r hr => by cases hr⟩, fun _ => rfl⟩⟩⟩
  exact {
    availRing := .empty _ _
    usedRing := .empty _ _
    pending := rfl
    nodup := List.nodup_nil
    live := fun j => ⟨fun hj => absurd hj List.not_mem_nil, fun ⟨p, r, hr, _⟩ => by cases hr⟩
    flag := fun b hb => Bool.noConfusion hb
    placed := fun p r hr => by cases hr
    disjoint := fun p q r r' hr => by cases hr
    seen := fun e he => absurd he List.not_mem_nil
    done := fun p r hr => by cases hr
    info := fun p r hr => by cases hr
    status := fun j hj => absurd hj List.not_mem_nil }

end logic

/-- Two processes read a block each, and the device has one of the requests. -/
def twoReads : List (Thread (Fin 2) Unit × Input Bool) :=
  let reads (p : Fin 2) (b : Bool) : List (Thread (Fin 2) Unit × Input Bool) :=
    [(.proc p, .fetch), (.proc p, .call (.take b 5)), (.proc p, .fetch),
      (.proc p, .call (.rw b false))] ++ List.replicate 7 (.proc p, .fetch)
  reads 0 true ++ reads 1 false ++ [(.device, .fetch), (.device, .fetch)]

end Xv6.Virtio
