import Xv6.Virtio.Code
import Xv6.Conc.Guarantee
import Xv6.Ring.Fifo

/-!
# What the driver and the device keep

The chains of the requests in flight are in three places: posted and not yet
fetched, in the device, or completed and not yet seen by the driver.  Both
rings hold exactly the heads of the chains that are there.
-/

namespace Xv6.Virtio

open Conc Conc.Logic

variable {P B C : Type}

theorem fits_NUM : Ring.Fits NUM 16 := ⟨by decide, by decide⟩

def u32 (i : Fin NUM) : I32 := BitVec.ofNat 32 i

theorem u16_toNat (i : Fin NUM) : (u16 i).toNat = i := by
  unfold u16
  rw [BitVec.toNat_ofNat]
  exact Nat.mod_eq_of_lt (Nat.lt_trans i.isLt (by decide))

theorem u32_toNat (i : Fin NUM) : (u32 i).toNat = i := by
  unfold u32
  rw [BitVec.toNat_ofNat]
  exact Nat.mod_eq_of_lt (Nat.lt_trans i.isLt (by decide))

theorem u16_inj {i j : Fin NUM} (h : u16 i = u16 j) : i = j := by
  apply Fin.ext
  rw [← u16_toNat i, ← u16_toNat j, h]

theorem setWidth_u16 (i : Fin NUM) : (u16 i).setWidth 32 = u32 i := by
  apply BitVec.eq_of_toNat_eq
  rw [BitVec.toNat_setWidth, u16_toNat, u32_toNat]
  exact Nat.mod_eq_of_lt (Nat.lt_trans i.isLt (by decide))

theorem index_u32 (i : Fin NUM) : index (u32 i).toNat = .ok i := by
  unfold index
  rw [u32_toNat, dif_pos i.isLt]

theorem index_u16 (i : Fin NUM) : index (u16 i).toNat = .ok i := by
  unfold index
  rw [u16_toNat, dif_pos i.isLt]

/-! ## Requests in flight -/

def Request.idx (r : Request B) : List (Fin NUM) := [r.i0, r.i1, r.i2]

theorem Request.mem0 (r : Request B) : r.i0 ∈ r.idx := List.mem_cons_self ..

theorem Request.mem1 (r : Request B) : r.i1 ∈ r.idx := List.mem_cons_of_mem _ (List.mem_cons_self ..)

theorem Request.mem2 (r : Request B) : r.i2 ∈ r.idx :=
  List.mem_cons_of_mem _ (List.mem_cons_of_mem _ (List.mem_cons_self ..))

theorem Request.ne_of_nodup {r : Request B} (h : r.idx.Nodup) :
    r.i0 ≠ r.i1 ∧ r.i0 ≠ r.i2 ∧ r.i1 ≠ r.i2 := by
  simp only [Request.idx, List.nodup_cons, List.mem_cons, List.not_mem_nil, or_false, not_or] at h
  exact ⟨h.1.1, h.1.2, h.2.1⟩

theorem Request.i0_ne {r r' : Request B} (h : r.idx.Disjoint r'.idx) : r.i0 ≠ r'.i0 := by
  intro heq
  refine h r.mem0 ?_
  rw [heq]
  exact r'.mem0

def Request.chain (r : Request B) : List (VirtqDesc B) := [r.desc0, r.desc1, r.desc2]

/-- What the device has to see of a request. -/
def Request.seen (r : Request B) : Seen B := ⟨some r.header, r.chain⟩

/-- A request of `p` has its descriptors, and they say what it asks for. -/
structure Placed (s : State P B C) (p : P) (r : Request B) : Prop where
  nodup : r.idx.Nodup
  free : ∀ i ∈ r.idx, s.disk.free i = false
  desc0 : s.disk.desc r.i0 = r.desc0
  desc1 : s.disk.desc r.i1 = r.desc1
  desc2 : s.disk.desc r.i2 = r.desc2
  header : s.disk.ops r.i0 = r.header
  holder : s.holder r.b = some p

theorem Placed.congr {s s' : State P B C} {p : P} {r : Request B} (h : Placed s p r)
    (hfree : s'.disk.free = s.disk.free) (hdesc : s'.disk.desc = s.disk.desc)
    (hops : s'.disk.ops = s.disk.ops) (hholder : s'.holder r.b = some p) : Placed s' p r where
  nodup := h.nodup
  free := by
    rw [hfree]
    exact h.free
  desc0 := by rw [hdesc, h.desc0]
  desc1 := by rw [hdesc, h.desc1]
  desc2 := by rw [hdesc, h.desc2]
  header := by rw [hops, h.header]
  holder := hholder

theorem desc1_next (r : Request B) : r.desc1.flags &&& VRING_DESC_F_NEXT ≠ 0 := by
  show ((if r.write then 0 else VRING_DESC_F_WRITE) ||| VRING_DESC_F_NEXT) &&&
    VRING_DESC_F_NEXT ≠ 0
  cases r.write <;> decide

theorem desc0_next (r : Request B) : r.desc0.flags &&& VRING_DESC_F_NEXT ≠ 0 := by
  show VRING_DESC_F_NEXT &&& VRING_DESC_F_NEXT ≠ 0
  decide

theorem desc2_next (r : Request B) : ¬ r.desc2.flags &&& VRING_DESC_F_NEXT ≠ 0 := by
  show ¬ VRING_DESC_F_WRITE &&& VRING_DESC_F_NEXT ≠ 0
  decide

theorem Disk.chain_u16 (d : Disk B) (n : Nat) (i : Fin NUM) :
    d.chain (n + 1) (u16 i) =
      if (d.desc i).flags &&& VRING_DESC_F_NEXT ≠ 0 then d.desc i :: d.chain n (d.desc i).next
      else [d.desc i] := by
  have hi : (⟨(u16 i).toNat, (u16_toNat i).symm ▸ i.isLt⟩ : Fin NUM) = i := Fin.ext (u16_toNat i)
  conv =>
    lhs
    unfold Disk.chain
  rw [dif_pos ((u16_toNat i).symm ▸ i.isLt), hi]

/-- The device sees the request. -/
theorem Placed.look {s : State P B C} {p : P} {r : Request B} (h : Placed s p r) :
    s.disk.look (u16 r.i0) = r.seen := by
  have hchain : s.disk.chain NUM (u16 r.i0) = r.chain := by
    rw [Disk.chain_u16, h.desc0, if_pos (desc0_next r)]
    show r.desc0 :: s.disk.chain 7 (u16 r.i1) = r.chain
    rw [Disk.chain_u16, h.desc1, if_pos (desc1_next r)]
    show r.desc0 :: r.desc1 :: s.disk.chain 6 (u16 r.i2) = r.chain
    rw [Disk.chain_u16, h.desc2, if_neg (desc2_next r)]
    rfl
  unfold Disk.look
  rw [hchain]
  show Seen.mk (some (s.disk.ops r.i0)) r.chain = r.seen
  rw [h.header]
  rfl

/-- The chains of the requests in flight: `avail` are posted, `work` are in
the device, `used` are completed and not yet seen. -/
structure Wf (s : State P B C) (avail work used : List (Fin NUM)) : Prop where
  availRing : Ring.Holds s.disk.availRing s.fetched s.disk.availIdx (avail.map u16)
  usedRing : Ring.Holds s.disk.usedRing s.disk.used_idx s.disk.usedIdx (used.map u32)
  pending : s.pending.map Prod.fst = work.map u16
  nodup : (avail ++ work ++ used).Nodup
  live : ∀ h, h ∈ avail ++ work ++ used ↔
    ∃ p r, s.requests p = some r ∧ r.i0 = h ∧ s.disk.bdisk r.b = true
  flag : ∀ b, s.disk.bdisk b = true → ∃ p r, s.requests p = some r ∧ r.b = b
  placed : ∀ p r, s.requests p = some r → Placed s p r
  disjoint : ∀ p q r r', s.requests p = some r → s.requests q = some r' → p ≠ q →
    r.idx.Disjoint r'.idx
  seen : ∀ e ∈ s.pending, ∃ p r, s.requests p = some r ∧ e = (u16 r.i0, r.seen)
  done : ∀ p r, s.requests p = some r → (s.done p = true ↔ r.i0 ∉ avail ++ work)
  info : ∀ p r, s.requests p = some r → s.disk.bdisk r.b = true →
    (s.disk.info r.i0).b = some r.b
  status : ∀ h ∈ used, (s.disk.info h).status = 0

/-- No request has the descriptors `mine`; of the others those are free that
no request has. -/
structure FreeBut (s : State P B C) (mine : List (Fin NUM)) : Prop where
  nodup : mine.Nodup
  apart : ∀ i ∈ mine, ∀ p r, s.requests p = some r → i ∉ r.idx
  free_iff : ∀ i, s.disk.free i = true ↔ i ∉ mine ∧ ∀ p r, s.requests p = some r → i ∉ r.idx

def Inv (s : State P B C) : Prop :=
  (∃ avail work used, Wf s avail work used) ∧ (s.vdisk_lock = none → FreeBut s [])

section wf

variable {s s' : State P B C} {avail work used : List (Fin NUM)}

/-- Requests of different processes have different heads. -/
theorem Wf.i0_ne (h : Wf s avail work used) {p q : P} {r r' : Request B}
    (hr : s.requests p = some r) (hr' : s.requests q = some r') (hne : p ≠ q) : r.i0 ≠ r'.i0 :=
  Request.i0_ne (h.disjoint p q r r' hr hr' hne)

/-- They are about different buffers. -/
theorem Wf.b_ne (h : Wf s avail work used) {p q : P} {r r' : Request B}
    (hr : s.requests p = some r) (hr' : s.requests q = some r') (hne : p ≠ q) : r.b ≠ r'.b := by
  intro heq
  have hp := (h.placed p r hr).holder
  rw [heq, (h.placed q r' hr').holder] at hp
  exact hne (Option.some.inj hp).symm

/-- The head of a request is live while the flag of its buffer is set. -/
theorem Wf.live_iff (h : Wf s avail work used) {p : P} {r : Request B}
    (hr : s.requests p = some r) :
    r.i0 ∈ avail ++ work ++ used ↔ s.disk.bdisk r.b = true := by
  constructor
  · intro hmem
    obtain ⟨q, r', hr', hi0, hflag⟩ := (h.live r.i0).1 hmem
    by_cases hne : q = p
    · subst hne
      obtain rfl := Option.some.inj (hr.symm.trans hr')
      exact hflag
    · exact absurd hi0 (h.i0_ne hr' hr hne)
  · exact fun hflag => (h.live r.i0).2 ⟨p, r, hr, rfl, hflag⟩

theorem Wf.length_le (h : Wf s avail work used) :
    avail.length + work.length + used.length ≤ NUM := by
  have hle := h.nodup.length_le_card
  rw [Fintype.card_fin, List.length_append, List.length_append] at hle
  exact hle

/-- Where the driver and the device have not been. -/
theorem Wf.congr (h : Wf s avail work used) (hdisk : s'.disk = s.disk)
    (hfetched : s'.fetched = s.fetched) (hpending : s'.pending = s.pending)
    (hrequests : s'.requests = s.requests) (hdone : s'.done = s.done)
    (hholder : ∀ p r, s.requests p = some r → s'.holder r.b = some p) :
    Wf s' avail work used where
  availRing := by
    rw [hdisk, hfetched]
    exact h.availRing
  usedRing := by
    rw [hdisk]
    exact h.usedRing
  pending := by
    rw [hpending]
    exact h.pending
  nodup := h.nodup
  live := by
    rw [hrequests, hdisk]
    exact h.live
  flag := by
    rw [hrequests, hdisk]
    exact h.flag
  placed p r hr := by
    rw [hrequests] at hr
    refine (h.placed p r hr).congr ?_ ?_ ?_ (hholder p r hr)
    all_goals rw [hdisk]
  disjoint := by
    rw [hrequests]
    exact h.disjoint
  seen := by
    rw [hpending, hrequests]
    exact h.seen
  done := by
    rw [hrequests, hdone]
    exact h.done
  info := by
    rw [hrequests, hdisk]
    exact h.info
  status := by
    rw [hdisk]
    exact h.status

end wf

end Xv6.Virtio
