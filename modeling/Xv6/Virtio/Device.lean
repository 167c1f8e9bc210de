import Xv6.Virtio.Rules
import Mathlib.Data.List.Perm.Basic

/-!
# What the device does

The device moves a chain from the ring of available chains to its own, and
from there to the ring of used chains.
-/

namespace Xv6.Virtio

open Conc

variable {P B C : Type} {s s' : State P B C} {avail work used : List (Fin NUM)}

/-- The device fetches the oldest posted chain, and sees the request. -/
theorem Wf.fetch (h : Wf s avail work used) (hx : fetch s = some s') :
    ∃ i avail', Wf s' avail' (work ++ [i]) used := by
  unfold Virtio.fetch at hx
  by_cases hempty : s.fetched = s.disk.availIdx
  · rw [if_pos hempty] at hx
    cases hx
  · rw [if_neg hempty] at hx
    obtain rfl := Option.some.inj hx
    cases avail with
    | nil => exact absurd (h.availRing.eq_iff.2 rfl) hempty
    | cons i avail' =>
      obtain ⟨hhead, hrest⟩ := h.availRing.pop fits_NUM
      have hperm : (avail' ++ (work ++ [i]) ++ used).Perm (i :: avail' ++ work ++ used) := by
        refine List.perm_iff_count.2 fun a => ?_
        simp only [List.count_append, List.count_cons, List.count_nil]
        omega
      have hmem : i ∈ i :: avail' ++ work ++ used := List.mem_cons_self ..
      obtain ⟨p, r, hr, rfl, -⟩ := (h.live i).1 hmem
      have hhead : s.disk.availRing (slot s.fetched) = u16 r.i0 := hhead
      refine ⟨r.i0, avail', ?_⟩
      exact {
        availRing := hrest
        usedRing := h.usedRing
        pending := by
          show (s.pending ++ [_]).map Prod.fst = _
          rw [List.map_append, List.map_append, h.pending, hhead]
          rfl
        nodup := hperm.nodup_iff.2 h.nodup
        live := fun j => hperm.mem_iff.trans (h.live j)
        flag := h.flag
        placed := fun q r' hr' => (h.placed q r' hr').congr rfl rfl rfl (h.placed q r' hr').holder
        disjoint := h.disjoint
        seen := fun e he => by
          rcases List.mem_append.1 he with he | he
          · exact h.seen e he
          · obtain rfl := List.mem_singleton.1 he
            refine ⟨p, r, hr, ?_⟩
            rw [hhead, (h.placed p r hr).look]
        done := fun q r' hr' => by
          refine (h.done q r' hr').trans (not_congr ?_)
          simp only [List.mem_append, List.mem_cons, List.not_mem_nil]
          tauto
        info := h.info
        status := h.status }

theorem storeStatus_request (d : Disk B) (r : Request B) :
    d.storeStatus r.seen.chain =
      { d with info := fun j => if j = r.i0 then { d.info r.i0 with status := 0 } else d.info j } :=
  rfl

/-- The device stores into the driver's memory, not into its book-keeping. -/
theorem storeStatus_driver (d : Disk B) (chain : List (VirtqDesc B)) :
    (d.storeStatus chain).free = d.free ∧ (d.storeStatus chain).bdisk = d.bdisk := by
  unfold Disk.storeStatus
  split <;> exact ⟨rfl, rfl⟩

/-- The device completes one of its chains. -/
theorem Wf.complete {k : Nat} (h : Wf s avail work used) (hx : complete k s = some s') :
    ∃ i, Wf s' avail (work.eraseIdx k) (used ++ [i]) := by
  unfold Virtio.complete at hx
  cases hget : s.pending[k]? with
  | none =>
    rw [hget] at hx
    cases hx
  | some e =>
    rw [hget] at hx
    obtain ⟨p, r, hr, rfl⟩ := h.seen e (List.mem_of_getElem? hget)
    have hx : some _ = some s' := hx
    rw [storeStatus_request] at hx
    obtain rfl := Option.some.inj hx
    have hwork : work[k]? = some r.i0 := by
      have hmap := congrArg (fun l => l[k]?) h.pending
      simp only [List.getElem?_map, hget, Option.map_some] at hmap
      obtain ⟨i, hi, hu⟩ := Option.map_eq_some_iff.1 hmap.symm
      rw [hi, u16_inj hu]
    obtain ⟨hk, hi⟩ := List.getElem?_eq_some_iff.1 hwork
    have herase : work.Perm (r.i0 :: work.eraseIdx k) := by
      rw [← hi]
      exact (List.getElem_cons_eraseIdx_perm hk).symm
    have hperm : (avail ++ work.eraseIdx k ++ (used ++ [r.i0])).Perm (avail ++ work ++ used) := by
      refine List.perm_iff_count.2 fun a => ?_
      have hcount := List.perm_iff_count.1 herase a
      simp only [List.count_append, List.count_cons, List.count_nil] at hcount ⊢
      omega
    have hnodup := hperm.nodup_iff.2 h.nodup
    have hlive : r.i0 ∈ avail ++ work ++ used :=
      hperm.mem_iff.1 (List.mem_append_right _
        (List.mem_append_right _ (List.mem_singleton_self _)))
    have hout : r.i0 ∉ avail ++ work.eraseIdx k := fun hmem =>
      (List.nodup_append.1 hnodup).2.2 _ hmem _
        (List.mem_append_right _ (List.mem_singleton_self _)) rfl
    have hroom : (used.map u32).length < NUM := by
      have hle := h.length_le
      have hlt : k < work.length := hk
      rw [List.length_map]
      omega
    have hpush := h.usedRing.push fits_NUM hroom (u32 r.i0)
    refine ⟨r.i0, ?_⟩
    exact {
      availRing := h.availRing
      usedRing := by
        rw [List.map_append]
        show Ring.Holds (fun j => if j = slot s.disk.usedIdx then (u16 r.i0).setWidth 32 else
          s.disk.usedRing j) s.disk.used_idx (s.disk.usedIdx + 1) _
        rw [setWidth_u16]
        exact hpush
      pending := by
        show (s.pending.eraseIdx k).map Prod.fst = _
        rw [← List.eraseIdx_map, ← List.eraseIdx_map, h.pending]
      nodup := hnodup
      live := fun j => hperm.mem_iff.trans (h.live j)
      flag := h.flag
      placed := fun q r' hr' => (h.placed q r' hr').congr rfl rfl rfl (h.placed q r' hr').holder
      disjoint := h.disjoint
      seen := fun e he => h.seen e (List.mem_of_mem_eraseIdx he)
      done := fun q r' hr' => by
        show (s.done q || (s.requests q).any fun x => u16 x.i0 == u16 r.i0) = true ↔ _
        rw [show s.requests q = some r' from hr']
        show (s.done q || (u16 r'.i0 == u16 r.i0)) = true ↔ _
        rw [Bool.or_eq_true, h.done q r' hr', beq_iff_eq]
        have hmem : r'.i0 ∈ avail ++ work ↔ r'.i0 = r.i0 ∨ r'.i0 ∈ avail ++ work.eraseIdx k := by
          rw [List.mem_append, List.mem_append, herase.mem_iff, List.mem_cons]
          tauto
        by_cases heq : r'.i0 = r.i0
        · rw [heq]
          exact ⟨fun _ => hout, fun _ => .inr rfl⟩
        · have hne : u16 r'.i0 ≠ u16 r.i0 := fun hu => heq (u16_inj hu)
          rw [hmem]
          tauto
      info := fun q r' hr' hflag => by
        show (if r'.i0 = r.i0 then { s.disk.info r.i0 with status := 0 } else
          s.disk.info r'.i0).b = some r'.b
        by_cases heq : r'.i0 = r.i0
        · rw [if_pos heq, ← heq]
          exact h.info q r' hr' hflag
        · rw [if_neg heq]
          exact h.info q r' hr' hflag
      status := fun j hj => by
        show (if j = r.i0 then { s.disk.info r.i0 with status := 0 } else s.disk.info j).status = 0
        by_cases heq : j = r.i0
        · rw [if_pos heq]
        · rw [if_neg heq]
          rcases List.mem_append.1 hj with hj | hj
          · exact h.status j hj
          · exact absurd (List.mem_singleton.1 hj) heq }

end Xv6.Virtio
