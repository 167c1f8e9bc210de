import Xv6.Fs.Content

/-!
# Truncating a file

`itrunc` gives the blocks of an inode back, one at a time.  In between, the
entries of the indirect block still name blocks that are free, so the bitmap
is compared with the places that remain.
-/

namespace Xv6.Fs

open Run
open Function (update)

variable {sb : Superblock} {first : Nat} {s s' s₁ : State} {ip : Nat} {E : String → Prop}

@[simp] theorem wp_iupdate {Q : Unit → State → Prop} : Wp (iupdate sb ip) Q E s ↔
    Q () { s with
      dinode := update s.dinode ip (s.copy ip), logged := sb.IBLOCK ip :: s.logged } := Iff.rfl

/-- A block of the bitmap. -/
def IsBmap (sb : Superblock) (b : Nat) : Prop := ∃ c < sb.size, b = sb.BBLOCK c

/-- Blocks of `ip` have been freed: it has `addrs` left, and the bitmap agrees
with the places `g`. -/
structure Freed (sb : Superblock) (first ip : Nat) (g : Nat × Nat → Nat) (addrs : Nat → Nat)
    (s s₁ : State) : Prop where
  marks : Pool.Marks first sb.size s₁.bitmap g
  rest : s₁ = { s with
    bitmap := s₁.bitmap
    logged := s₁.logged
    copy := update s.copy ip { s.copy ip with addrs := addrs } }
  logged : ∀ b ∈ s₁.logged, b ∈ s.logged ∨ IsBmap sb b

namespace Freed

variable {g : Nat × Nat → Nat} {addrs : Nat → Nat}

theorem addrs_eq (h : Freed sb first ip g addrs s s₁) : (s₁.copy ip).addrs = addrs := by
  rw [h.rest]
  simp

theorem data_eq (h : Freed sb first ip g addrs s s₁) : s₁.data = s.data := by
  rw [h.rest]

/-- The block in a place goes. -/
theorem bfree {k : Nat} (h : Freed sb first ip g addrs s s₁) (hx : g (ip, k) ≠ 0) :
    Wp (bfree sb (g (ip, k))) (fun _ s₂ => Freed sb first ip (update g (ip, k) 0) addrs s s₂)
      E s₁ := by
  refine (bfree_spec (h.marks.used_of_place hx)).post fun _ s₂ hs => ?_
  subst hs
  refine ⟨h.marks.give hx, ?_, fun b hb => ?_⟩
  · conv_lhs => rw [h.rest]
  · rcases List.mem_cons.1 hb with rfl | hb
    · exact .inr ⟨_, (h.marks.range hx).2, rfl⟩
    · exact h.logged b hb

/-- A place that is empty already. -/
theorem skip {k : Nat} (h : Freed sb first ip g addrs s s₁) (hx : g (ip, k) = 0) :
    Freed sb first ip (update g (ip, k) 0) addrs s s₁ := by
  rwa [← hx, Function.update_eq_self]

theorem setAddr {i : Nat} (h : Freed sb first ip g addrs s s₁) :
    Freed sb first ip g (update addrs i 0) s
      { s₁ with copy := update s₁.copy ip ((s₁.copy ip).setAddr i 0) } := by
  refine ⟨h.marks, ?_, h.logged⟩
  conv_lhs => rw [h.rest]
  simp [Dinode.setAddr]

theorem freeAddr_spec {i : Nat} (h : Freed sb first ip g addrs s s₁) (hg : g (ip, i) = addrs i) :
    Wp (freeAddr sb ip i)
      (fun _ s₂ => Freed sb first ip (update g (ip, i) 0) (update addrs i 0) s s₂) E s₁ := by
  unfold freeAddr
  rw [wp_bind, wp_get]
  show Wp (if (s₁.copy ip).addrs i ≠ 0 then _ else _) _ _ _
  rw [h.addrs_eq, ← hg]
  refine Wp.ite (fun hx => ?_) fun hx => ?_
  · exact (h.bfree hx).bind fun _ s₂ h₂ => h₂.setAddr
  · have hx : g (ip, i) = 0 := not_not.1 hx
    have haddrs : update addrs i 0 = addrs := by rw [← hx, hg, Function.update_eq_self]
    rw [haddrs]
    exact h.skip hx

end Freed

/-- The places of `ip` below `i` are empty. -/
def State.cleared (s : State) (ip i : Nat) : Nat × Nat → Nat := fun x =>
  if x.1 = ip ∧ x.2 ≠ NDIRECT ∧ x.2 < i then 0 else s.slot x

/-- All places of `ip` are empty. -/
def State.emptied (s : State) (ip : Nat) : Nat × Nat → Nat := fun x =>
  if x.1 = ip then 0 else s.slot x

theorem cleared_zero (ip : Nat) : s.cleared ip 0 = s.slot := by
  funext x
  rw [State.cleared, if_neg (by omega)]

theorem cleared_succ {i : Nat} (h : i ≠ NDIRECT) :
    update (s.cleared ip i) (ip, i) 0 = s.cleared ip (i + 1) := by
  funext x
  obtain ⟨j, k⟩ := x
  unfold State.cleared
  by_cases hx : (j, k) = (ip, i)
  · obtain ⟨rfl, rfl⟩ := Prod.mk.inj hx
    rw [Function.update_self, if_pos ⟨rfl, h, Nat.lt_succ_self _⟩]
  · have hiff : j = ip ∧ k ≠ NDIRECT ∧ k < i + 1 ↔ j = ip ∧ k ≠ NDIRECT ∧ k < i := by
      refine and_congr_right fun hj => and_congr_right fun _ => ?_
      have hki : k ≠ i := fun hk => hx (by rw [hj, hk])
      omega
    rw [Function.update_of_ne hx]
    simp only [hiff]

theorem cleared_at {i : Nat} : s.cleared ip i (ip, i) = s.slot (ip, i) := by
  rw [State.cleared, if_neg (by omega)]

/-- The loop over the direct blocks. -/
theorem freeDirect_spec (hl : Locked s ip) (hown : Owned sb first s) :
    Wp ((List.range NDIRECT).forM (freeAddr sb ip))
      (fun _ s₁ => Freed sb first ip (s.cleared ip NDIRECT)
        (fun k => if k < NDIRECT then 0 else (s.copy ip).addrs k) s s₁) E s := by
  refine Wp.forM_range (fun i s₁ => Freed sb first ip (s.cleared ip i)
    (fun k => if k < i then 0 else (s.copy ip).addrs k) s s₁) ?_ fun i hi s₁ h => ?_
  · refine ⟨?_, ?_, fun b hb => .inl hb⟩
    · rw [cleared_zero]
      exact hown
    · simp
  · have haddr : s.slot (ip, i) = (s.copy ip).addrs i := by
      rw [hl.slot_eq, slotOf, if_pos (Nat.le_of_lt hi)]
    refine (h.freeAddr_spec ?_).post fun _ s₂ h₂ => ?_
    · rw [cleared_at, haddr, if_neg (Nat.lt_irrefl i)]
    · have haddrs : update (fun k => if k < i then 0 else (s.copy ip).addrs k) i 0 =
          fun k => if k < i + 1 then 0 else (s.copy ip).addrs k := by
        funext k
        by_cases hk : k = i
        · rw [hk, Function.update_self, if_pos (Nat.lt_succ_self i)]
        · rw [Function.update_of_ne hk]
          simp only [show k < i + 1 ↔ k < i by omega]
      rwa [cleared_succ (by omega), haddrs] at h₂

theorem emptied_of_cleared {n : Nat} (h : ∀ k, n ≤ k → s.slot (ip, k) = 0) :
    update (s.cleared ip n) (ip, NDIRECT) 0 = s.emptied ip := by
  funext x
  obtain ⟨j, k⟩ := x
  unfold State.cleared State.emptied
  by_cases hx : (j, k) = (ip, NDIRECT)
  · obtain ⟨rfl, rfl⟩ := Prod.mk.inj hx
    rw [Function.update_self, if_pos rfl]
  · rw [Function.update_of_ne hx]
    by_cases hj : j = ip
    · subst hj
      have hk : k ≠ NDIRECT := fun hk => hx (by rw [hk])
      rw [if_pos rfl]
      by_cases hlt : k < n
      · rw [if_pos ⟨rfl, hk, hlt⟩]
      · rw [if_neg (by omega), h k (by omega)]
    · rw [if_neg (by simp [hj]), if_neg hj]

theorem cleared_indirect : s.cleared ip (NDIRECT + 1) = s.cleared ip NDIRECT := by
  funext x
  have hiff : x.1 = ip ∧ x.2 ≠ NDIRECT ∧ x.2 < NDIRECT + 1 ↔
      x.1 = ip ∧ x.2 ≠ NDIRECT ∧ x.2 < NDIRECT := by omega
  unfold State.cleared
  simp only [hiff]

theorem slot_of_ge {k : Nat} (hl : Locked s ip) (h : NSLOT ≤ k) : s.slot (ip, k) = 0 := by
  have hslots : NSLOT = NDIRECT + 1 + NINDIRECT := rfl
  rw [hl.slot_eq, slotOf, if_neg (by omega), if_neg (by omega)]

theorem freeIndirect_spec {addrs : Nat → Nat} (hl : Locked s ip)
    (h : Freed sb first ip (s.cleared ip NDIRECT) addrs s s₁)
    (hind : addrs NDIRECT = (s.copy ip).addrs NDIRECT) :
    Wp (freeIndirect sb ip) (fun _ s₂ => Freed sb first ip (s.emptied ip)
      (update addrs NDIRECT 0) s s₂) E s₁ := by
  have hslot : s.slot (ip, NDIRECT) = addrs NDIRECT := by
    rw [hl.slot_eq, slotOf, if_pos (Nat.le_refl _), hind]
  unfold freeIndirect
  rw [wp_bind, wp_get]
  show Wp (if (s₁.copy ip).addrs NDIRECT ≠ 0 then _ else _) _ _ _
  rw [h.addrs_eq, ← hslot]
  refine Wp.ite (fun hne => ?_) fun hzero => ?_
  · -- the entries, and then the block itself
    have hloop : Wp ((List.range NINDIRECT).forM fun j => do
        let a := entry ((← get).data (s.slot (ip, NDIRECT))) j
        if a ≠ 0 then
          bfree sb a)
        (fun _ s₂ => Freed sb first ip (s.cleared ip NSLOT) addrs s s₂) E s₁ := by
      refine (Wp.forM_range (fun j s₂ => Freed sb first ip (s.cleared ip (NDIRECT + 1 + j))
        addrs s s₂) (by rwa [Nat.add_zero, cleared_indirect]) fun j hj s₂ h₂ => ?_)
      have hslots : NSLOT = NDIRECT + 1 + NINDIRECT := rfl
      have hentry : s.slot (ip, NDIRECT + 1 + j) = entry (s.data (s.slot (ip, NDIRECT))) j := by
        rw [hl.slot_eq, slotOf, if_neg (by omega), hslot, hind,
          if_pos ⟨by omega, by rwa [← hind, ← hslot]⟩, Nat.add_sub_cancel_left]
      rw [wp_bind, wp_get, h₂.data_eq, ← hentry, ← cleared_at, ← Nat.add_assoc,
        ← cleared_succ (by omega)]
      refine Wp.ite (fun hx => h₂.bfree hx) fun hx => ?_
      exact h₂.skip (not_not.1 hx)
    refine hloop.bind fun _ s₂ h₂ => ?_
    have hat : s.cleared ip NSLOT (ip, NDIRECT) = s.slot (ip, NDIRECT) := by
      rw [State.cleared, if_neg (by omega)]
    rw [← hat] at hne ⊢
    refine (h₂.bfree hne).bind fun _ s₃ h₃ => ?_
    rw [emptied_of_cleared fun k hk => slot_of_ge hl hk] at h₃
    exact h₃.setAddr
  · have hzero : s.slot (ip, NDIRECT) = 0 := not_not.1 hzero
    have hat : s.cleared ip NDIRECT (ip, NDIRECT) = 0 := by rw [cleared_at, hzero]
    have hskip := h.skip hat
    rw [emptied_of_cleared fun k hk => ?_] at hskip
    · have haddrs : update addrs NDIRECT 0 = addrs := by
        rw [← hzero, hslot, Function.update_eq_self]
      rw [haddrs]
      exact hskip
    · rcases Nat.lt_or_ge NDIRECT k with hlt | hge
      · exact slot_of_no_indirect hl hlt hzero
      · rw [Nat.le_antisymm hge hk, hzero]

/-- What `itrunc` does: all blocks of the inode are given back. -/
structure Truncated (sb : Superblock) (first ip : Nat) (s s' : State) : Prop where
  owned : Owned sb first s'
  refs : s'.refs = s.refs
  valid : s'.valid = s.valid
  dinode : s'.dinode = update s.dinode ip (s'.copy ip)
  copy : ∃ addrs, s'.copy = update s.copy ip { s.copy ip with addrs := addrs, size := 0 }
  data : s'.data = s.data
  slot : s'.slot = s.emptied ip
  logged : ∀ b ∈ s'.logged, b ∈ s.logged ∨ IsBmap sb b ∨ b = sb.IBLOCK ip

/-- The state after an inode without blocks has been saved. -/
def State.bare (s s₂ : State) (sb : Superblock) (ip : Nat) (addrs : Nat → Nat) : State :=
  { s with
    bitmap := s₂.bitmap
    dinode := update s.dinode ip { s.copy ip with addrs := addrs, size := 0 }
    copy := update s.copy ip { s.copy ip with addrs := addrs, size := 0 }
    logged := sb.IBLOCK ip :: s₂.logged }

theorem slot_bare (s₂ : State) (sb : Superblock) {addrs : Nat → Nat} (hl : Locked s ip)
    (hnone : ∀ k ≤ NDIRECT, addrs k = 0) :
    (s.bare s₂ sb ip addrs).slot = s.emptied ip := by
  have hcopy : (s.bare s₂ sb ip addrs).copy ip =
      { s.copy ip with addrs := addrs, size := 0 } := Function.update_self ..
  have hl' : Locked (s.bare s₂ sb ip addrs) ip := by
    refine ⟨hl.ref, hl.valid, ?_⟩
    rw [hcopy]
    exact hl.type
  funext ⟨j, k⟩
  by_cases hj : j = ip
  · subst hj
    rw [hl'.slot_eq, hcopy, State.emptied, if_pos rfl, slotOf]
    split_ifs with hk hind
    · exact hnone k hk
    · exact absurd (hnone NDIRECT (Nat.le_refl _)) hind.2
    · rfl
  · have hcur : (s.bare s₂ sb ip addrs).cur j = s.cur j := by
      simp only [State.cur, State.bare, Function.update_of_ne hj]
    rw [State.emptied, if_neg hj]
    exact slot_congr hcur (fun _ => rfl) k

theorem itrunc_spec (hl : Locked s ip) (hown : Owned sb first s) :
    Wp (itrunc sb ip) (fun _ s' => Truncated sb first ip s s') E s := by
  unfold itrunc
  refine (freeDirect_spec hl hown).bind fun _ s₁ h₁ => ?_
  refine (freeIndirect_spec hl h₁ (if_neg (Nat.lt_irrefl _))).bind fun _ s₂ h₂ => ?_
  rw [wp_bind, wp_setCopy]
  generalize haddrs : update (fun k => if k < NDIRECT then 0 else (s.copy ip).addrs k) NDIRECT 0 =
    addrs at h₂
  have hnone : ∀ k ≤ NDIRECT, addrs k = 0 := by
    intro k hk
    rw [← haddrs]
    by_cases heq : k = NDIRECT
    · rw [heq, Function.update_self]
    · rw [Function.update_of_ne heq, if_pos (by omega)]
  have hfinal : ({ s₂ with
      copy := update s₂.copy ip { s₂.copy ip with size := 0 }
      dinode := update s₂.dinode ip { s₂.copy ip with size := 0 }
      logged := sb.IBLOCK ip :: s₂.logged } : State) = s.bare s₂ sb ip addrs := by
    have hrest := h₂.rest
    generalize s₂.bitmap = bm at hrest ⊢
    generalize s₂.logged = lg at hrest ⊢
    subst hrest
    simp [State.bare]
  have hslot := slot_bare s₂ sb hl hnone
  suffices hspec : Truncated sb first ip s (s.bare s₂ sb ip addrs) by
    rw [wp_iupdate]
    simp only [Function.update_self]
    rwa [hfinal]
  refine ⟨?_, rfl, rfl, ?_, ⟨addrs, rfl⟩, rfl, hslot, fun b hb => ?_⟩
  · unfold Owned
    rw [hslot]
    exact h₂.marks
  · simp [State.bare]
  · rcases List.mem_cons.1 hb with rfl | hb
    · exact .inr (.inr rfl)
    · exact (h₂.logged b hb).imp_right .inl

end Xv6.Fs
