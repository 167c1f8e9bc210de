import Xv6.Fs.Sound
import Mathlib.Data.List.GetD

/-!
# Files without holes and without spare blocks

`Filled` says that an inode has just the blocks that a size needs.  `bmap` adds
the block that it was asked for, and the indirect block where it needs one.
-/

namespace Xv6.Fs

open Run
open Function (update)

variable {sb : Superblock} {first : Nat} {s s' : State} {ip : Nat} {bs p : List Byte}
  {E : String → Prop}

/-- The inode has blocks for `n` bytes, and no others. -/
structure Filled (s : State) (ip n : Nat) : Prop where
  block : ∀ bn, s.slot (ip, index bn) ≠ 0 ↔ bn * BSIZE < n
  indirect : s.slot (ip, NDIRECT) ≠ 0 ↔ NDIRECT * BSIZE < n

/-- How many blocks `n` bytes take. -/
def blocksFor (n : Nat) : Nat :=
  (n + (BSIZE - 1)) / BSIZE + if NDIRECT * BSIZE < n then 1 else 0

/-- How many blocks `bmap` takes. -/
def needs (s : State) (ip bn : Nat) : Nat :=
  (if s.slot (ip, index bn) = 0 then 1 else 0) +
    if NDIRECT ≤ bn ∧ s.slot (ip, NDIRECT) = 0 then 1 else 0

/-- There are places for `MAXFILE` blocks only. -/
theorem Filled.le {n : Nat} (h : Filled s ip n) : n ≤ MAXFILE * BSIZE := by
  have hslotOf : ∀ d, slotOf s.data d NSLOT = 0 := fun d => by
    rw [slotOf, if_neg (by decide), if_neg fun h => Nat.lt_irrefl _ h.1]
  have hnone : s.slot (ip, index MAXFILE) = 0 := by
    show (if (s.cur ip).type = 0 then 0 else slotOf s.data (s.cur ip) NSLOT) = 0
    rw [hslotOf, ite_self]
  by_contra hlt
  exact (h.block MAXFILE).2 (by omega) hnone

theorem blocksFor_mono {m n : Nat} (h : m ≤ n) : blocksFor m ≤ blocksFor n := by
  have hdiv : (m + (BSIZE - 1)) / BSIZE ≤ (n + (BSIZE - 1)) / BSIZE :=
    Nat.div_le_div_right (Nat.add_le_add_right h _)
  unfold blocksFor
  split_ifs <;> omega

/-! ## What `bmap` adds -/

theorem addrOf_slots {i : Nat} (hl : Locked s ip) (hown : Owned sb first s) (hi : i ≤ NDIRECT) :
    Wp (addrOf sb ip i) (fun a s' => a ≠ 0 → s'.slot = update s.slot (ip, i) a) E s := by
  have hslot : s.slot (ip, i) = (s.copy ip).addrs i := by rw [hl.slot_eq, slotOf, if_pos hi]
  unfold addrOf
  rw [wp_bind, wp_get]
  refine Wp.ite (fun hnone => ?_) fun hsome _ => ?_
  · rw [← hslot] at hnone
    refine (balloc_spec hown).bind fun b s' hb => ?_
    obtain ⟨rfl, rfl, hfull⟩ | ⟨hne, hb, hfree, rfl⟩ := hb
    · exact fun h => absurd rfl h
    · rw [if_neg hne]
      exact fun _ => slot_addAddr hl hi hnone (hown.fresh hb hfree).2
  · rw [← hslot, Function.update_eq_self]

/-- The block is there afterwards, and no others have been added. -/
theorem bmap_slots {bn : Nat} (hl : Locked s ip) (hown : Owned sb first s) (hbn : bn < MAXFILE) :
    Wp (bmap sb ip bn) (fun a s' => a ≠ 0 → ∀ k, s'.slot (ip, k) ≠ 0 ↔
      s.slot (ip, k) ≠ 0 ∨ k = index bn ∨ NDIRECT ≤ bn ∧ k = NDIRECT) E s := by
  have hput : ∀ {f : Nat × Nat → Nat} {i a k : Nat}, a ≠ 0 →
      (update f (ip, i) a (ip, k) ≠ 0 ↔ f (ip, k) ≠ 0 ∨ k = i) := by
    intro f i a k ha
    by_cases hk : k = i
    · rw [hk, Function.update_self]
      exact iff_of_true ha (.inr rfl)
    · rw [Function.update_of_ne (by simpa using hk), or_iff_left hk]
  unfold bmap
  refine Wp.ite (fun hdirect => ?_) fun hdirect => ?_
  · have hindex : index bn = bn := if_pos hdirect
    refine (addrOf_slots hl hown (by omega)).post fun a s' h ha k => ?_
    rw [h ha, hput ha, hindex, or_iff_left (a := k = bn) fun hk => absurd hk.1 (by omega)]
  · have hmax : MAXFILE = NDIRECT + NINDIRECT := rfl
    have hslots : NSLOT = NDIRECT + 1 + NINDIRECT := rfl
    have hindex : index bn = NDIRECT + 1 + (bn - NDIRECT) := by
      rw [index, if_neg hdirect]
      omega
    have hge : NDIRECT ≤ bn := by omega
    rw [if_pos (by omega)]
    have hspec : Wp (addrOf sb ip NDIRECT) (Mapped sb first ip NDIRECT s) E s :=
      addrOf_spec hl hown (Nat.le_refl _)
    have hnew : Wp (addrOf sb ip NDIRECT)
        (fun a s' => a ≠ 0 → s'.slot = update s.slot (ip, NDIRECT) a) E s :=
      addrOf_slots hl hown (Nat.le_refl _)
    refine ((hspec.and hnew).mono (fun _ _ h => h) fun _ h => h.1).bind fun ind s₁ h₁ => ?_
    obtain ⟨h₁, hslot₁⟩ := h₁
    refine Wp.ite (fun _ h => absurd rfl h) fun hne => ?_
    have hl₁ := h₁.wrote.locked hl
    have hind := h₁.slot hne
    have haddr : (s₁.copy ip).addrs NDIRECT = ind := by simpa [hl₁.slot_eq, slotOf] using hind
    have hentry : s₁.slot (ip, index bn) = entry (s₁.data ind) (bn - NDIRECT) := by
      rw [hindex, hl₁.slot_eq, slotOf, if_neg (by omega), haddr, if_pos ⟨by omega, hne⟩,
        Nat.add_sub_cancel_left]
    have hold : ∀ k, s₁.slot (ip, k) ≠ 0 ↔ s.slot (ip, k) ≠ 0 ∨ k = NDIRECT := fun k => by
      rw [hslot₁ hne, hput hne]
    rw [wp_bind, wp_get]
    refine Wp.ite (fun hnone => ?_) fun hsome _ k => ?_
    · rw [← hentry, hindex] at hnone
      refine (balloc_spec h₁.owned).bind fun b s₂ hb => ?_
      obtain ⟨rfl, rfl, hfull⟩ | ⟨hb0, hb, hfree, rfl⟩ := hb
      · exact fun h => absurd rfl h
      · rw [if_neg hb0]
        intro _ k
        have hsb := sb.size_lt
        show (s₁.addEntry sb ind (bn - NDIRECT) b).slot (ip, k) ≠ 0 ↔ _
        rw [slot_addEntry sb hl₁ h₁.owned hind hne (by omega) (h₁.owned.fresh hb hfree).2
          (by omega), hput hb0, hold, ← hindex]
        tauto
    · rw [← hentry] at hsome
      have hk : k = index bn → s₁.slot (ip, k) ≠ 0 := fun hk => hk ▸ hsome
      rw [hold] at hk ⊢
      tauto

/-- Writing a part of the next block, or of the last one. -/
theorem Filled.step {off m : Nat} (h : Filled s ip off)
    (hslots : ∀ k, s'.slot (ip, k) ≠ 0 ↔
      s.slot (ip, k) ≠ 0 ∨ k = index (off / BSIZE) ∨ NDIRECT ≤ off / BSIZE ∧ k = NDIRECT)
    (hm : 0 < m) (hfit : off % BSIZE + m ≤ BSIZE) : Filled s' ip (off + m) where
  block bn := by
    have hsame : index bn = index (off / BSIZE) ↔ bn = off / BSIZE :=
      ⟨index_inj, congrArg index⟩
    have hfit : off % 1024 + m ≤ 1024 := hfit
    rw [hslots, h.block, hsame, or_iff_left (a := bn = _) fun hk => index_ne bn hk.2]
    show bn * 1024 < off ∨ bn = off / 1024 ↔ bn * 1024 < off + m
    omega
  indirect := by
    have hne : NDIRECT ≠ index (off / BSIZE) := (index_ne _).symm
    have hfit : off % 1024 + m ≤ 1024 := hfit
    rw [hslots, h.indirect, or_iff_right (a := NDIRECT = _) hne, and_iff_left rfl]
    show 12 * 1024 < off ∨ 12 ≤ off / 1024 ↔ 12 * 1024 < off + m
    omega

theorem Filled.needs {off m : Nat} (h : Filled s ip off) (hm : 0 < m)
    (hfit : off % BSIZE + m ≤ BSIZE) :
    blocksFor off + Fs.needs s ip (off / BSIZE) = blocksFor (off + m) := by
  have hblock : s.slot (ip, index (off / BSIZE)) = 0 ↔ off % 1024 = 0 := by
    rw [← not_iff_not, ← ne_eq, h.block]
    show off / 1024 * 1024 < off ↔ _
    omega
  have hind : s.slot (ip, NDIRECT) = 0 ↔ off ≤ 12 * 1024 := by
    rw [← not_iff_not, ← ne_eq, h.indirect]
    show 12 * 1024 < off ↔ _
    omega
  have hfit : off % 1024 + m ≤ 1024 := hfit
  simp only [Fs.needs, hblock, hind]
  show (off + 1023) / 1024 + (if 12 * 1024 < off then 1 else 0) +
    ((if off % 1024 = 0 then 1 else 0) + if 12 ≤ off / 1024 ∧ off ≤ 12 * 1024 then 1 else 0) =
    (off + m + 1023) / 1024 + if 12 * 1024 < off + m then 1 else 0
  split_ifs <;> omega

/-! ## The content of a file -/

/-- The file has the bytes `bs`, blocks for them and no others, and zeroes
behind them. -/
structure Exact (s : State) (i : Nat) (bs : List Byte) : Prop where
  size : (s.cur i).size = bs.length
  filled : Filled s i bs.length
  byte : ∀ p, s.slot (i, index (p / BSIZE)) ≠ 0 → s.byte i p = bs.getD p 0

namespace Exact

theorem allocated {i : Nat} (h : Exact s i bs) : Allocated s i := fun bn hbn =>
  (h.filled.block bn).2 (h.size ▸ hbn)

theorem bytes {i : Nat} (h : Exact s i bs) {off n : Nat} (hn : off + n ≤ bs.length) :
    s.bytes i off n = (bs.drop off).take n := by
  refine List.ext_getElem (by simp; omega) fun k hk _ => ?_
  rw [length_bytes] at hk
  have hthere : s.slot (i, index ((off + k) / BSIZE)) ≠ 0 := by
    refine (h.filled.block _).2 ?_
    have hle := Nat.div_mul_le_self (off + k) BSIZE
    omega
  simp only [State.bytes, List.getElem_map, List.getElem_range, List.getElem_take,
    List.getElem_drop]
  rw [h.byte _ hthere, List.getD_eq_getElem _ _ (by omega)]

theorem congr {i : Nat} (h : Exact s i bs) (hcur : s'.cur i = s.cur i)
    (hslot : ∀ k, s'.slot (i, k) = s.slot (i, k))
    (hdata : ∀ k, s.slot (i, k) ≠ 0 → s'.data (s.slot (i, k)) = s.data (s.slot (i, k))) :
    Exact s' i bs where
  size := by
    rw [hcur]
    exact h.size
  filled := by
    refine ⟨fun bn => ?_, ?_⟩
    · rw [hslot]
      exact h.filled.block bn
    · rw [hslot]
      exact h.filled.indirect
  byte p hp := by
    rw [hslot] at hp
    rw [← h.byte p hp, State.byte, hslot, hdata _ hp, State.byte]

theorem of_same {i : Nat} (h : Exact s i bs) (hsame : SameFiles s s') : Exact s' i bs :=
  h.congr (by rw [hsame.cur]) (fun k => by rw [hsame.slot]) fun k _ => by rw [hsame.data]

/-- The files of others stay. -/
theorem other {g : Nat → Option Byte} {i : Nat} (h : Exact s i bs) (hw : Wrote ip g s s')
    (hi : i ≠ ip) : Exact s' i bs :=
  h.congr (hw.cur hi) (fun _ => hw.slot _ hi) fun _ hk => hw.data _ hi hk

theorem save_other {i n : Nat} (h : Exact s i bs) (hl : Locked s ip) (hi : i ≠ ip)
    (log : List Nat) : Exact (s.save ip n log) i bs := by
  have hcur : (s.save ip n log).cur i = s.cur i := by
    simp only [State.cur, State.save, Function.update_of_ne hi]
  exact h.congr hcur (fun k => by rw [slot_save hl]) fun _ _ => rfl

/-- The size is set to the length of what has been written. -/
theorem save (hl : Locked s ip) (hf : Filled s ip bs.length)
    (hbyte : ∀ p, s.slot (ip, index (p / BSIZE)) ≠ 0 → s.byte ip p = bs.getD p 0)
    (log : List Nat) : Exact (s.save ip bs.length log) ip bs where
  size := by
    have hcopy : (s.save ip bs.length log).copy ip = { s.copy ip with size := bs.length } :=
      Function.update_self ..
    have hl' : Locked (s.save ip bs.length log) ip := by
      refine ⟨hl.ref, hl.valid, ?_⟩
      rw [hcopy]
      exact hl.type
    rw [hl'.cur_eq, hcopy]
  filled := by
    refine ⟨fun bn => ?_, ?_⟩
    · rw [slot_save hl]
      exact hf.block bn
    · rw [slot_save hl]
      exact hf.indirect
  byte p hp := by
    rw [slot_save hl] at hp
    rw [← hbyte p hp, State.byte, slot_save hl]
    rfl

/-- Bytes are written at the end of the file. -/
theorem append (h : Exact s ip bs)
    (hw : Wrote ip (span (kernel p) bs.length 0 p.length) s s') {q : Nat}
    (hq : s'.slot (ip, index (q / BSIZE)) ≠ 0) : s'.byte ip q = (bs ++ p).getD q 0 := by
  rw [hw.byte q hq, span]
  by_cases hin : bs.length ≤ q ∧ q < bs.length + p.length
  · rw [if_pos hin, List.getD_append_right _ _ _ _ hin.1, Nat.zero_add]
    rfl
  · rw [if_neg hin, Option.getD_none]
    split_ifs with hnone
    · -- what is not in a block lies behind the end
      have hge : bs.length ≤ q := by
        by_contra hlt
        refine (h.filled.block (q / BSIZE)).2 ?_ hnone
        have hle := Nat.div_mul_le_self q BSIZE
        omega
      rw [List.getD_eq_default _ _ (by rw [List.length_append]; omega)]
    · rw [h.byte q hnone]
      by_cases hlt : q < bs.length
      · rw [List.getD_append _ _ _ _ hlt]
      · rw [List.getD_eq_default _ _ (by omega),
          List.getD_eq_default _ _ (by rw [List.length_append]; omega)]

end Exact

end Xv6.Fs
