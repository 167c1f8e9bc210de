import Xv6.Vm.Pte

/-!
# Bytes of a page

Pages are arrays of words, and `setByte` changes one byte of one word.
-/

namespace Xv6

variable {m m' : Mem} {pa a : U64} {off k : Nat} {b : BitVec 8}

/-! ## Bytes of a word -/

/-- A word with the byte at bit `k` replaced. -/
def putByte (w : U64) (k : Nat) (b : BitVec 8) : U64 :=
  (w &&& ~~~((0xFF : U64) <<< k)) ||| (b.setWidth 64 <<< k)

theorem getLsbD_0xFF (i : Nat) : (0xFF : U64).getLsbD i = decide (i < 8) := by
  by_cases hi : i < 64
  · have hall : ∀ i < 64, (0xFF : U64).getLsbD i = decide (i < 8) := by decide
    exact hall i hi
  · rw [BitVec.getLsbD_of_ge _ _ (by omega), decide_eq_false (by omega)]

theorem getByte_putByte {w : U64} (hk : k + 8 ≤ 64) :
    ((putByte w k b) >>> k).setWidth 8 = b := by
  apply BitVec.eq_of_getLsbD_eq
  intro i hi
  have hbit : (putByte w k b).getLsbD (k + i) = b.getLsbD i := by
    unfold putByte
    rw [BitVec.getLsbD_or, BitVec.getLsbD_and, BitVec.getLsbD_not, BitVec.getLsbD_shiftLeft,
      BitVec.getLsbD_shiftLeft, Nat.add_sub_cancel_left, getLsbD_0xFF, BitVec.getLsbD_setWidth]
    simp [show k + i < 64 by omega, show ¬ k + i < k by omega, show i < 64 by omega, hi]
  rw [BitVec.getLsbD_setWidth, BitVec.getLsbD_ushiftRight, hbit]
  simp [hi]

theorem getByte_putByte_ne {w : U64} {k' : Nat} (hk : k' + 8 ≤ 64)
    (hne : k + 8 ≤ k' ∨ k' + 8 ≤ k) :
    ((putByte w k b) >>> k').setWidth 8 = (w >>> k').setWidth 8 := by
  apply BitVec.eq_of_getLsbD_eq
  intro i hi
  have hbit : (putByte w k b).getLsbD (k' + i) = w.getLsbD (k' + i) := by
    unfold putByte
    rw [BitVec.getLsbD_or, BitVec.getLsbD_and, BitVec.getLsbD_not, BitVec.getLsbD_shiftLeft,
      BitVec.getLsbD_shiftLeft, getLsbD_0xFF, BitVec.getLsbD_setWidth]
    rcases hne with hle | hle
    · have hout : ¬ k' + i - k < 8 := by omega
      have hzero : b.getLsbD (k' + i - k) = false := BitVec.getLsbD_of_ge _ _ (by omega)
      simp [show k' + i < 64 by omega, hout, hzero]
    · simp [show k' + i < 64 by omega, show k' + i < k by omega]
  rw [BitVec.getLsbD_setWidth, BitVec.getLsbD_setWidth, BitVec.getLsbD_ushiftRight,
    BitVec.getLsbD_ushiftRight, hbit]

/-! ## Bytes of a page -/

theorem page_setByte (ha : a ≠ pa) : (m.setByte pa off b).page a = m.page a := if_neg ha

theorem freelist_setByte : (m.setByte pa off b).freelist = m.freelist := rfl

theorem word_setByte (i : Fin 512) : (m.setByte pa off b).page pa i =
    if i = Fin.ofNat 512 (off / 8) then putByte (m.page pa i) (8 * (off % 8)) b
    else m.page pa i := by
  show (if pa = pa then _ else _ : Fin 512 → U64) i = _
  rw [if_pos rfl]
  by_cases hi : i = Fin.ofNat 512 (off / 8)
  · rw [hi, if_pos rfl, if_pos rfl]
    rfl
  · rw [if_neg hi, if_neg hi]

theorem byte_setByte : (m.setByte pa off b).byte pa off = b := by
  unfold Mem.byte
  rw [word_setByte, if_pos rfl]
  exact getByte_putByte (by omega)

theorem byte_setByte_ne {off' : Nat} (hoff : off < 4096) (hoff' : off' < 4096)
    (hne : off' ≠ off) : (m.setByte pa off b).byte pa off' = m.byte pa off' := by
  unfold Mem.byte
  rw [word_setByte]
  by_cases hi : Fin.ofNat 512 (off' / 8) = Fin.ofNat 512 (off / 8)
  · have hword : off' / 8 = off / 8 := by
      have hval := congrArg Fin.val hi
      rw [Fin.val_ofNat, Fin.val_ofNat] at hval
      omega
    rw [if_pos hi]
    exact getByte_putByte_ne (by omega) (by omega)
  · rw [if_neg hi]

/-! ## Byte strings -/

/-- What `storeBytes` leaves: the bytes `bs` at `off` of the page `pa`. -/
structure Stored (m m' : Mem) (pa : U64) (off : Nat) (bs : List (BitVec 8)) : Prop where
  free : m'.freelist = m.freelist
  other : ∀ a, a ≠ pa → m'.page a = m.page a
  bytes : ∀ i (h : i < bs.length), m'.byte pa (off + i) = bs[i]
  rest : ∀ j < 4096, (j < off ∨ off + bs.length ≤ j) → m'.byte pa j = m.byte pa j

theorem storeBytes_spec (pa : U64) (off : Nat) (bs : List (BitVec 8)) (m : Mem)
    (hoff : off + bs.length ≤ 4096) :
    ∃ m', storeBytes pa off bs m = .ok ((), m') ∧ Stored m m' pa off bs := by
  induction bs generalizing off m with
  | nil =>
    exact ⟨_, rfl, rfl, fun _ _ => rfl, fun i h => absurd h (Nat.not_lt_zero i),
      fun _ _ _ => rfl⟩
  | cons b bs ih =>
    rw [List.length_cons] at hoff
    obtain ⟨m', hrun, hdone⟩ := ih (off + 1) (m.setByte pa off b) (by omega)
    refine ⟨m', ?_, ?_, fun a ha => ?_, fun i hi => ?_, fun j hj hout => ?_⟩
    · exact hrun
    · exact hdone.free
    · rw [hdone.other a ha, page_setByte ha]
    · cases i with
      | zero =>
        rw [hdone.rest (off + 0) (by omega) (by omega)]
        exact byte_setByte
      | succ i =>
        have h := hdone.bytes i (by rw [List.length_cons] at hi; omega)
        rw [show off + 1 + i = off + (i + 1) by omega] at h
        exact h
    · rw [List.length_cons] at hout
      rw [hdone.rest j hj (by omega), byte_setByte_ne (by omega) hj (by omega)]

end Xv6
