import Xv6.Vm.Walk
import Mathlib.Tactic.Common

/-!
# Strings in user memory

What `copyinstr` makes of a NUL-terminated string of a user program.
-/

namespace Xv6

/-! ## Looking up an address -/

/-- `walkaddr` leaves memory alone, and does not panic. -/
theorem walkaddr_read (m : Mem) (pagetable va : U64) :
    ∃ r, walkaddr pagetable va m = .ok (r, m) := ⟨m.userPage pagetable va, walkaddr_eq⟩

/-- The byte of user memory at `va`, where there is one. -/
def userByte (m : Mem) (pagetable va : U64) : Option (BitVec 8) :=
  match walkaddr pagetable (PGROUNDDOWN va) m with
  | .ok (some pa, _) => some (m.byte pa (va.toNat % 4096))
  | _ => none

theorem userByte_eq_some {m : Mem} {pagetable va : U64} {b : BitVec 8}
    (h : userByte m pagetable va = some b) : ∃ pa,
      walkaddr pagetable (PGROUNDDOWN va) m = .ok (some pa, m) ∧
        m.byte pa (va.toNat % 4096) = b := by
  obtain ⟨r, hr⟩ := walkaddr_read m pagetable (PGROUNDDOWN va)
  unfold userByte at h
  rw [hr] at h
  cases r with
  | none => cases h
  | some pa => exact ⟨pa, hr, Option.some.inj h⟩

/-! ## Reading leaves memory alone -/

theorem copyinLoop_read (m : Mem) (pagetable : U64) (fuel : Nat) : ∀ (srcva : U64) (len : Nat),
    ∃ r, copyinLoop pagetable fuel srcva len m = .ok (r, m) := by
  induction fuel with
  | zero =>
    intro srcva len
    cases len <;> exact ⟨_, rfl⟩
  | succ fuel ih =>
    intro srcva len
    cases len with
    | zero => exact ⟨_, rfl⟩
    | succ len =>
      unfold copyinLoop
      obtain ⟨r, hr⟩ := walkaddr_read m pagetable (PGROUNDDOWN srcva)
      rw [Vm.bind_ok hr]
      cases r with
      | none => exact ⟨none, rfl⟩
      | some pa =>
        obtain ⟨r, hrun⟩ := ih (PGROUNDDOWN srcva + PGSIZE)
          (len + 1 - min (PGSIZE - (srcva - PGROUNDDOWN srcva)).toNat (len + 1))
        refine ⟨r.map (((List.range (min (PGSIZE - (srcva - PGROUNDDOWN srcva)).toNat
          (len + 1))).map fun k => m.byte pa ((srcva - PGROUNDDOWN srcva).toNat + k)) ++ ·), ?_⟩
        refine (Vm.bind_ok (x := loadBytes _ _ _) rfl).trans ((Vm.bind_ok hrun).trans ?_)
        cases r <;> rfl

theorem copyin_read (m : Mem) (pagetable srcva : U64) (len : Nat) :
    ∃ r, copyin pagetable srcva len m = .ok (r, m) := copyinLoop_read m pagetable len srcva len

theorem copyinstrLoop_read (m : Mem) (pagetable : U64) (fuel : Nat) :
    ∀ (srcva : U64) (max : Nat) (written : List (BitVec 8)),
    ∃ r, copyinstrLoop pagetable fuel srcva max written m = .ok (r, m) := by
  induction fuel with
  | zero =>
    intro srcva max written
    cases max <;> exact ⟨_, rfl⟩
  | succ fuel ih =>
    intro srcva max written
    cases max with
    | zero => exact ⟨_, rfl⟩
    | succ max =>
      unfold copyinstrLoop
      obtain ⟨r, hr⟩ := walkaddr_read m pagetable (PGROUNDDOWN srcva)
      rw [Vm.bind_ok hr]
      cases r with
      | none => exact ⟨_, rfl⟩
      | some pa =>
        dsimp only
        rw [Vm.bind_ok (x := loadBytes _ _ _) rfl]
        split
        · exact ⟨_, rfl⟩
        · exact ih _ _ _

theorem copyinstr_read (m : Mem) (pagetable srcva : U64) (max : Nat) :
    ∃ r, copyinstr pagetable srcva max m = .ok (r, m) :=
  copyinstrLoop_read m pagetable max srcva max []

/-! ## `copyinstr` -/

/-- User memory holds a string and its NUL at `va`. -/
structure HoldsString (m : Mem) (pagetable va : U64) (text : List (BitVec 8)) : Prop where
  nonzero : ∀ b ∈ text, b ≠ 0
  byte : ∀ i ≤ text.length, userByte m pagetable (va + BitVec.ofNat 64 i) = some (text.getD i 0)

theorem HoldsString.drop {m : Mem} {pagetable va : U64} {text : List (BitVec 8)} {n : Nat}
    (h : HoldsString m pagetable va text) (hn : n ≤ text.length) :
    HoldsString m pagetable (va + BitVec.ofNat 64 n) (text.drop n) where
  nonzero b hb := h.nonzero b (List.mem_of_mem_drop hb)
  byte i hi := by
    rw [List.length_drop] at hi
    have hbyte := h.byte (n + i) (by omega)
    rw [BitVec.ofNat_add, ← BitVec.add_assoc] at hbyte
    rw [hbyte, List.getD_eq_getElem?_getD, List.getD_eq_getElem?_getD, List.getElem?_drop]

/-- The bytes up to the end of the page of `va`. -/
theorem HoldsString.page {m : Mem} {pagetable va : U64} {text : List (BitVec 8)}
    (h : HoldsString m pagetable va text) : ∃ pa,
      walkaddr pagetable (PGROUNDDOWN va) m = .ok (some pa, m) ∧
        ∀ i ≤ text.length, va.toNat % 4096 + i < 4096 →
          m.byte pa (va.toNat % 4096 + i) = text.getD i 0 := by
  have h0 := h.byte 0 (Nat.zero_le _)
  rw [BitVec.add_zero] at h0
  obtain ⟨pa, hpa, -⟩ := userByte_eq_some h0
  refine ⟨pa, hpa, fun i hi hpage => ?_⟩
  obtain ⟨pa', hpa', hbyte⟩ := userByte_eq_some (h.byte i hi)
  rw [PGROUNDDOWN_add hpage] at hpa'
  rw [mod_add hpage] at hbyte
  obtain rfl : pa = pa' := by
    rw [hpa] at hpa'
    cases hpa'
    rfl
  exact hbyte

/-- The bytes in front of the NUL, of the first `n` bytes of a string. -/
theorem takeWhile_bytes {text : List (BitVec 8)} {f : Nat → BitVec 8} {n : Nat}
    (htext : ∀ b ∈ text, b ≠ 0) (hf : ∀ i ≤ text.length, i < n → f i = text.getD i 0) :
    ((List.range n).map f).takeWhile (· ≠ 0) = text.take n := by
  induction n generalizing text f with
  | zero => simp
  | succ n ih =>
    rw [List.range_succ_eq_map, List.map_cons, List.map_map]
    cases text with
    | nil =>
      have h0 : f 0 = 0 := hf 0 (Nat.zero_le _) (Nat.succ_pos n)
      simp [h0]
    | cons b text =>
      have h0 : f 0 = b := hf 0 (Nat.zero_le _) (Nat.succ_pos n)
      have hb : b ≠ 0 := htext b List.mem_cons_self
      rw [List.takeWhile_cons_of_pos (by simpa [h0] using hb), h0, List.take_succ_cons]
      congr 1
      refine ih (fun b' hb' => htext b' (List.mem_cons_of_mem b hb')) fun i hi hn => ?_
      exact hf (i + 1) (by rw [List.length_cons]; omega) (by omega)

theorem copyinstrLoop_ok {m : Mem} {pagetable va : U64} {text : List (BitVec 8)}
    (h : HoldsString m pagetable va text) {fuel max : Nat} (hfuel : max ≤ fuel)
    (written : List (BitVec 8)) :
    copyinstrLoop pagetable fuel va max written m =
      .ok (if text.length < max then (written ++ text ++ [0], some ())
        else (written ++ text.take max, none), m) := by
  induction fuel generalizing va text max written with
  | zero =>
    obtain rfl : max = 0 := by omega
    simp [copyinstrLoop]
    rfl
  | succ fuel ih =>
    cases max with
    | zero =>
      simp [copyinstrLoop]
      rfl
    | succ max =>
    obtain ⟨pa, hpa, hbyte⟩ := h.page
    unfold copyinstrLoop
    rw [Vm.bind_ok hpa]
    have hoff := toNat_sub_PGROUNDDOWN va
    have hrest := toNat_PGSIZE_sub va
    set n := min (4096 - va.toNat % 4096) (max + 1) with hn
    have hpos : 0 < n := by omega
    have htext : ((List.range n).map fun k => m.byte pa (va.toNat % 4096 + k)).takeWhile (· ≠ 0) =
        text.take n :=
      takeWhile_bytes h.nonzero fun i hi hin => hbyte i hi (by omega)
    have hload : loadBytes pa (va - PGROUNDDOWN va).toNat n m =
        .ok ((List.range n).map fun k => m.byte pa (va.toNat % 4096 + k), m) := by
      rw [hoff]
      rfl
    dsimp only
    rw [hrest, ← hn, Vm.bind_ok hload, htext, List.length_take]
    by_cases hlt : text.length < n
    · rw [if_pos (by omega), if_pos (by omega), List.take_of_length_le (by omega)]
      rfl
    rw [if_neg (by omega)]
    by_cases hmax : max + 1 = n
    · rw [if_neg (by omega), show max + 1 - n = 0 by omega, hmax]
      cases fuel <;> rfl
    · -- the rest of the string is on the next page
      have hnext : HoldsString m pagetable (PGROUNDDOWN va + PGSIZE) (text.drop n) := by
        rw [PGROUNDDOWN_add_PGSIZE, show 4096 - va.toNat % 4096 = n by omega]
        exact h.drop (by omega)
      rw [ih hnext (by omega), List.length_drop]
      by_cases hall : text.length < max + 1
      · rw [if_pos (by omega), if_pos hall, List.append_assoc written, List.take_append_drop]
      · rw [if_neg (by omega), if_neg hall, List.append_assoc, ← List.take_add,
          show n + (max + 1 - n) = max + 1 by omega]

/-- `copyinstr` copies a string that ends within `max` bytes, and refuses a
longer one. -/
theorem copyinstr_ok {m : Mem} {pagetable va : U64} {text : List (BitVec 8)}
    (h : HoldsString m pagetable va text) (max : Nat) :
    copyinstr pagetable va max m =
      .ok (if text.length < max then (text ++ [0], some ()) else (text.take max, none), m) := by
  unfold copyinstr
  rw [copyinstrLoop_ok h (Nat.le_refl max), List.nil_append, List.nil_append]

end Xv6
