import Xv6.Vm.Copyout

/-!
# Copying ranges and strings

`copyout`, `copyin` and `copyinstr` of `kernel/vm.c` on any page table, at any
address and for any length.  They work through a range page by page, and come
to the first page that is not mapped for the user or to the end.
-/

namespace Xv6

variable {m m' : Mem} {root va : U64} {bs : List (BitVec 8)}

/-! ## Bytes of user memory -/

/-- The page of `va` is below `MAXVA` and mapped for the user.  Physical
address 0 is no page of memory. -/
def UserMapped (m : Mem) (root va : U64) : Prop :=
  va < MAXVA ∧ m.pte root va &&& PTE_V ≠ 0 ∧ m.pte root va &&& PTE_U ≠ 0 ∧
    PTE2PA (m.pte root va) ≠ 0

/-- The bytes at `va` are `bs`. -/
def UserBytes (m : Mem) (root va : U64) (bs : List (BitVec 8)) : Prop :=
  ∀ i (h : i < bs.length), userByte m root (va + BitVec.ofNat 64 i) = some bs[i]

theorem userPage_ne_none : m.userPage root va ≠ none ↔ UserMapped m root va := by
  unfold Mem.userPage UserMapped
  by_cases hva : va < MAXVA
  · by_cases hvalid : Valid (m.pte root va)
    · have hflags : PTE_FLAGS (m.pte root va) &&& PTE_U = m.pte root va &&& PTE_U :=
        and_PTE_FLAGS _ _ (by decide)
      rw [if_pos hva, decode_eq_some hvalid]
      show (if PTE_FLAGS (m.pte root va) &&& PTE_U = 0 ∨ PTE2PA (m.pte root va) = 0 then none
        else some _) ≠ none ↔ _
      rw [hflags]
      have hbit : m.pte root va &&& PTE_V ≠ 0 := hvalid
      constructor
      · intro hsome
        exact ⟨hva, hbit, not_or.1 fun hor => hsome (if_pos hor)⟩
      · intro ⟨_, _, huser⟩
        rw [if_neg (not_or.2 huser)]
        simp
    · have hbit : m.pte root va &&& PTE_V = 0 := not_not.1 hvalid
      rw [decode_eq_none.2 hvalid]
      simp [hbit]
  · simp [hva]

theorem userByte_ne_none : userByte m root va ≠ none ↔ UserMapped m root va := by
  rw [userByte_eq, Ne, Option.map_eq_none_iff]
  exact userPage_ne_none

theorem UserBytes.nil : UserBytes m root va [] := fun i hi => absurd hi (Nat.not_lt_zero i)

theorem userBytes_append {xs ys : List (BitVec 8)} : UserBytes m root va (xs ++ ys) ↔
    UserBytes m root va xs ∧ UserBytes m root (va + BitVec.ofNat 64 xs.length) ys := by
  have hshift : ∀ i, va + BitVec.ofNat 64 xs.length + BitVec.ofNat 64 i =
      va + BitVec.ofNat 64 (xs.length + i) := by
    intro i
    rw [BitVec.add_assoc, ← BitVec.ofNat_add]
  constructor
  · intro h
    refine ⟨fun i hi => ?_, fun i hi => ?_⟩
    · rw [h i (by simp; omega), List.getElem_append_left hi]
    · rw [hshift, h (xs.length + i) (by simp; omega), List.getElem_append_right (by omega)]
      simp
  · intro ⟨hxs, hys⟩ i hi
    by_cases hlt : i < xs.length
    · rw [hxs i hlt, List.getElem_append_left hlt]
    · have hget := hys (i - xs.length) (by rw [List.length_append] at hi; omega)
      rw [hshift, Nat.add_sub_cancel' (by omega)] at hget
      rw [hget, List.getElem_append_right (by omega)]

/-- Only one byte string of a given length lies at an address. -/
theorem UserBytes.unique {bs' : List (BitVec 8)} (h : UserBytes m root va bs)
    (h' : UserBytes m root va bs') (hlen : bs'.length = bs.length) : bs' = bs := by
  refine List.ext_getElem hlen fun i hi' hi => ?_
  exact Option.some.inj ((h' i hi').symm.trans (h i hi))

/-- A chunk of the page of `va`. -/
def chunk (m : Mem) (pa va : U64) (n : Nat) : List (BitVec 8) :=
  (List.range n).map fun k => m.byte pa (va.toNat % 4096 + k)

theorem length_chunk {pa : U64} {n : Nat} : (chunk m pa va n).length = n := by
  simp [chunk]

theorem userBytes_chunk {pa : U64} {n : Nat} (hpa : m.userPage root va = some pa)
    (hn : va.toNat % 4096 + n ≤ 4096) : UserBytes m root va (chunk m pa va n) := by
  intro i hi
  rw [length_chunk] at hi
  rw [userByte_eq, userPage_add (by omega), hpa, mod_add (by omega)]
  simp [chunk]

/-! ## `copyin` -/

/-- One round of `copyin`. -/
theorem copyinLoop_succ {fuel len : Nat} {pa : U64} (hpa : m.userPage root va = some pa) :
    copyinLoop root (fuel + 1) va (len + 1) m =
      (copyinLoop root fuel (PGROUNDDOWN va + PGSIZE)
        (len + 1 - min (4096 - va.toNat % 4096) (len + 1)) >>= fun r =>
          pure (r.map (chunk m pa va (min (4096 - va.toNat % 4096) (len + 1)) ++ ·))) m := by
  have hwalk : walkaddr root (PGROUNDDOWN va) m = .ok (some pa, m) := by
    rw [walkaddr_eq, userPage_PGROUNDDOWN, hpa]
  conv => lhs; unfold copyinLoop
  rw [Vm.bind_ok hwalk]
  dsimp only
  have hload : ∀ n, loadBytes pa (va - PGROUNDDOWN va).toNat n m = .ok (chunk m pa va n, m) := by
    intro n
    rw [toNat_sub_PGROUNDDOWN]
    rfl
  rw [toNat_PGSIZE_sub, Vm.bind_ok (hload _)]
  refine congrFun (bind_congr fun r => ?_) m
  cases r <;> rfl

theorem copyinLoop_none {fuel len : Nat} (hpa : m.userPage root va = none) :
    copyinLoop root (fuel + 1) va (len + 1) m = .ok (none, m) := by
  have hwalk : walkaddr root (PGROUNDDOWN va) m = .ok (none, m) := by
    rw [walkaddr_eq, userPage_PGROUNDDOWN, hpa]
  unfold copyinLoop
  exact Vm.bind_ok hwalk

/-- `copyin` finds the bytes of a range that is mapped for the user. -/
theorem copyinLoop_ok (fuel : Nat) : ∀ {va : U64} {bs : List (BitVec 8)}, bs.length ≤ fuel →
    UserBytes m root va bs → copyinLoop root fuel va bs.length m = .ok (some bs, m) := by
  induction fuel with
  | zero =>
    intro va bs hlen _
    obtain rfl := List.length_eq_zero_iff.1 (Nat.le_zero.1 hlen)
    rfl
  | succ fuel ih =>
    intro va bs hlen hbytes
    cases hbs : bs.length with
    | zero =>
      obtain rfl := List.length_eq_zero_iff.1 hbs
      rfl
    | succ len =>
      have h0 := hbytes 0 (by omega)
      rw [BitVec.add_zero, userByte_eq] at h0
      cases hpa : m.userPage root va with
      | none =>
        rw [hpa] at h0
        cases h0
      | some pa =>
        rw [copyinLoop_succ hpa]
        set n := min (4096 - va.toNat % 4096) (len + 1) with hn
        have htake : (bs.take n).length = n := by
          rw [List.length_take]
          omega
        have hsplit : UserBytes m root va (bs.take n) ∧
            UserBytes m root (va + BitVec.ofNat 64 n) (bs.drop n) := by
          rw [← List.take_append_drop n bs, userBytes_append, htake] at hbytes
          exact hbytes
        have hfirst : bs.take n = chunk m pa va n :=
          (userBytes_chunk hpa (by omega)).unique hsplit.1 (by rw [htake, length_chunk])
        have hrest : copyinLoop root fuel (PGROUNDDOWN va + PGSIZE) (len + 1 - n) m =
            .ok (some (bs.drop n), m) := by
          by_cases hmore : len + 1 - n = 0
          · rw [hmore, List.drop_eq_nil_of_le (by omega)]
            cases fuel <;> rfl
          · have hlast : copyinLoop root fuel (PGROUNDDOWN va + PGSIZE) (bs.drop n).length m =
                .ok (some (bs.drop n), m) := by
              refine ih (by rw [List.length_drop]; omega) ?_
              rw [PGROUNDDOWN_add_PGSIZE, show 4096 - va.toNat % 4096 = n by omega]
              exact hsplit.2
            rwa [List.length_drop, hbs] at hlast
        rw [Vm.bind_ok hrest, ← hfirst]
        show Except.ok (some (bs.take n ++ bs.drop n), m) = _
        rw [List.take_append_drop]

theorem copyin_ok (h : UserBytes m root va bs) :
    copyin root va bs.length m = .ok (some bs, m) := copyinLoop_ok bs.length (Nat.le_refl _) h

/-! ## `copyout` -/

/-- Every page that the `len` bytes at `va` touch is mapped for the user. -/
def UserRange (m : Mem) (root va : U64) (len : Nat) : Prop :=
  ∀ i < len, va.toNat + i < MAXVA.toNat ∧ UserMapped m root (va + BitVec.ofNat 64 i)

/-- Of user memory the `n` bytes at `va` may have changed, and nothing else. -/
structure OnlyAt (m m' : Mem) (root va : U64) (n : Nat) : Prop where
  pages : UserWrote m m' root
  kept : ∀ vb, (∀ i < n, vb ≠ va + BitVec.ofNat 64 i) → userByte m' root vb = userByte m root vb

theorem Reaches.mono {i j : Nat} (h : Reaches m root va i) (hij : j ≤ i) : Reaches m root va j :=
  fun k hk => h k (Nat.le_trans hk hij)

theorem reaches_iff_userRange {len : Nat} :
    (∀ i < len, Reaches m root va i) ↔ UserRange m root va len := by
  constructor
  · intro h i hi
    refine ⟨?_, userPage_ne_none.1 (h i hi i (Nat.le_refl i))⟩
    rw [MAXVA_toNat]
    exact (h i hi).lt
  · intro h i hi j hj
    exact userPage_ne_none.2 (h j (by omega)).2

/-- The first byte that is not reached is at the start of a page. -/
theorem not_reaches_boundary {k : Nat} (hk : ¬ Reaches m root va k)
    (hbelow : ∀ i < k, Reaches m root va i) : k = 0 ∨ (va.toNat + k) % 4096 = 0 := by
  cases k with
  | zero => exact .inl rfl
  | succ k =>
    refine .inr ?_
    by_contra hmod
    have hprev := hbelow k (Nat.lt_succ_self k)
    have hlt := hprev.lt
    have haddr : (va + BitVec.ofNat 64 k).toNat = va.toNat + k := by
      rw [BitVec.toNat_add, BitVec.toNat_ofNat]
      omega
    have hsame : m.userPage root (va + BitVec.ofNat 64 k + BitVec.ofNat 64 1) =
        m.userPage root (va + BitVec.ofNat 64 k) := userPage_add (by rw [haddr]; omega)
    rw [BitVec.add_assoc, ← BitVec.ofNat_add] at hsame
    refine hk fun j hj => ?_
    rcases Nat.lt_or_ge j (k + 1) with hlt' | hge
    · exact hprev j (Nat.le_of_lt_succ hlt')
    · obtain rfl : j = k + 1 := by omega
      rw [hsame]
      exact hprev k (Nat.le_refl k)

theorem CopiedTo.success {dstva : U64} {src : List (BitVec 8)}
    (h : CopiedTo m m' root dstva src (some ())) :
    UserBytes m' root dstva src ∧ OnlyAt m m' root dstva src.length := by
  have hall := h.result.1 rfl
  exact ⟨fun i hi => h.wrote i hi (hall i hi), h.pages,
    fun vb hvb => h.kept vb fun i hi _ => hvb i hi⟩

theorem CopiedTo.failure {dstva : U64} {src : List (BitVec 8)}
    (h : CopiedTo m m' root dstva src none) : ∃ k < src.length,
      (k = 0 ∨ (dstva.toNat + k) % 4096 = 0) ∧ UserBytes m' root dstva (src.take k) ∧
        OnlyAt m m' root dstva k := by
  classical
  have hex : ∃ k, k < src.length ∧ ¬ Reaches m root dstva k := by
    by_contra hall
    refine Option.some_ne_none () (h.result.2 fun i hi => ?_).symm
    by_contra hnot
    exact hall ⟨i, hi, hnot⟩
  obtain ⟨hlen, hnot⟩ := Nat.find_spec hex
  have hbelow : ∀ i < Nat.find hex, Reaches m root dstva i := by
    intro i hi
    by_contra hnot
    exact Nat.find_min hex hi ⟨by omega, hnot⟩
  refine ⟨Nat.find hex, hlen, not_reaches_boundary hnot hbelow, fun i hi => ?_, h.pages,
    fun vb hvb => h.kept vb fun i _ hreach => hvb i ?_⟩
  · rw [List.length_take] at hi
    rw [h.wrote i (by omega) (hbelow i (by omega)), List.getElem_take]
  · by_contra hge
    exact hnot (hreach.mono (by omega))

/-- `copyout` succeeds exactly when every page that the range touches is mapped
for the user.  Then it has written the range and nothing else, and `copyin`
reads it back; otherwise it has written up to the end of a page. -/
theorem copyout_exact (hu : UserPages m root) (dstva : U64) (src : List (BitVec 8)) :
    ∃ r m', copyout root dstva src m = .ok (r, m') ∧
      (r = some () ↔ UserRange m root dstva src.length) ∧
      (r = some () → UserBytes m' root dstva src ∧ OnlyAt m m' root dstva src.length ∧
        copyin root dstva src.length m' = .ok (some src, m')) ∧
      (r = none → ∃ k < src.length, (k = 0 ∨ (dstva.toNat + k) % 4096 = 0) ∧
        UserBytes m' root dstva (src.take k) ∧ OnlyAt m m' root dstva k) := by
  obtain ⟨r, m', hrun, hdone⟩ := copyout_copiedTo hu dstva src
  refine ⟨r, m', hrun, hdone.result.trans reaches_iff_userRange, ?_, ?_⟩
  · rintro rfl
    obtain ⟨hbytes, honly⟩ := hdone.success
    exact ⟨hbytes, honly, copyin_ok hbytes⟩
  · rintro rfl
    exact hdone.failure

theorem copyout_exact_text : ∃ m, textSpace fourFree = .ok (some PGSIZE, m) ∧
    ∃ r m', copyout 0x80023000 4094 [1, 2, 3] m = .ok (r, m') ∧
      (r = some () ↔ UserRange m 0x80023000 4094 3) ∧
      (r = some () → UserBytes m' 0x80023000 4094 [1, 2, 3] ∧ OnlyAt m m' 0x80023000 4094 3 ∧
        copyin 0x80023000 4094 3 m' = .ok (some [1, 2, 3], m')) ∧
      (r = none → ∃ k < 3, (k = 0 ∨ ((4094 : U64).toNat + k) % 4096 = 0) ∧
        UserBytes m' 0x80023000 4094 ([1, 2, 3].take k) ∧ OnlyAt m m' 0x80023000 4094 k) := by
  obtain ⟨m, ts, hrun, hs, hh⟩ := textSpace_fourFree
  exact ⟨m, hrun, copyout_exact (hs.userPages noUser_zero hh) 4094 [1, 2, 3]⟩

/-! ## `copyinstr` -/

/-- What `copyinstr` stores, and its answer: a string up to its NUL, or what is
there before the limit or a page that is not mapped. -/
inductive Fetched (m : Mem) (root va : U64) (max : Nat) : List (BitVec 8) → Option Unit → Prop
  | nul {text : List (BitVec 8)} (bytes : UserBytes m root va (text ++ [0]))
      (nonzero : ∀ b ∈ text, b ≠ 0) (fits : text.length < max) : Fetched m root va max
        (text ++ [0]) (some ())
  | cut {text : List (BitVec 8)} (bytes : UserBytes m root va text)
      (nonzero : ∀ b ∈ text, b ≠ 0) (fits : text.length ≤ max)
      (stop : text.length < max → userByte m root (va + BitVec.ofNat 64 text.length) = none) :
      Fetched m root va max text none

/-- The bytes in front of the first NUL. -/
theorem takeWhile_nonzero (bs : List (BitVec 8)) :
    (∀ b ∈ bs.takeWhile (· ≠ 0), b ≠ 0) ∧
      (bs.takeWhile (· ≠ 0) = bs ∨ ∃ rest, bs = bs.takeWhile (· ≠ 0) ++ [0] ++ rest) := by
  induction bs with
  | nil => simp
  | cons b bs ih =>
    by_cases hb : b = 0
    · simp [hb]
    · rw [List.takeWhile_cons_of_pos (by simpa using hb)]
      refine ⟨List.forall_mem_cons.2 ⟨hb, ih.1⟩, ?_⟩
      rcases ih.2 with hall | ⟨rest, hrest⟩
      · exact .inl (by rw [hall])
      · exact .inr ⟨rest, by rw [List.cons_append, List.cons_append, ← hrest]⟩

/-- A page without a NUL comes before the rest. -/
theorem Fetched.prepend {max : Nat} {out : List (BitVec 8)} {r : Option Unit}
    (hbytes : UserBytes m root va bs) (hnonzero : ∀ b ∈ bs, b ≠ 0) (hlen : bs.length ≤ max)
    (h : Fetched m root (va + BitVec.ofNat 64 bs.length) (max - bs.length) out r) :
    Fetched m root va max (bs ++ out) r := by
  cases h with
  | @nul text bytes nonzero fits =>
    rw [← List.append_assoc]
    refine .nul ?_ (fun b hb => ?_) (by rw [List.length_append]; omega)
    · rw [List.append_assoc]
      exact userBytes_append.2 ⟨hbytes, bytes⟩
    · exact (List.mem_append.1 hb).elim (hnonzero b) (nonzero b)
  | cut bytes nonzero fits stop =>
    refine .cut (userBytes_append.2 ⟨hbytes, bytes⟩) (fun b hb => ?_)
      (by rw [List.length_append]; omega) fun hlt => ?_
    · exact (List.mem_append.1 hb).elim (hnonzero b) (nonzero b)
    · rw [List.length_append] at hlt ⊢
      rw [BitVec.ofNat_add, ← BitVec.add_assoc]
      exact stop (by omega)

/-- One round of `copyinstr`. -/
theorem copyinstrLoop_succ {fuel max : Nat} {pa : U64} {written : List (BitVec 8)}
    (hpa : m.userPage root va = some pa) :
    copyinstrLoop root (fuel + 1) va (max + 1) written m =
      (if ((chunk m pa va (min (4096 - va.toNat % 4096) (max + 1))).takeWhile (· ≠ 0)).length <
          min (4096 - va.toNat % 4096) (max + 1) then
        .ok ((written ++ (chunk m pa va (min (4096 - va.toNat % 4096) (max + 1))).takeWhile (· ≠ 0)
          ++ [0], some ()), m)
      else copyinstrLoop root fuel (PGROUNDDOWN va + PGSIZE)
        (max + 1 - min (4096 - va.toNat % 4096) (max + 1))
        (written ++ (chunk m pa va (min (4096 - va.toNat % 4096) (max + 1))).takeWhile (· ≠ 0))
          m) := by
  have hwalk : walkaddr root (PGROUNDDOWN va) m = .ok (some pa, m) := by
    rw [walkaddr_eq, userPage_PGROUNDDOWN, hpa]
  have hload : ∀ n, loadBytes pa (va - PGROUNDDOWN va).toNat n m = .ok (chunk m pa va n, m) := by
    intro n
    rw [toNat_sub_PGROUNDDOWN]
    rfl
  conv => lhs; unfold copyinstrLoop
  rw [Vm.bind_ok hwalk]
  dsimp only
  rw [toNat_PGSIZE_sub, Vm.bind_ok (hload _)]
  split <;> rfl

theorem copyinstrLoop_none {fuel max : Nat} {written : List (BitVec 8)}
    (hpa : m.userPage root va = none) :
    copyinstrLoop root (fuel + 1) va (max + 1) written m = .ok ((written, none), m) := by
  have hwalk : walkaddr root (PGROUNDDOWN va) m = .ok (none, m) := by
    rw [walkaddr_eq, userPage_PGROUNDDOWN, hpa]
  unfold copyinstrLoop
  exact Vm.bind_ok hwalk

theorem copyinstrLoop_fetched (fuel : Nat) : ∀ {va : U64} {max : Nat} (written : List (BitVec 8)),
    max ≤ fuel → ∃ out r, copyinstrLoop root fuel va max written m = .ok ((written ++ out, r), m) ∧
      Fetched m root va max out r := by
  induction fuel with
  | zero =>
    intro va max written hfuel
    obtain rfl : max = 0 := Nat.le_zero.1 hfuel
    refine ⟨[], none, ?_, .cut .nil (by simp) (Nat.le_refl 0) (by simp)⟩
    rw [List.append_nil]
    rfl
  | succ fuel ih =>
    intro va max written hfuel
    cases max with
    | zero =>
      refine ⟨[], none, ?_, .cut .nil (by simp) (Nat.le_refl 0) (by simp)⟩
      rw [List.append_nil]
      rfl
    | succ max =>
      cases hpa : m.userPage root va with
      | none =>
        refine ⟨[], none, ?_, .cut .nil (by simp) (Nat.zero_le _) fun _ => ?_⟩
        · rw [copyinstrLoop_none hpa, List.append_nil]
        · rw [List.length_nil, BitVec.add_zero, userByte_eq, hpa]
          rfl
      | some pa =>
        rw [copyinstrLoop_succ hpa]
        set n := min (4096 - va.toNat % 4096) (max + 1) with hn
        have hchunk : UserBytes m root va (chunk m pa va n) := userBytes_chunk hpa (by omega)
        obtain ⟨hnonzero, hsplit⟩ := takeWhile_nonzero (chunk m pa va n)
        rcases hsplit with hall | ⟨rest, hrest⟩
        · have hfull : ¬ ((chunk m pa va n).takeWhile (· ≠ 0)).length < n := by
            rw [hall, length_chunk]
            exact Nat.lt_irrefl n
          rw [if_neg hfull, hall]
          rw [hall] at hnonzero
          by_cases hmax : max + 1 = n
          · refine ⟨chunk m pa va n, none, ?_, .cut hchunk hnonzero ?_ fun hlt => ?_⟩
            · rw [show max + 1 - n = 0 by omega]
              cases fuel <;> rfl
            · rw [length_chunk]
              omega
            · rw [length_chunk] at hlt
              omega
          · -- the page is used up
            have hnext : PGROUNDDOWN va + PGSIZE =
                va + BitVec.ofNat 64 (chunk m pa va n).length := by
              rw [PGROUNDDOWN_add_PGSIZE, length_chunk, show 4096 - va.toNat % 4096 = n by omega]
            obtain ⟨out, r, hrun, hfetched⟩ : ∃ out r,
                copyinstrLoop root fuel (PGROUNDDOWN va + PGSIZE) (max + 1 - n)
                  (written ++ chunk m pa va n) m =
                    .ok ((written ++ chunk m pa va n ++ out, r), m) ∧
                Fetched m root (PGROUNDDOWN va + PGSIZE) (max + 1 - n) out r := ih _ (by omega)
            refine ⟨chunk m pa va n ++ out, r, ?_, ?_⟩
            · rw [hrun, List.append_assoc]
            · refine .prepend hchunk hnonzero (by rw [length_chunk]; omega) ?_
              rw [hnext] at hfetched
              rw [length_chunk] at hfetched ⊢
              exact hfetched
        · set text := (chunk m pa va n).takeWhile (· ≠ 0) with htext
          have hlen : text.length + 1 ≤ n := by
            have := congrArg List.length hrest
            simp only [length_chunk, List.length_append, List.length_singleton] at this
            omega
          rw [if_pos (by omega)]
          refine ⟨text ++ [0], some (), ?_, .nul ?_ hnonzero (by omega)⟩
          · rw [List.append_assoc]
          · rw [hrest] at hchunk
            exact (userBytes_append.1 hchunk).1

/-- `copyinstr` succeeds exactly when there is a NUL within `max` bytes, with
every page up to it mapped for the user.  Then it has stored the string and
its NUL, and otherwise `max` bytes at most. -/
theorem copyinstr_exact (m : Mem) (root va : U64) (max : Nat) :
    ∃ written r, copyinstr root va max m = .ok ((written, r), m) ∧
      (r = some () ↔ ∃ k < max, UserRange m root va (k + 1) ∧
        userByte m root (va + BitVec.ofNat 64 k) = some 0) ∧
      (r = some () → ∃ k < max, written.length = k + 1 ∧ UserBytes m root va written ∧
        userByte m root (va + BitVec.ofNat 64 k) = some 0 ∧
        ∀ i < k, userByte m root (va + BitVec.ofNat 64 i) ≠ some 0) ∧
      (r = none → written.length ≤ max) := by
  obtain ⟨written, r, hrun, hfetched⟩ : ∃ out r,
      copyinstrLoop root max va max [] m = .ok (([] ++ out, r), m) ∧ Fetched m root va max out r :=
    copyinstrLoop_fetched max [] (Nat.le_refl max)
  rw [List.nil_append] at hrun
  refine ⟨written, r, hrun, ?_⟩
  cases hfetched with
  | @nul text bytes nonzero fits =>
    obtain ⟨htext, hlast⟩ := userBytes_append.1 bytes
    have hnul : userByte m root (va + BitVec.ofNat 64 text.length) = some 0 := by
      have h0 := hlast 0 (by simp)
      rwa [BitVec.add_zero] at h0
    have hlen : (text ++ [0]).length = text.length + 1 := by simp
    refine ⟨⟨fun _ => ⟨text.length, fits, ?_, hnul⟩, fun _ => rfl⟩,
      fun _ => ⟨text.length, fits, hlen, bytes, hnul, fun i hi => ?_⟩, by simp⟩
    · refine reaches_iff_userRange.1 fun i hi j hj => userPage_ne_none.2 ?_
      refine userByte_ne_none.1 ?_
      rw [bytes j (by rw [hlen]; omega)]
      exact Option.some_ne_none _
    · rw [htext i hi]
      intro hzero
      exact nonzero _ (List.getElem_mem hi) (Option.some.inj hzero)
  | cut bytes nonzero fits stop =>
    refine ⟨⟨by simp, ?_⟩, by simp, fun _ => fits⟩
    rintro ⟨k, hk, hrange, hnul⟩
    rcases Nat.lt_or_ge k written.length with hlt | hge
    · rw [bytes k hlt] at hnul
      exact absurd (Option.some.inj hnul) (nonzero _ (List.getElem_mem hlt))
    · exact absurd (stop (by omega))
        (userByte_ne_none.2 (hrange written.length (by omega)).2)

end Xv6
