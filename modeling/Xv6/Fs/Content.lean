import Xv6.Fs.Owner

/-!
# What a file holds

`readi` and `writei` on an inode that has a block for every byte below its
size: a read finds the bytes of the file, and a write puts the bytes of its
source into it and leaves every other file alone.
-/

namespace Xv6.Fs

open Run
open Function (update)

variable {sb : Superblock} {first : Nat} {s s' : State} {ip : Nat} {E : String → Prop}

/-! ## Chunks -/

theorem chunk_le (off left : Nat) : chunk off left ≤ left := Nat.min_le_left ..

theorem chunk_fits (off left : Nat) : off % BSIZE + chunk off left ≤ BSIZE := by
  have hlt : off % BSIZE < BSIZE := Nat.mod_lt _ (by decide)
  have hle : chunk off left ≤ BSIZE - off % BSIZE := Nat.min_le_right ..
  omega

theorem chunk_pos {off left : Nat} (h : 0 < left) : 0 < chunk off left := by
  have hlt : off % BSIZE < BSIZE := Nat.mod_lt _ (by decide)
  exact Nat.lt_min.2 ⟨h, by omega⟩

theorem copied_spec (mapped : Nat → Bool) (tot m : Nat) :
    copied mapped tot m ≤ m ∧ (∀ i < copied mapped tot m, mapped (tot + i) = true) ∧
      (copied mapped tot m < m → mapped (tot + copied mapped tot m) = false) := by
  unfold copied
  cases hfind : (List.range m).find? fun i => !mapped (tot + i) with
  | none =>
    have hnone := List.find?_eq_none.1 hfind
    refine ⟨Nat.le_refl _, fun i hi => ?_, fun h => absurd h (Nat.lt_irrefl _)⟩
    simpa using hnone i (List.mem_range.2 hi)
  | some k =>
    obtain ⟨hbad, i, hk, hget, hbefore⟩ := List.find?_eq_some_iff_getElem.1 hfind
    have hki : i = k := by simpa using hget
    have hlen : (List.range m).length = m := List.length_range
    subst hki
    refine ⟨?_, fun j hj => ?_, fun _ => by simpa using hbad⟩
    · show i ≤ m
      omega
    · simpa using hbefore j hj

/-! ## Reading -/

/-- A block that is there already is found. -/
theorem bmap_found {bn : Nat} (hl : Locked s ip) (hx : s.slot (ip, index bn) ≠ 0) :
    Wp (bmap sb ip bn) (fun addr s' => s' = s ∧ addr = s.slot (ip, index bn)) E s := by
  rw [hl.slot_eq] at hx ⊢
  unfold bmap
  refine Wp.ite (fun hdirect => ?_) fun hdirect => ?_
  · have hslot : slotOf s.data (s.copy ip) (index bn) = (s.copy ip).addrs bn := by
      rw [index, if_pos hdirect, slotOf, if_pos (by omega)]
    rw [hslot] at hx ⊢
    unfold addrOf
    rw [wp_bind, wp_get, if_neg hx]
    exact ⟨rfl, rfl⟩
  · have hindex : index bn = bn + 1 := if_neg hdirect
    rw [hindex] at hx ⊢
    have hind : bn + 1 < NSLOT ∧ (s.copy ip).addrs NDIRECT ≠ 0 := by
      by_contra hnot
      rw [slotOf, if_neg (by omega), if_neg hnot] at hx
      exact hx rfl
    have hslots : NSLOT = NDIRECT + 1 + NINDIRECT := rfl
    have hslot : slotOf s.data (s.copy ip) (bn + 1) =
        entry (s.data ((s.copy ip).addrs NDIRECT)) (bn - NDIRECT) := by
      rw [slotOf, if_neg (by omega), if_pos hind, Nat.add_sub_add_right]
    rw [hslot] at hx ⊢
    have hlt : bn - NDIRECT < NINDIRECT := by
      have hlt := hind.1
      omega
    rw [if_pos hlt]
    unfold addrOf
    rw [wp_bind, wp_bind, wp_get, if_neg hind.2, wp_pure, if_neg hind.2, wp_bind, wp_get,
      if_neg hx]
    exact ⟨rfl, rfl⟩

/-- The bytes of a file. -/
def State.bytes (s : State) (i off n : Nat) : List Byte :=
  (List.range n).map fun k => s.byte i (off + k)

@[simp] theorem length_bytes (s : State) (i off n : Nat) : (s.bytes i off n).length = n := by
  simp [State.bytes]

theorem bytes_append (s : State) (i off k n : Nat) :
    s.bytes i off (k + n) = s.bytes i off k ++ s.bytes i (off + k) n := by
  simp only [State.bytes, List.range_add, List.map_append, List.map_map]
  congr 1
  refine List.map_congr_left fun j _ => ?_
  simp only [Function.comp_apply, Nat.add_assoc]

/-- Where a position lies does not change within a block. -/
theorem byte_of_block {i off k : Nat} (h : off % BSIZE + k < BSIZE) :
    s.byte i (off + k) = s.data (s.slot (i, index (off / BSIZE))) (off % BSIZE + k) := by
  have hpos : 0 < BSIZE := by decide
  have hdiv := Nat.div_add_mod off BSIZE
  have hblock : (off + k) / BSIZE = off / BSIZE := by
    rw [Nat.div_eq_of_lt_le] <;> rw [Nat.mul_comm] <;> [skip; rw [Nat.mul_succ]] <;> omega
  have hoff : (off + k) % BSIZE = off % BSIZE + k := by
    have hdiv' := Nat.div_add_mod (off + k) BSIZE
    rw [hblock] at hdiv'
    omega
  rw [State.byte, hblock, hoff]

/-- How far a read has come: all of the bytes, or up to a page that is not
mapped. -/
def ReadTo (s : State) (ip : Nat) (dst : Dest) (n tot off : Nat) (r : Int × List Byte) : Prop :=
  (r = ((n : Int), s.bytes ip off (n - tot)) ∧ ∀ i, tot ≤ i → i < n → dst i = true) ∨
    ∃ k < n - tot, r = (-1, s.bytes ip off k) ∧ dst (tot + k) = false

theorem readLoop_spec {dst : Dest} {n fuel tot off : Nat} (hl : Locked s ip)
    (halloc : Allocated s ip) (hfit : off + (n - tot) ≤ (s.cur ip).size) (htot : tot ≤ n)
    (hfuel : n - tot ≤ fuel) :
    Wp (readLoop sb ip dst n fuel tot off)
      (fun r s' => s' = s ∧ ReadTo s ip dst n tot off r) E s := by
  induction fuel generalizing tot off with
  | zero =>
    obtain rfl : tot = n := by omega
    exact ⟨rfl, .inl ⟨by rw [Nat.sub_self]; rfl, fun i _ _ => by omega⟩⟩
  | succ fuel ih =>
    rw [readLoop]
    refine Wp.ite (fun hlt => ?_) fun hge => ?_
    · have hthere : s.slot (ip, index (off / BSIZE)) ≠ 0 := by
        refine halloc _ ?_
        have hle := Nat.div_mul_le_self off BSIZE
        omega
      refine (bmap_found hl hthere).bind fun addr s' haddr => ?_
      obtain ⟨rfl, rfl⟩ := haddr
      rw [if_neg hthere, wp_bind, wp_get]
      obtain ⟨hk, hok, hbad⟩ := copied_spec dst tot (chunk off (n - tot))
      have hm := chunk_le off (n - tot)
      have hfits := chunk_fits off (n - tot)
      have hpos : 0 < chunk off (n - tot) := chunk_pos (by omega)
      have hbytes : ∀ k ≤ chunk off (n - tot), (List.range k).map
          (fun i => s'.data (s'.slot (ip, index (off / BSIZE))) (off % BSIZE + i)) =
            s'.bytes ip off k := by
        intro k hk
        refine List.map_congr_left fun i hi => ?_
        have hi := List.mem_range.1 hi
        exact (byte_of_block (by omega)).symm
      refine Wp.ite (fun hshort => ?_) fun hfull => ?_
      · refine ⟨rfl, .inr ⟨_, by omega, ?_, hbad hshort⟩⟩
        rw [hbytes _ hk]
      · have hall : copied dst tot (chunk off (n - tot)) = chunk off (n - tot) := by omega
        rw [hall] at hok ⊢
        rw [hbytes _ (Nat.le_refl _)]
        refine (ih (by omega) (by omega) (by omega)).bind fun r s'' hr => ?_
        obtain ⟨rfl, hr⟩ := hr
        refine ⟨rfl, ?_⟩
        obtain ⟨rfl, hdst⟩ | ⟨k, hk, rfl, hdst⟩ := hr
        · refine .inl ⟨?_, fun i hi hin => ?_⟩
          · rw [← bytes_append, show chunk off (n - tot) + (n - (tot + chunk off (n - tot))) =
              n - tot by omega]
          · by_cases hnear : i < tot + chunk off (n - tot)
            · have hmapped := hok (i - tot) (by omega)
              rwa [show tot + (i - tot) = i by omega] at hmapped
            · exact hdst i (by omega) hin
        · refine .inr ⟨chunk off (n - tot) + k, by omega, ?_, ?_⟩
          · rw [← bytes_append]
          · rw [← hdst, Nat.add_assoc]
    · obtain rfl : tot = n := by omega
      exact ⟨rfl, .inl ⟨by rw [Nat.sub_self]; rfl, fun i _ _ => by omega⟩⟩

/-- How many bytes `readi` reads. -/
def readLength (size : Nat) (off n : U32) : Nat :=
  if off.toNat > size ∨ off + n < off then 0 else min n.toNat (size - off.toNat)

theorem toNat_add_of_not_lt {off n : U32} (h : ¬ off + n < off) :
    (off + n).toNat = off.toNat + n.toNat := by
  have hlt := off.isLt
  have hn := n.isLt
  rw [BitVec.lt_def, BitVec.toNat_add] at h
  rw [BitVec.toNat_add]
  omega

theorem readi_spec {dst : Dest} {off n : U32} (hl : Locked s ip) (halloc : Allocated s ip) :
    Wp (readi sb ip dst off n)
      (fun r s' => s' = s ∧ ReadTo s ip dst (readLength (s.cur ip).size off n) 0 off.toNat r)
      E s := by
  have hcur := hl.cur_eq
  unfold readi
  rw [wp_bind, wp_get]
  show Wp (if off.toNat > (s.copy ip).size ∨ off + n < off then _ else _) _ _ _
  rw [← hcur]
  refine Wp.ite (fun hno => ?_) fun hyes => ?_
  · refine ⟨rfl, .inl ⟨?_, fun i _ hi => ?_⟩⟩
    · rw [readLength, if_pos hno]
      rfl
    · rw [readLength, if_pos hno] at hi
      omega
  · rw [not_or] at hyes
    have hsum := toNat_add_of_not_lt hyes.2
    have hlen : readLength (s.cur ip).size off n = min n.toNat ((s.cur ip).size - off.toNat) := by
      rw [readLength, if_neg (not_or.2 hyes)]
    rw [hlen]
    refine Wp.ite (fun hlong => ?_) fun hshort => ?_
    · rw [Nat.min_eq_right (by omega)]
      exact readLoop_spec hl halloc (by omega) (Nat.zero_le _) (by omega)
    · rw [Nat.min_eq_left (by omega)]
      exact readLoop_spec hl halloc (by omega) (Nat.zero_le _) (by omega)

/-! ## Writing -/

/-- The first `k` bytes of a source from `tot` on, laid at `off` of a file. -/
def span (src : Source) (off tot k : Nat) : Nat → Option Byte := fun p =>
  if off ≤ p ∧ p < off + k then src (tot + (p - off)) else none

theorem span_zero (src : Source) (off tot p : Nat) : span src off tot 0 p = none :=
  if_neg (by omega)

theorem span_append (src : Source) (off tot k l p : Nat) :
    (span src (off + k) (tot + k) l p).or (span src off tot k p) = span src off tot (k + l) p := by
  unfold span
  by_cases hnear : p < off + k
  · rw [if_neg (by omega), Option.none_or]
    by_cases hp : off ≤ p
    · rw [if_pos ⟨hp, hnear⟩, if_pos ⟨hp, by omega⟩]
    · rw [if_neg (by omega), if_neg (by omega)]
  · rw [if_neg (c := off ≤ p ∧ p < off + k) (by omega), Option.or_none]
    by_cases hfar : p < off + (k + l)
    · rw [if_pos ⟨by omega, by omega⟩, if_pos ⟨by omega, hfar⟩,
        show tot + k + (p - (off + k)) = tot + (p - off) by omega]
    · rw [if_neg (by omega), if_neg (by omega)]

theorem index_inj {a b : Nat} (h : index a = index b) : a = b := by
  unfold index at h
  split_ifs at h <;> omega

/-- The state after the source has been copied into block `b`. -/
def State.fillBlock (s : State) (b boff : Nat) (src : Source) (tot k : Nat) (log : List Nat) :
    State :=
  { s with data := update s.data b (fill (s.data b) boff src tot k), logged := log }

/-- A copy into a block of the file. -/
theorem wrote_fill (src : Source) {off : Nat} (tot k : Nat) {b : Nat} (hown : Owned sb first s)
    (hb : s.slot (ip, index (off / BSIZE)) = b) (hne : b ≠ 0) (hfit : off % BSIZE + k ≤ BSIZE)
    (log : List Nat) :
    (s.fillBlock b (off % BSIZE) src tot k log).slot = s.slot ∧
      Wrote ip (span src off tot k) s (s.fillBlock b (off % BSIZE) src tot k log) := by
  have hdata : ∀ c, c ≠ b → (s.fillBlock b (off % BSIZE) src tot k log).data c = s.data c :=
    fun c hc => Function.update_of_ne hc ..
  have hself : (s.fillBlock b (off % BSIZE) src tot k log).data b =
      fill (s.data b) (off % BSIZE) src tot k := Function.update_self ..
  have howner : ∀ {x}, s.slot x = b → x = (ip, index (off / BSIZE)) := fun hx =>
    hown.inj (by rwa [hx]) (hx.trans hb.symm)
  have hslot : (s.fillBlock b (off % BSIZE) src tot k log).slot = s.slot := by
    funext ⟨j, m⟩
    have hcur : (s.fillBlock b (off % BSIZE) src tot k log).cur j = s.cur j := rfl
    refine slot_congr hcur (fun _ => hdata _ fun heq => ?_) m
    exact index_ne _ (Prod.mk.inj (howner heq)).2.symm
  have hdiv := Nat.div_add_mod off BSIZE
  refine ⟨hslot, rfl, rfl, rfl, fun _ _ => rfl, rfl, fun _ h => h, fun x _ => by rw [hslot],
    fun x _ => by rw [hslot], fun x hx _ => hdata _ fun heq => hx ?_, fun p hp => ?_,
    fun p hp => ?_⟩
  · rw [howner heq]
  · rw [hslot] at hp
    rw [if_neg hp]
    have hpdiv := Nat.div_add_mod p BSIZE
    by_cases hblock : p / BSIZE = off / BSIZE
    · have hbyte : s.byte ip p = s.data b (p % BSIZE) := by rw [State.byte, hblock, hb]
      rw [State.byte, hslot, hblock, hb, hself, hbyte]
      unfold fill span
      rw [hblock] at hpdiv
      by_cases hin : off ≤ p ∧ p < off + k
      · rw [if_pos hin, if_pos (by omega), show p % BSIZE - off % BSIZE = p - off by omega]
      · rw [if_neg hin, if_neg (by omega), Option.getD_none]
    · have hout : span src off tot k p = none := by
        refine if_neg fun hin => hblock ?_
        have hpos : 0 < BSIZE := by decide
        rw [Nat.div_eq_of_lt_le] <;> rw [Nat.mul_comm] <;> [skip; rw [Nat.mul_succ]] <;> omega
      rw [hout, Option.getD_none, State.byte, hslot, hdata, State.byte]
      exact fun heq => hblock (index_inj (Prod.mk.inj (howner heq)).2)
  · rw [hslot]
    have hin : off ≤ p ∧ p < off + k := by
      by_contra hout
      exact hp (if_neg hout)
    have hblock : p / BSIZE = off / BSIZE := by
      have hpos : 0 < BSIZE := by decide
      rw [Nat.div_eq_of_lt_le] <;> rw [Nat.mul_comm] <;> [skip; rw [Nat.mul_succ]] <;> omega
    rwa [hblock, hb]

/-- Writing at `off` has stopped after `k` bytes because there is no free block:
the next byte would begin a block that is missing. -/
structure Stopped (sb : Superblock) (ip off k : Nat) (s : State) : Prop where
  full : Full sb s
  boundary : k = 0 ∨ BSIZE ∣ off + k
  missing : s.slot (ip, index ((off + k) / BSIZE)) = 0

/-- A write at `off` that is cut short after `k` bytes has ended where it
began or with a block, and has copied `e` bytes of the next. -/
def Cut (off k e : Nat) : Prop :=
  (k = 0 ∨ BSIZE ∣ off + k) ∧ (off + k) % BSIZE + e < BSIZE

/-- How far a write has come: `r` bytes are reported, and `e` more may have
been copied before a page that is not mapped. -/
structure WroteTo (sb : Superblock) (first ip : Nat) (src : Source) (n tot off : Nat) (s : State)
    (r e : Nat) (s' : State) : Prop where
  wrote : Wrote ip (span src off tot (r - tot + e)) s s'
  owned : Owned sb first s'
  ge : tot ≤ r
  le : r + e ≤ n
  mapped : ∀ i, tot ≤ i → i < r + e → src i ≠ none
  fault : e ≠ 0 → src (r + e) = none
  short : r < n → Stopped sb ip off (r - tot) s' ∨ src (r + e) = none
  cut : r < n → r + e < n ∧ Cut off (r - tot) e

theorem wroteTo_stop {src : Source} {n tot off : Nat}
    (hwrote : Wrote ip (fun _ => none) s s') (hown : Owned sb first s') (htot : tot ≤ n)
    (hfull : tot < n → Full sb s' ∧ s'.slot (ip, index (off / BSIZE)) = 0) :
    ∃ e, WroteTo sb first ip src n tot off s tot e s' := by
  refine ⟨0, hwrote.congr fun p => ?_, hown, Nat.le_refl _, htot, fun i _ _ => by omega,
    fun h => absurd rfl h, fun h => .inl ?_, fun h => ⟨h, ?_⟩⟩
  · rw [Nat.sub_self, span_zero]
  · rw [Nat.sub_self]
    exact ⟨(hfull h).1, .inl rfl, (hfull h).2⟩
  · rw [Nat.sub_self]
    exact ⟨.inl rfl, Nat.mod_lt _ (by decide)⟩

theorem WroteTo.cons {src : Source} {n tot off k r e : Nat} {s'' : State}
    (hwrote : Wrote ip (span src off tot k) s s')
    (hmapped : ∀ i, tot ≤ i → i < tot + k → src i ≠ none)
    (hk : k = n - tot ∨ BSIZE ∣ off + k)
    (h : WroteTo sb first ip src n (tot + k) (off + k) s' r e s'') :
    WroteTo sb first ip src n tot off s r e s'' := by
  have hge := h.ge
  refine ⟨(hwrote.trans h.wrote).congr fun p => ?_, h.owned, by omega, h.le, fun i hi hlt => ?_,
    h.fault, fun hlt => (h.short hlt).imp_left fun hstop => ?_, fun hlt => ?_⟩
  · rw [span_append, show k + (r - (tot + k) + e) = r - tot + e by omega]
  · by_cases hnear : i < tot + k
    · exact hmapped i hi hnear
    · exact h.mapped i (by omega) hlt
  · have hat : off + k + (r - (tot + k)) = off + (r - tot) := by omega
    have hmissing := hstop.missing
    have hboundary := hstop.boundary
    rw [hat] at hmissing hboundary
    refine ⟨hstop.full, .inr (hboundary.elim (fun hzero => ?_) id), hmissing⟩
    rw [show r - tot = k by omega]
    exact hk.resolve_left (by omega)
  · obtain ⟨hend, hboundary, hblock⟩ := h.cut hlt
    rw [show off + k + (r - (tot + k)) = off + (r - tot) by omega] at hboundary hblock
    refine ⟨hend, .inr (hboundary.elim (fun hzero => ?_) id), hblock⟩
    rw [show r - tot = k by omega]
    exact hk.resolve_left (by omega)

theorem chunk_ends (off left : Nat) : chunk off left = left ∨ BSIZE ∣ off + chunk off left := by
  by_cases hle : left ≤ BSIZE - off % BSIZE
  · exact .inl (Nat.min_eq_left hle)
  · refine .inr ?_
    have hchunk : chunk off left = BSIZE - off % BSIZE := Nat.min_eq_right (by omega)
    have hlt : off % BSIZE < BSIZE := Nat.mod_lt _ (by decide)
    have hdiv := Nat.div_add_mod off BSIZE
    exact ⟨off / BSIZE + 1, by rw [hchunk, Nat.mul_add, Nat.mul_one]; omega⟩

theorem writeLoop_spec {src : Source} {n fuel tot off : Nat} (hl : Locked s ip)
    (hown : Owned sb first s) (hfit : off + (n - tot) ≤ MAXFILE * BSIZE) (htot : tot ≤ n)
    (hfuel : n - tot ≤ fuel) :
    Wp (writeLoop sb ip src n fuel tot off)
      (fun r s' => ∃ e, WroteTo sb first ip src n tot off s r e s') E s := by
  induction fuel generalizing s tot off with
  | zero => exact wroteTo_stop (.refl ip s) hown htot fun h => by omega
  | succ fuel ih =>
    rw [writeLoop]
    refine Wp.ite (fun hlt => ?_) fun hge =>
      wroteTo_stop (.refl ip s) hown htot fun h => absurd h hge
    have hbn : off / BSIZE < MAXFILE := Nat.div_lt_of_lt_mul (by rw [Nat.mul_comm]; omega)
    refine (bmap_spec hl hown hbn).bind fun addr s₁ h₁ => ?_
    refine Wp.ite (fun hzero => ?_) fun hne => ?_
    · exact wroteTo_stop h₁.wrote h₁.owned htot fun _ => h₁.full hzero
    rw [wp_bind, wp_get, wp_bind, wp_setData]
    obtain ⟨hk, hok, hbad⟩ := copied_spec (fun i => (src i).isSome) tot (chunk off (n - tot))
    have hm := chunk_le off (n - tot)
    have hfits := chunk_fits off (n - tot)
    have hpos : 0 < chunk off (n - tot) := chunk_pos (by omega)
    generalize copied (fun i => (src i).isSome) tot (chunk off (n - tot)) = k at hk hok hbad ⊢
    have hmapped : ∀ i, tot ≤ i → i < tot + k → src i ≠ none := by
      intro i hi hlt
      have hsome := hok (i - tot) (by omega)
      rw [show tot + (i - tot) = i by omega] at hsome
      exact Option.isSome_iff_ne_none.1 hsome
    have hfill := wrote_fill src tot k h₁.owned (h₁.slot hne) hne (by omega)
    have howned : ∀ log, Owned sb first (s₁.fillBlock addr (off % BSIZE) src tot k log) := by
      intro log
      show Pool.Marks first sb.size s₁.bitmap _
      rw [(hfill log).1]
      exact h₁.owned
    refine Wp.ite (fun hshort => ?_) fun hfull => ?_
    · -- a page of the source is not mapped
      have hnone : src (tot + k) = none := by simpa using hbad hshort
      have hwrote := (h₁.wrote.trans (hfill s₁.logged).2).congr fun p => Option.or_none
      refine ⟨k, ?_, howned _, Nat.le_refl _, by omega, hmapped, fun _ => hnone,
        fun _ => .inr hnone, fun _ => ⟨by omega, ?_⟩⟩
      · rw [Nat.sub_self, Nat.zero_add]
        exact hwrote
      · rw [Nat.sub_self]
        refine ⟨.inl rfl, ?_⟩
        rw [Nat.add_zero]
        omega
    · obtain rfl : k = chunk off (n - tot) := by omega
      have hwrote := (h₁.wrote.trans (hfill (addr :: s₁.logged)).2).congr fun p => Option.or_none
      rw [wp_bind, wp_logWrite]
      refine (ih (hwrote.locked hl) (howned _) (by omega) (by omega) (by omega)).post
        fun r s₂ h => ?_
      obtain ⟨e, he⟩ := h
      exact ⟨e, he.cons hwrote hmapped (chunk_ends off _)⟩

/-- What a `writei` that has not been refused leaves: inode `ip` has been
saved with `size`, and its bytes are those that `g` gives, or the old ones. -/
structure Written (sb : Superblock) (first ip size : Nat) (g : Nat → Option Byte)
    (s s' : State) : Prop where
  owned : Owned sb first s'
  refs : s'.refs = s.refs
  valid : s'.valid = s.valid
  dinode : s'.dinode = update s.dinode ip (s'.copy ip)
  others : ∀ j, j ≠ ip → s'.copy j = s.copy j
  info : s'.copy ip = { s.copy ip with addrs := (s'.copy ip).addrs, size := size }
  marked : ∀ b, s.bitmap b = true → s'.bitmap b = true
  mono : ∀ x, s.slot x ≠ 0 → s'.slot x = s.slot x
  slot : ∀ x : Nat × Nat, x.1 ≠ ip → s'.slot x = s.slot x
  data : ∀ x : Nat × Nat, x.1 ≠ ip → s.slot x ≠ 0 → s'.data (s.slot x) = s.data (s.slot x)
  allocated : Allocated s' ip
  byte : ∀ p < size, s'.byte ip p = (g p).getD (s.byte ip p)

namespace Written

variable {size : Nat} {g : Nat → Option Byte}

theorem locked (h : Written sb first ip size g s s') (hl : Locked s ip) : Locked s' ip where
  ref := by
    rw [h.refs]
    exact hl.ref
  valid := by
    rw [h.valid]
    exact hl.valid
  type := by
    rw [h.info]
    exact hl.type

theorem size_eq (h : Written sb first ip size g s s') (hl : Locked s ip) :
    (s'.cur ip).size = size := by
  rw [(h.locked hl).cur_eq, h.info]

theorem cur (h : Written sb first ip size g s s') {j : Nat} (hj : j ≠ ip) :
    s'.cur j = s.cur j := by
  unfold State.cur
  rw [h.refs, h.valid, h.dinode, h.others j hj, Function.update_of_ne hj]

/-- The bytes of other files stay. -/
theorem byte_of_ne (h : Written sb first ip size g s s') {j p : Nat} (hj : j ≠ ip)
    (hp : s.slot (j, index (p / BSIZE)) ≠ 0) : s'.byte j p = s.byte j p := by
  unfold State.byte
  rw [h.slot _ hj, h.data _ hj hp]

theorem allocated_of_ne (h : Written sb first ip size g s s') {j : Nat} (hj : j ≠ ip)
    (ha : Allocated s j) : Allocated s' j := by
  intro bn hbn
  rw [h.cur hj] at hbn
  rw [h.slot _ hj]
  exact ha bn hbn

end Written

/-- The state after `writei` has set the size and saved the inode. -/
def State.save (s : State) (ip size : Nat) (log : List Nat) : State :=
  { s with
    copy := update s.copy ip { s.copy ip with size := size }
    dinode := update s.dinode ip { s.copy ip with size := size }
    logged := log }

theorem slot_save (hl : Locked s ip) (size : Nat) (log : List Nat) :
    (s.save ip size log).slot = s.slot := by
  have hcopy : (s.save ip size log).copy ip = { s.copy ip with size := size } :=
    Function.update_self ..
  have hl' : Locked (s.save ip size log) ip := by
    refine ⟨hl.ref, hl.valid, ?_⟩
    rw [hcopy]
    exact hl.type
  funext ⟨j, k⟩
  by_cases hj : j = ip
  · subst hj
    rw [hl'.slot_eq, hl.slot_eq, hcopy]
    rfl
  · have hcur : (s.save ip size log).cur j = s.cur j := by
      simp only [State.cur, State.save, Function.update_of_ne hj]
    exact slot_congr hcur (fun _ => rfl) k

theorem Stopped.save {off k : Nat} (h : Stopped sb ip off k s) (hl : Locked s ip) (size : Nat)
    (log : List Nat) : Stopped sb ip off k (s.save ip size log) := by
  refine ⟨h.full, h.boundary, ?_⟩
  rw [slot_save hl]
  exact h.missing

/-- The size after `k` bytes have been written at `off`. -/
def grown (size off k : Nat) : Nat := if off + k > size then off + k else size

theorem written_save {src : Source} {off k e : Nat} (hl : Locked s ip)
    (halloc : Allocated s ip) (hoff : off ≤ (s.cur ip).size)
    (hwrote : Wrote ip (span src off 0 (k + e)) s s') (hown : Owned sb first s')
    (hmapped : ∀ i < k + e, src i ≠ none) (log : List Nat) :
    Written sb first ip (grown (s.cur ip).size off k) (span src off 0 (k + e)) s
      (s'.save ip (grown (s.cur ip).size off k) log) := by
  have hl' := hwrote.locked hl
  have hslot := slot_save hl' (grown (s.cur ip).size off k) log
  have hcopy : (s'.save ip (grown (s.cur ip).size off k) log).copy ip =
      { s'.copy ip with size := grown (s.cur ip).size off k } := Function.update_self ..
  have hlocked : Locked (s'.save ip (grown (s.cur ip).size off k) log) ip := by
    refine ⟨hl'.ref, hl'.valid, ?_⟩
    rw [hcopy]
    exact hl'.type
  have hsize : ((s'.save ip (grown (s.cur ip).size off k) log).cur ip).size =
      grown (s.cur ip).size off k := by rw [hlocked.cur_eq, hcopy]
  have hbyte : ∀ p, (s'.save ip (grown (s.cur ip).size off k) log).byte ip p = s'.byte ip p :=
    fun p => by
      unfold State.byte
      rw [hslot]
      rfl
  -- what lies beyond the old size has been written
  have hnew : ∀ p, (s.cur ip).size ≤ p → p < grown (s.cur ip).size off k →
      span src off 0 (k + e) p ≠ none := by
    intro p hp hlt
    unfold grown at hlt
    rw [span]
    split_ifs at hlt with hgrow
    · rw [if_pos ⟨by omega, by omega⟩, Nat.zero_add]
      exact hmapped _ (by omega)
    · omega
  have hthere : ∀ p < grown (s.cur ip).size off k, s'.slot (ip, index (p / BSIZE)) ≠ 0 := by
    intro p hp
    by_cases hold : p < (s.cur ip).size
    · have hx : s.slot (ip, index (p / BSIZE)) ≠ 0 := by
        refine halloc _ ?_
        have hle := Nat.div_mul_le_self p BSIZE
        omega
      rwa [hwrote.mono _ hx]
    · exact hwrote.there p (hnew p (by omega) hp)
  refine ⟨?_, hwrote.refs, hwrote.valid, ?_, fun j hj => ?_, ?_, hwrote.marked, fun x hx => ?_,
    fun x hx => ?_, hwrote.data, fun bn hbn => ?_, fun p hp => ?_⟩
  · show Pool.Marks first sb.size s'.bitmap _
    rw [hslot]
    exact hown
  · rw [hcopy, ← hwrote.dinode]
    rfl
  · rw [← hwrote.others j hj]
    exact Function.update_of_ne hj ..
  · rw [hcopy, hwrote.info]
  · rw [hslot, hwrote.mono x hx]
  · rw [hslot, hwrote.slot x hx]
  · rw [hsize] at hbn
    rw [hslot]
    have hx := hthere _ hbn
    rwa [Nat.mul_div_cancel _ (by decide)] at hx
  · rw [hbyte, hwrote.byte p (hthere p hp)]
    by_cases hold : p < (s.cur ip).size
    · have hx : s.slot (ip, index (p / BSIZE)) ≠ 0 := by
        refine halloc _ ?_
        have hle := Nat.div_mul_le_self p BSIZE
        omega
      rw [if_neg hx]
    · obtain ⟨b, hb⟩ := Option.ne_none_iff_exists'.1 (hnew p (by omega) hp)
      rw [hb, Option.getD_some, Option.getD_some]

/-- `writei` refuses. -/
def Refused (size : Nat) (off n : U32) : Prop :=
  off.toNat > size ∨ off + n < off ∨ (off + n).toNat > MAXFILE * BSIZE

/-- What `writei` returns, and what it does. -/
def Writes (sb : Superblock) (first ip : Nat) (src : Source) (off n : U32) (s : State) (r : Int)
    (s' : State) : Prop :=
  (Refused (s.cur ip).size off n ∧ r = -1 ∧ s' = s) ∨
    ¬ Refused (s.cur ip).size off n ∧ ∃ k e : Nat, r = k ∧ k + e ≤ n.toNat ∧
      Written sb first ip (grown (s.cur ip).size off.toNat k) (span src off.toNat 0 (k + e)) s s' ∧
      (∀ i < k + e, src i ≠ none) ∧ (e ≠ 0 → src (k + e) = none) ∧
      (k < n.toNat → Stopped sb ip off.toNat k s' ∨ src (k + e) = none) ∧
      (k < n.toNat → k + e < n.toNat ∧ Cut off.toNat k e)

theorem writei_spec {src : Source} {off n : U32} (hl : Locked s ip) (hown : Owned sb first s)
    (halloc : Allocated s ip) :
    Wp (writei sb ip src off n) (Writes sb first ip src off n s) E s := by
  have hcur := hl.cur_eq
  unfold writei
  rw [wp_bind, wp_get]
  show Wp (if off.toNat > (s.copy ip).size ∨ off + n < off then _ else _) _ _ _
  rw [← hcur]
  refine Wp.ite (fun hno => ?_) fun hyes => Wp.ite (fun hbig => ?_) fun hfit => ?_
  · exact .inl ⟨hno.elim .inl fun h => .inr (.inl h), rfl, rfl⟩
  · exact .inl ⟨.inr (.inr hbig), rfl, rfl⟩
  · rw [not_or] at hyes
    have hsum := toNat_add_of_not_lt hyes.2
    have hnot : ¬ Refused (s.cur ip).size off n := fun h =>
      h.elim hyes.1 fun h => h.elim hyes.2 hfit
    refine (writeLoop_spec hl hown (by omega) (Nat.zero_le _) (by omega)).bind fun k s₁ h => ?_
    obtain ⟨e, h⟩ := h
    have hwrote := h.wrote
    rw [Nat.sub_zero] at hwrote
    rw [wp_bind, wp_setCopy, wp_bind]
    have hsize : (s.cur ip).size = (s₁.copy ip).size := by rw [hcur, hwrote.info]
    have hwritten := written_save hl halloc (Nat.not_lt.1 hyes.1) hwrote h.owned
      (fun i hi => h.mapped i (Nat.zero_le _) hi) (sb.IBLOCK ip :: s₁.logged)
    have hcopy : (if off.toNat + k > (s₁.copy ip).size then
        { s₁.copy ip with size := off.toNat + k } else s₁.copy ip) =
          { s₁.copy ip with size := grown (s.cur ip).size off.toNat k } := by
      unfold grown
      rw [hsize]
      split_ifs <;> rfl
    have hstopped := fun hlt => (h.short hlt).imp_left fun hstop =>
      hstop.save (hwrote.locked hl) (grown (s.cur ip).size off.toNat k)
        (sb.IBLOCK ip :: s₁.logged)
    simp only [hcopy]
    refine .inr ⟨hnot, k, e, rfl, h.le, ?_, fun i hi => h.mapped i (Nat.zero_le _) hi, h.fault,
      ?_, h.cut⟩
    · simp only [Function.update_self]
      exact hwritten
    · simp only [Function.update_self]
      exact hstopped

theorem grown_eq (size off k : Nat) : grown size off k = max size (off + k) := by
  unfold grown
  split_ifs <;> omega

/-- A write leaves the files of others alone. -/
theorem Writes.others {src : Source} {off n : U32} {r : Int} (h : Writes sb first ip src off n s r s')
    {j : Nat} (hj : j ≠ ip) : s'.cur j = s.cur j ∧
      ∀ p, s.slot (j, index (p / BSIZE)) ≠ 0 → s'.byte j p = s.byte j p := by
  rcases h with ⟨-, -, rfl⟩ | ⟨-, k, e, -, -, hw, -⟩
  · exact ⟨rfl, fun _ _ => rfl⟩
  · exact ⟨hw.cur hj, fun p hp => hw.byte_of_ne hj hp⟩

theorem Writes.keeps {src : Source} {off n : U32} {r : Int} (h : Writes sb first ip src off n s r s')
    (hl : Locked s ip) (hown : Owned sb first s) (halloc : Allocated s ip) :
    Locked s' ip ∧ Owned sb first s' ∧ Allocated s' ip := by
  rcases h with ⟨-, -, rfl⟩ | ⟨-, k, e, -, -, hw, -⟩
  · exact ⟨hl, hown, halloc⟩
  · exact ⟨hw.locked hl, hw.owned, hw.allocated⟩

/-- A file is a string of bytes: `writei` replaces a part of it, which may
reach beyond its end, and `readi` finds what is there. -/
theorem file_is_string (sb : Superblock) (first : Nat) (s : State) (ip : Nat) (hl : Locked s ip)
    (hown : Owned sb first s) (halloc : Allocated s ip) (off n : U32) (bs : Nat → Byte) :
    Wp (writei sb ip (fun i => some (bs i)) off n) (fun r s' =>
      (r = -1 ↔ Refused (s.cur ip).size off n) ∧
      (Refused (s.cur ip).size off n → s' = s) ∧
      (¬ Refused (s.cur ip).size off n → ∃ k : Nat, r = k ∧ k ≤ n.toNat ∧
        (k < n.toNat → Full sb s') ∧
        (s'.cur ip).size = max (s.cur ip).size (off.toNat + k) ∧
        ∀ p < (s'.cur ip).size, s'.byte ip p =
          if off.toNat ≤ p ∧ p < off.toNat + k then bs (p - off.toNat) else s.byte ip p) ∧
      (∀ j, j ≠ ip → s'.cur j = s.cur j ∧
        ∀ p, s.slot (j, index (p / BSIZE)) ≠ 0 → s'.byte j p = s.byte j p) ∧
      (Locked s' ip ∧ Owned sb first s' ∧ Allocated s' ip) ∧
      ∀ off' n' : U32, Wp (readi sb ip (fun _ => true) off' n') (fun r s'' => s'' = s' ∧
        r = ((readLength (s'.cur ip).size off' n' : Int),
          s'.bytes ip off'.toNat (readLength (s'.cur ip).size off' n'))) (fun _ => False) s')
      (fun _ => False) s := by
  refine (writei_spec hl hown halloc).post fun r s' h => ?_
  obtain ⟨hl', hown', halloc'⟩ := h.keeps hl hown halloc
  refine ⟨⟨fun hr => ?_, fun hrefused => ?_⟩, fun hrefused => ?_, fun haccepted => ?_,
    fun j hj => h.others hj, ⟨hl', hown', halloc'⟩, fun off' n' => ?_⟩
  · rcases h with ⟨hrefused, -⟩ | ⟨-, k, e, rfl, -⟩
    · exact hrefused
    · omega
  · rcases h with ⟨-, rfl, -⟩ | ⟨hno, -⟩
    · rfl
    · exact absurd hrefused hno
  · rcases h with ⟨-, -, rfl⟩ | ⟨hno, -⟩
    · rfl
    · exact absurd hrefused hno
  · rcases h with ⟨hrefused, -⟩ | ⟨-, k, e, rfl, hke, hw, -, hfault, hshort, -⟩
    · exact absurd hrefused haccepted
    · obtain rfl : e = 0 := by
        by_contra hne
        exact Option.some_ne_none _ (hfault hne)
      have hsize := hw.size_eq hl
      refine ⟨k, rfl, hke, fun hlt => ?_, hsize.trans (grown_eq ..), fun p hp => ?_⟩
      · exact ((hshort hlt).resolve_right (Option.some_ne_none _)).full
      · rw [hw.byte p (by omega), span, Nat.add_zero, Nat.zero_add]
        split_ifs <;> rfl
  · refine (readi_spec hl' halloc').post fun r s'' hr => ?_
    obtain ⟨rfl, ⟨rfl, -⟩ | ⟨k, -, -, hbad⟩⟩ := hr
    · exact ⟨rfl, rfl⟩
    · cases hbad

/-- A byte can be written to an empty file. -/
theorem file_is_string_lone : ∃ r s',
    (writei tiny 1 (fun _ => some 7) 0 1).run (lone T_FILE) = .ok (r, s') ∧ r ≠ -1 := by
  have hl : Locked (lone T_FILE) 1 := locked_lone (by decide)
  obtain ⟨⟨r, s'⟩, hrun, hr, -⟩ := (file_is_string tiny 1 (lone T_FILE) 1 hl
    (owned_lone T_FILE) (allocated_lone (by decide)) 0 1 fun _ => 7).run
  refine ⟨r, s', hrun, fun hbad => ?_⟩
  have hrefused := hr.1 hbad
  rw [hl.cur_eq] at hrefused
  exact absurd hrefused (show ¬ (0 > 0 ∨ (0 + 1 : U32) < 0 ∨ (0 + 1 : U32).toNat > MAXFILE * BSIZE)
    by decide)

end Xv6.Fs
