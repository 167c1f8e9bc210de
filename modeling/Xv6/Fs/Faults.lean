import Xv6.Fs.Trunc
import Xv6.Fs.Sysfile

/-!
# Writing from memory that is not mapped

`writei` copies straight into the buffer of a block, and logs the block when
the copy is complete.  A copy that stops at a page that is not mapped leaves in
the buffer what it has copied.  `Harmless` says of the arguments of a write
that no byte of the file is lost in this way.
-/

namespace Xv6.Fs

open Run
open Function (update)
open Relation (ReflTransGen)

variable {sb : Superblock} {first : Nat} {s s' s'' : State} {ip : Nat} {E : String → Prop}

/-! ## What becomes of a block -/

/-- A file system, and the contents of its disk. -/
structure Medium where
  state : State
  disk : Nat → Words.Mem

variable {m m' : Medium} {may : Nat → Words.Mem → Words.Mem → Prop}

/-- What happens to the buffers later; a block is only changed as `may` says. -/
inductive Buffers (may : Nat → Words.Mem → Words.Mem → Prop) : Medium → Medium → Prop
  /-- A buffer that is not in the log is recycled, and its block is read again. -/
  | evict (s : State) (disk : Nat → Words.Mem) (b : Nat) (h : b ∉ s.logged) :
      Buffers may ⟨s, disk⟩ ⟨{ s with data := update s.data b (disk b) }, disk⟩
  /-- A block is changed and logged. -/
  | write (s : State) (disk : Nat → Words.Mem) (b : Nat) (d : Words.Mem)
      (h : may b (s.data b) d) :
      Buffers may ⟨s, disk⟩
        ⟨{ s with data := update s.data b d, logged := b :: s.logged }, disk⟩
  /-- The log commits. -/
  | commit (s : State) (disk : Nat → Words.Mem) :
      Buffers may ⟨s, disk⟩
        ⟨{ s with logged := [] }, fun b => if b ∈ s.logged then s.data b else disk b⟩

theorem Buffers.cur (h : Buffers may m m') : m'.state.cur = m.state.cur := by
  cases h <;> rfl

/-- Block `b` is as `P` says in its buffer, and on the disk unless it is in
the log. -/
def Stays (P : Words.Mem → Prop) (b : Nat) (m : Medium) : Prop :=
  P (m.state.data b) ∧ (b ∈ m.state.logged ∨ P (m.disk b))

theorem Stays.step {P : Words.Mem → Prop} {b : Nat} (hmay : ∀ d d', may b d d' → P d → P d')
    (h : Stays P b m) (hstep : Buffers may m m') : Stays P b m' := by
  obtain ⟨hdata, hdisk⟩ := h
  cases hstep with
  | evict s disk c hc =>
    by_cases hbc : b = c
    · subst hbc
      have hthere : P (disk b) := hdisk.resolve_left hc
      exact ⟨by simpa using hthere, .inr hthere⟩
    · exact ⟨by simpa [hbc] using hdata, hdisk⟩
  | write s disk c d hd =>
    by_cases hbc : b = c
    · subst hbc
      exact ⟨by simpa using hmay _ _ hd hdata, .inl List.mem_cons_self⟩
    · exact ⟨by simpa [hbc] using hdata, hdisk.imp_left (List.mem_cons_of_mem c)⟩
  | commit s disk =>
    refine ⟨hdata, .inr ?_⟩
    by_cases hb : b ∈ s.logged
    · simpa [hb] using hdata
    · simpa [hb] using hdisk.resolve_left hb

/-- The entry of the indirect block that leads to byte `p` of a file. -/
def entryOf (p : Nat) : Nat := index (p / BSIZE) - (NDIRECT + 1)

/-- A change of block `b` from `d` to `d'` spares byte `p` of inode `i`, and
the entry of the indirect block that leads to it. -/
structure Spares (s : State) (i p b : Nat) (d d' : Words.Mem) : Prop where
  byte : b = s.slot (i, index (p / BSIZE)) → d' (p % BSIZE) = d (p % BSIZE)
  entry : NDIRECT < index (p / BSIZE) → b = (s.cur i).addrs NDIRECT →
    entry d' (entryOf p) = entry d (entryOf p)

/-- Byte `p` of inode `i` reads `v`: in the buffer cache, and whatever happens
to the buffers later, as long as no logged write changes it. -/
def Reads (m : Medium) (i p : Nat) (v : Byte) : Prop :=
  ∀ m', ReflTransGen (Buffers (Spares m.state i p)) m m' → m'.state.byte i p = v

theorem Reads.now {i p : Nat} {v : Byte} (h : Reads m i p v) : m.state.byte i p = v := h m .refl

theorem reads_of_stays {i p : Nat} {v : Byte}
    (hbyte : Stays (fun d => d (p % BSIZE) = v) (m.state.slot (i, index (p / BSIZE))) m)
    (hentry : NDIRECT < index (p / BSIZE) →
      Stays (fun d => entry d (entryOf p) =
        entry (m.state.data ((m.state.cur i).addrs NDIRECT)) (entryOf p))
        ((m.state.cur i).addrs NDIRECT) m) : Reads m i p v := by
  intro m' hrun
  have hkept : m'.state.cur = m.state.cur ∧
      Stays (fun d => d (p % BSIZE) = v) (m.state.slot (i, index (p / BSIZE))) m' ∧
      (NDIRECT < index (p / BSIZE) →
        Stays (fun d => entry d (entryOf p) =
          entry (m.state.data ((m.state.cur i).addrs NDIRECT)) (entryOf p))
          ((m.state.cur i).addrs NDIRECT) m') := by
    induction hrun with
    | refl => exact ⟨rfl, hbyte, hentry⟩
    | tail _ hstep ih =>
      obtain ⟨hcur, hb, he⟩ := ih
      refine ⟨hstep.cur.trans hcur, hb.step (fun d d' h hd => ?_) hstep, fun hfar =>
        (he hfar).step (fun d d' h hd => ?_) hstep⟩
      · rw [h.byte rfl, hd]
      · rw [h.entry hfar rfl, hd]
  obtain ⟨hcur, hb, he⟩ := hkept
  have hslot : m'.state.slot (i, index (p / BSIZE)) = m.state.slot (i, index (p / BSIZE)) := by
    unfold State.slot slotOf
    rw [hcur]
    by_cases hnear : index (p / BSIZE) ≤ NDIRECT
    · rw [if_pos hnear, if_pos hnear]
    · have hsame := (he (Nat.lt_of_not_le hnear)).1
      rw [if_neg hnear, if_neg hnear]
      unfold entryOf at hsame
      rw [hsame]
  rw [State.byte, hslot]
  exact hb.1

/-- What is not in the log is on the disk as in the buffers. -/
def Clean (m : Medium) : Prop := ∀ b, b ∉ m.state.logged → m.disk b = m.state.data b

/-- A block that is found through the indirect block. -/
theorem slot_far {i k : Nat} (hthere : s.slot (i, k) ≠ 0) (hfar : NDIRECT < k) :
    s.slot (i, NDIRECT) = (s.cur i).addrs NDIRECT ∧ s.slot (i, NDIRECT) ≠ 0 ∧
      s.slot (i, k) = entry (s.data ((s.cur i).addrs NDIRECT)) (k - (NDIRECT + 1)) := by
  unfold State.slot slotOf at hthere ⊢
  have htype : (s.cur i).type ≠ 0 := fun h => hthere (if_pos h)
  rw [if_neg htype, if_neg (Nat.not_le_of_lt hfar)] at hthere
  have hind : k < NSLOT ∧ (s.cur i).addrs NDIRECT ≠ 0 := by
    by_contra hnot
    exact hthere (if_neg hnot)
  rw [if_neg htype, if_neg htype, if_pos (Nat.le_refl NDIRECT),
    if_neg (Nat.not_le_of_lt hfar), if_pos hind]
  exact ⟨rfl, hind.2, rfl⟩

/-- A byte that is there still, in its place, reads as before. -/
theorem reads_of_same {disk : Nat → Words.Mem} {i p : Nat} (hclean : Clean ⟨s, disk⟩)
    (hlogged : s.logged ⊆ s'.logged) (hmono : ∀ x, s.slot x ≠ 0 → s'.slot x = s.slot x)
    (hthere : s.slot (i, index (p / BSIZE)) ≠ 0) (hbyte : s'.byte i p = s.byte i p) :
    Reads ⟨s', disk⟩ i p (s.byte i p) := by
  have hslot := hmono _ hthere
  have hdisk : ∀ b, b ∉ s'.logged → disk b = s.data b := fun b hb =>
    hclean b fun hin => hb (hlogged hin)
  refine reads_of_stays ⟨hbyte, ?_⟩ fun hfar => ⟨rfl, ?_⟩
  · refine or_iff_not_imp_left.2 fun hnot => ?_
    show disk _ _ = _
    rw [hdisk _ hnot]
    show s.data (s'.slot _) _ = _
    rw [hslot]
    rfl
  · refine or_iff_not_imp_left.2 fun hnot => ?_
    show entry (disk _) _ = _
    rw [hdisk _ hnot]
    have hthere' : s'.slot (i, index (p / BSIZE)) ≠ 0 := by rwa [hslot]
    obtain ⟨hind, hne, hk⟩ := slot_far hthere hfar
    obtain ⟨hind', -, hk'⟩ := slot_far hthere' hfar
    have hsame : (s'.cur i).addrs NDIRECT = (s.cur i).addrs NDIRECT := by
      rw [← hind', hmono _ hne, hind]
    have hk' : s.slot (i, index (p / BSIZE)) =
        entry (s'.data ((s'.cur i).addrs NDIRECT)) (entryOf p) := by rw [← hslot, hk']; rfl
    show entry _ _ = entry (s'.data ((s'.cur i).addrs NDIRECT)) (entryOf p)
    rw [← hk', hk, hsame]
    rfl


/-! ## What is logged stays so -/

theorem balloc_grows : Wp (balloc sb) (fun _ s' => s.logged ⊆ s'.logged) E s := by
  unfold balloc
  rw [wp_bind, wp_get]
  cases (List.range sb.size).find? fun b => !s.bitmap b with
  | none => exact List.Subset.refl _
  | some b => exact List.Subset.trans (List.subset_cons_self ..) (List.subset_cons_self ..)

theorem addrOf_grows {i : Nat} : Wp (addrOf sb ip i) (fun _ s' => s.logged ⊆ s'.logged) E s := by
  unfold addrOf
  rw [wp_bind, wp_get]
  refine Wp.ite (fun _ => ?_) fun _ => List.Subset.refl _
  exact balloc_grows.bind fun r s₁ h => Wp.ite (fun _ => h) fun _ => h

theorem bmap_grows {bn : Nat} :
    Wp (bmap sb ip bn) (fun _ s' => s.logged ⊆ s'.logged) (fun _ => True) s := by
  unfold bmap
  refine Wp.ite (fun _ => addrOf_grows) fun _ => Wp.ite (fun _ => ?_) fun _ => trivial
  refine addrOf_grows.bind fun ind s₁ h₁ => Wp.ite (fun _ => h₁) fun _ => ?_
  rw [wp_bind, wp_get]
  refine Wp.ite (fun _ => ?_) fun _ => h₁
  refine balloc_grows.bind fun r s₂ h₂ => ?_
  have hboth := List.Subset.trans h₁ h₂
  exact Wp.ite (fun _ => hboth) fun _ => List.Subset.trans hboth (List.subset_cons_self ..)

theorem writeLoop_grows {src : Source} {n fuel tot off : Nat} :
    Wp (writeLoop sb ip src n fuel tot off) (fun _ s' => s.logged ⊆ s'.logged)
      (fun _ => True) s := by
  induction fuel generalizing tot off s with
  | zero => exact List.Subset.refl _
  | succ fuel ih =>
    unfold writeLoop
    refine Wp.ite (fun _ => ?_) fun _ => List.Subset.refl _
    refine bmap_grows.bind fun addr s₁ h₁ => Wp.ite (fun _ => h₁) fun _ => ?_
    rw [wp_bind, wp_get, wp_bind, wp_setData]
    refine Wp.ite (fun _ => h₁) fun _ => ?_
    rw [wp_bind, wp_logWrite]
    have hfirst := List.Subset.trans h₁ (List.subset_cons_self addr _)
    exact ih.post fun r s₂ h₂ => List.Subset.trans hfirst h₂

theorem writei_grows {src : Source} {off n : U32} :
    Wp (writei sb ip src off n) (fun _ s' => s.logged ⊆ s'.logged) (fun _ => True) s := by
  unfold writei
  rw [wp_bind, wp_get]
  refine Wp.ite (fun _ => List.Subset.refl _) fun _ => Wp.ite (fun _ => List.Subset.refl _)
    fun _ => ?_
  refine writeLoop_grows.bind fun k s₁ h => ?_
  rw [wp_bind, wp_setCopy, wp_bind, wp_iupdate]
  exact List.Subset.trans h (List.subset_cons_self ..)

/-! ## How a write ends -/

/-- How a write of `n` bytes at `off`, at most `max` at a time, to a file of
`size` bytes ends: `t` bytes are reported, and `e` more have been copied. -/
inductive Ended (size max : Nat) (src : Source) (off n t e : Nat) : Prop
  /-- All is written. -/
  | done (hall : t = n) (hnone : e = 0)
  /-- A page of the source is not mapped. -/
  | fault (hbad : src (t + e) = none) (hlt : t + e < n) (hturn : t / max = (t + e) / max)
      (hfits : off + t / max * max + min (n - t / max * max) max ≤ MAXFILE * BSIZE)
      (hstart : max ∣ t ∨ BSIZE ∣ off + t) (hblock : (off + t) % BSIZE + e < BSIZE)
  /-- There is no block for the next byte, which lies beyond the end. -/
  | full (hstart : max ∣ t ∨ BSIZE ∣ off + t) (hend : size ≤ off + t) (hnone : e = 0)
  /-- `writei` refuses, for the file would become too long. -/
  | refused (hstart : max ∣ t) (hnone : e = 0)
      (hbig : MAXFILE * BSIZE < off + t + min (n - t) max)

/-- What a write has done when it ends as `Ended` says. -/
structure Fills (ip max : Nat) (src : Source) (off n : Nat) (s : State) (t e : Nat)
    (s' : State) : Prop where
  mono : ∀ x, s.slot x ≠ 0 → s'.slot x = s.slot x
  logged : s.logged ⊆ s'.logged
  byte : ∀ p < (s.cur ip).size, s'.byte ip p = (span src off 0 (t + e) p).getD (s.byte ip p)
  mapped : ∀ i < t + e, src i ≠ none
  ended : Ended (s.cur ip).size max src off n t e

/-- Byte `u` of a source is the first that is not mapped. -/
def FirstFault (src : Source) (u : Nat) : Prop := src u = none ∧ ∀ i < u, src i ≠ none

/-- A write of `n` bytes at `off`, at most `max` at a time, does no harm where
it does not report: what a turn copies into the block in which it meets the
first page that is not mapped is there already, or lies beyond the end of the
file. -/
def Harmless (max : Nat) (s : State) (ip : Nat) (src : Source) (off n : Nat) : Prop :=
  ∀ u < n, FirstFault src u →
    off + u / max * max + min (n - u / max * max) max ≤ MAXFILE * BSIZE →
      ∀ i < u, u / max * max ≤ i → (off + u) / BSIZE * BSIZE ≤ off + i →
        off + i < (s.cur ip).size → src i = some (s.byte ip (off + i))

/-- No byte of the file outside of `off` to `off'` differs from before, now or
later. -/
def Spared (s : State) (disk : Nat → Words.Mem) (ip off off' : Nat) (s' : State) : Prop :=
  ∀ p < (s.cur ip).size, ¬ (off ≤ p ∧ p < off') → Reads ⟨s', disk⟩ ip p (s.byte ip p)

section ends

variable {max : Nat} {src : Source} {off n t e u i : Nat}

/-- Where a write stops, no turn and no block that comes later begins before. -/
theorem start_le (hstart : max ∣ t ∨ BSIZE ∣ off + t) (hu : t ≤ u) (hturn : u / max * max ≤ i)
    (hblock : (off + u) / BSIZE * BSIZE ≤ off + i) : t ≤ i := by
  rcases hstart with hdvd | hdvd
  · have hle : t / max * max ≤ u / max * max :=
      Nat.mul_le_mul_right max (Nat.div_le_div_right hu)
    rw [Nat.div_mul_cancel hdvd] at hle
    omega
  · have hle : (off + t) / BSIZE * BSIZE ≤ (off + u) / BSIZE * BSIZE :=
      Nat.mul_le_mul_right BSIZE (Nat.div_le_div_right (by omega))
    rw [Nat.div_mul_cancel hdvd] at hle
    omega

/-- A turn that is refused is not followed by one that is not. -/
theorem refused_later (hstart : max ∣ t) (hbig : MAXFILE * BSIZE < off + t + min (n - t) max)
    (hu : t ≤ u) : MAXFILE * BSIZE < off + u / max * max + min (n - u / max * max) max := by
  have hle : t / max ≤ u / max := Nat.div_le_div_right hu
  have ht : t / max * max = t := Nat.div_mul_cancel hstart
  rcases Nat.eq_or_lt_of_le hle with heq | hlt
  · rwa [← heq, ht]
  · have hnext : (t / max + 1) * max ≤ u / max * max := Nat.mul_le_mul_right max hlt
    rw [Nat.add_mul, ht, Nat.one_mul] at hnext
    omega

/-- A write spares what it does not report exactly if it is harmless. -/
theorem Fills.spared_iff {disk : Nat → Words.Mem} (h : Fills ip max src off n s t e s')
    (halloc : Allocated s ip) (hclean : Clean ⟨s, disk⟩) :
    Spared s disk ip off (off + t) s' ↔ Harmless max s ip src off n := by
  constructor
  · intro hspared u hu hfirst hfits i hi hturn hblock hsize
    have hte : t + e ≤ u := by
      by_contra hlt
      exact h.mapped u (by omega) hfirst.1
    cases h.ended with
    | done hall hnone => omega
    | fault hbad hlt hsame _ hstart _ =>
      have hti : t ≤ i := start_le hstart (by omega) hturn hblock
      have hue : u = t + e := by
        by_contra hne
        exact hfirst.2 (t + e) (by omega) hbad
      have hbyte := (hspared (off + i) hsize (by omega)).now
      have hin : off ≤ off + i ∧ off + i < off + (t + e) := by omega
      rw [h.byte _ hsize, span, if_pos hin, Nat.zero_add, Nat.add_sub_cancel_left] at hbyte
      obtain ⟨b, hb⟩ := Option.ne_none_iff_exists'.1 (hfirst.2 i hi)
      rw [hb, Option.getD_some] at hbyte
      rw [hb, hbyte]
    | full hstart hend _ =>
      have hti : t ≤ i := start_le hstart (by omega) hturn hblock
      omega
    | refused hstart hnone hbig =>
      have hlater := refused_later (u := u) hstart hbig (by omega)
      omega
  · intro hharmless p hp hout
    have hthere : s.slot (ip, index (p / BSIZE)) ≠ 0 := by
      refine halloc _ ?_
      have hle := Nat.div_mul_le_self p BSIZE
      omega
    refine reads_of_same hclean h.logged h.mono hthere ?_
    rw [h.byte p hp, span]
    by_cases hin : off ≤ p ∧ p < off + (t + e)
    · rw [if_pos hin, Nat.zero_add]
      cases h.ended with
      | fault hbad hlt hsame hfits _ hblock =>
        rw [hsame] at hfits
        have hturn : (t + e) / max * max ≤ t := hsame ▸ Nat.div_mul_le_self t max
        have hstart : (off + (t + e)) / BSIZE * BSIZE ≤ off + t := by
          simp only [BSIZE] at hblock ⊢
          omega
        have hsame := hharmless (t + e) hlt ⟨hbad, h.mapped⟩ hfits (p - off) (by omega)
          (by omega) (by omega) (by omega)
        rw [hsame, Option.getD_some, Nat.add_sub_of_le hin.1]
      | done _ hnone => omega
      | full _ _ hnone => omega
      | refused _ hnone _ => omega
    · rw [if_neg hin, Option.getD_none]

end ends

/-! ## `writei` -/

theorem refused_iff {size : Nat} {off n : U32} :
    Refused size off n ↔ size < off.toNat ∨ MAXFILE * BSIZE < off.toNat + n.toNat := by
  have hoff := off.isLt
  have hn := n.isLt
  have hsum : (off + n).toNat = (off.toNat + n.toNat) % 2 ^ 32 := BitVec.toNat_add ..
  have hlt : off + n < off ↔ (off + n).toNat < off.toNat := BitVec.lt_def
  unfold Refused
  rw [hlt, hsum]
  simp only [MAXFILE, NDIRECT, NINDIRECT, BSIZE]
  omega

section writei

variable {max n : Nat} {src : Source} {off n1 : U32} {r : Int}

/-- A call of `writei` that is the last of a write. -/
theorem Writes.fills (h : Writes sb first ip src off n1 s r s') (halloc : Allocated s ip)
    (hlogged : s.logged ⊆ s'.logged) (hn1 : n1.toNat = min n max)
    (hlast : r ≠ n1.toNat ∨ n1.toNat = n) :
    ∃ e, Fills ip max src off.toNat n s r.toNat e s' := by
  rcases h with ⟨hrefused, rfl, rfl⟩ |
    ⟨haccepted, k, e, rfl, hke, hw, hmapped, hfault, hshort, hcut⟩
  · refine ⟨0, fun _ _ => rfl, hlogged, fun p _ => ?_, fun i hi => absurd hi (Nat.not_lt_zero i),
      ?_⟩
    · show _ = (span src off.toNat 0 0 p).getD _
      rw [span_zero, Option.getD_none]
    · show Ended _ max src off.toNat n 0 0
      rcases refused_iff.1 hrefused with hoff | hbig
      · exact .full (.inl (Nat.dvd_zero max)) (by omega) rfl
      · refine .refused (Nat.dvd_zero max) rfl ?_
        rw [Nat.add_zero, Nat.sub_zero, ← hn1]
        exact hbig
  · have hfits : off.toNat + n1.toNat ≤ MAXFILE * BSIZE := by
      rw [refused_iff, not_or] at haccepted
      omega
    have hsize : (s.cur ip).size ≤ grown (s.cur ip).size off.toNat k := by
      rw [grown_eq]
      omega
    refine ⟨e, hw.mono, hlogged, fun p hp => hw.byte p (by omega), hmapped, ?_⟩
    show Ended _ max src off.toNat n k e
    by_cases hlt : k < n1.toNat
    · obtain ⟨hlt', hstart, hblock⟩ := hcut hlt
      have hstart : max ∣ k ∨ BSIZE ∣ off.toNat + k :=
        hstart.imp_left fun hzero : k = 0 => hzero ▸ Nat.dvd_zero max
      by_cases hbad : src (k + e) = none
      · have hk : k / max = 0 := Nat.div_eq_of_lt (by omega)
        refine .fault hbad (by omega) ?_ ?_ hstart hblock
        · rw [hk, Nat.div_eq_of_lt (by omega)]
        · rw [hk, Nat.zero_mul, Nat.add_zero, Nat.sub_zero, ← hn1]
          exact hfits
      · have hnone : e = 0 := by
          by_contra hne
          exact hbad (hfault hne)
        refine .full hstart ?_ hnone
        have hmissing := ((hshort hlt).resolve_right hbad).missing
        by_contra hgt
        have hthere : s.slot (ip, index ((off.toNat + k) / BSIZE)) ≠ 0 := by
          refine halloc _ ?_
          have hle := Nat.div_mul_le_self (off.toNat + k) BSIZE
          omega
        rw [hw.mono _ hthere] at hmissing
        exact hthere hmissing
    · exact .done (by omega) (by omega)

end writei

section chunks

variable {max n t e : Nat} {src : Source} {off n1 : U32} {r : Int}

/-- The end of a write, seen from a turn before. -/
theorem Ended.shift {size size₁ off : Nat} (hmax : 0 < max) (hle : max ≤ n) (hsize : size ≤ size₁)
    (h : Ended size₁ max (fun j => src (max + j)) (off + max) (n - max) t e) :
    Ended size max src off n (max + t) e := by
  have hdiv : ∀ k, (max + k) / max = k / max + 1 := fun k => Nat.add_div_left k hmax
  have hstart : max ∣ t ∨ BSIZE ∣ off + max + t → max ∣ max + t ∨ BSIZE ∣ off + (max + t) := by
    rw [Nat.add_assoc]
    exact Or.imp_left (Nat.dvd_add (Nat.dvd_refl max))
  cases h with
  | done hall hnone => exact .done (by omega) hnone
  | fault hbad hlt hturn hfits hs hblock =>
    refine .fault ?_ (by omega) ?_ ?_ (hstart hs) (by rwa [← Nat.add_assoc])
    · rwa [Nat.add_assoc]
    · rw [Nat.add_assoc, hdiv, hdiv, hturn]
    · rw [hdiv, Nat.add_mul, Nat.one_mul]
      omega
  | full hs hend hnone => exact .full (hstart hs) (by omega) hnone
  | refused hs hnone hbig =>
    refine .refused (Nat.dvd_add (Nat.dvd_refl max) hs) hnone ?_
    omega

/-- A turn that has written all of its bytes, and the turns after it. -/
theorem Writes.cons {s₁ : State} (h : Writes sb first ip src off n1 s r s₁) (hmax : 0 < max)
    (hn1 : n1.toNat = max) (hr : r = max) (hle : max ≤ n) (hlogged : s.logged ⊆ s₁.logged)
    (hl : Locked s ip)
    (hrest : Fills ip max (fun j => src (max + j)) (off.toNat + max) (n - max) s₁ t e s') :
    Fills ip max src off.toNat n s (max + t) e s' := by
  rcases h with ⟨-, rfl, -⟩ | ⟨-, k, e₀, rfl, hke, hw, hmapped, -⟩
  · omega
  obtain rfl : k = max := by omega
  obtain rfl : e₀ = 0 := by omega
  have hsize : (s.cur ip).size ≤ (s₁.cur ip).size := by
    rw [hw.size_eq hl, grown_eq]
    omega
  refine ⟨fun x hx => ?_, List.Subset.trans hlogged hrest.logged, fun p hp => ?_, fun i hi => ?_,
    hrest.ended.shift hmax hle hsize⟩
  · have hmono := hw.mono x hx
    rw [hrest.mono x (by rwa [hmono]), hmono]
  · have hshift : span (fun j => src (k + j)) (off.toNat + k) 0 (t + e) p =
        span src (off.toNat + k) k (t + e) p := by
      unfold span
      simp only [Nat.zero_add]
    have happend := span_append src off.toNat 0 k (t + e) p
    have hbyte := hw.byte p (by rw [grown_eq]; omega)
    rw [Nat.add_zero] at hbyte
    rw [Nat.zero_add] at happend
    rw [hrest.byte p (by omega), hshift, hbyte, Nat.add_assoc, ← happend, Option.getD_or]
  · by_cases hnear : i < k
    · exact hmapped i (by omega)
    · have hthere := hrest.mapped (i - k) (by omega)
      rwa [Nat.add_sub_of_le (by omega)] at hthere

theorem Writes.toNat_off (h : Writes sb first ip src off n1 s r s') :
    (if r > 0 then off + BitVec.ofInt 32 r else off).toNat = off.toNat + r.toNat := by
  rcases h with ⟨-, rfl, -⟩ | ⟨haccepted, k, e, rfl, hke, -⟩
  · rfl
  · rw [refused_iff, not_or] at haccepted
    have hfits : off.toNat + k < 2 ^ 32 := by
      have hlong : MAXFILE * BSIZE < 2 ^ 32 := by decide
      omega
    split_ifs with hpos
    · rw [BitVec.ofInt_natCast, BitVec.toNat_add, BitVec.toNat_ofNat, Int.toNat_natCast]
      omega
    · omega

theorem writeChunk_spec (hl : Locked s ip) (hown : Owned sb first s) (halloc : Allocated s ip) :
    Wp (writeChunk sb ip src off n1) (fun r s' => Writes sb first ip src off n1 s r.1 s' ∧
      s.logged ⊆ s'.logged ∧ r.2.toNat = off.toNat + r.1.toNat) E s := by
  have hcount : ∀ s' : State, ip ∈ s'.refs → ¬ s'.refs.count ip < 1 := by
    intro s' hin
    have hpos := List.count_pos_iff.2 hin
    omega
  have hspec : Wp (writei sb ip src off n1) (Writes sb first ip src off n1 s) E s :=
    writei_spec hl hown halloc
  unfold writeChunk ilock iunlock
  rw [wp_bind, wp_bind, wp_get, if_neg (hcount s hl.ref), if_pos hl.valid, wp_pure, wp_bind]
  refine (hspec.and writei_grows).mono (fun r s' h => ?_) fun e he => he.1
  obtain ⟨hl', -⟩ := h.1.keeps hl hown halloc
  rw [wp_bind, wp_bind, wp_get, if_neg (hcount s' hl'.ref), wp_pure]
  exact ⟨h.1, h.2, h.1.toNat_off⟩

theorem writeChunks_end {fuel : Nat} :
    Wp (writeChunks sb ip src n fuel n off) (fun r s' => r.2 = off ∧ s' = s) E s := by
  cases fuel with
  | zero => exact ⟨rfl, rfl⟩
  | succ fuel =>
    unfold writeChunks
    rw [if_neg (Nat.lt_irrefl n)]
    exact ⟨rfl, rfl⟩

theorem writeChunks_spec {fuel i : Nat} (hl : Locked s ip) (hown : Owned sb first s)
    (halloc : Allocated s ip) (hfuel : n - i ≤ fuel) (hi : i ≤ n) :
    Wp (writeChunks sb ip src n fuel i off) (fun r s' => ∃ t e, r.2.toNat = off.toNat + t ∧
      Fills ip maxWrite (fun j => src (i + j)) off.toNat (n - i) s t e s') E s := by
  have hstop : ∀ s : State, ∀ i off, n - i = 0 →
      Fills ip maxWrite (fun j => src (i + j)) off (n - i) s 0 0 s := fun s i off hnone =>
    ⟨fun _ _ => rfl, List.Subset.refl _, fun p _ => by rw [span_zero, Option.getD_none],
      fun j hj => absurd hj (Nat.not_lt_zero j), .done (by omega) rfl⟩
  induction fuel generalizing i off s with
  | zero => exact ⟨0, 0, rfl, hstop s i _ (by omega)⟩
  | succ fuel ih =>
    unfold writeChunks
    refine Wp.ite (fun hlt => ?_) fun hge => ⟨0, 0, rfl, hstop s i _ (by omega)⟩
    have hn1 : (BitVec.ofNat 32 (min (n - i) maxWrite)).toNat = min (n - i) maxWrite := by
      rw [BitVec.toNat_ofNat]
      exact Nat.mod_eq_of_lt (lt_of_le_of_lt (Nat.min_le_right ..) (by decide))
    refine (writeChunk_spec hl hown halloc).bind fun r s₁ h => ?_
    obtain ⟨hw, hlogged, hoff⟩ := h
    refine Wp.ite (fun hshort => ?_) fun hfull => ?_
    · obtain ⟨e, he⟩ := hw.fills halloc hlogged hn1 (.inl (by rwa [hn1]))
      exact ⟨r.1.toNat, e, hoff, he⟩
    · have hr : r.1 = (min (n - i) maxWrite : Nat) := not_not.1 hfull
      by_cases hlast : n - i ≤ maxWrite
      · obtain ⟨e, he⟩ := hw.fills halloc hlogged hn1 (.inr (by omega))
        rw [show i + min (n - i) maxWrite = n by omega]
        refine writeChunks_end.post fun r' s₂ h => ?_
        obtain ⟨hr', rfl⟩ := h
        exact ⟨r.1.toNat, e, by rw [hr', hoff], he⟩
      · have hpos : 0 < maxWrite := by decide
        have hmin : min (n - i) maxWrite = maxWrite := Nat.min_eq_right (by omega)
        obtain ⟨hl', hown', halloc'⟩ := hw.keeps hl hown halloc
        rw [hmin] at hr hn1 hw ⊢
        have hnext : r.2.toNat = off.toNat + maxWrite := by rw [hoff, hr, Int.toNat_natCast]
        refine (ih hl' hown' halloc' (by omega) (by omega)).post fun r' s₂ h => ?_
        obtain ⟨t, e, hoff', hrest⟩ := h
        refine ⟨maxWrite + t, e, by rw [hoff', hnext, Nat.add_assoc], ?_⟩
        refine hw.cons hpos hn1 hr (by omega) hlogged hl ?_
        rw [hnext, Nat.sub_add_eq] at hrest
        simpa only [Nat.add_assoc] using hrest

end chunks

/-! ## What is not reported is not written -/

/-- Whatever page of the source is not mapped, what `writei` or `filewrite`
does not report is as before, in the cache and later, exactly if the write is
harmless. -/
theorem unreported_spared_iff (sb : Superblock) (first : Nat) (s : State) (ip : Nat)
    (hl : Locked s ip) (hown : Owned sb first s) (halloc : Allocated s ip)
    (disk : Nat → Words.Mem) (hclean : Clean ⟨s, disk⟩) (src : Source) :
    (∀ off n : U32, Wp (writei sb ip src off n) (fun r s' =>
      Spared s disk ip off.toNat (off.toNat + r.toNat) s' ↔
        Harmless n.toNat s ip src off.toNat n.toNat) (fun _ => False) s) ∧
    ∀ (other : M Int) (f : File) (n : Int), f.writable = true → f.type = .inode → f.ip = ip →
      Wp (filewrite sb other f src n) (fun r s' =>
        Spared s disk ip f.off.toNat r.2.off.toNat s' ↔
          Harmless maxWrite s ip src f.off.toNat n.toNat) (fun _ => False) s := by
  refine ⟨fun off n => ?_, fun other f n hwritable htype hip => ?_⟩
  · refine ((writei_spec hl hown halloc).and writei_grows).mono (fun r s' h => ?_) fun e he => he.1
    obtain ⟨e, he⟩ := h.1.fills halloc h.2 (Nat.min_self n.toNat).symm (.inr rfl)
    exact he.spared_iff halloc hclean
  · subst hip
    unfold filewrite
    have hno : ¬ (f.type = .pipe ∨ f.type = .device) := by
      rw [htype]
      decide
    rw [if_neg (by simp [hwritable]), if_neg hno, if_pos htype]
    refine (writeChunks_spec hl hown halloc (by omega) (Nat.zero_le _)).bind fun r s' h => ?_
    obtain ⟨t, e, hoff, he⟩ := h
    simp only [Nat.zero_add, Nat.sub_zero] at he
    show Spared s disk f.ip f.off.toNat r.2.toNat s' ↔ _
    rw [hoff]
    exact he.spared_iff halloc hclean

/-- Inode 1 is a file of two bytes, both 0. -/
def twoBytes : State where
  bitmap b := b < 3
  dinode i := if i = 1 then ⟨T_FILE, 0, 0, 1, 2, fun k => if k = 0 then 2 else 0⟩ else .zero
  data _ _ := 0
  refs := [1]
  valid _ := true
  copy i := if i = 1 then ⟨T_FILE, 0, 0, 1, 2, fun k => if k = 0 then 2 else 0⟩ else .zero
  logged := []

theorem cur_twoBytes (i : Nat) : twoBytes.cur i = twoBytes.dinode i := ite_self (twoBytes.dinode i)

theorem slot_twoBytes (x : Nat × Nat) : twoBytes.slot x = if x = (1, 0) then 2 else 0 := by
  obtain ⟨i, k⟩ := x
  unfold State.slot slotOf
  rw [cur_twoBytes]
  by_cases hi : i = 1
  · by_cases hk : k = 0
    · simp [twoBytes, hi, hk]
    · simp [twoBytes, hi, hk]
  · simp [twoBytes, hi, Dinode.zero]

theorem locked_twoBytes : Locked twoBytes 1 := ⟨List.mem_singleton.2 rfl, rfl, by decide⟩

theorem owned_twoBytes : Owned tiny 2 twoBytes := owned_single slot_twoBytes fun _ => rfl

theorem allocated_twoBytes : Allocated twoBytes 1 := by
  intro bn hbn
  have hsize : (twoBytes.cur 1).size = 2 := by
    rw [cur_twoBytes]
    rfl
  have hbn : bn = 0 := by
    rw [hsize] at hbn
    simp only [BSIZE] at hbn
    omega
  rw [hbn, slot_twoBytes]
  decide

/-- A source whose first page has one byte left, and is followed by one that
is not mapped. -/
def lastByte : Source := fun i => if i = 0 then some 7 else none

/-- Behind the end of the file nothing is lost. -/
theorem unreported_spared_iff_append : Wp (writei tiny 1 lastByte 2 2) (fun r s' =>
    Spared twoBytes (fun _ _ => 0) 1 2 (2 + r.toNat) s') (fun _ => False) twoBytes := by
  refine ((unreported_spared_iff tiny 2 twoBytes 1 locked_twoBytes owned_twoBytes
    allocated_twoBytes (fun _ _ => 0) (fun _ _ => rfl) lastByte).1 2 2).post fun r s' h => h.2 ?_
  intro u _ _ _ i _ _ _ hsize
  have hend : (twoBytes.cur 1).size = 2 := by
    rw [cur_twoBytes]
    rfl
  rw [hend] at hsize
  have htwo : (2 : U32).toNat = 2 := rfl
  omega

/-- A write of two bytes to the start of the file stops at the page that is
not mapped: it reports nothing, and the first byte is changed. -/
theorem writei_dirties : Locked twoBytes 1 ∧ Owned tiny 2 twoBytes ∧ Allocated twoBytes 1 ∧
    ¬ Wp (writei tiny 1 lastByte 0 2) (fun r s' =>
      Spared twoBytes (fun _ _ => 0) 1 0 (0 + r.toNat) s') (fun _ => False) twoBytes := by
  refine ⟨locked_twoBytes, owned_twoBytes, allocated_twoBytes, fun h => ?_⟩
  have hspared : ¬ (0 ≤ 0 ∧ 0 < 0) := by decide
  have hbyte := (h 0 (by decide) hspared).now
  revert hbyte
  decide

end Xv6.Fs
