import Xv6.Mkfs.Image
import Xv6.Fs.Extent

/-!
# Appending to a file

What `iappend` does to the image is what `writei` does in the kernel, at the
end of the file and with the blocks from `freeblock` on free.  So what is known
of `bmap` and `writei` holds of the image.
-/

namespace Xv6.Mkfs

open Run
open Function (update)
open Words (load store put)
open Fs (BSIZE NDIRECT NINDIRECT MAXFILE NSLOT Dinode State entry setEntry index slotOf Locked Owned
  Filled blocksFor needs kernel)

variable {img img' : Image} {d din : Dinode} {s : State} {b i inum fbn : Nat} {E : String → Prop}

-- the superblock is not to be computed with
attribute [local irreducible] sb

/-! ## The kernel on the image so far -/

/-- The kernel has the image in front of it; what it has logged does not
matter. -/
def Seen (img : Image) (inum : Nat) (din : Dinode) (s : State) : Prop :=
  ∃ log, s = img.seen inum din log

theorem seen_self (img : Image) (inum : Nat) (din : Dinode) :
    Seen img inum din (img.seen inum din []) := ⟨[], rfl⟩

/-- The inode can be appended to. -/
structure Ready (img : Image) (inum : Nat) (din : Dinode) : Prop where
  clean : Clean img
  stored : Stored din
  type : din.type ≠ 0
  owned : Owned sb nmeta (img.seen inum din [])

theorem copy_seen (log : List Nat) : (img.seen inum din log).copy inum = din := by
  show update (fun _ => Dinode.zero) inum din inum = din
  exact Function.update_self ..

theorem locked_seen (img : Image) (inum : Nat) (htype : din.type ≠ 0) (log : List Nat) :
    Locked (img.seen inum din log) inum where
  ref := List.mem_singleton.2 rfl
  valid := rfl
  type := by rwa [copy_seen]

theorem slot_seen (htype : din.type ≠ 0) (hi : i ≤ NDIRECT) :
    (img.seen inum din []).slot (inum, i) = din.addrs i := by
  rw [(locked_seen _ _ htype []).slot_eq, copy_seen, slotOf, if_pos hi]

namespace Ready

/-- A block of the inode lies behind the bitmap, and has been allocated. -/
theorem range (h : Ready img inum din) {k : Nat} (hb : (img.seen inum din []).slot (inum, k) = b)
    (hne : b ≠ 0) : nmeta ≤ b ∧ b < img.freeblock := by
  subst hb
  exact ⟨(h.owned.range hne).1, of_decide_eq_true (h.owned.used_of_place hne)⟩

theorem addr_lt (h : Ready img inum din) (hi : i ≤ NDIRECT) : din.addrs i < 2000 := by
  have hle : img.freeblock ≤ 2000 := h.clean.le
  by_cases hz : din.addrs i = 0
  · rw [hz]
    decide
  · have hlt := (h.range (slot_seen h.type hi) hz).2
    omega

end Ready

/-- The kernel takes the next block. -/
theorem balloc_seen (hc : Clean img) (hlt : img.freeblock < FSSIZE) (hs : Seen img inum din s) :
    Wp (Fs.balloc sb) (fun b s' => b = img.freeblock ∧ Seen img.next inum din s') E s := by
  obtain ⟨log, rfl⟩ := hs
  have hfind : (List.range sb.size).find? (fun b => !(img.seen inum din log).bitmap b) =
      some img.freeblock := by
    rw [size_sb, List.find?_range_eq_some]
    exact ⟨by simp [Image.seen], List.mem_range.2 hlt, fun j hj => by simp [Image.seen, hj]⟩
  have hbitmap : update (fun b => decide (b < img.freeblock)) img.freeblock true =
      fun b => decide (b < img.freeblock + 1) := by
    funext c
    by_cases hc : c = img.freeblock
    · simp [hc]
    · rw [Function.update_of_ne hc]
      exact decide_eq_decide.2 (by omega)
  have hblocks : update img.blocks img.freeblock (fun _ => 0) = img.blocks := by
    rw [Function.update_eq_self_iff, Image.blocks, if_pos hc.ge, hc.zero _ (Nat.le_refl _)]
  unfold Fs.balloc
  rw [wp_bind, wp_get, hfind]
  refine ⟨rfl, img.freeblock :: sb.BBLOCK img.freeblock :: log, ?_⟩
  show State.mk (update (fun b => decide (b < img.freeblock)) img.freeblock true) _
    (update img.blocks img.freeblock fun _ => 0) _ _ _ _ = _
  rw [hbitmap, hblocks]
  rfl

/-! ## The block for the next bytes -/

/-- Blocks have been taken, `x` is the block that was asked for, and `f` finds
it in the kernel: the image is `img'` then, and the inode is `d`. -/
structure Takes (inum : Nat) (img : Image) (din : Dinode) (f : Fs.M Nat) (taken x : Nat)
    (d : Dinode) (img' : Image) : Prop where
  count : img'.freeblock = img.freeblock + taken
  freeinode : img'.freeinode = img.freeinode
  dinode : img'.dinode = img.dinode
  sectors : img'.sectors = FSSIZE
  info : d = { din with addrs := d.addrs }
  stored : Stored d
  lt : x < 2 ^ 22
  ne : x ≠ 0
  /-- The image is full. -/
  full : FSSIZE < img'.freeblock → FSSIZE ≤ x
  clean : img'.freeblock ≤ FSSIZE → Clean img'
  finds : img'.freeblock ≤ FSSIZE → ∀ s, Seen img inum din s →
    Wp f (fun a s' => a = x ∧ Seen img' inum d s') (fun _ => False) s

/-- What is known of `f` is known of the image. -/
theorem Takes.spec {f : Fs.M Nat} {taken x : Nat} {Q : Nat → State → Prop}
    (h : Takes inum img din f taken x d img') (hle : img'.freeblock ≤ FSSIZE)
    (hf : Wp f Q (fun _ => False) (img.seen inum din [])) :
    ∃ log, Q x (img'.seen inum d log) := by
  have hboth := (h.finds hle _ (seen_self img inum din)).and hf
  obtain ⟨⟨a, s'⟩, -, ⟨rfl, log, rfl⟩, hq⟩ := (hboth.mono (fun _ _ h => h) fun _ h => h.1).run
  exact ⟨log, hq⟩

theorem addrOf_takes (h : Ready img inum din) (hi : i ≤ NDIRECT) :
    Wp (addrOf din i) (fun d img' => Takes inum img din (Fs.addrOf sb inum i)
      (if din.addrs i = 0 then 1 else 0) (d.addrs i) d img') E img := by
  have hle : img.freeblock ≤ 2000 := h.clean.le
  have hge : 46 ≤ img.freeblock := h.clean.ge
  have hlt := h.addr_lt hi
  have hbig : din.addrs i < 2 ^ 22 := by omega
  have hx : xint (din.addrs i) = din.addrs i := xint_of_lt (by omega)
  unfold addrOf
  refine Wp.ite (fun hz => ?_) fun hne => ?_
  · rw [hx] at hz
    have hb : xint img.freeblock = img.freeblock := xint_of_lt (by omega)
    have haddr : (din.setAddr i img.freeblock).addrs i = img.freeblock := Function.update_self ..
    unfold nextblock
    rw [wp_bind, wp_bind, wp_get, wp_bind, wp_modify, wp_pure, wp_pure, hb, if_pos hz, haddr]
    refine ⟨rfl, rfl, rfl, h.clean.sectors, rfl, h.stored.setAddr hi (by omega), by omega,
      by omega, Nat.le_of_lt_succ, fun hlt => h.clean.next hlt, fun hlt s hs => ?_⟩
    have hcopy : (s.copy inum).addrs i = 0 := by
      obtain ⟨log, rfl⟩ := hs
      rw [copy_seen, hz]
    unfold Fs.addrOf
    rw [wp_bind, wp_get, if_pos hcopy]
    refine (balloc_seen h.clean hlt hs).bind fun b s' hb => ?_
    obtain ⟨rfl, log, rfl⟩ := hb
    rw [if_neg (by omega), wp_bind, Fs.wp_setCopy, wp_pure]
    refine ⟨rfl, log, ?_⟩
    rw [copy_seen]
    unfold Image.seen
    simp only [Function.update_idem]
    rfl
  · rw [hx] at hne
    rw [if_neg hne]
    refine ⟨rfl, rfl, rfl, h.clean.sectors, rfl, h.stored, hbig, hne,
      fun hover => absurd hle (Nat.not_le.2 hover), fun _ => h.clean, fun _ s hs => ?_⟩
    have hcopy : (s.copy inum).addrs i = din.addrs i := by
      obtain ⟨log, rfl⟩ := hs
      rw [copy_seen]
    unfold Fs.addrOf
    rw [wp_bind, wp_get, hcopy, if_neg hne]
    exact ⟨rfl, hs⟩

/-- The inode can be appended to again. -/
theorem Takes.ready {f : Fs.M Nat} {taken x k : Nat} (ht : Takes inum img din f taken x d img')
    (h : Ready img inum din) (hle : img'.freeblock ≤ FSSIZE)
    (hf : Wp f (Fs.Mapped sb nmeta inum k (img.seen inum din [])) (fun _ => False)
      (img.seen inum din [])) : Ready img' inum d where
  clean := ht.clean hle
  stored := ht.stored
  type := by
    rw [ht.info]
    exact h.type
  owned := by
    obtain ⟨log, hm⟩ := ht.spec hle hf
    exact hm.owned

theorem Seen.data_eq (hs : Seen img inum din s) (hb : nmeta ≤ b) : s.data b = img.disk b := by
  obtain ⟨log, rfl⟩ := hs
  exact if_pos hb

section indirect

variable {taken : Nat}
  (ht : Takes inum img din (Fs.addrOf sb inum NDIRECT) taken (d.addrs NDIRECT) d img')
  (hle : img'.freeblock ≤ FSSIZE) (h' : Ready img' inum d) (hdirect : ¬ fbn < NDIRECT)
  (hfbn : fbn < MAXFILE)

include ht hle h' hdirect hfbn

/-- The block has its place in the indirect block. -/
theorem entry_eq_slot (h : Ready img inum din) : (img.seen inum din []).slot (inum, index fbn) =
    entry (img'.disk (d.addrs NDIRECT)) (fbn - NDIRECT) := by
  have hslots : NSLOT = NDIRECT + 1 + NINDIRECT := rfl
  have hmax : MAXFILE = NDIRECT + NINDIRECT := rfl
  have hindex : index fbn = NDIRECT + 1 + (fbn - NDIRECT) := by
    rw [index, if_neg hdirect]
    omega
  obtain ⟨hge, -⟩ := h'.range (slot_seen h'.type (Nat.le_refl _)) ht.ne
  obtain ⟨log, hslot⟩ := ht.spec hle
    (Fs.addrOf_slots (locked_seen _ _ h.type []) h.owned (Nat.le_refl _))
  have hput := congrFun (hslot ht.ne) (inum, index fbn)
  rw [Function.update_of_ne (by simpa using Fs.index_ne fbn)] at hput
  rw [← hput, (locked_seen _ _ h'.type log).slot_eq, copy_seen, hindex, slotOf,
    if_neg (by omega), if_pos ⟨by omega, ht.ne⟩, Nat.add_sub_cancel_left]
  show entry (if nmeta ≤ d.addrs NDIRECT then _ else _) _ = _
  rw [if_pos hge]

theorem bmap_found (hsome : entry (img'.disk (d.addrs NDIRECT)) (fbn - NDIRECT) ≠ 0)
    (hs : Seen img inum din s) :
    Wp (Fs.bmap sb inum fbn) (fun a s' =>
      a = entry (img'.disk (d.addrs NDIRECT)) (fbn - NDIRECT) ∧ Seen img' inum d s')
      (fun _ => False) s := by
  have hmax : MAXFILE = NDIRECT + NINDIRECT := rfl
  obtain ⟨hge, -⟩ := h'.range (slot_seen h'.type (Nat.le_refl _)) ht.ne
  unfold Fs.bmap
  rw [if_neg hdirect, if_pos (by omega)]
  refine (ht.finds hle s hs).bind fun a s₁ ha => ?_
  obtain ⟨rfl, hs₁⟩ := ha
  rw [if_neg ht.ne, wp_bind, wp_get, hs₁.data_eq hge, if_neg hsome]
  exact ⟨rfl, hs₁⟩

theorem bmap_new (hnone : entry (img'.disk (d.addrs NDIRECT)) (fbn - NDIRECT) = 0)
    (hfit : img'.freeblock < FSSIZE) (hs : Seen img inum din s) :
    Wp (Fs.bmap sb inum fbn) (fun a s' => a = img'.freeblock ∧
      Seen (img'.next.write (d.addrs NDIRECT) (setEntry (img'.disk (d.addrs NDIRECT))
        (fbn - NDIRECT) img'.freeblock)) inum d s') (fun _ => False) s := by
  have hmax : MAXFILE = NDIRECT + NINDIRECT := rfl
  have hfree : 46 ≤ img'.freeblock := h'.clean.ge
  obtain ⟨hge, -⟩ := h'.range (slot_seen h'.type (Nat.le_refl _)) ht.ne
  have hblock : img'.blocks (d.addrs NDIRECT) = img'.disk (d.addrs NDIRECT) := if_pos hge
  unfold Fs.bmap
  rw [if_neg hdirect, if_pos (by omega)]
  refine (ht.finds hle s hs).bind fun a s₁ ha => ?_
  obtain ⟨rfl, hs₁⟩ := ha
  rw [if_neg ht.ne, wp_bind, wp_get, hs₁.data_eq hge, if_pos hnone]
  refine (balloc_seen h'.clean hfit hs₁).bind fun b s₂ hb => ?_
  obtain ⟨rfl, log, rfl⟩ := hb
  rw [if_neg (by omega), wp_bind, wp_get, wp_bind, Fs.wp_setData, wp_bind, Fs.wp_logWrite,
    wp_pure]
  refine ⟨rfl, d.addrs NDIRECT :: log, ?_⟩
  show State.mk _ _ (update img'.blocks _ (setEntry (img'.blocks _) _ _)) _ _ _ _ =
    Image.seen _ _ _ _
  unfold Image.seen
  rw [blocks_write hge, dinode_write (Nat.le_of_succ_le hge), hblock]
  rfl

end indirect

theorem blockOf_takes (h : Ready img inum din) (hfbn : fbn < MAXFILE) :
    Wp (blockOf din fbn) (fun r img' => Takes inum img din (Fs.bmap sb inum fbn)
        (needs (img.seen inum din []) inum fbn) r.1 r.2 img')
      (fun _ => FSSIZE < img.freeblock + needs (img.seen inum din []) inum fbn) img := by
  unfold blockOf
  refine Wp.ite (fun hdirect => ?_) fun hdirect => ?_
  · have hneeds : needs (img.seen inum din []) inum fbn = if din.addrs fbn = 0 then 1 else 0 := by
      rw [needs, index, if_pos hdirect, slot_seen h.type (Nat.le_of_lt hdirect),
        if_neg (c := NDIRECT ≤ fbn ∧ _) fun hno => Nat.not_lt.2 hno.1 hdirect, Nat.add_zero]
    rw [hneeds]
    refine (addrOf_takes h (Nat.le_of_lt hdirect)).bind fun d img' ht => ?_
    have hx : xint (d.addrs fbn) = d.addrs fbn := xint_of_lt (Nat.lt_trans ht.lt (by decide))
    rw [wp_pure, hx]
    refine { ht with finds := fun hle s hs => ?_ }
    unfold Fs.bmap
    rw [if_pos hdirect]
    exact ht.finds hle s hs
  · have hmax : MAXFILE = NDIRECT + NINDIRECT := rfl
    have hneeds : needs (img.seen inum din []) inum fbn =
        (if (img.seen inum din []).slot (inum, index fbn) = 0 then 1 else 0) +
          if din.addrs NDIRECT = 0 then 1 else 0 := by
      rw [needs, slot_seen h.type (Nat.le_refl _)]
      simp only [Nat.not_lt.1 hdirect, true_and]
    rw [hneeds]
    refine ((addrOf_takes h (Nat.le_refl _)).bind fun d img₁ ht => ?_)
    have hx : xint (d.addrs NDIRECT) = d.addrs NDIRECT :=
      xint_of_lt (Nat.lt_trans ht.lt (by decide))
    have hcount := ht.count
    rw [hx]
    by_cases hle : img₁.freeblock ≤ FSSIZE
    · have h₁ := ht.ready h hle (Fs.addrOf_spec (locked_seen _ _ h.type []) h.owned (Nat.le_refl _))
      obtain ⟨hge, hlt⟩ := h₁.range (slot_seen h₁.type (Nat.le_refl _)) ht.ne
      have hentry := entry_eq_slot ht hle h₁ hdirect hfbn h
      have hind : d.addrs NDIRECT < 2000 := Nat.lt_of_lt_of_le hlt hle
      have hfree : 46 ≤ img₁.freeblock := h₁.clean.ge
      have hfree' : img₁.freeblock ≤ 2000 := hle
      have hge' : 46 ≤ d.addrs NDIRECT := hge
      refine (h₁.clean.rsect hind).bind fun indirect img' hr => ?_
      obtain ⟨rfl, rfl⟩ := hr
      refine Wp.ite (fun hnone => ?_) fun hsome => ?_
      · have hb : xint img'.freeblock = img'.freeblock := xint_of_lt (by omega)
        have hnew : entry (setEntry (img'.disk (d.addrs NDIRECT)) (fbn - NDIRECT) img'.freeblock)
            (fbn - NDIRECT) = img'.freeblock := by
          rw [Fs.entry_setEntry _ (by omega), if_pos rfl]
        unfold nextblock
        rw [if_pos (hentry.trans hnone), wp_bind, wp_bind, wp_get, wp_bind, wp_modify, wp_pure, hb]
        have hsectors : img'.next.sectors = FSSIZE := h₁.clean.sectors
        refine (wsect_rule hsectors hind _).bind fun _ img₂ h₂ => ?_
        subst h₂
        rw [wp_pure, hnew, hb]
        refine ⟨?_, ht.freeinode, (dinode_write (Nat.le_of_succ_le hge) _).trans ht.dinode,
          ht.sectors, ht.info, ht.stored, by omega, by omega, Nat.le_of_lt_succ,
          fun hfit => ?_, fun hfit s hs => ?_⟩
        · show img'.freeblock + 1 = _
          omega
        · exact (h₁.clean.next hfit).write (by omega) (Nat.lt_succ_of_lt hlt) _
        · exact bmap_new ht hle h₁ hdirect hfbn hnone hfit hs
      · have hne : (img.seen inum din []).slot (inum, index fbn) ≠ 0 := hentry ▸ hsome
        have hrange : entry (img'.disk (d.addrs NDIRECT)) (fbn - NDIRECT) < 2000 := by
          rw [← hentry]
          exact Nat.lt_of_lt_of_le (h.range rfl hne).2 h.clean.le
        have hx : xint (entry (img'.disk (d.addrs NDIRECT)) (fbn - NDIRECT)) =
            entry (img'.disk (d.addrs NDIRECT)) (fbn - NDIRECT) := xint_of_lt (by omega)
        rw [if_neg hne, Nat.zero_add, wp_pure, hx]
        exact { ht with
          lt := by omega
          ne := hsome
          full := fun hover => absurd hle (Nat.not_le.2 hover)
          finds := fun _ s hs => bmap_found ht hle h₁ hdirect hfbn hsome hs }
    · -- the block for the indirect block lies behind the end
      rw [wp_bind]
      refine rsect_die ht.sectors (ht.full (Nat.lt_of_not_le hle)) ht.lt ?_
      omega

/-! ## The loop -/

theorem fill_kernel (buf : Words.Mem) (bs : List Byte) (q tot n : Nat) :
    Fs.fill buf q (kernel bs) tot n = bcopy (bs.drop tot) buf q n := by
  funext a
  unfold Fs.fill bcopy
  split_ifs
  · show bs.getD (tot + (a - q)) 0 = (bs.drop tot).getD (a - q) 0
    rw [List.getD_eq_getElem?_getD, List.getD_eq_getElem?_getD, List.getElem?_drop]
  · rfl

theorem copied_kernel (bs : List Byte) (tot m : Nat) :
    Fs.copied (fun i => (kernel bs i).isSome) tot m = m := by
  obtain ⟨hle, -, hbad⟩ := Fs.copied_spec (fun i => (kernel bs i).isSome) tot m
  by_contra hne
  exact Bool.noConfusion (hbad (by omega))

/-- There is room for `n` bytes behind `off`. -/
def Room (img : Image) (off n : Nat) : Prop :=
  off + n ≤ MAXFILE * BSIZE ∧ img.freeblock + blocksFor (off + n) ≤ FSSIZE + blocksFor off

theorem Room.of_le {off m n : Nat} (h : Room img off n) (hm : m ≤ n) : Room img off m := by
  have hmono := Fs.blocksFor_mono (Nat.add_le_add_left hm off)
  have hfit := h.1
  have hfree := h.2
  exact ⟨by omega, by omega⟩

theorem not_room {off n : Nat} (hpos : 0 < n) (hoff : ¬ off / BSIZE < MAXFILE) :
    ¬ Room img off n := by
  intro hroom
  have hfit : off + n ≤ 268 * 1024 := hroom.1
  have hoff : ¬ off / 1024 < 268 := hoff
  omega

/-- Each turn fills the block as `writei` does. -/
theorem turn_eq (off n : Nat) : min n ((off / BSIZE + 1) * BSIZE - off) = Fs.chunk off n ∧
    off - off / BSIZE * BSIZE = off % BSIZE := by
  constructor
  · show min n ((off / 1024 + 1) * 1024 - off) = min n (1024 - off % 1024)
    congr 1
    omega
  · show off - off / 1024 * 1024 = off % 1024
    omega

/-- The loop has appended `p` at `off`, and the loop of `writei` does so in the
kernel. -/
structure Appended (inum : Nat) (img : Image) (din : Dinode) (fuel : Nat) (p : List Byte)
    (off off' : Nat) (d : Dinode) (img' : Image) : Prop where
  off_eq : off' = off + p.length
  ready : Ready img' inum d
  filled : Filled (img'.seen inum d []) inum off'
  count : img'.freeblock + blocksFor off = img.freeblock + blocksFor off'
  freeinode : img'.freeinode = img.freeinode
  dinode : img'.dinode = img.dinode
  info : d = { din with addrs := d.addrs }
  writes : ∀ bs tot s, bs.drop tot = p → tot ≤ bs.length → Seen img inum din s →
    Wp (Fs.writeLoop sb inum (kernel bs) bs.length fuel tot off)
      (fun a s' => a = bs.length ∧ Seen img' inum d s') (fun _ => False) s

/-- A block that the inode has is filled further. -/
theorem Ready.fill {off x m : Nat} {p : List Byte} (h : Ready img inum din)
    (hx : (img.seen inum din []).slot (inum, index (off / BSIZE)) = x) (hne : x ≠ 0)
    (hfit : off % BSIZE + m ≤ BSIZE) :
    Ready (img.write x (bcopy p (img.disk x) (off % BSIZE) m)) inum din ∧
      ((img.write x (bcopy p (img.disk x) (off % BSIZE) m)).seen inum din []).slot =
        (img.seen inum din []).slot := by
  obtain ⟨hge, hlt⟩ := h.range hx hne
  have hge' : 46 ≤ x := hge
  have hseen : (img.write x (bcopy p (img.disk x) (off % BSIZE) m)).seen inum din [] =
      (img.seen inum din []).fillBlock x (off % BSIZE) (kernel p) 0 m [] := by
    have hblock : img.blocks x = img.disk x := if_pos hge
    have hfill := fill_kernel (img.disk x) p (off % BSIZE) 0 m
    rw [List.drop_zero, ← hblock] at hfill
    unfold Image.seen Fs.State.fillBlock
    rw [blocks_write hge, dinode_write (Nat.le_of_succ_le hge), ← hblock, hfill]
    rfl
  have hfill := Fs.wrote_fill (kernel p) 0 m h.owned hx hne hfit []
  refine ⟨⟨h.clean.write (by omega) hlt _, h.stored, h.type, ?_⟩, ?_⟩
  · rw [hseen]
    show Pool.Marks nmeta sb.size (img.seen inum din []).bitmap _
    rw [hfill.1]
    exact h.owned
  · rw [hseen, hfill.1]

theorem appended_nil {fuel off : Nat} {p : List Byte} (h : Ready img inum din)
    (hfilled : Filled (img.seen inum din []) inum off) (hnil : p = [])
    (hkernel : ∀ bs : List Byte, Fs.writeLoop sb inum (kernel bs) bs.length fuel bs.length off =
      pure bs.length) : Appended inum img din fuel p off off din img := by
  refine ⟨by rw [hnil]; rfl, h, hfilled, rfl, rfl, rfl, rfl, fun bs tot s hbs htot hs => ?_⟩
  have hlen := congrArg List.length (hbs.trans hnil)
  rw [List.length_drop, List.length_nil] at hlen
  obtain rfl : tot = bs.length := by omega
  rw [hkernel]
  exact ⟨rfl, hs⟩

/-- The part of the kernel's loop that goes with one turn. -/
theorem writeLoop_turn {fuel off tot x : Nat} {bs : List Byte} {img₁ : Image}
    {Q : Nat → State → Prop} (hlt : tot < bs.length) (hx : x ≠ 0) (hge : nmeta ≤ x)
    (hfinds : ∀ s, Seen img inum din s →
      Wp (Fs.bmap sb inum (off / BSIZE)) (fun a s' => a = x ∧ Seen img₁ inum d s')
        (fun _ => False) s)
    (hrest : ∀ s, Seen (img₁.write x (bcopy (bs.drop tot) (img₁.disk x) (off % BSIZE)
        (Fs.chunk off (bs.length - tot)))) inum d s →
      Wp (Fs.writeLoop sb inum (kernel bs) bs.length fuel (tot + Fs.chunk off (bs.length - tot))
        (off + Fs.chunk off (bs.length - tot))) Q (fun _ => False) s)
    (hs : Seen img inum din s) :
    Wp (Fs.writeLoop sb inum (kernel bs) bs.length (fuel + 1) tot off) Q (fun _ => False) s := by
  have hblock : img₁.blocks x = img₁.disk x := if_pos hge
  rw [Fs.writeLoop, if_pos hlt]
  refine (hfinds s hs).bind fun a s₁ ha => ?_
  obtain ⟨rfl, log, rfl⟩ := ha
  rw [if_neg hx]
  dsimp only
  rw [copied_kernel, wp_bind, wp_get, wp_bind, Fs.wp_setData, if_neg (Nat.lt_irrefl _), wp_bind,
    Fs.wp_logWrite]
  refine hrest _ ⟨a :: log, ?_⟩
  unfold Image.seen
  simp only [fill_kernel]
  rw [blocks_write hge, dinode_write (Nat.le_of_succ_le hge), hblock]
  rfl

theorem appendLoop_rule {fuel off : Nat} {p : List Byte} (h : Ready img inum din)
    (hfilled : Filled (img.seen inum din []) inum off) (hfuel : p.length ≤ fuel) :
    Wp (appendLoop fuel p off din)
      (fun r img' => Appended inum img din fuel p off r.1 r.2 img')
      (fun _ => ¬ Room img off p.length) img := by
  induction fuel generalizing img din p off with
  | zero =>
    exact appended_nil h hfilled (List.length_eq_zero_iff.1 (Nat.le_zero.1 hfuel)) fun _ => rfl
  | succ fuel ih =>
    unfold appendLoop
    refine Wp.ite (fun hpos => ?_) fun hnil => ?_
    · have hm : 0 < Fs.chunk off p.length := Fs.chunk_pos hpos
      have hmle := Fs.chunk_le off p.length
      have hfit := Fs.chunk_fits off p.length
      obtain ⟨hn1, hboff⟩ := turn_eq off p.length
      have hneeds := hfilled.needs hm hfit
      have hfull : FSSIZE < img.freeblock + needs (img.seen inum din []) inum (off / BSIZE) →
          ¬ Room img off p.length := fun hover hroom => by
        have hfree := (hroom.of_le hmle).2
        omega
      dsimp only
      rw [hn1, hboff]
      unfold assert
      by_cases hfbn : off / BSIZE < MAXFILE
      · rw [if_pos hfbn, wp_bind, wp_pure]
        refine Wp.bind ((blockOf_takes h hfbn).mono (fun _ _ h => h) fun _ => hfull)
          fun r img₁ ht => ?_
        obtain ⟨x, d⟩ := r
        have hcount := ht.count
        by_cases hle : img₁.freeblock ≤ FSSIZE
        · have hmap := Fs.bmap_spec (E := fun _ => False) (locked_seen _ _ h.type []) h.owned hfbn
          have h₁ := ht.ready h hle hmap
          obtain ⟨_, hmapped⟩ := ht.spec hle hmap
          obtain ⟨_, hslots⟩ := ht.spec hle (Fs.bmap_slots (locked_seen _ _ h.type []) h.owned hfbn)
          have hx : (img₁.seen inum d []).slot (inum, index (off / BSIZE)) = x := hmapped.slot ht.ne
          obtain ⟨hge, hlt⟩ := h₁.range hx ht.ne
          have hx2 : x < 2000 := Nat.lt_of_lt_of_le hlt hle
          obtain ⟨h₂, hslot₂⟩ := h₁.fill (p := p) hx ht.ne hfit
          refine (h₁.clean.rsect hx2).bind fun buf img' hbuf => ?_
          obtain ⟨rfl, rfl⟩ := hbuf
          refine (wsect_rule ht.sectors hx2 _).bind fun _ img₂ himg₂ => ?_
          subst himg₂
          generalize hmdef : Fs.chunk off p.length = m at *
          have hfilled₂ : Filled
              ((img'.write x (bcopy p (img'.disk x) (off % BSIZE) m)).seen inum d [])
              inum (off + m) := hfilled.step (fun k => by rw [hslot₂]; exact hslots ht.ne k) hm hfit
          have hdrop : (p.drop m).length = p.length - m := List.length_drop
          refine (ih h₂ hfilled₂ (by omega)).mono (fun r img₃ ha => ?_) fun e hno hroom => hno ?_
          · have hlast := ha.count
            have hoff := ha.off_eq
            refine ⟨by omega, ha.ready, ha.filled, ?_, ha.freeinode.trans ht.freeinode,
              ha.dinode.trans ((dinode_write (Nat.le_of_succ_le hge) _).trans ht.dinode), ?_,
              fun bs tot s hbs htot hs => ?_⟩
            · change img₃.freeblock + blocksFor (off + m) = img'.freeblock + blocksFor r.1 at hlast
              omega
            · rw [ha.info, ht.info]
            · have hlen := congrArg List.length hbs
              rw [List.length_drop] at hlen
              have hchunk : Fs.chunk off (bs.length - tot) = m := by rw [hlen, hmdef]
              refine writeLoop_turn (by omega) ht.ne hge (fun s hs => ht.finds hle s hs)
                (fun s' hs' => ?_) hs
              rw [hchunk] at hs' ⊢
              rw [hbs] at hs'
              refine ha.writes bs (tot + m) s' ?_ (by omega) hs'
              rw [← hbs, List.drop_drop]
          · rw [hdrop]
            have hroom₁ := hroom.1
            have hroom₂ := hroom.2
            rw [← show off + m + (p.length - m) = off + p.length by omega] at hroom₁ hroom₂
            refine ⟨hroom₁, ?_⟩
            show img'.freeblock + _ ≤ _
            omega
        · rw [wp_bind]
          refine rsect_die ht.sectors (ht.full (Nat.lt_of_not_le hle)) ht.lt (hfull ?_)
          omega
      · rw [if_neg hfbn, wp_bind, wp_throw]
        exact not_room hpos hfbn
    · refine appended_nil h hfilled (List.length_eq_zero_iff.1 (by omega)) fun bs => ?_
      rw [Fs.writeLoop, if_neg (Nat.lt_irrefl _)]

/-! ## `iappend` and `writei` -/

theorem Appended.room {fuel off off' : Nat} {p : List Byte}
    (h : Appended inum img din fuel p off off' d img') : Room img off p.length := by
  have hle := h.filled.le
  have hfree := h.ready.clean.le
  have hcount := h.count
  rw [h.off_eq] at hle hcount
  exact ⟨hle, by omega⟩

/-- The inode is saved with its new size. -/
theorem seen_save (img : Image) (hinum : inum < NINODES) (hd : Stored { d with size := i })
    (log log' : List Nat) :
    (img.save inum { d with size := i }).seen inum { d with size := i } log =
      (img.seen inum d log').save inum i log := by
  have hcopy : update (fun _ => Dinode.zero) inum { d with size := i } =
      update (update (fun _ => Dinode.zero) inum d) inum { d with size := i } :=
    (Function.update_idem ..).symm
  unfold Fs.State.save
  rw [copy_seen]
  unfold Image.seen
  rw [dinode_save _ hinum hd, blocks_save hinum, hcopy]
  rfl

theorem Ready.save (h : Ready img inum din) (hinum : inum < NINODES) (hi : i < 2 ^ 32) :
    Ready (img.save inum { din with size := i }) inum { din with size := i } where
  clean := h.clean.save hinum _
  stored := ⟨hi, h.stored.addrs, h.stored.beyond⟩
  type := h.type
  owned := by
    rw [seen_save _ hinum ⟨hi, h.stored.addrs, h.stored.beyond⟩ [] []]
    show Pool.Marks nmeta sb.size (img.seen inum din []).bitmap _
    rw [Fs.slot_save (locked_seen _ _ h.type [])]
    exact h.owned

/-- The inode of a file as it is on disk. -/
structure Whole (img : Image) (inum : Nat) : Prop where
  lt : inum < NINODES
  ready : Ready img inum (img.dinode inum)
  filled : Filled (img.seen inum (img.dinode inum) []) inum (img.dinode inum).size

/-- `iappend` runs the loop, and saves the inode with the new size. -/
theorem iappend_rule {p : List Byte} (h : Whole img inum) :
    Wp (iappend inum p)
      (fun _ img' => ∃ d img₁, Appended inum img (img.dinode inum) p.length p
        (img.dinode inum).size ((img.dinode inum).size + p.length) d img₁ ∧
        img' = img₁.save inum { d with size := (img.dinode inum).size + p.length })
      (fun _ => ¬ Room img (img.dinode inum).size p.length) img := by
  unfold iappend
  refine (rinode_rule h.ready.clean h.lt).bind fun din img₀ hr => ?_
  obtain ⟨rfl, rfl⟩ := hr
  rw [xint_of_lt h.ready.stored.size]
  refine (appendLoop_rule h.ready h.filled (Nat.le_refl _)).bind fun r img₁ ha => ?_
  have hle := ha.filled.le
  have hoff := ha.off_eq
  have hmax : MAXFILE * BSIZE < 2 ^ 32 := by decide
  rw [xint_of_lt (Nat.lt_of_le_of_lt hle hmax)]
  refine (winode_rule ha.ready.clean h.lt).post fun _ img' himg' => ?_
  exact ⟨r.2, img₁, hoff ▸ ha, hoff ▸ himg'⟩

theorem Appended.writei {p : List Byte} (h : Whole img inum) {img₁ : Image}
    (ha : Appended inum img (img.dinode inum) p.length p (img.dinode inum).size
      ((img.dinode inum).size + p.length) d img₁) :
    Wp (Fs.writei sb inum (kernel p) (BitVec.ofNat 32 (img.dinode inum).size)
        (BitVec.ofNat 32 p.length))
      (fun r s' => r = p.length ∧ Seen (img₁.save inum
        { d with size := (img.dinode inum).size + p.length }) inum
        { d with size := (img.dinode inum).size + p.length } s')
      (fun _ => False) (img.seen inum (img.dinode inum) []) := by
  have hle : (img.dinode inum).size + p.length ≤ 268 * 1024 := ha.filled.le
  have hoff : (BitVec.ofNat 32 (img.dinode inum).size).toNat = (img.dinode inum).size := by
    rw [BitVec.toNat_ofNat, Nat.mod_eq_of_lt (by omega)]
  have hlen : (BitVec.ofNat 32 p.length).toNat = p.length := by
    rw [BitVec.toNat_ofNat, Nat.mod_eq_of_lt (by omega)]
  have hsum : (BitVec.ofNat 32 (img.dinode inum).size + BitVec.ofNat 32 p.length).toNat =
      (img.dinode inum).size + p.length := by
    rw [BitVec.toNat_add, hoff, hlen, Nat.mod_eq_of_lt (by omega)]
  have hsize : d.size = (img.dinode inum).size := by rw [ha.info]
  have hd : (if (img.dinode inum).size + p.length > d.size then
      { d with size := (img.dinode inum).size + p.length } else d) =
        { d with size := (img.dinode inum).size + p.length } := by
    split_ifs with hgt
    · rfl
    · have hsame : (img.dinode inum).size + p.length = d.size := by omega
      rw [hsame]
  unfold Fs.writei
  rw [wp_bind, wp_get, copy_seen, if_neg, if_neg (by rw [hsum]; exact Nat.not_lt.2 hle), hoff, hlen]
  · refine (ha.writes p 0 _ rfl (Nat.zero_le _) (seen_self ..)).bind fun tot s₁ hs₁ => ?_
    obtain ⟨rfl, log, rfl⟩ := hs₁
    unfold Fs.iupdate
    rw [wp_bind, Fs.wp_setCopy, wp_bind, wp_bind, wp_modify, Fs.wp_logWrite, wp_pure, copy_seen, hd]
    refine ⟨rfl, sb.IBLOCK inum :: log, ?_⟩
    have hstored : Stored { d with size := (img.dinode inum).size + p.length } :=
      ⟨Nat.lt_of_le_of_lt hle (by decide), ha.ready.stored.addrs, ha.ready.stored.beyond⟩
    rw [seen_save _ h.lt hstored _ log]
    unfold Fs.State.save
    rw [copy_seen]
    simp only [Function.update_self]
    rfl
  · rw [not_or, BitVec.lt_def, hoff, hsum]
    omega

end Xv6.Mkfs
