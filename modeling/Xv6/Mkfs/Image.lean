import Xv6.Mkfs.Code
import Xv6.Fs.Sound

/-!
# What is in an image

An inode that is laid out in its block is read again, and leaves the other
inodes alone.  `seen` is the state in which the kernel would be if it had built
the image so far and had one inode locked: the blocks below `freeblock` are
marked in its bitmap.
-/

namespace Xv6.Mkfs

open Run
open Function (update)
open Words (load store put)
open Fs (NDIRECT IPB I16 Dinode State)

variable {img : Image} {d din : Dinode} {b i inum sec : Nat} {E : String → Prop}

/-! ## Byte order -/

@[simp] theorem xshort_eq (x : I16) : xshort x = x := by
  unfold xshort
  rw [Words.load_store_of_lt x.isLt, BitVec.ofNat_toNat, BitVec.setWidth_eq]

theorem xint_of_lt {x : Nat} (h : x < 2 ^ 32) : xint x = x := Words.load_store_of_lt h

theorem seek_of_lt (h : sec < 2 ^ 22) : seek sec = sec := by
  show sec * 1024 % 2 ^ 32 / 1024 = sec
  omega

/-! ## The layout of an inode -/

/-- The fields of an inode fit into `struct dinode`. -/
structure Stored (d : Dinode) : Prop where
  size : d.size < 2 ^ 32
  addrs : ∀ i, d.addrs i < 2 ^ 32
  beyond : ∀ i, NDIRECT < i → d.addrs i = 0

theorem stored_zero : Stored .zero :=
  ⟨Nat.two_pow_pos 32, fun _ => Nat.two_pow_pos 32, fun _ _ => rfl⟩

theorem Stored.setAddr (h : Stored d) (hi : i ≤ NDIRECT) (hb : b < 2 ^ 32) :
    Stored (d.setAddr i b) where
  size := h.size
  addrs j := by
    show update d.addrs i b j < 2 ^ 32
    by_cases hj : j = i
    · rwa [hj, Function.update_self]
    · rw [Function.update_of_ne hj]
      exact h.addrs j
  beyond j hj := by
    show update d.addrs i b j = 0
    rw [Function.update_of_ne (by omega)]
    exact h.beyond j hj

@[simp] theorem width_dinodeFields (d : Dinode) : Words.width (dinodeFields d) = DINODE := by
  rw [dinodeFields, Words.width_append, Words.width_table, List.length_range]
  rfl

theorem load_dinode {m : Words.Mem} {p n v k : Nat} (h : (dinodeFields d)[i]? = some (n, v))
    (hk : Words.width ((dinodeFields d).take i) = k) (hv : v < 256 ^ n) :
    load (put m p (dinodeFields d)) n (p + k) = v := by
  rw [← hk, Words.load_put h, Nat.mod_eq_of_lt hv]

theorem load_addr {m : Words.Mem} {p : Nat} (hd : Stored d) (hi : i ≤ NDIRECT) :
    load (put m p (dinodeFields d)) 4 (p + (12 + 4 * i)) = d.addrs i := by
  refine load_dinode (i := 5 + i) ?_ ?_ (hd.addrs i)
  · rw [dinodeFields, List.getElem?_append_right (Nat.le_add_right 5 i)]
    simp [Nat.lt_succ_of_le hi]
  · rw [dinodeFields, List.take_append, List.take_of_length_le (Nat.le_add_right 5 i),
      Words.width_append, ← List.map_take, List.take_range, Words.width_table, List.length_range]
    show 12 + 4 * min (5 + i - 5) 13 = 12 + 4 * i
    have hle : i ≤ 12 := hi
    omega

/-- An inode is read as it was written. -/
theorem getDinode_put (m : Words.Mem) (p : Nat) (hd : Stored d) :
    getDinode (put m p (dinodeFields d)) p = d := by
  have htype : load (put m p (dinodeFields d)) 2 p = d.type.toNat :=
    load_dinode (i := 0) rfl rfl d.type.isLt
  have hmajor : load (put m p (dinodeFields d)) 2 (p + 2) = d.major.toNat :=
    load_dinode (i := 1) rfl rfl d.major.isLt
  have hminor : load (put m p (dinodeFields d)) 2 (p + 4) = d.minor.toNat :=
    load_dinode (i := 2) rfl rfl d.minor.isLt
  have hnlink : load (put m p (dinodeFields d)) 2 (p + 6) = d.nlink.toNat :=
    load_dinode (i := 3) rfl rfl d.nlink.isLt
  have hsize : load (put m p (dinodeFields d)) 4 (p + 8) = d.size :=
    load_dinode (i := 4) rfl rfl hd.size
  have haddrs : (fun i => if i ≤ NDIRECT then
      load (put m p (dinodeFields d)) 4 (p + (12 + 4 * i)) else 0) = d.addrs := by
    funext i
    split_ifs with hi
    · exact load_addr hd hi
    · exact (hd.beyond i (by omega)).symm
  unfold getDinode
  rw [haddrs, htype, hmajor, hminor, hnlink, hsize]
  simp only [BitVec.ofNat_toNat, BitVec.setWidth_eq]

/-- Other bytes do not matter. -/
theorem getDinode_congr {m m' : Words.Mem} {p : Nat}
    (h : ∀ k n, k + n ≤ DINODE → load m' n (p + k) = load m n (p + k)) :
    getDinode m' p = getDinode m p := by
  have haddrs : (fun i => if i ≤ NDIRECT then load m' 4 (p + (12 + 4 * i)) else 0) =
      fun i => if i ≤ NDIRECT then load m 4 (p + (12 + 4 * i)) else 0 := by
    funext i
    split_ifs with hi
    · refine h _ _ ?_
      have hle : i ≤ 12 := hi
      show 12 + 4 * i + 4 ≤ 64
      omega
    · rfl
  unfold getDinode
  rw [haddrs, h 2 2 (by decide), h 4 2 (by decide), h 6 2 (by decide), h 8 4 (by decide),
    show load m' 2 p = load m 2 p from h 0 2 (by decide)]

theorem getDinode_zero (p : Nat) : getDinode (fun _ => 0) p = .zero := by
  unfold getDinode
  simp only [Fs.load_zero, ite_self]
  rfl

theorem stored_getDinode (m : Words.Mem) (p : Nat) : Stored (getDinode m p) where
  size := Words.load_lt m 4 _
  addrs i := by
    unfold getDinode
    show (if i ≤ NDIRECT then _ else _) < _
    split_ifs
    · exact Words.load_lt m 4 _
    · exact Nat.two_pow_pos 32
  beyond i hi := if_neg (by omega)

/-! ## The image as the kernel sees it -/

namespace Image

variable (img : Image)

/-- The inodes. -/
def dinode (i : Nat) : Dinode :=
  if i < NINODES then getDinode (img.disk (sb.IBLOCK i)) (DINODE * (i % IPB)) else .zero

/-- The blocks behind the bitmap. -/
def blocks (b : Nat) : Words.Mem := if nmeta ≤ b then img.disk b else fun _ => 0

/-- The image when `freeblock` has been allocated. -/
def next : Image := { img with freeblock := img.freeblock + 1 }

/-- The image with a block written. -/
def write (b : Nat) (d : Words.Mem) : Image := { img with disk := update img.disk b d }

/-- The image with an inode written. -/
def save (inum : Nat) (d : Dinode) : Image :=
  img.write (sb.IBLOCK inum) (put (img.disk (sb.IBLOCK inum)) (DINODE * (inum % IPB))
    (dinodeFields d))

/-- Inode `inum` is locked, and `din` is its copy in memory. -/
def seen (inum : Nat) (din : Dinode) (log : List Nat) : State where
  bitmap b := decide (b < img.freeblock)
  dinode := img.dinode
  data := img.blocks
  refs := [inum]
  valid _ := true
  copy := update (fun _ => .zero) inum din
  logged := log

end Image

/-- The file has its full length, unused blocks are zero, and the superblock and
the header of the log stand where they should. -/
structure Clean (img : Image) : Prop where
  sectors : img.sectors = FSSIZE
  ge : nmeta ≤ img.freeblock
  le : img.freeblock ≤ FSSIZE
  zero : ∀ b, img.freeblock ≤ b → img.disk b = fun _ => 0
  super : img.disk 1 = put (fun _ => 0) 0 superblockFields
  header : img.disk 2 = fun _ => 0

theorem size_sb : sb.size = 2000 := rfl

/-- The inodes lie between the log and the bitmap. -/
theorem IBLOCK_lt (h : inum < NINODES) : 32 ≤ sb.IBLOCK inum ∧ sb.IBLOCK inum < 45 := by
  have h : inum < 200 := h
  show 32 ≤ inum / 16 + 32 ∧ inum / 16 + 32 < 45
  omega

@[simp] theorem wp_wsect {buf : Words.Mem} {Q : Unit → Image → Prop} :
    Wp (wsect sec buf) Q E img ↔ Q () { img with
      disk := update img.disk (seek sec) buf, sectors := max img.sectors (seek sec + 1) } :=
  Iff.rfl

theorem wsect_rule (h : img.sectors = FSSIZE) (hb : b < 2000) (buf : Words.Mem) :
    Wp (wsect b buf) (fun _ img' => img' = img.write b buf) E img := by
  have hseek : seek b = b := seek_of_lt (by omega)
  have hmax : max img.sectors (b + 1) = img.sectors := Nat.max_eq_left (h ▸ hb)
  rw [wp_wsect, hseek, hmax]
  rfl

/-- The image is full. -/
theorem rsect_die {Q : Words.Mem → Image → Prop} (h : img.sectors = FSSIZE) (hb : 2000 ≤ b)
    (hlt : b < 2 ^ 22) (hE : E "read") : Wp (rsect b) Q E img := by
  unfold rsect
  rw [wp_bind, wp_get, seek_of_lt hlt, h, if_neg (Nat.not_lt.2 hb)]
  exact hE

namespace Clean

theorem rsect (hc : Clean img) (hb : b < 2000) :
    Wp (rsect b) (fun buf img' => img' = img ∧ buf = img.disk b) E img := by
  have hseek : seek b = b := seek_of_lt (by omega)
  unfold Mkfs.rsect
  rw [wp_bind, wp_get, hseek, if_pos (by rw [hc.sectors]; exact hb)]
  exact ⟨rfl, rfl⟩

theorem next (hc : Clean img) (hlt : img.freeblock < FSSIZE) : Clean img.next where
  sectors := hc.sectors
  ge := Nat.le_succ_of_le hc.ge
  le := hlt
  zero b hb := hc.zero b (Nat.le_of_succ_le hb)
  super := hc.super
  header := hc.header

/-- A block of the inodes, or a block that is in use, is written. -/
theorem write (hc : Clean img) (hb : 2 < b) (hlt : b < img.freeblock) (buf : Words.Mem) :
    Clean (img.write b buf) where
  sectors := hc.sectors
  ge := hc.ge
  le := hc.le
  zero c hle := (Function.update_of_ne (Nat.ne_of_gt (Nat.lt_of_lt_of_le hlt hle)) ..).trans
    (hc.zero c hle)
  super := (Function.update_of_ne (by omega) ..).trans hc.super
  header := (Function.update_of_ne (by omega) ..).trans hc.header

theorem save (hc : Clean img) (hinum : inum < NINODES) (d : Dinode) :
    Clean (img.save inum d) := by
  have hblock := IBLOCK_lt hinum
  have hge : 46 ≤ img.freeblock := hc.ge
  exact hc.write (by omega) (by omega) _

end Clean

/-! ## What a write changes -/

theorem blocks_write (hb : nmeta ≤ b) (buf : Words.Mem) :
    (img.write b buf).blocks = update img.blocks b buf := by
  funext c
  show (if nmeta ≤ c then update img.disk b buf c else _) = _
  by_cases hcb : c = b
  · rw [hcb, if_pos hb, Function.update_self, Function.update_self]
  · rw [Function.update_of_ne hcb, Function.update_of_ne hcb]
    rfl

theorem dinode_write (hb : 45 ≤ b) (buf : Words.Mem) :
    (img.write b buf).dinode = img.dinode := by
  funext j
  show (if j < NINODES then getDinode (update img.disk b buf (sb.IBLOCK j)) _ else _) = _
  unfold Image.dinode
  split_ifs with hj
  · have hblock := IBLOCK_lt hj
    rw [Function.update_of_ne (by omega)]
  · rfl

theorem blocks_save (hinum : inum < NINODES) (d : Dinode) :
    (img.save inum d).blocks = img.blocks := by
  have hblock := IBLOCK_lt hinum
  funext c
  unfold Image.blocks
  split_ifs with hc
  · have hc : 46 ≤ c := hc
    exact Function.update_of_ne (by omega) ..
  · rfl

/-- An inode is saved, and the others stay. -/
theorem dinode_save (img : Image) (hinum : inum < NINODES) (hd : Stored d) :
    (img.save inum d).dinode = update img.dinode inum d := by
  funext j
  show (if j < NINODES then getDinode (update img.disk _ _ (sb.IBLOCK j)) _ else _) = _
  by_cases hj : j = inum
  · rw [hj, if_pos hinum, Function.update_self, Function.update_self, getDinode_put _ _ hd]
  · rw [Function.update_of_ne hj]
    unfold Image.dinode
    split_ifs with hlt
    · by_cases hblock : sb.IBLOCK j = sb.IBLOCK inum
      · rw [hblock, Function.update_self]
        have hdiv : j / IPB = inum / IPB := Nat.add_right_cancel hblock
        have hmod : j % IPB ≠ inum % IPB := fun hmod => hj (by
          rw [← Nat.div_add_mod j IPB, hdiv, hmod, Nat.div_add_mod])
        refine getDinode_congr fun k n hk => Words.load_put_of_disjoint ?_
        rw [width_dinodeFields]
        show 64 * (inum % IPB) + 64 ≤ 64 * (j % IPB) + k ∨
          64 * (j % IPB) + k + n ≤ 64 * (inum % IPB)
        have hk : k + n ≤ 64 := hk
        omega
      · rw [Function.update_of_ne hblock]
    · rfl

theorem winode_rule (hc : Clean img) (hinum : inum < NINODES) :
    Wp (winode inum d) (fun _ img' => img' = img.save inum d) E img := by
  have hblock := IBLOCK_lt hinum
  refine (hc.rsect (b := sb.IBLOCK inum) (by omega)).bind fun buf img' h => ?_
  obtain ⟨rfl, rfl⟩ := h
  exact wsect_rule hc.sectors (by omega) _

theorem rinode_rule (hc : Clean img) (hinum : inum < NINODES) :
    Wp (rinode inum) (fun d img' => img' = img ∧ d = img.dinode inum) E img := by
  have hblock := IBLOCK_lt hinum
  refine (hc.rsect (b := sb.IBLOCK inum) (by omega)).bind fun buf img' h => ?_
  obtain ⟨rfl, rfl⟩ := h
  exact ⟨rfl, (if_pos hinum).symm⟩

/-! ## The bitmap -/

/-- The first `used` bits are set. -/
theorem bits_spec (used a : Nat) {k : Nat} (hk : k < 8) :
    (bits used a).getLsbD k = decide (8 * a + k < used) := by
  induction used with
  | zero => simp [bits]
  | succ used ih =>
    have hbits : bits (used + 1) = update (bits used) (used / 8)
        (bits used (used / 8) ||| 1 <<< (used % 8)) := by
      unfold bits
      rw [List.range_succ, List.foldl_append]
      rfl
    have hdiv := Nat.div_add_mod used 8
    rw [hbits]
    by_cases ha : a = used / 8
    · subst ha
      have hone : (Nat.cast (1 <<< (used % 8)) : BitVec 8).getLsbD k = decide (used % 8 = k) := by
        rw [BitVec.natCast_eq_ofNat, BitVec.getLsbD_ofNat, Nat.shiftLeft_eq, Nat.one_mul,
          Nat.testBit_two_pow, decide_eq_true hk, Bool.true_and]
      rw [Function.update_self, BitVec.getLsbD_or, ih, hone, ← Bool.decide_or]
      refine decide_eq_decide.2 ?_
      omega
    · rw [Function.update_of_ne ha, ih]
      refine decide_eq_decide.2 ?_
      omega

end Xv6.Mkfs
