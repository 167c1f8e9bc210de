import Xv6.Mkfs.Listing
import Xv6.Fs.Path

/-!
# The kernel on a finished image

`fsinit` reads the superblock, and `mount` says what the inodes, the bitmap and
the blocks of a disk are to the kernel.  The image that `mkfs` makes has one
owner for each block, unless the root directory fills its last block: then the
root directory is made larger by a block that it does not have.
-/

namespace Xv6.Mkfs

open Run
open Function (update)
open Words (load store put)
open Fs (BSIZE NDIRECT MAXFILE IPB BPB I16 T_DIR T_FILE Superblock Dinode State index slotOf Owned
  Exact Sound Allocated DIRENT dots Chars)

variable {img : Image} {d din : Dinode} {i : Nat} {files : List Input}

/-- `memmove(sb, bp->data, sizeof(*sb))`, as far as the superblock is used after
`fsinit`. -/
def readsb (data : Words.Mem) : Superblock where
  size := load data 4 4
  ninodes := load data 4 12
  inodestart := load data 4 24
  bmapstart := load data 4 28
  size_lt := Words.load_lt _ _ _

/-- Init fs. -/
def fsinit (disk : Nat → Words.Mem) : Except String Superblock :=
  if load (disk 1) 4 0 = FSMAGIC then .ok (readsb (disk 1)) else .error "invalid file system"

/-- What a disk holds, before anything is in memory. -/
def mount (sb : Superblock) (disk : Nat → Words.Mem) : State where
  bitmap b := (disk (sb.BBLOCK b) (b % BPB / 8)).getLsbD (b % 8)
  dinode i := if i < sb.ninodes then getDinode (disk (sb.IBLOCK i)) (DINODE * (i % IPB)) else .zero
  data := disk
  refs := []
  valid _ := false
  copy _ := .zero
  logged := []

theorem fsinit_clean (hc : Clean img) : fsinit img.disk = .ok sb := by
  unfold fsinit
  rw [hc.super]
  rfl

/-! ## From the image so far to the finished image -/

/-- The size that the root directory is given. -/
def rounded (n : Nat) : Nat := (n / BSIZE + 1) * BSIZE

/-- The root directory with its new size. -/
def Image.root (img : Image) : Dinode :=
  { img.dinode Fs.ROOTINO with size := rounded (img.dinode Fs.ROOTINO).size }

theorem finish_eq (img : Image) : img.finish =
    (img.save Fs.ROOTINO img.root).write 45 (bits img.freeblock) := rfl

theorem clean_finish (hc : Clean img) : Clean img.finish := by
  have hge : 46 ≤ img.freeblock := hc.ge
  exact (hc.save (by decide) _).write (by decide) hge _

theorem disk_finish {b : Nat} (hb : nmeta ≤ b) : img.finish.disk b = img.blocks b := by
  have hb' : 46 ≤ b := hb
  have hroot : Fs.ROOTINO < NINODES := by decide
  have hblock := IBLOCK_lt hroot
  rw [finish_eq, Image.blocks, if_pos hb]
  show update (update img.disk _ _) 45 _ b = _
  rw [Function.update_of_ne (by omega), Function.update_of_ne (by omega)]

theorem stored_root (h : (img.dinode Fs.ROOTINO).size ≤ MAXFILE * BSIZE) : Stored img.root := by
  have hstored := stored_dinode img Fs.ROOTINO
  refine ⟨?_, hstored.addrs, hstored.beyond⟩
  have h : (img.dinode Fs.ROOTINO).size ≤ 268 * 1024 := h
  show ((img.dinode Fs.ROOTINO).size / 1024 + 1) * 1024 < 2 ^ 32
  omega

theorem dinode_finish (h : (img.dinode Fs.ROOTINO).size ≤ MAXFILE * BSIZE) :
    img.finish.dinode = update img.dinode Fs.ROOTINO img.root := by
  rw [finish_eq, dinode_write (by decide), dinode_save _ (by decide) (stored_root h)]

/-- The files that the kernel finds are those of the finished image. -/
theorem cur_mount (disk : Nat → Words.Mem) (i : Nat) :
    (mount sb disk).cur i = (mount sb disk).dinode i := if_neg fun h => absurd h.1 List.not_mem_nil

/-- The bitmap marks the blocks before `freeblock`. -/
theorem bitmap_finish {b : Nat} (hb : b < 2000) :
    (mount sb img.finish.disk).bitmap b = decide (b < img.freeblock) := by
  have hblock : sb.BBLOCK b = 45 := by
    show b / 8192 + 45 = 45
    omega
  have hself : img.finish.disk 45 = bits img.freeblock := by
    rw [finish_eq]
    show update (img.save Fs.ROOTINO img.root).disk 45 (bits img.freeblock) 45 = _
    exact Function.update_self ..
  show (img.finish.disk (sb.BBLOCK b) (b % BPB / 8)).getLsbD (b % 8) = _
  rw [hblock, hself, bits_spec _ _ (Nat.mod_lt b (by decide))]
  refine decide_eq_decide.2 ?_
  show 8 * (b % 8192 / 8) + b % 8 < _ ↔ _
  omega

/-! ## The root directory -/

/-- The entries of the root directory. -/
def roster (files : List Input) : List (Nat × Chars) :=
  (Fs.ROOTINO, dots 1) :: (Fs.ROOTINO, dots 2) :: (files.zipIdx 2).map fun x => (x.2, x.1.name)

theorem length_roster (files : List Input) : (roster files).length = files.length + 2 := by
  simp [roster]

theorem length_dirent (n : Nat) (name : Chars) : (dirent n name).length = DIRENT :=
  Fs.length_entryBytes name _

theorem rootEntries_eq (k : Nat) (files : List Input) : rootEntries k files =
    ((files.zipIdx k).map fun x => dirent x.2 x.1.name).flatten := by
  induction files generalizing k with
  | nil => rfl
  | cons f files ih =>
    rw [rootEntries, ih, List.zipIdx_cons, List.map_cons, List.flatten_cons]

theorem rootBytes_eq (files : List Input) :
    rootBytes files = ((roster files).map fun e => dirent e.1 e.2).flatten := by
  rw [rootBytes, rootEntries_eq, roster, List.map_cons, List.map_cons, List.flatten_cons,
    List.flatten_cons, List.append_assoc, List.map_map]
  rfl

theorem length_dirents (files : List Input) :
    ∀ l ∈ (roster files).map fun e => dirent e.1 e.2, l.length = DIRENT := by
  intro l hl
  obtain ⟨e, -, rfl⟩ := List.mem_map.1 hl
  exact length_dirent _ _

theorem length_rootBytes (files : List Input) :
    (rootBytes files).length = DIRENT * (files.length + 2) := by
  have hlengths : ((roster files).map fun e => dirent e.1 e.2).map List.length =
      List.replicate (files.length + 2) DIRENT := by
    rw [List.eq_replicate_iff, List.length_map, List.length_map, length_roster]
    refine ⟨rfl, fun n hn => ?_⟩
    obtain ⟨l, hl, rfl⟩ := List.mem_map.1 hn
    exact length_dirents files l hl
  rw [rootBytes_eq, List.length_flatten, hlengths, List.sum_replicate_nat,
    Nat.mul_comm]

/-! ## Ownership -/

theorem slotOf_addrs (data : Nat → Words.Mem) {k : Nat} (h : d.addrs = din.addrs) :
    slotOf data d k = slotOf data din k := by
  unfold slotOf
  rw [h]

section finished

variable (h : Made (listing files) img)

include h

theorem dinode_root : img.dinode Fs.ROOTINO = { Dinode.zero with
    type := T_DIR, nlink := 1, size := DIRENT * (files.length + 2),
    addrs := (img.dinode Fs.ROOTINO).addrs } := by
  rw [← length_rootBytes]
  exact (h.file 0 _ rfl).info

theorem bytes_root : Exact img.view Fs.ROOTINO (rootBytes files) := (h.file 0 _ rfl).bytes

theorem dinode_mounted :
    (mount sb img.finish.disk).dinode = update img.dinode Fs.ROOTINO img.root := by
  refine dinode_finish ?_
  rw [dinode_root h, ← length_rootBytes]
  exact (bytes_root h).filled.le

theorem cur_of_ne (hi : i ≠ Fs.ROOTINO) : (mount sb img.finish.disk).cur i = img.dinode i := by
  rw [cur_mount, dinode_mounted h, Function.update_of_ne hi]

theorem cur_root : (mount sb img.finish.disk).cur Fs.ROOTINO = img.root := by
  rw [cur_mount, dinode_mounted h, Function.update_self]

theorem type_root : ((mount sb img.finish.disk).cur Fs.ROOTINO).type = T_DIR := by
  rw [cur_root h, Image.root, dinode_root h]

theorem slot_mount : (mount sb img.finish.disk).slot = img.view.slot := by
  funext ⟨i, k⟩
  have hsame : ((mount sb img.finish.disk).cur i).type = (img.dinode i).type ∧
      ((mount sb img.finish.disk).cur i).addrs = (img.dinode i).addrs := by
    by_cases hi : i = Fs.ROOTINO
    · rw [hi, cur_root h]
      exact ⟨rfl, rfl⟩
    · rw [cur_of_ne h hi]
      exact ⟨rfl, rfl⟩
  show (if ((mount sb img.finish.disk).cur i).type = 0 then 0 else
      slotOf img.finish.disk ((mount sb img.finish.disk).cur i) k) =
    if (img.view.cur i).type = 0 then 0 else slotOf img.blocks (img.view.cur i) k
  rw [hsame.1, slotOf_addrs _ hsame.2, cur_view]
  split_ifs with htype
  · rfl
  · refine Fs.slotOf_congr fun hind => disk_finish ?_
    have hslot : img.view.slot (i, NDIRECT) = (img.dinode i).addrs NDIRECT := by
      show (if (img.view.cur i).type = 0 then 0 else slotOf img.blocks (img.view.cur i) NDIRECT) = _
      rw [cur_view, if_neg htype, slotOf, if_pos (Nat.le_refl _)]
    rw [← hslot] at hind ⊢
    exact (h.owned.range hind).1

theorem data_mount {x : Nat × Nat} (hx : img.view.slot x ≠ 0) :
    (mount sb img.finish.disk).data (img.view.slot x) = img.view.data (img.view.slot x) :=
  disk_finish (h.owned.range hx).1

theorem owned_mount : Owned sb nmeta (mount sb img.finish.disk) := by
  have hbit : ∀ {b}, b < sb.size → (mount sb img.finish.disk).bitmap b = img.view.bitmap b :=
    fun hb => bitmap_finish hb
  unfold Owned
  rw [slot_mount h]
  refine ⟨h.owned.pos, h.owned.inj, h.owned.range, fun hb hlt => ?_, fun hb hlt => ?_⟩
  · rw [hbit hlt]
    exact h.owned.reserved hb hlt
  · rw [hbit hlt]
    exact h.owned.bit hb hlt

/-- A file is in the mounted image as it is in the list. -/
theorem file_mount {f : Input} (hf : files[i]? = some f) :
    Exact (mount sb img.finish.disk) (i + 2) f.content ∧
      ((mount sb img.finish.disk).cur (i + 2)).type = T_FILE ∧
      ((mount sb img.finish.disk).cur (i + 2)).nlink = 1 := by
  have hget : (listing files)[i + 1]? = some (T_FILE, f.content) := by
    rw [listing, List.getElem?_cons_succ, List.getElem?_map, hf, Option.map_some]
  have hfile := h.file (i + 1) _ hget
  have hne : i + 2 ≠ Fs.ROOTINO := by
    show i + 2 ≠ 1
    omega
  have hcur := cur_of_ne h hne
  refine ⟨hfile.bytes.congr ?_ (fun k => by rw [slot_mount h]) fun k hk => data_mount h hk, ?_, ?_⟩
  · rw [hcur, cur_view]
  · rw [hcur, hfile.info]
  · rw [hcur, hfile.info]

theorem size_root : ((mount sb img.finish.disk).cur Fs.ROOTINO).size =
    rounded (DIRENT * (files.length + 2)) := by
  rw [cur_root h, Image.root, dinode_root h]

/-- The root directory has blocks for its entries only. -/
theorem slot_root (bn : Nat) : (mount sb img.finish.disk).slot (Fs.ROOTINO, index bn) ≠ 0 ↔
    bn * BSIZE < DIRENT * (files.length + 2) := by
  rw [slot_mount h, (bytes_root h).filled.block, length_rootBytes]

/-- The new size of the root directory goes over its last block when that is
full. -/
theorem allocated_root_iff :
    Allocated (mount sb img.finish.disk) Fs.ROOTINO ↔ ¬ 64 ∣ files.length + 2 := by
  unfold Allocated
  simp only [slot_root h, size_root h]
  show (∀ bn, bn * 1024 < (16 * (files.length + 2) / 1024 + 1) * 1024 →
    bn * 1024 < 16 * (files.length + 2)) ↔ _
  constructor
  · intro hall hdvd
    have hlast := hall (16 * (files.length + 2) / 1024) (by omega)
    omega
  · intro hdvd bn hbn
    omega

/-- Which inodes are in use. -/
theorem inode_cases (i : Nat) : i = Fs.ROOTINO ∨
    (∃ k f, i = k + 2 ∧ files[k]? = some f) ∨ (mount sb img.finish.disk).cur i = .zero := by
  have hlen := length_listing files
  by_cases hroot : i = Fs.ROOTINO
  · exact .inl hroot
  · rw [cur_of_ne h hroot]
    rcases Nat.lt_or_ge i 2 with hlt | hge
    · have hroot : i ≠ 1 := hroot
      exact .inr (.inr (h.rest i (.inl (by omega))))
    · obtain ⟨k, rfl⟩ := Nat.exists_eq_add_of_le' hge
      cases hk : files[k]? with
      | some f => exact .inr (.inl ⟨k, f, rfl, hk⟩)
      | none =>
        have hk := List.getElem?_eq_none_iff.1 hk
        exact .inr (.inr (h.rest _ (.inr (by omega))))

theorem allocated_mount (hdvd : ¬ 64 ∣ files.length + 2) (i : Nat)
    (hi : ((mount sb img.finish.disk).cur i).type ≠ 0) :
    Allocated (mount sb img.finish.disk) i := by
  obtain rfl | ⟨k, f, rfl, hf⟩ | hzero := inode_cases h i
  · exact (allocated_root_iff h).2 hdvd
  · exact (file_mount h hf).1.allocated
  · rw [hzero] at hi
    exact absurd rfl hi

theorem sound_mount_iff :
    Sound sb nmeta (mount sb img.finish.disk) ↔ ¬ 64 ∣ files.length + 2 := by
  constructor
  · intro hs
    refine (allocated_root_iff h).1 (hs.allocated Fs.ROOTINO ?_)
    rw [type_root h]
    decide
  · intro hdvd
    exact ⟨owned_mount h, allocated_mount h hdvd, fun i hi => absurd hi List.not_mem_nil⟩

end finished

attribute [local irreducible] Run.Wp

/-- `mkfs` exits with 0 just when its arguments are accepted and the files fit.
Then the kernel finds the superblock and an empty log, and what it mounts has
one owner for each block, the bitmap marks these and the metadata, and no file
lacks a block, unless the entries of the root directory fill its last block. -/
theorem consistent_iff (files : List Input) (hlen : files.length + 2 ≤ NINODES) :
    Wp (main files)
      (fun _ img => ((∀ f ∈ files, f.Good) ∧ Fits (listing files)) ∧
        fsinit img.disk = .ok sb ∧ load (img.disk (2 : Nat)) 4 0 = 0 ∧
        (Sound sb nmeta (mount sb img.disk) ↔ ¬ 64 ∣ files.length + 2))
      (fun _ => ¬ ((∀ f ∈ files, f.Good) ∧ Fits (listing files))) start := by
  refine (main_rule files hlen).post fun _ img' hr => ?_
  obtain ⟨hgood, img, hmade, rfl⟩ := hr
  have hclean := clean_finish hmade.clean
  refine ⟨⟨hgood, hmade.fits⟩, fsinit_clean hclean, ?_, sound_mount_iff hmade⟩
  rw [hclean.header, Fs.load_zero]

/-- An image without files. -/
theorem consistent_iff_none : ∃ x, (main []).run start = .ok x ∧
    Sound sb nmeta (mount sb x.2.disk) := by
  have hfits : Fits (listing []) := by
    refine ⟨fun f hf => ?_, ?_⟩
    · rw [List.mem_singleton.1 hf]
      show (rootBytes []).length ≤ _
      rw [length_rootBytes]
      decide
    · show used [(T_DIR, rootBytes [])] ≤ _
      rw [used_cons, length_rootBytes]
      decide
  obtain ⟨x, hrun, -, -, -, hsound⟩ := ((consistent_iff [] (by decide)).mono (fun _ _ h => h)
    fun _ hno => hno ⟨fun f hf => absurd hf List.not_mem_nil, hfits⟩).run
  exact ⟨x, hrun, hsound.2 (by decide)⟩

end Xv6.Mkfs
