import Xv6.Mkfs.Append

/-!
# The files of an image

An image holds a list of files, inode 1 first, each with its type and its
bytes.  `ialloc` adds an empty file, `iappend` makes one longer, and `main` puts
together the root directory and the files from its arguments.
-/

namespace Xv6.Mkfs

open Run
open Function (update)
open Words (load store put)
open Fs (BSIZE NDIRECT MAXFILE I16 T_DIR T_FILE Dinode State slotOf Owned Exact SameFiles blocksFor
  kernel dots Chars SLASH)

attribute [local irreducible] sb seek

variable {img img' : Image} {d din : Dinode} {i inum : Nat} {p bs : List Byte} {t : I16}
  {E : String → Prop}

/-- The types and the bytes of the files, from inode 1 on. -/
abbrev Listing := List (I16 × List Byte)

variable {fs gs pre post : Listing}

/-- How many blocks there are before the first free one. -/
def used (fs : Listing) : Nat := nmeta + (fs.map fun f => blocksFor f.2.length).sum

/-- The files are not too large, and there are enough blocks. -/
structure Fits (fs : Listing) : Prop where
  sizes : ∀ f ∈ fs, f.2.length ≤ MAXFILE * BSIZE
  total : used fs ≤ FSSIZE

theorem used_append (fs gs : Listing) :
    used (fs ++ gs) = used fs + (gs.map fun f => blocksFor f.2.length).sum := by
  simp only [used, List.map_append, List.sum_append, Nat.add_assoc]

theorem used_cons (f : I16 × List Byte) (fs : Listing) :
    used (f :: fs) = used fs + blocksFor f.2.length := by
  simp only [used, List.map_cons, List.sum_cons]
  omega

/-- Shorter files fit as well, and fewer. -/
theorem Fits.mono (h : Fits (gs ++ post))
    (hle : List.Forall₂ (fun f g => f.2.length ≤ g.2.length) fs gs) : Fits fs := by
  have hlist : (∀ f ∈ fs, f.2.length ≤ MAXFILE * BSIZE) ∧ used fs ≤ used gs := by
    have hsizes : ∀ g ∈ gs, g.2.length ≤ MAXFILE * BSIZE := fun g hg =>
      h.sizes g (List.mem_append_left post hg)
    clear h
    induction hle with
    | nil => exact ⟨fun _ hf => absurd hf List.not_mem_nil, Nat.le_refl _⟩
    | @cons f g fs gs hfg _ ih =>
      obtain ⟨hfs, hused⟩ := ih fun g hg => hsizes g (List.mem_cons_of_mem _ hg)
      refine ⟨fun f' hf' => ?_, ?_⟩
      · rcases List.mem_cons.1 hf' with rfl | hf'
        · exact Nat.le_trans hfg (hsizes g List.mem_cons_self)
        · exact hfs f' hf'
      · have hblocks := Fs.blocksFor_mono hfg
        rw [used_cons, used_cons]
        omega
  have htotal := h.total
  rw [used_append] at htotal
  exact ⟨hlist.1, by omega⟩

/-! ## Images and lists -/

/-- The image as the kernel sees it before anything is in memory. -/
def Image.view (img : Image) : State where
  bitmap b := decide (b < img.freeblock)
  dinode := img.dinode
  data := img.blocks
  refs := []
  valid _ := false
  copy _ := .zero
  logged := []

theorem cur_view (img : Image) (i : Nat) : img.view.cur i = img.dinode i :=
  if_neg fun h => absurd h.1 List.not_mem_nil

theorem sameFiles_view (img : Image) (inum : Nat) (log : List Nat) :
    SameFiles img.view (img.seen inum (img.dinode inum) log) where
  cur := by
    funext j
    rw [cur_view]
    by_cases hj : j = inum
    · have hin : j ∈ (img.seen inum (img.dinode inum) log).refs := List.mem_singleton.2 hj
      rw [Fs.State.cur, if_pos ⟨hin, rfl⟩, hj, copy_seen]
    · exact if_neg fun h => hj (List.mem_singleton.1 h.1)
  data := rfl
  bitmap := rfl

theorem sameFiles_seen (img : Image) (inum : Nat) (log : List Nat) :
    SameFiles (img.seen inum (img.dinode inum) log) img.view :=
  ⟨(sameFiles_view img inum log).cur.symm, rfl, rfl⟩

/-- Inode `i` is a file of that type with those bytes. -/
structure HasFile (img : Image) (i : Nat) (f : I16 × List Byte) : Prop where
  type : f.1 ≠ 0
  info : img.dinode i = { Dinode.zero with
    type := f.1, nlink := 1, size := f.2.length, addrs := (img.dinode i).addrs }
  bytes : Exact img.view i f.2

/-- The image holds the files and nothing else. -/
structure Made (fs : Listing) (img : Image) : Prop where
  clean : Clean img
  next : img.freeinode = fs.length + 1
  count : img.freeblock = used fs
  owned : Owned sb nmeta img.view
  file : ∀ i f, fs[i]? = some f → HasFile img (i + 1) f
  rest : ∀ i, i = 0 ∨ fs.length < i → img.dinode i = .zero

theorem stored_dinode (img : Image) (i : Nat) : Stored (img.dinode i) := by
  unfold Image.dinode
  split_ifs
  · exact stored_getDinode _ _
  · exact stored_zero

theorem Made.fits (h : Made fs img) : Fits fs where
  sizes f hf := by
    obtain ⟨i, hi, rfl⟩ := List.mem_iff_getElem.1 hf
    exact (h.file i _ (List.getElem?_eq_getElem hi)).bytes.filled.le
  total := h.count ▸ h.clean.le

theorem Made.whole (h : Made fs img) (hfs : fs.length < NINODES) {f : I16 × List Byte}
    (hf : fs[i]? = some f) : Whole img (i + 1) := by
  have hi := (List.getElem?_eq_some_iff.1 hf).1
  have hfile := h.file i f hf
  have hexact := hfile.bytes.of_same (sameFiles_view img (i + 1) [])
  have hsize : (img.dinode (i + 1)).size = f.2.length := by rw [hfile.info]
  refine ⟨by omega, ⟨h.clean, stored_dinode img _, ?_, ?_⟩, ?_⟩
  · rw [hfile.info]
    exact hfile.type
  · exact (sameFiles_view img (i + 1) []).owned h.owned
  · rw [hsize]
    exact hexact.filled

theorem Appended.wrote {off off' : Nat} {img₁ : Image} (h : Ready img inum din)
    (ha : Appended inum img din p.length p off off' d img₁) :
    ∃ log, Fs.Wrote inum (Fs.span (kernel p) off 0 p.length) (img.seen inum din [])
      (img₁.seen inum d log) := by
  have hroom := ha.room.1
  have hspec : Wp (Fs.writeLoop sb inum (kernel p) p.length p.length 0 off)
      (fun r s' => ∃ e,
        Fs.WroteTo sb nmeta inum (kernel p) p.length 0 off (img.seen inum din []) r e s')
      (fun _ => False) (img.seen inum din []) :=
    Fs.writeLoop_spec (locked_seen _ _ h.type []) h.owned hroom (Nat.zero_le _) (Nat.le_refl _)
  have hboth := (ha.writes p 0 _ rfl (Nat.zero_le _) (seen_self img inum din)).and hspec
  obtain ⟨⟨r, s'⟩, -, ⟨rfl, log, rfl⟩, e, he⟩ :=
    (hboth.mono (fun _ _ h => h) fun _ h => h.1).run
  have hle := he.le
  obtain rfl : e = 0 := by omega
  exact ⟨log, he.wrote⟩

theorem getElem?_replaced {α : Type} {xs ys : List α} {a b : α} {i : Nat} (hi : i ≠ xs.length) :
    (xs ++ a :: ys)[i]? = (xs ++ b :: ys)[i]? := by
  rcases Nat.lt_or_gt_of_ne hi with hlt | hgt
  · rw [List.getElem?_append_left hlt, List.getElem?_append_left hlt]
  · rw [List.getElem?_append_right (Nat.le_of_lt hgt),
      List.getElem?_append_right (Nat.le_of_lt hgt), List.getElem?_cons, List.getElem?_cons,
      if_neg (by omega), if_neg (by omega)]

/-- `iappend` makes a file longer. -/
theorem iappend_made (pre : Listing) (p : List Byte) (h : Made (pre ++ (t, bs) :: post) img)
    (hfs : (pre ++ (t, bs) :: post).length < NINODES) :
    Wp (iappend (pre.length + 1) p) (fun _ img' => Made (pre ++ (t, bs ++ p) :: post) img')
      (fun _ => ¬ Fits (pre ++ (t, bs ++ p) :: post)) img := by
  have hget : (pre ++ (t, bs) :: post)[pre.length]? = some (t, bs) := by simp
  have hfile := h.file _ _ hget
  have hwhole := h.whole hfs hget
  have hsize : (img.dinode (pre.length + 1)).size = bs.length := by rw [hfile.info]
  have hused : used (pre ++ (t, bs ++ p) :: post) + blocksFor bs.length =
      used (pre ++ (t, bs) :: post) + blocksFor (bs.length + p.length) := by
    simp only [used_append, List.map_cons, List.sum_cons, List.length_append]
    omega
  have hcount := h.count
  refine (iappend_rule hwhole).mono (fun _ img' hr => ?_) fun _ hno hfits => hno ?_
  · obtain ⟨d, img₁, ha, rfl⟩ := hr
    rw [hsize] at ha ⊢
    obtain ⟨log, hwrote⟩ := ha.wrote hwhole.ready
    have hold : ∀ {i f}, HasFile img i f →
        Exact (img.seen (pre.length + 1) (img.dinode (pre.length + 1)) []) i f.2 :=
      fun hf => hf.bytes.of_same (sameFiles_view img _ [])
    have hmax : MAXFILE * BSIZE < 2 ^ 32 := by decide
    have hready := ha.ready.save hwhole.lt (Nat.lt_of_le_of_lt ha.filled.le hmax)
    have hdinode := dinode_save img₁ hwhole.lt hready.stored
    have hself := congrFun hdinode (pre.length + 1)
    rw [Function.update_self] at hself
    have hlocked := locked_seen img₁ (pre.length + 1) ha.ready.type log
    have hsave := seen_save img₁ hwhole.lt hready.stored [] log
    have hview := sameFiles_seen (img₁.save (pre.length + 1)
      { d with size := bs.length + p.length }) (pre.length + 1) []
    rw [hself, hsave] at hview
    have hcount' := ha.count
    refine ⟨hready.clean, ?_, ?_, ?_, fun i f hf => ?_, fun i hi => ?_⟩
    · show img₁.freeinode = _
      rw [ha.freeinode, h.next]
      simp
    · show img₁.freeblock = _
      omega
    · refine hview.owned ?_
      rw [← hsave]
      exact hready.owned
    · by_cases hi : i = pre.length
      · subst hi
        obtain rfl : f = (t, bs ++ p) := by simpa using hf.symm
        have hlen : (bs ++ p).length = bs.length + p.length := List.length_append
        refine ⟨hfile.type, ?_, ?_⟩
        · rw [hself, ha.info, hfile.info, hlen]
        · refine Exact.of_same ?_ hview
          rw [← hlen] at ha ⊢
          exact Exact.save hlocked ⟨ha.filled.block, ha.filled.indirect⟩
            (fun q hq => (hold hfile).append hwrote hq) []
      · have hf' : (pre ++ (t, bs) :: post)[i]? = some f := (getElem?_replaced hi).trans hf
        have hi' : i + 1 ≠ pre.length + 1 := by omega
        refine ⟨(h.file i f hf').type, ?_, ?_⟩
        · rw [hdinode, Function.update_of_ne hi', ha.dinode]
          exact (h.file i f hf').info
        · exact (((hold (h.file i f hf')).other hwrote hi').save_other hlocked hi' []).of_same hview
    · have hi' : i = 0 ∨ (pre ++ (t, bs) :: post).length < i := by simpa using hi
      rw [hdinode, Function.update_of_ne, ha.dinode]
      · exact h.rest i hi'
      · rw [List.length_append, List.length_cons] at hi'
        omega
  · have hlen := hfits.sizes (t, bs ++ p) (by simp)
    have htotal := hfits.total
    rw [List.length_append] at hlen
    rw [hsize]
    exact ⟨hlen, by omega⟩

/-! ### A new file -/

/-- An inode has no blocks before it is allocated, and none afterwards. -/
theorem Made.slot_new (h : Made fs img)
    (hdinode : img'.dinode = update img.dinode (fs.length + 1) d)
    (hblocks : img'.blocks = img.blocks) (haddrs : ∀ k, d.addrs k = 0) :
    img'.view.slot = img.view.slot := by
  funext ⟨j, k⟩
  show (if (img'.view.cur j).type = 0 then 0 else slotOf img'.blocks (img'.view.cur j) k) =
    if (img.view.cur j).type = 0 then 0 else slotOf img.blocks (img.view.cur j) k
  rw [cur_view, cur_view, hdinode, hblocks]
  by_cases hj : j = fs.length + 1
  · have hnone : slotOf img.blocks d k = 0 := by
      unfold slotOf
      split_ifs with hk hind
      · exact haddrs k
      · exact absurd (haddrs NDIRECT) hind.2
      · rfl
    rw [hj, Function.update_self, hnone, ite_self, h.rest _ (.inr (Nat.lt_succ_self _)),
      if_pos (show Dinode.zero.type = 0 from rfl)]
  · rw [Function.update_of_ne hj]

/-- A file without blocks is empty. -/
theorem exact_nil (hsize : (img.dinode i).size = 0) (hnone : ∀ k, img.view.slot (i, k) = 0) :
    Exact img.view i [] where
  size := by rw [cur_view, hsize, List.length_nil]
  filled := ⟨fun _ => iff_of_false (fun hne => hne (hnone _)) (Nat.not_lt_zero _),
    iff_of_false (fun hne => hne (hnone _)) (Nat.not_lt_zero _)⟩
  byte _ hp := absurd (hnone _) hp

/-- With one more inode, the image holds one more file. -/
theorem Made.snoc (h : Made fs img) (ht : t ≠ 0) (hclean : Clean img')
    (hfreeinode : img'.freeinode = fs.length + 1 + 1) (hfree : img'.freeblock = img.freeblock)
    (hdinode : img'.dinode =
      update img.dinode (fs.length + 1) { Dinode.zero with type := t, nlink := 1 })
    (hblocks : img'.blocks = img.blocks) : Made (fs ++ [(t, [])]) img' := by
  have hslot := h.slot_new hdinode hblocks fun _ => rfl
  refine ⟨hclean, ?_, ?_, ?_, fun i f hf => ?_, fun i hi => ?_⟩
  · rw [hfreeinode, List.length_append]
    rfl
  · have hzero : blocksFor 0 = 0 := by decide
    rw [hfree, h.count, used_append]
    simp [hzero]
  · show Pool.Marks nmeta sb.size (fun b => decide (b < img'.freeblock)) img'.view.slot
    rw [hslot, hfree]
    exact h.owned
  · by_cases hi : i = fs.length
    · subst hi
      obtain rfl : f = (t, []) := by simpa using hf.symm
      have hself : img'.dinode (fs.length + 1) = { Dinode.zero with type := t, nlink := 1 } := by
        rw [hdinode, Function.update_self]
      refine ⟨ht, by rw [hself]; rfl, exact_nil (by rw [hself]; rfl) fun k => ?_⟩
      rw [hslot]
      refine if_pos ?_
      rw [cur_view, h.rest _ (.inr (Nat.lt_succ_self _))]
      rfl
    · have hlt : i < fs.length := by
        have hlt := (List.getElem?_eq_some_iff.1 hf).1
        rw [List.length_append, List.length_singleton] at hlt
        omega
      rw [List.getElem?_append_left hlt] at hf
      have hsame : img'.dinode (i + 1) = img.dinode (i + 1) := by
        rw [hdinode, Function.update_of_ne (by omega)]
      have hfile := h.file i f hf
      refine ⟨hfile.type, by rw [hsame]; exact hfile.info, hfile.bytes.congr ?_ (fun k => ?_)
        fun k _ => ?_⟩
      · rw [cur_view, cur_view, hsame]
      · rw [hslot]
      · show img'.blocks _ = img.blocks _
        rw [hblocks]
  · rw [List.length_append, List.length_singleton] at hi
    rw [hdinode, Function.update_of_ne (by omega)]
    exact h.rest i (by omega)

theorem ialloc_made (h : Made fs img) (hfs : fs.length + 1 < NINODES) (ht : t ≠ 0) :
    Wp (ialloc t) (fun inum img' => inum = fs.length + 1 ∧ Made (fs ++ [(t, [])]) img') E img := by
  have hclean : Clean { img with freeinode := fs.length + 1 + 1 } :=
    ⟨h.clean.sectors, h.clean.ge, h.clean.le, h.clean.zero, h.clean.super, h.clean.header⟩
  have hstored : Stored { Dinode.zero with type := t, nlink := 1 } :=
    ⟨Nat.two_pow_pos 32, fun _ => Nat.two_pow_pos 32, fun _ _ => rfl⟩
  unfold ialloc
  rw [wp_bind, wp_get, wp_bind, wp_modify, h.next]
  refine (winode_rule hclean hfs).bind fun _ img' himg' => ?_
  subst himg'
  refine ⟨rfl, ?_⟩
  rw [xshort_eq, xshort_eq, xint_of_lt (Nat.two_pow_pos 32)]
  exact h.snoc ht (hclean.save hfs _) rfl rfl (dinode_save _ hfs hstored) (blocks_save hfs _)

/-! ## The root directory and the files -/

/-- The name under which a file is entered in the root directory. -/
def Input.name (f : Input) : Chars := fun i => (skip (shortname f.argv)).getD i 0

/-- All that there is to read in a file. -/
def Input.content (f : Input) : List Byte := (f.reads.getD []).flatten

/-- The argument is accepted. -/
def Input.Good (f : Input) : Prop := SLASH ∉ shortname f.argv ∧ f.reads ≠ none

/-- The entries for the files, from inode `k` on. -/
def rootEntries : (k : Nat) → (files : List Input) → List Byte
  | _, [] => []
  | k, f :: files => dirent k f.name ++ rootEntries (k + 1) files

/-- The root directory. -/
def rootBytes (files : List Input) : List Byte :=
  dirent Fs.ROOTINO (dots 1) ++ dirent Fs.ROOTINO (dots 2) ++ rootEntries 2 files

/-- The files that `main` puts into the image. -/
def listing (files : List Input) : Listing :=
  (T_DIR, rootBytes files) :: files.map fun f => (T_FILE, f.content)

variable {files done rest : List Input} {f : Input}

theorem rootEntries_append (k : Nat) (files rest : List Input) : rootEntries k (files ++ rest) =
    rootEntries k files ++ rootEntries (k + files.length) rest := by
  induction files generalizing k with
  | nil => rfl
  | cons f files ih =>
    rw [List.cons_append, rootEntries, rootEntries, ih, List.append_assoc, List.length_cons,
      Nat.add_assoc, Nat.add_comm 1]

theorem length_listing (files : List Input) : (listing files).length = files.length + 1 := by
  rw [listing, List.length_cons, List.length_map]

theorem rootBytes_append (done rest : List Input) :
    rootBytes (done ++ rest) = rootBytes done ++ rootEntries (done.length + 2) rest := by
  rw [rootBytes, rootEntries_append, rootBytes, List.append_assoc _ (rootEntries 2 done),
    Nat.add_comm]

/-- What comes later makes an image larger. -/
theorem Fits.listing (h : Fits (Mkfs.listing (done ++ rest))) : Fits (Mkfs.listing done) := by
  have hlist : Mkfs.listing (done ++ rest) = ((T_DIR, rootBytes (done ++ rest)) ::
      done.map fun f => (T_FILE, f.content)) ++ rest.map fun f => (T_FILE, f.content) := by
    rw [Mkfs.listing, List.map_append, List.cons_append]
  rw [hlist] at h
  refine h.mono (.cons ?_ (List.forall₂_same.2 fun _ _ => Nat.le_refl _))
  rw [rootBytes_append, List.length_append]
  exact Nat.le_add_right _ _

theorem fits_of_prefix (fs : Listing) (c c' : List Byte) (h : Fits (fs ++ [(t, c ++ c')])) :
    Fits (fs ++ [(t, c)]) := by
  rw [← List.append_nil (fs ++ [(t, c ++ c')])] at h
  have hlast : (t, c).2.length ≤ (t, c ++ c').2.length := by
    rw [List.length_append]
    exact Nat.le_add_right _ _
  have hsame : List.Forall₂ (fun f g : I16 × List Byte => f.2.length ≤ g.2.length) fs fs :=
    List.forall₂_same.2 fun _ _ => Nat.le_refl _
  exact h.mono (List.rel_append hsame (.cons hlast .nil))

/-- The bytes of a file are appended as they are read. -/
theorem reads_made {reads : List (List Byte)} (h : Made (fs ++ [(t, [])]) img)
    (hfs : fs.length + 1 < NINODES) :
    Wp (reads.forM (iappend (fs.length + 1)))
      (fun _ img' => Made (fs ++ [(t, reads.flatten)]) img')
      (fun _ => ¬ Fits (fs ++ [(t, reads.flatten)])) img := by
  refine (Wp.forM (fun rest img => ∃ c, c ++ rest.flatten = reads.flatten ∧
    Made (fs ++ [(t, c)]) img) ⟨[], rfl, h⟩ fun p rest img hmade => ?_).post fun _ img' h => ?_
  · obtain ⟨c, hc, hmade⟩ := hmade
    have hlen : (fs ++ [(t, c)]).length < NINODES := by simpa using hfs
    rw [List.flatten_cons, ← List.append_assoc] at hc
    refine (iappend_made fs p hmade hlen).mono (fun _ img' h => ⟨c ++ p, hc, h⟩)
      fun _ hno hfits => hno ?_
    rw [← hc] at hfits
    exact fits_of_prefix fs (c ++ p) rest.flatten hfits
  · obtain ⟨c, hc, hmade⟩ := h
    rw [List.flatten_nil, List.append_nil] at hc
    rwa [hc] at hmade

theorem addFile_made (h : Made (listing done) img) (hlen : done.length + 1 + 2 ≤ NINODES) :
    Wp (addFile Fs.ROOTINO f) (fun _ img' => f.Good ∧ Made (listing (done ++ [f])) img')
      (fun _ => ¬ (f.Good ∧ Fits (listing (done ++ [f])))) img := by
  -- what the image holds before and while the file is filled
  have hbegun : ∀ c, listing done ++ [(T_FILE, c)] =
      [] ++ (T_DIR, rootBytes done) :: ((done.map fun f => (T_FILE, f.content)) ++ [(T_FILE, c)]) :=
    fun _ => rfl
  obtain ⟨fs, hfs⟩ : ∃ fs : Listing, fs =
    (T_DIR, rootBytes done ++ dirent (done.length + 2) f.name) ::
      done.map fun f => (T_FILE, f.content) := ⟨_, rfl⟩
  have hlength : fs.length = done.length + 1 := by rw [hfs, List.length_cons, List.length_map]
  have hfinal : listing (done ++ [f]) = fs ++ [(T_FILE, f.content)] := by
    rw [listing, rootBytes_append, List.map_append, rootEntries, rootEntries, List.append_nil, hfs]
    rfl
  unfold addFile assert
  dsimp only
  by_cases hslash : SLASH ∉ shortname f.argv
  · rw [if_pos (List.idxOf?_eq_none_iff.2 hslash), wp_bind, wp_pure]
    cases hreads : f.reads with
    | none => exact fun hgood => hgood.1.2 hreads
    | some reads =>
      have hgood : f.Good := ⟨hslash, by simp [hreads]⟩
      have hcontent : f.content = reads.flatten := by rw [Input.content, hreads, Option.getD_some]
      have hlisting := length_listing done
      have hshort : Fits (listing (done ++ [f])) → Fits (fs ++ [(T_FILE, [])]) := fun hfits =>
        fits_of_prefix fs [] f.content (by rwa [hfinal] at hfits)
      refine (ialloc_made h (by omega) (by decide)).bind fun inum img₁ h₁ => ?_
      obtain ⟨hinum, h₁⟩ := h₁
      rw [hbegun] at h₁
      have hentry := iappend_made [] (dirent (done.length + 2) f.name) h₁ (by simp; omega)
      rw [hlisting] at hinum
      rw [hinum]
      refine Wp.bind (hentry.mono (fun _ _ h => h) fun _ hno hfits => hno ?_) fun _ img₂ h₂ => ?_
      · have hshort := hshort hfits.2
        rwa [hfs] at hshort
      · have h₂ : Made (fs ++ [(T_FILE, [])]) img₂ := by
          rw [hfs]
          exact h₂
        rw [hfinal, hcontent]
        rw [hlength.symm]
        exact (reads_made h₂ (by omega)).mono (fun _ _ h => ⟨hgood, h⟩)
          fun _ hno hfits => hno hfits.2
  · rw [if_neg (mt List.idxOf?_eq_none_iff.1 hslash), wp_bind, wp_throw]
    exact fun hgood => hslash hgood.1.1

theorem files_made (hlen : files.length + 2 ≤ NINODES) (h : Made (listing []) img) :
    Wp (files.forM (addFile Fs.ROOTINO))
      (fun _ img' => (∀ f ∈ files, f.Good) ∧ Made (listing files) img')
      (fun _ => ¬ ((∀ f ∈ files, f.Good) ∧ Fits (listing files))) img := by
  have hlen' : files.length + 2 ≤ 200 := hlen
  refine (Wp.forM (fun rest img => ∃ done, done ++ rest = files ∧ (∀ f ∈ done, f.Good) ∧
    Made (listing done) img) ⟨[], rfl, fun f hf => absurd hf List.not_mem_nil, h⟩
    fun f rest img h => ?_).post fun _ img' h => ?_
  · obtain ⟨done, hfiles, hgood, hmade⟩ := h
    have hcount := congrArg List.length hfiles
    rw [List.length_append, List.length_cons] at hcount
    have hsplit : done ++ [f] ++ rest = files := by rw [← hfiles, List.append_assoc]; rfl
    refine (addFile_made hmade (by omega)).mono (fun _ img' h => ⟨done ++ [f], hsplit, ?_, h.2⟩)
      fun _ hno hall => hno ⟨hall.1 f ?_, ?_⟩
    · intro g hg
      rcases List.mem_append.1 hg with hg | hg
      · exact hgood g hg
      · exact List.mem_singleton.1 hg ▸ h.1
    · rw [← hfiles]
      exact List.mem_append_right done List.mem_cons_self
    · have hfits := hall.2
      rw [← hsplit] at hfits
      exact hfits.listing
  · obtain ⟨done, hfiles, hgood, hmade⟩ := h
    rw [List.append_nil] at hfiles
    exact hfiles ▸ ⟨hgood, hmade⟩

/-! ## `main` -/

/-- The file has `n` blocks of zeroes. -/
def Zeroes (n : Nat) (img : Image) : Prop := img = { start with sectors := n }

theorem zeroes_rule {n : Nat} (hn : n ≤ 2000) :
    Wp ((List.range n).forM fun i => wsect i fun _ => 0) (fun _ => Zeroes n) E start := by
  refine Wp.forM_range Zeroes rfl fun i hi img himg => ?_
  have hzero : update start.disk i (fun _ => 0) = start.disk := Function.update_eq_self i _
  subst himg
  rw [wp_wsect, seek_of_lt (by omega)]
  show Image.mk (update start.disk i fun _ => 0) (max i (i + 1)) _ _ = _
  rw [hzero, Nat.max_eq_right (Nat.le_succ i)]

/-- The image with nothing but the superblock. -/
theorem super_made : Wp (wsect 1 (put (fun _ => 0) 0 superblockFields))
    (fun _ img' => Made [] img') E { start with sectors := FSSIZE } := by
  refine (wsect_rule rfl (by decide) _).post fun _ img' himg' => ?_
  have hdisk : ∀ b, b ≠ 1 → img'.disk b = fun _ => 0 := fun b hb => by
    rw [himg']
    exact Function.update_of_ne hb ..
  have hfree : img'.freeblock = nmeta := by rw [himg']; rfl
  have hdinode : ∀ i, img'.dinode i = .zero := fun i => by
    unfold Image.dinode
    split_ifs with hi
    · have hblock := IBLOCK_lt hi
      rw [hdisk _ (by omega), getDinode_zero]
    · rfl
  have hslot : ∀ x, img'.view.slot x = 0 := fun x => by
    refine if_pos ?_
    rw [cur_view, hdinode]
    rfl
  refine ⟨⟨by rw [himg']; rfl, Nat.le_of_eq hfree.symm, by rw [hfree]; decide,
    fun b hb => hdisk b ?_, ?_, hdisk 2 (by decide)⟩, by rw [himg']; rfl, hfree, ?_,
    fun i f hf => absurd hf (by simp), fun i _ => hdinode i⟩
  · rw [hfree] at hb
    have hb : 46 ≤ b := hb
    omega
  · rw [himg']
    show update start.disk 1 _ 1 = _
    exact Function.update_self ..
  · refine ⟨by decide, fun hx _ => absurd (hslot _) hx, fun hx => absurd (hslot _) hx,
      fun hb _ => decide_eq_true (by rw [hfree]; exact hb), fun {b} hb _ => ?_⟩
    have hb : 46 ≤ b := hb
    refine iff_of_false (fun hused => ?_) fun ⟨x, hx⟩ => ?_
    · have hlt : b < img'.freeblock := of_decide_eq_true hused
      rw [hfree] at hlt
      exact absurd hlt (Nat.not_lt.2 hb)
    · rw [hslot] at hx
      omega

/-- `iappend` returns just when there is room in the file and on the image, and
it leaves the image that `writei` leaves when the kernel appends the same bytes:
the same blocks in the same places, the same inode and the same bitmap. -/
theorem iappend_as_writei (img : Image) (inum : Nat) (p : List Byte) (h : Whole img inum) :
    Wp (iappend inum p)
      (fun _ img' => Room img (img.dinode inum).size p.length ∧ Whole img' inum ∧
        Wp (Fs.writei sb inum (kernel p) (BitVec.ofNat 32 (img.dinode inum).size)
          (BitVec.ofNat 32 p.length))
          (fun r s' => r = p.length ∧ ∃ log, s' = img'.seen inum (img'.dinode inum) log)
          (fun _ => False) (img.seen inum (img.dinode inum) []))
      (fun _ => ¬ Room img (img.dinode inum).size p.length) img := by
  refine (iappend_rule h).post fun _ img' hr => ?_
  obtain ⟨d, img₁, ha, rfl⟩ := hr
  have hle : (img.dinode inum).size + p.length ≤ 268 * 1024 := ha.filled.le
  have hsize : (img.dinode inum).size + p.length < 2 ^ 32 := by omega
  have hready := ha.ready.save h.lt hsize
  have hinode : (img₁.save inum { d with size := (img.dinode inum).size + p.length }).dinode inum =
      { d with size := (img.dinode inum).size + p.length } := by
    rw [dinode_save _ h.lt hready.stored, Function.update_self]
  refine ⟨ha.room, ⟨h.lt, by rw [hinode]; exact hready, ?_⟩, ?_⟩
  · rw [hinode, seen_save _ h.lt hready.stored [] []]
    have hslot := Fs.slot_save (locked_seen img₁ inum ha.ready.type [])
      ((img.dinode inum).size + p.length) []
    refine ⟨fun bn => ?_, ?_⟩
    · rw [hslot]
      exact ha.filled.block bn
    · rw [hslot]
      exact ha.filled.indirect
  · rw [hinode]
    exact ha.writei h

/-- A byte is appended to the root directory when it is new. -/
theorem iappend_as_writei_new : ∃ img img', Whole img Fs.ROOTINO ∧
    (iappend Fs.ROOTINO [46]).run img = .ok ((), img') ∧ Whole img' Fs.ROOTINO := by
  obtain ⟨⟨_, img₀⟩, -, hsuper⟩ := (super_made (E := fun _ => False)).run
  obtain ⟨⟨_, img⟩, -, -, hmade⟩ :=
    (ialloc_made (t := T_DIR) (E := fun _ => False) hsuper (by decide) (by decide)).run
  have hwhole : Whole img Fs.ROOTINO := hmade.whole (by decide) rfl
  have hsize : (img.dinode Fs.ROOTINO).size = 0 := by
    rw [(hmade.file 0 _ rfl).info]
    rfl
  have hroom : Room img (img.dinode Fs.ROOTINO).size 1 := by
    rw [hsize]
    refine ⟨by decide, ?_⟩
    rw [hmade.count]
    decide
  obtain ⟨⟨_, img'⟩, hrun, -, hwhole', -⟩ :=
    ((iappend_as_writei img Fs.ROOTINO [46] hwhole).mono (fun _ _ h => h)
      fun _ hno => hno hroom).run
  exact ⟨img, img', hwhole, hrun, hwhole'⟩

theorem fixRoot_rule (hc : Clean img) (hsize : (img.dinode Fs.ROOTINO).size ≤ MAXFILE * BSIZE) :
    Wp (fixRoot Fs.ROOTINO) (fun _ img' => img' = img.save Fs.ROOTINO { img.dinode Fs.ROOTINO with
      size := ((img.dinode Fs.ROOTINO).size / BSIZE + 1) * BSIZE }) E img := by
  have hroot : Fs.ROOTINO < NINODES := by decide
  have hsize : (img.dinode Fs.ROOTINO).size ≤ 268 * 1024 := hsize
  unfold fixRoot
  refine (rinode_rule hc hroot).bind fun d img₀ hr => ?_
  obtain ⟨rfl, rfl⟩ := hr
  have hround : ((img₀.dinode Fs.ROOTINO).size / BSIZE + 1) * BSIZE < 2 ^ 32 := by
    show ((img₀.dinode Fs.ROOTINO).size / 1024 + 1) * 1024 < 2 ^ 32
    omega
  rw [xint_of_lt (Nat.lt_of_le_of_lt hsize (by decide))]
  dsimp only
  rw [xint_of_lt hround]
  exact winode_rule hc hroot

theorem balloc_rule (hc : Clean img) : Wp (balloc img.freeblock)
    (fun _ img' => img' = img.write sb.bmapstart (bits img.freeblock)) E img := by
  have hle : img.freeblock ≤ 2000 := hc.le
  have hbmap : sb.bmapstart < 2000 := by
    unfold sb
    decide
  unfold balloc assert
  rw [if_pos (Nat.lt_of_le_of_lt hle (by decide)), wp_bind, wp_pure]
  exact wsect_rule hc.sectors hbmap _

/-- What `main` does when the files are in the image: it makes the root
directory larger, and writes the bitmap. -/
def Image.finish (img : Image) : Image :=
  (img.save Fs.ROOTINO { img.dinode Fs.ROOTINO with
    size := ((img.dinode Fs.ROOTINO).size / BSIZE + 1) * BSIZE }).write sb.bmapstart
    (bits img.freeblock)

-- nor is the loop over all blocks to be run
attribute [local irreducible] Run.Wp

/-- `mkfs` exits with 0 just when all arguments are accepted and the files fit;
then the image holds the root directory and the files. -/
theorem main_rule (files : List Input) (hlen : files.length + 2 ≤ NINODES) :
    Wp (main files)
      (fun _ img' => (∀ f ∈ files, f.Good) ∧ ∃ img, Made (listing files) img ∧ img' = img.finish)
      (fun _ => ¬ ((∀ f ∈ files, f.Good) ∧ Fits (listing files))) start := by
  have hempty : Fits (listing files) → Fits (listing []) := fun hfits =>
    Fits.listing (by rwa [List.nil_append])
  unfold main
  refine (zeroes_rule (Nat.le_refl 2000)).bind fun _ img₀ h₀ => ?_
  rw [h₀]
  refine super_made.bind fun _ img₁ h₁ => ?_
  refine (ialloc_made h₁ (by decide) (by decide)).bind fun rootino img₂ h₂ => ?_
  obtain ⟨hroot, h₂⟩ := h₂
  have hroot : rootino = Fs.ROOTINO := hroot
  unfold assert
  rw [if_pos hroot, wp_bind, wp_pure, hroot]
  have hnone : listing [] =
      [(T_DIR, [] ++ dirent Fs.ROOTINO (dots 1) ++ dirent Fs.ROOTINO (dots 2))] := by
    rw [listing, rootBytes, rootEntries, List.append_nil]
    rfl
  have hdot := iappend_made [] (dirent Fs.ROOTINO (dots 1)) h₂ (by decide)
  refine Wp.bind (hdot.mono (fun _ _ h => h) fun _ hno hfits => hno ?_) fun _ img₃ h₃ => ?_
  · have hfits := hempty hfits.2
    rw [hnone] at hfits
    exact fits_of_prefix [] _ _ hfits
  have hdots := iappend_made [] (dirent Fs.ROOTINO (dots 2)) h₃ (by decide)
  refine Wp.bind (hdots.mono (fun _ _ h => h) fun _ hno hfits => hno ?_) fun _ img₄ h₄ => ?_
  · have hfits := hempty hfits.2
    rwa [hnone] at hfits
  refine (files_made hlen (hnone ▸ h₄)).bind fun _ img₅ h₅ => ?_
  obtain ⟨hgood, h₅⟩ := h₅
  have hroot := h₅.file 0 _ rfl
  have hsize : (img₅.dinode Fs.ROOTINO).size ≤ MAXFILE * BSIZE := by
    rw [hroot.info]
    exact hroot.bytes.filled.le
  refine (fixRoot_rule h₅.clean hsize).bind fun _ img₆ h₆ => ?_
  have hclean : Clean img₆ := h₆ ▸ h₅.clean.save (by decide) _
  rw [wp_bind, wp_get]
  refine (balloc_rule hclean).post fun _ img₇ h₇ => ⟨hgood, img₅, h₅, ?_⟩
  rw [h₇, h₆]
  rfl

end Xv6.Mkfs
