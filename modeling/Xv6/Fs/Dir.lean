import Xv6.Fs.Content
import Xv6.Fs.Names
import Xv6.Slots.Finmap

/-!
# A directory is a finite map

A directory maps names to inode numbers.  A name counts as its `DIRSIZ` bytes
with NULs behind a shorter one, which is what `strncpy` stores and what
`namecmp` compares.
-/

namespace Xv6.Fs

open Run
open Function (update)

variable {sb : Superblock} {first : Nat} {s s' : State} {dp : Nat} {E : String → Prop}

/-! ## Names -/

/-- A name as it is stored. -/
def key (name : Chars) : List Byte := strncpy name DIRSIZ

@[simp] theorem length_strncpy (t : Chars) (n : Nat) : (strncpy t n).length = n := by
  induction n generalizing t with
  | zero => rfl
  | succ n ih =>
    rw [strncpy]
    split_ifs
    · exact List.length_replicate
    · rw [List.length_cons, ih]

theorem head_strncpy (t : Chars) (n : Nat) : (strncpy t (n + 1)).head? = some (t 0) := by
  rw [strncpy]
  split_ifs with ht
  · rw [ht, List.replicate_succ, List.head?_cons]
  · rw [List.head?_cons]

theorem strncmp_eq_zero (p q : Chars) (n : Nat) :
    strncmp p q n = 0 ↔ strncpy p n = strncpy q n := by
  induction n generalizing p q with
  | zero => simp [strncmp, strncpy]
  | succ n ih =>
    have hhead : strncpy p (n + 1) = strncpy q (n + 1) → p 0 = q 0 := by
      intro h
      have hcongr := congrArg List.head? h
      rw [head_strncpy, head_strncpy] at hcongr
      exact Option.some.inj hcongr
    rw [strncmp]
    by_cases hgo : p 0 ≠ 0 ∧ p 0 = q 0
    · have hq : q 0 ≠ 0 := hgo.2 ▸ hgo.1
      rw [if_pos hgo, ih, strncpy, strncpy, if_neg hgo.1, if_neg hq, hgo.2, List.cons.injEq,
        eq_self_iff_true, true_and]
    · rw [if_neg hgo]
      constructor
      · intro h
        have heq : p 0 = q 0 := BitVec.eq_of_toNat_eq (by omega)
        have hp : p 0 = 0 := by
          by_contra hp
          exact hgo ⟨hp, heq⟩
        rw [strncpy, strncpy, if_pos hp, if_pos (heq ▸ hp)]
      · intro h
        rw [hhead h, Int.sub_self]

theorem namecmp_eq_zero (p q : Chars) : namecmp p q = 0 ↔ key p = key q :=
  strncmp_eq_zero p q DIRSIZ

/-- A name is cut to `DIRSIZ` bytes or to its NUL, and padded with NULs. -/
theorem key_eq (name : Chars) : key name =
    ((List.range DIRSIZ).map name).takeWhile (· ≠ 0) ++ List.replicate
      (DIRSIZ - (((List.range DIRSIZ).map name).takeWhile (· ≠ 0)).length) 0 := by
  unfold key
  generalize DIRSIZ = n
  induction n generalizing name with
  | zero => rfl
  | succ n ih =>
    rw [strncpy, List.range_succ_eq_map, List.map_cons, List.map_map]
    by_cases h : name 0 = 0
    · simp [h]
    · rw [if_neg h, List.takeWhile_cons_of_pos (by simpa using h), ih]
      simp [Function.comp_def]

/-- What `strncpy` has stored compares like the name itself. -/
theorem strncpy_getD (t : Chars) (n : Nat) :
    strncpy (fun i => (strncpy t n).getD i 0) n = strncpy t n := by
  induction n generalizing t with
  | zero => rfl
  | succ n ih =>
    by_cases ht : t 0 = 0
    · have hstored : strncpy t (n + 1) = List.replicate (n + 1) 0 := by rw [strncpy, if_pos ht]
      rw [hstored]
      rw [strncpy, if_pos]
      simp
    · have hstored : strncpy t (n + 1) = t 0 :: strncpy (fun i => t (i + 1)) n := by
        rw [strncpy, if_neg ht]
      rw [hstored, strncpy, if_neg (by simpa using ht)]
      simp only [List.getD_cons_zero, List.getD_cons_succ]
      rw [ih]

/-! ## Entries -/

namespace State

variable (s : State) (dp : Nat)

/-- The `i`th entry of a directory. -/
def ent (i : Nat) : Dirent := Dirent.ofBytes (s.bytes dp (DIRENT * i) DIRENT)

/-- What the `i`th slot of a directory holds. -/
def entries (i : Nat) : Option (List Byte × Nat) :=
  if (s.ent dp i).inum = 0 then none else some (key (s.ent dp i).name, (s.ent dp i).inum)

/-- How many slots a directory has. -/
def count : Nat := (s.cur dp).size / DIRENT

/-- The inode number that a directory has for a name. -/
def dir : List Byte → Option Nat := Slots.toMap (s.entries dp) (s.count dp)

end State

/-- A directory that has been locked. -/
structure Directory (s : State) (dp : Nat) : Prop where
  locked : Locked s dp
  type : (s.copy dp).type = T_DIR
  allocated : Allocated s dp
  aligned : DIRENT ∣ (s.cur dp).size
  unique : Slots.Unique (s.entries dp) (s.count dp)

theorem Allocated.size_le {i : Nat} (h : Allocated s i) : (s.cur i).size ≤ MAXFILE * BSIZE := by
  by_contra hbig
  have hx := h MAXFILE (by omega)
  have hnone : s.slot (i, index MAXFILE) = 0 := by
    have hslotOf : ∀ d, slotOf s.data d NSLOT = 0 := fun d => by
      rw [slotOf, if_neg (by decide), if_neg fun h => Nat.lt_irrefl _ h.1]
    show (if (s.cur i).type = 0 then 0 else slotOf s.data (s.cur i) NSLOT) = 0
    rw [hslotOf, ite_self]
  exact hx hnone

theorem size_eq_count (h : DIRENT ∣ (s.cur dp).size) : (s.cur dp).size = DIRENT * s.count dp :=
  (Nat.mul_div_cancel' h).symm

theorem entries_eq_some {i n : Nat} {k : List Byte} :
    s.entries dp i = some (k, n) ↔
      (s.ent dp i).inum ≠ 0 ∧ key (s.ent dp i).name = k ∧ (s.ent dp i).inum = n := by
  unfold State.entries
  split_ifs with h
  · simp [h]
  · simp [h]

theorem entries_eq_none {i : Nat} : s.entries dp i = none ↔ (s.ent dp i).inum = 0 := by
  unfold State.entries
  split_ifs with h <;> simp [h]

/-- Reading an entry. -/
theorem readEntry_spec {i : Nat} (msg : String) (hl : Locked s dp) (halloc : Allocated s dp)
    (haligned : DIRENT ∣ (s.cur dp).size) (hi : i < s.count dp) :
    Wp (readEntry sb msg dp (DIRENT * i)) (fun de s' => s' = s ∧ de = s.ent dp i) E s := by
  have hsize := size_eq_count haligned
  have hmax := halloc.size_le
  have hbound : DIRENT * i + DIRENT ≤ (s.cur dp).size := by
    rw [hsize, ← Nat.mul_succ]
    exact Nat.mul_le_mul_left _ hi
  have hmaxfile : MAXFILE * BSIZE < 2 ^ 32 := by decide
  have hoff : (BitVec.ofNat 32 (DIRENT * i)).toNat = DIRENT * i := by
    rw [BitVec.toNat_ofNat, Nat.mod_eq_of_lt (by omega)]
  have hlen : (BitVec.ofNat 32 DIRENT).toNat = DIRENT := rfl
  have hread : readLength (s.cur dp).size (BitVec.ofNat 32 (DIRENT * i)) (BitVec.ofNat 32 DIRENT) =
      DIRENT := by
    unfold readLength
    rw [if_neg, hoff, hlen, Nat.min_eq_left (by omega)]
    rw [not_or, BitVec.lt_def, BitVec.toNat_add, hoff, hlen]
    omega
  unfold readEntry
  refine (readi_spec hl halloc).bind fun r s' hr => ?_
  obtain ⟨rfl, hr⟩ := hr
  rw [hread, hoff] at hr
  obtain ⟨rfl, -⟩ | ⟨k, -, -, hbad⟩ := hr
  · rw [if_pos rfl]
    exact ⟨rfl, rfl⟩
  · cases hbad

theorem ceil_count (n : Nat) : (DIRENT * n + (DIRENT - 1)) / DIRENT = n := by
  show (16 * n + 15) / 16 = n
  omega

theorem mem_offsets {off : Nat} (haligned : DIRENT ∣ (s.cur dp).size)
    (h : off ∈ offsets (s.cur dp).size) : ∃ i < s.count dp, off = DIRENT * i := by
  obtain ⟨i, hi, rfl⟩ := List.mem_map.1 h
  rw [size_eq_count haligned, ceil_count] at hi
  exact ⟨i, List.mem_range.1 hi, rfl⟩

/-! ## `dirlookup` -/

/-- The state after `iget`. -/
def State.got (s : State) (inum : Nat) : State :=
  { s with
    refs := inum :: s.refs
    valid := if inum ∈ s.refs then s.valid else update s.valid inum false }

/-- `iget` finds the inode in the table, or an entry of the table is free. -/
def Room (refs : List Nat) (inum : Nat) : Prop := inum ∈ refs ∨ refs.dedup.length < NINODE

theorem iget_spec (inum : Nat) :
    Wp (iget inum) (fun r s' => Room s.refs inum ∧ r = inum ∧ s' = s.got inum)
      (fun _ => ¬ Room s.refs inum) s := by
  unfold iget
  rw [wp_bind, wp_get]
  refine Wp.ite (fun hin => ?_) fun hout => Wp.ite (fun hfull => ?_) fun hroom => ?_
  · exact ⟨.inl hin, rfl, by simp [State.got, hin]⟩
  · rintro (hin | hroom)
    · exact hout hin
    · omega
  · exact ⟨.inr (Nat.lt_of_not_le hroom), rfl, by simp [State.got, hout]⟩

/-- There is room for the inode that a name stands for. -/
def RoomFor (s : State) (dp : Nat) (name : Chars) : Prop :=
  ∀ inum, s.dir dp (key name) = some inum → Room s.refs inum

/-- What `dirlookup` answers: the entry with that name, and a reference to its
inode. -/
inductive Looked (s : State) (dp : Nat) (name : Chars) : Option (Nat × Nat) → State → Prop
  | absent (h : s.dir dp (key name) = none) : Looked s dp name none s
  | present {i inum : Nat} (hi : i < s.count dp)
      (hent : s.entries dp i = some (key name, inum)) :
      Looked s dp name (some (inum, DIRENT * i)) (s.got inum)

theorem dirlookup_spec {name : Chars} (hd : Directory s dp) :
    Wp (dirlookup sb dp name) (fun r s' => RoomFor s dp name ∧ Looked s dp name r s')
      (fun _ => ¬ RoomFor s dp name) s := by
  have hcur := hd.locked.cur_eq
  unfold dirlookup
  rw [wp_bind, wp_get]
  show Wp (if (s.copy dp).type = T_DIR then _ else _) _ _ _
  rw [if_pos hd.type, ← hcur]
  refine Wp.findM? (fun pre is s' => s' = s ∧ pre ++ is = offsets (s.cur dp).size ∧
    ∀ i, DIRENT * i ∈ pre → ∀ v, s.entries dp i ≠ some (key name, v)) []
    ⟨rfl, rfl, fun _ h => by cases h⟩ (fun pre off is s' h => ?_) fun pre s' h => ?_
  · obtain ⟨rfl, hlist, hpre⟩ := h
    obtain ⟨i, hi, rfl⟩ := mem_offsets hd.aligned (hlist ▸ List.mem_append_right pre
      List.mem_cons_self)
    -- the entry does not match, and the loop goes on
    have hnext : (∀ v, s'.entries dp i ≠ some (key name, v)) → s' = s' ∧
        pre ++ [DIRENT * i] ++ is = offsets (s'.cur dp).size ∧
        ∀ j, DIRENT * j ∈ pre ++ [DIRENT * i] → ∀ v, s'.entries dp j ≠ some (key name, v) := by
      intro hno
      refine ⟨rfl, by rw [← hlist, List.append_assoc, List.singleton_append], fun j hj => ?_⟩
      rcases List.mem_append.1 hj with hj | hj
      · exact hpre j hj
      · have hji : DIRENT * j = DIRENT * i := List.mem_singleton.1 hj
        rwa [Nat.eq_of_mul_eq_mul_left (by decide) hji]
    refine (readEntry_spec _ hd.locked hd.allocated hd.aligned hi).bind fun de s'' hde => ?_
    obtain ⟨rfl, rfl⟩ := hde
    refine Wp.ite (fun hfree => ?_) fun hlive => ?_
    · refine ⟨fun _ h => (by cases h), fun _ => hnext fun v hv => ?_⟩
      rw [entries_eq_none.2 hfree] at hv
      cases hv
    · refine Wp.ite (fun hmatch => ?_) fun hother => ?_
      · have hent : s''.entries dp i = some (key name, (s''.ent dp i).inum) :=
          entries_eq_some.2 ⟨hlive, ((namecmp_eq_zero _ _).1 hmatch).symm, rfl⟩
        have hdir : s''.dir dp (key name) = some (s''.ent dp i).inum :=
          (Slots.toMap_eq_some hd.unique).2 ⟨i, hi, hent⟩
        refine Wp.bind ((iget_spec _).mono (fun _ _ h => h) fun e hno hroom => hno (hroom _ hdir))
          fun ip s₁ hip => ?_
        obtain ⟨hroom, rfl, rfl⟩ := hip
        refine ⟨fun a ha => ?_, fun h => by cases h⟩
        rw [← Option.some.inj ha]
        refine ⟨fun n hn => ?_, .present hi hent⟩
        rw [hdir] at hn
        exact Option.some.inj hn ▸ hroom
      · refine ⟨fun _ h => (by cases h), fun _ => hnext fun v hv => hother ?_⟩
        exact (namecmp_eq_zero _ _).2 (entries_eq_some.1 hv).2.1.symm
  · obtain ⟨rfl, hlist, hpre⟩ := h
    rw [List.append_nil] at hlist
    have habsent : s'.dir dp (key name) = none := by
      refine Slots.toMap_eq_none.2 fun i hi => hpre i ?_
      rw [hlist, size_eq_count hd.aligned, offsets, ceil_count]
      exact List.mem_map.2 ⟨i, List.mem_range.2 hi, rfl⟩
    refine ⟨fun n hn => ?_, .absent habsent⟩
    rw [habsent] at hn
    cases hn

/-! ## Writing an entry -/

theorem kernel_ne_none (bs : List Byte) (i : Nat) : kernel bs i ≠ none :=
  Option.some_ne_none _

/-- There is no room for one more entry: the directory is as large as a file
can be, or it needs a block and there is none. -/
def CannotGrow (sb : Superblock) (s : State) (dp : Nat) (s' : State) : Prop :=
  (s.cur dp).size + DIRENT > MAXFILE * BSIZE ∨
    Full sb s' ∧ s'.slot (dp, index ((s.cur dp).size / BSIZE)) = 0

/-- What a write of sixteen bytes into slot `i` does: all of them are written,
or the slot lies behind the end and the directory cannot grow. -/
inductive EntryWritten (sb : Superblock) (first : Nat) (s : State) (dp i : Nat) (bs : List Byte) :
    Int → State → Prop
  | refused (hi : i = s.count dp) (h : CannotGrow sb s dp s) : EntryWritten sb first s dp i bs (-1) s
  | full {s' : State} (hi : i = s.count dp) (h : CannotGrow sb s dp s')
      (hw : Written sb first dp (s.cur dp).size (fun _ => none) s s') :
      EntryWritten sb first s dp i bs 0 s'
  | written {s' : State} (hfit : DIRENT * i + DIRENT ≤ MAXFILE * BSIZE)
      (hw : Written sb first dp (grown (s.cur dp).size (DIRENT * i) DIRENT)
        (span (kernel bs) (DIRENT * i) 0 DIRENT) s s') :
      EntryWritten sb first s dp i bs DIRENT s'

theorem writeEntry_spec {i : Nat} {bs : List Byte} (hd : Directory s dp)
    (hown : Owned sb first s) (hi : i ≤ s.count dp) :
    Wp (writei sb dp (kernel bs) (BitVec.ofNat 32 (DIRENT * i)) (BitVec.ofNat 32 DIRENT))
      (EntryWritten sb first s dp i bs) E s := by
  have hsize := size_eq_count hd.aligned
  have hmax := hd.allocated.size_le
  have hle : DIRENT * i ≤ (s.cur dp).size := by
    rw [hsize]
    exact Nat.mul_le_mul_left _ hi
  have hmaxfile : MAXFILE * BSIZE + DIRENT < 2 ^ 32 := by decide
  have hoff : (BitVec.ofNat 32 (DIRENT * i)).toNat = DIRENT * i := by
    rw [BitVec.toNat_ofNat, Nat.mod_eq_of_lt (by omega)]
  have hlen : (BitVec.ofNat 32 DIRENT).toNat = DIRENT := rfl
  have hsum : (BitVec.ofNat 32 (DIRENT * i) + BitVec.ofNat 32 DIRENT).toNat =
      DIRENT * i + DIRENT := by
    rw [BitVec.toNat_add, hoff, hlen, Nat.mod_eq_of_lt (by omega)]
  -- an entry of the directory lies below its size
  have hlast : ¬ i < s.count dp → i = s.count dp := by omega
  have hbelow : i < s.count dp → DIRENT * i + DIRENT ≤ (s.cur dp).size := by
    intro hlt
    rw [hsize, ← Nat.mul_succ]
    exact Nat.mul_le_mul_left _ hlt
  refine (writei_spec hd.locked hown hd.allocated).post fun r s' h => ?_
  rcases h with ⟨hrefused, rfl, rfl⟩ | ⟨haccepted, k, e, rfl, hke, hw, -, hfault, hshort, -⟩
  · rw [Refused, BitVec.lt_def, hsum, hoff] at hrefused
    have hbig : DIRENT * i + DIRENT > MAXFILE * BSIZE := by omega
    have hend : i = s'.count dp := hlast fun hlt => by
      have hle' := hbelow hlt
      omega
    refine .refused hend (.inl ?_)
    rwa [hsize, ← hend]
  · rw [Refused, BitVec.lt_def, hsum, hoff] at haccepted
    have hfit : DIRENT * i + DIRENT ≤ MAXFILE * BSIZE := by omega
    obtain rfl : e = 0 := by
      by_contra hne
      exact kernel_ne_none bs _ (hfault hne)
    rw [hlen] at hke hshort
    rw [hoff, Nat.add_zero] at hw
    rw [hoff] at hshort
    by_cases hall : k = DIRENT
    · subst hall
      exact .written hfit hw
    · have hstop := (hshort (by omega)).resolve_right (kernel_ne_none bs _)
      obtain rfl : k = 0 := by
        rcases hstop.boundary with hzero | hdvd
        · exact hzero
        · have hdvd' : DIRENT ∣ DIRENT * i + k := Nat.dvd_trans ⟨BSIZE / DIRENT, rfl⟩ hdvd
          have hk : DIRENT ∣ k := (Nat.dvd_add_right ⟨i, rfl⟩).1 hdvd'
          exact Nat.eq_zero_of_dvd_of_lt hk (by omega)
      have hgrown : grown (s.cur dp).size (DIRENT * i) 0 = (s.cur dp).size := if_neg (by omega)
      rw [hgrown] at hw
      have hw : Written sb first dp (s.cur dp).size (fun _ => none) s s' := by
        rwa [show span (kernel bs) (DIRENT * i) 0 0 = fun _ => none from
          funext (span_zero _ _ _)] at hw
      have hmissing := hstop.missing
      rw [Nat.add_zero] at hmissing
      have hend : i = s.count dp := hlast fun hlt => by
        refine hw.allocated _ ?_ hmissing
        have hoff_lt : DIRENT * i < (s.cur dp).size :=
          Nat.lt_of_lt_of_le (Nat.lt_add_of_pos_right (by decide)) (hbelow hlt)
        rw [hw.size_eq hd.locked]
        exact Nat.lt_of_le_of_lt (Nat.div_mul_le_self ..) hoff_lt
      refine .full hend (.inr ⟨hstop.full, ?_⟩) hw
      rwa [hsize, ← hend]

/-! ## The directory after a write -/

theorem ent_congr {j : Nat}
    (h : ∀ p, DIRENT * j ≤ p → p < DIRENT * j + DIRENT → s'.byte dp p = s.byte dp p) :
    s'.ent dp j = s.ent dp j := by
  have hbytes : s'.bytes dp (DIRENT * j) DIRENT = s.bytes dp (DIRENT * j) DIRENT :=
    List.map_congr_left fun k hk => by
      have hk := List.mem_range.1 hk
      exact h _ (by omega) (by omega)
  rw [State.ent, State.ent, hbytes]

theorem entries_congr {j : Nat} (h : s'.ent dp j = s.ent dp j) :
    s'.entries dp j = s.entries dp j := by
  rw [State.entries, State.entries, h]

theorem below_size {j : Nat} (h : DIRENT ∣ (s.cur dp).size) (hj : j < s.count dp) :
    DIRENT * j + DIRENT ≤ (s.cur dp).size := by
  rw [size_eq_count h, ← Nat.mul_succ]
  exact Nat.mul_le_mul_left _ hj

theorem Written.directory {size : Nat} {g : Nat → Option Byte}
    (hw : Written sb first dp size g s s') (hd : Directory s dp) (haligned : DIRENT ∣ size)
    (hu : Slots.Unique (s'.entries dp) (s'.count dp)) : Directory s' dp where
  locked := hw.locked hd.locked
  type := by
    rw [hw.info]
    exact hd.type
  allocated := hw.allocated
  aligned := by rwa [hw.size_eq hd.locked]
  unique := hu

/-- A write that has written nothing leaves the directory as it was. -/
theorem Written.same_entries (hw : Written sb first dp (s.cur dp).size (fun _ => none) s s')
    (hd : Directory s dp) :
    s'.count dp = s.count dp ∧ ∀ j < s.count dp, s'.entries dp j = s.entries dp j := by
  refine ⟨?_, fun j hj => entries_congr (ent_congr fun p _ hp => ?_)⟩
  · rw [State.count, State.count, hw.size_eq hd.locked]
  · have hbelow := below_size hd.aligned hj
    rw [hw.byte p (by omega), Option.getD_none]

theorem grown_aligned {size i : Nat} (h : DIRENT ∣ size) :
    DIRENT ∣ grown size (DIRENT * i) DIRENT := by
  unfold grown
  split_ifs
  · exact (Nat.dvd_add_right ⟨i, rfl⟩).2 (Nat.dvd_refl _)
  · exact h

/-- Sixteen bytes have been written into slot `i`, which may be the one behind
the end. -/
theorem Written.entries {i : Nat} {bs : List Byte}
    (hw : Written sb first dp (grown (s.cur dp).size (DIRENT * i) DIRENT)
      (span (kernel bs) (DIRENT * i) 0 DIRENT) s s')
    (hd : Directory s dp) (hlen : bs.length = DIRENT) :
    s'.count dp = max (s.count dp) (i + 1) ∧ s'.ent dp i = Dirent.ofBytes bs ∧
      ∀ j < s.count dp, j ≠ i → s'.entries dp j = s.entries dp j := by
  have hsize := size_eq_count hd.aligned
  have hsize' := hw.size_eq hd.locked
  have hgrown : grown (s.cur dp).size (DIRENT * i) DIRENT =
      DIRENT * max (s.count dp) (i + 1) := by
    unfold grown
    rw [hsize, ← Nat.mul_max_mul_left, Nat.mul_add, Nat.mul_one]
    split_ifs with h
    · exact (Nat.max_eq_right (by omega)).symm
    · exact (Nat.max_eq_left (by omega)).symm
  rw [hgrown] at hsize' hw
  have hge : DIRENT * (i + 1) ≤ DIRENT * max (s.count dp) (i + 1) :=
    Nat.mul_le_mul_left _ (Nat.le_max_right ..)
  rw [Nat.mul_add, Nat.mul_one] at hge
  have hge' : DIRENT * s.count dp ≤ DIRENT * max (s.count dp) (i + 1) :=
    Nat.mul_le_mul_left _ (Nat.le_max_left ..)
  refine ⟨?_, ?_, fun j hj hji => entries_congr (ent_congr fun p hp hlt => ?_)⟩
  · rw [State.count, hsize', Nat.mul_div_cancel_left _ (by decide)]
  · have hbytes : s'.bytes dp (DIRENT * i) DIRENT = bs := by
      refine List.ext_getElem (by simp [hlen]) fun k hk hk' => ?_
      have hk₁ : k < DIRENT := by simpa using hk
      simp only [State.bytes, List.getElem_map, List.getElem_range]
      rw [hw.byte _ (by omega), span, if_pos ⟨by omega, by omega⟩, kernel, Option.getD_some,
        Nat.zero_add, Nat.add_sub_cancel_left, List.getD_eq_getElem?_getD, List.getElem?_eq_getElem hk',
        Option.getD_some]
    rw [State.ent, hbytes]
  · have hbelow := below_size hd.aligned hj
    have hout : ¬ (DIRENT * i ≤ p ∧ p < DIRENT * i + DIRENT) := by
      rcases Nat.lt_or_gt_of_ne hji with hlt' | hgt
      · have hmul : DIRENT * j + DIRENT ≤ DIRENT * i := Nat.mul_le_mul_left DIRENT hlt'
        omega
      · have hmul : DIRENT * i + DIRENT ≤ DIRENT * j := Nat.mul_le_mul_left DIRENT hgt
        omega
    rw [hw.byte p (by omega), span, if_neg hout, Option.getD_none]

theorem length_entryBytes (name : Chars) (inum : Nat) :
    (entryBytes (key name) inum).length = DIRENT := by
  simp [entryBytes, key]

theorem ofBytes_entryBytes {inum : Nat} (name : Chars) (h : inum < 2 ^ 16) :
    (Dirent.ofBytes (entryBytes (key name) inum)).inum = inum ∧
      key (Dirent.ofBytes (entryBytes (key name) inum)).name = key name := by
  constructor
  · simp only [Dirent.ofBytes, entryBytes, Words.load, List.getD_cons_zero, List.getD_cons_succ,
      BitVec.toNat_ofNat]
    omega
  · have hname : (Dirent.ofBytes (entryBytes (key name) inum)).name =
        fun i => (strncpy name DIRSIZ).getD i 0 := by
      funext i
      simp only [Dirent.ofBytes, entryBytes, key]
      rw [show 2 + i = i + 1 + 1 by omega, List.getD_cons_succ, List.getD_cons_succ]
    rw [hname]
    exact strncpy_getD name DIRSIZ

/-! ## States with the same files -/

/-- The inodes and the blocks are the same. -/
structure SameFiles (s s' : State) : Prop where
  cur : s'.cur = s.cur
  data : s'.data = s.data
  bitmap : s'.bitmap = s.bitmap

namespace SameFiles

theorem slot (h : SameFiles s s') : s'.slot = s.slot := by
  funext x
  unfold State.slot
  rw [h.cur, h.data]

theorem byte (h : SameFiles s s') : s'.byte = s.byte := by
  funext i p
  unfold State.byte
  rw [h.slot, h.data]

theorem entries (h : SameFiles s s') : s'.entries = s.entries := by
  funext dp i
  unfold State.entries State.ent State.bytes
  rw [h.byte]

theorem count (h : SameFiles s s') : s'.count = s.count := by
  funext dp
  unfold State.count
  rw [h.cur]

theorem dir (h : SameFiles s s') : s'.dir = s.dir := by
  funext dp
  unfold State.dir
  rw [h.entries, h.count]

theorem owned (h : SameFiles s s') (hown : Owned sb first s) : Owned sb first s' := by
  unfold Owned
  rw [h.slot, h.bitmap]
  exact hown

theorem allocated (h : SameFiles s s') {i : Nat} (ha : Allocated s i) : Allocated s' i := by
  intro bn hbn
  rw [h.cur] at hbn
  rw [h.slot]
  exact ha bn hbn

theorem directory (h : SameFiles s s') (hl : Locked s' dp) (hd : Directory s dp) :
    Directory s' dp where
  locked := hl
  type := by
    rw [← hl.cur_eq, h.cur, hd.locked.cur_eq]
    exact hd.type
  allocated := h.allocated hd.allocated
  aligned := by
    rw [h.cur]
    exact hd.aligned
  unique := by
    rw [h.entries, h.count]
    exact hd.unique

end SameFiles

/-- Whether the copy of an inode that nobody refers to is valid does not
matter. -/
theorem sameFiles_of_valid {v : Nat → Bool} (hv : ∀ j ∈ s.refs, v j = s.valid j) :
    SameFiles s { s with valid := v } := by
  refine ⟨funext fun j => ?_, rfl, rfl⟩
  show (if j ∈ s.refs ∧ v j = true then s.copy j else s.dinode j) = _
  unfold State.cur
  by_cases hj : j ∈ s.refs
  · rw [hv j hj]
  · rw [if_neg fun h => hj h.1, if_neg fun h => hj h.1]

theorem got_valid {inum j : Nat} (hj : j ∈ s.refs) : (s.got inum).valid j = s.valid j := by
  unfold State.got
  by_cases hin : inum ∈ s.refs
  · simp [hin]
  · have hne : j ≠ inum := by
      rintro rfl
      exact hin hj
    simp [hin, hne]

/-- A reference that has just been got is given up again. -/
theorem iput_got (inum : Nat) :
    Wp (iput sb inum) (fun _ s' => s' = { s with valid := (s.got inum).valid }) E
      (s.got inum) := by
  have hnot : ¬ ((s.got inum).refs.count inum = 1 ∧ (s.got inum).valid inum = true ∧
      ((s.got inum).copy inum).nlink = 0) := by
    rintro ⟨hone, hvalid, -⟩
    have hin : inum ∉ s.refs := by
      intro hin
      have hpos := List.count_pos_iff.2 hin
      have hcount : (inum :: s.refs).count inum = 1 := hone
      rw [List.count_cons_self] at hcount
      omega
    simp [State.got, hin] at hvalid
  unfold iput
  rw [wp_bind, wp_get, if_neg hnot]
  show (⟨_, _, _, (inum :: s.refs).erase inum, _, _, _⟩ : State) = _
  rw [List.erase_cons_head]
  rfl

/-! ## `dirlink` -/

/-- The loop that looks for an empty entry. -/
theorem freeSlot_spec (hd : Directory s dp) :
    Wp (findM? (fun off => do
        let de ← readEntry sb "dirlink read" dp off
        return if de.inum = 0 then some off else none) (offsets (s.cur dp).size))
      (fun r s' => s' = s ∧ ∃ i ≤ s.count dp, r.getD (lastOffset (s.cur dp).size) = DIRENT * i ∧
        (i < s.count dp → s.entries dp i = none) ∧
        (i = s.count dp → ∀ j < s.count dp, s.entries dp j ≠ none)) E s := by
  refine Wp.findM? (fun pre is s' => s' = s ∧ pre ++ is = offsets (s.cur dp).size ∧
    ∀ i, DIRENT * i ∈ pre → s.entries dp i ≠ none) []
    ⟨rfl, rfl, fun _ h => by cases h⟩ (fun pre off is s' h => ?_) fun pre s' h => ?_
  · obtain ⟨rfl, hlist, hpre⟩ := h
    obtain ⟨i, hi, rfl⟩ := mem_offsets hd.aligned (hlist ▸ List.mem_append_right pre
      List.mem_cons_self)
    refine (readEntry_spec _ hd.locked hd.allocated hd.aligned hi).bind fun de s'' hde => ?_
    obtain ⟨rfl, rfl⟩ := hde
    refine ⟨fun off hoff => ⟨rfl, i, Nat.le_of_lt hi, ?_, fun _ => ?_, fun h => by omega⟩,
      fun hnone => ⟨rfl, ?_, fun j hj => ?_⟩⟩
    · rw [Option.getD_some]
      by_contra hne
      by_cases hfree : (s''.ent dp i).inum = 0
      · rw [if_pos hfree] at hoff
        exact hne (Option.some.inj hoff).symm
      · rw [if_neg hfree] at hoff
        cases hoff
    · refine entries_eq_none.2 ?_
      by_contra hfree
      rw [if_neg hfree] at hoff
      cases hoff
    · rw [← hlist, List.append_assoc, List.singleton_append]
    · rcases List.mem_append.1 hj with hj | hj
      · exact hpre j hj
      · have hji : DIRENT * j = DIRENT * i := List.mem_singleton.1 hj
        rw [Nat.eq_of_mul_eq_mul_left (by decide) hji]
        intro hfree
        rw [if_pos (entries_eq_none.1 hfree)] at hnone
        cases hnone
  · obtain ⟨rfl, hlist, hpre⟩ := h
    rw [List.append_nil] at hlist
    refine ⟨rfl, s'.count dp, Nat.le_refl _, ?_, fun h => absurd h (Nat.lt_irrefl _),
      fun _ j hj => hpre j ?_⟩
    · rw [Option.getD_none, lastOffset, size_eq_count hd.aligned, ceil_count]
    · rw [hlist, size_eq_count hd.aligned, offsets, ceil_count]
      exact List.mem_map.2 ⟨j, List.mem_range.2 hj, rfl⟩

/-- What `dirlink` answers, and what it does to the directory. -/
inductive Linked (sb : Superblock) (s : State) (dp : Nat) (name : Chars) (inum : Nat) (s' : State) :
    Int → Prop
  | present (h : s.dir dp (key name) ≠ none) (hsame : s'.dir dp = s.dir dp) :
      Linked sb s dp name inum s' (-1)
  | full (h : s.dir dp (key name) = none) (hfull : ∀ j < s.count dp, s.entries dp j ≠ none)
      (hgrow : CannotGrow sb s dp s') (hsame : s'.dir dp = s.dir dp) :
      Linked sb s dp name inum s' (-1)
  | added {i : Nat} (h : s.dir dp (key name) = none) (hi : i ≤ s.count dp)
      (hend : i = s.count dp → ∀ j < s.count dp, s.entries dp j ≠ none)
      (hput : Slots.Put (s.entries dp) (s.count dp) i (key name) inum (s'.entries dp)
        (s'.count dp)) : Linked sb s dp name inum s' 0

theorem dirlink_spec {name : Chars} {inum : Nat} (hd : Directory s dp) (hown : Owned sb first s)
    (hpos : inum ≠ 0) (hlt : inum < 2 ^ 16) :
    Wp (dirlink sb dp name inum) (fun r s' => RoomFor s dp name ∧ Directory s' dp ∧
      Owned sb first s' ∧ s'.refs = s.refs ∧ Linked sb s dp name inum s' r)
      (fun _ => ¬ RoomFor s dp name) s := by
  unfold dirlink
  refine (dirlookup_spec hd).bind fun r s₁ hr => ?_
  obtain ⟨hroom, hr⟩ := hr
  refine Wp.mono (Q := fun r s' => Directory s' dp ∧ Owned sb first s' ∧ s'.refs = s.refs ∧
    Linked sb s dp name inum s' r) ?_ (fun _ _ h => ⟨hroom, h⟩) fun _ h => h
  cases hr with
  | @present i n hi hent =>
    refine (iput_got n).bind fun _ s₂ hs => ?_
    subst hs
    have hsame : SameFiles s { s with valid := (s.got n).valid } :=
      sameFiles_of_valid fun j hj => got_valid hj
    have hlocked : Locked { s with valid := (s.got n).valid } dp :=
      ⟨hd.locked.ref, (got_valid hd.locked.ref).trans hd.locked.valid, hd.locked.type⟩
    refine ⟨hsame.directory hlocked hd, hsame.owned hown, rfl, .present ?_ ?_⟩
    · intro hnone
      exact Slots.toMap_eq_none.1 hnone _ hi _ hent
    · rw [hsame.dir]
  | absent habsent =>
    have hcur := hd.locked.cur_eq
    rw [wp_bind, wp_get]
    show Wp ((findM? _ (offsets (s.copy dp).size)) >>= _) _ _ _
    rw [← hcur]
    refine (freeSlot_spec hd).bind fun r s₁ hr => ?_
    obtain ⟨rfl, i, hi, hoff, hfree, hend⟩ := hr
    rw [hoff]
    have hwrite : ∀ {E}, Wp _ (EntryWritten sb first s₁ dp i (entryBytes (key name) inum)) E s₁ :=
      writeEntry_spec hd hown hi
    refine hwrite.bind fun r s₂ hr => ?_
    have hsize := size_eq_count hd.aligned
    cases hr with
    | refused hlast hgrow =>
      exact ⟨hd, hown, rfl, .full habsent (hend hlast) hgrow rfl⟩
    | full hlast hgrow hw =>
      obtain ⟨hcount, hentries⟩ := hw.same_entries hd
      refine ⟨hw.directory hd hd.aligned ?_, hw.owned, hw.refs,
        .full habsent (hend hlast) hgrow ?_⟩
      · rw [hcount]
        intro a b k v w ha hb hx hy
        rw [hentries a ha] at hx
        rw [hentries b hb] at hy
        exact hd.unique a b k v w ha hb hx hy
      · rw [State.dir, hcount]
        exact Slots.toMap_congr hentries
    | written hfit hw =>
      obtain ⟨hcount, hent, hrest⟩ := hw.entries hd (length_entryBytes name inum)
      obtain ⟨hinum, hname⟩ := ofBytes_entryBytes name hlt
      have hput : Slots.Put (s₁.entries dp) (s₁.count dp) i (key name) inum (s₂.entries dp)
          (s₂.count dp) := by
        refine ⟨by omega, by omega, hfree, fun j hj hlt => by omega, ?_, hrest⟩
        rw [entries_eq_some, hent, hinum, hname]
        exact ⟨hpos, rfl, rfl⟩
      exact ⟨hw.directory hd (grown_aligned hd.aligned) (hput.unique hd.unique habsent), hw.owned,
        hw.refs, .added habsent hi hend hput⟩

/-! ## Taking an entry away -/

theorem zeroEntry_spec {i n : Nat} {k : List Byte} (hd : Directory s dp)
    (hown : Owned sb first s) (hi : i < s.count dp) (hent : s.entries dp i = some (k, n)) :
    Wp (zeroEntry sb dp (DIRENT * i)) (fun _ s' => Directory s' dp ∧ Owned sb first s' ∧
      s'.refs = s.refs ∧ s'.count dp = s.count dp ∧
        Slots.Drop (s.entries dp) (s.count dp) i k (s'.entries dp)) E s := by
  unfold zeroEntry
  refine (writeEntry_spec hd hown (Nat.le_of_lt hi)).bind fun r s' hr => ?_
  cases hr with
  | refused hlast _ => omega
  | full hlast _ _ => omega
  | written _ hw =>
    obtain ⟨hcount, hent', hrest⟩ := hw.entries hd List.length_replicate
    have hcount' : s'.count dp = s.count dp := by omega
    have hdrop : Slots.Drop (s.entries dp) (s.count dp) i k (s'.entries dp) := by
      refine ⟨hi, ⟨n, hent⟩, entries_eq_none.2 ?_, hrest⟩
      rw [hent']
      rfl
    refine ⟨hw.directory hd (grown_aligned hd.aligned) ?_, hw.owned, hw.refs, hcount', hdrop⟩
    rw [hcount']
    exact hdrop.unique hd.unique

/-! ## Every run -/

theorem sameFiles_got (inum : Nat) : SameFiles s (s.got inum) := by
  refine ⟨funext fun j => ?_, rfl, rfl⟩
  unfold State.cur State.got
  by_cases hin : inum ∈ s.refs
  · have hmem : j ∈ inum :: s.refs ↔ j ∈ s.refs := by
      rw [List.mem_cons, or_iff_right_of_imp]
      rintro rfl
      exact hin
    simp only [hin, hmem, if_true]
  · by_cases hj : j = inum
    · subst hj
      simp [hin]
    · simp [hin, hj]

theorem Locked.got (h : Locked s dp) (inum : Nat) : Locked (s.got inum) dp :=
  ⟨List.mem_cons_of_mem _ h.ref, (got_valid h.ref).trans h.valid, h.type⟩

theorem Directory.got (h : Directory s dp) (inum : Nat) : Directory (s.got inum) dp :=
  (sameFiles_got inum).directory (h.locked.got inum) h

/-- The states that `dirlink`, `dirlookup` and the zeroing of entries reach. -/
inductive DirRun (sb : Superblock) (dp : Nat) (s₀ : State) : State → Prop
  | start : DirRun sb dp s₀ s₀
  | dirlink {s s' : State} {name : Chars} {inum : Nat} {r : Int} (h : DirRun sb dp s₀ s)
      (hpos : inum ≠ 0) (hlt : inum < 2 ^ 16)
      (hr : (Fs.dirlink sb dp name inum).run s = .ok (r, s')) : DirRun sb dp s₀ s'
  | dirlookup {s s' : State} {name : Chars} {r : Option (Nat × Nat)} (h : DirRun sb dp s₀ s)
      (hr : (Fs.dirlookup sb dp name).run s = .ok (r, s')) : DirRun sb dp s₀ s'
  /-- `sys_unlink` zeroes the entry that it has looked up. -/
  | zero {s s' s'' : State} {name : Chars} {ip off : Nat} (h : DirRun sb dp s₀ s)
      (hr : (Fs.dirlookup sb dp name).run s = .ok (some (ip, off), s'))
      (hz : (zeroEntry sb dp off).run s' = .ok ((), s'')) : DirRun sb dp s₀ s''

theorem Looked.of_some {name : Chars} {ip off : Nat}
    (h : Looked s dp name (some (ip, off)) s') : ∃ i, off = DIRENT * i ∧ i < s.count dp ∧
      s.entries dp i = some (key name, ip) ∧ s' = s.got ip := by
  cases h with
  | present hi hent => exact ⟨_, rfl, hi, hent, rfl⟩

theorem Looked.directory {name : Chars} {r : Option (Nat × Nat)} (h : Looked s dp name r s')
    (hd : Directory s dp) (hown : Owned sb first s) : Directory s' dp ∧ Owned sb first s' := by
  cases h with
  | absent _ => exact ⟨hd, hown⟩
  | present _ _ => exact ⟨hd.got _, (sameFiles_got _).owned hown⟩

theorem DirRun.directory {s₀ : State} (h : DirRun sb dp s₀ s) (hd : Directory s₀ dp)
    (hown : Owned sb first s₀) : Directory s dp ∧ Owned sb first s := by
  induction h with
  | start => exact ⟨hd, hown⟩
  | dirlink _ hpos hlt hr ih =>
    have hspec := (dirlink_spec ih.1 ih.2 hpos hlt).of_run hr
    exact ⟨hspec.2.1, hspec.2.2.1⟩
  | dirlookup _ hr ih => exact ((dirlookup_spec ih.1).of_run hr).2.directory ih.1 ih.2
  | zero _ hr hz ih =>
    have hlooked : Looked _ dp _ (some (_, _)) _ := ((dirlookup_spec ih.1).of_run hr).2
    obtain ⟨i, rfl, hi, hent, rfl⟩ := hlooked.of_some
    rw [← (sameFiles_got _).count] at hi
    rw [← (sameFiles_got _).entries] at hent
    have hspec := (zeroEntry_spec (E := fun _ => True) (ih.1.got _)
      ((sameFiles_got _).owned ih.2) hi hent).of_run hz
    exact ⟨hspec.1, hspec.2.1⟩

/-- `dirlink` fails and leaves the map as it is if the name is present or the
directory cannot grow, and otherwise adds the entry. -/
def LinksAsMap (sb : Superblock) (s : State) (dp : Nat) (name : Chars) (inum : Nat) : Prop :=
  Wp (dirlink sb dp name inum) (fun r s' =>
    (r = -1 ∧ s'.dir dp = s.dir dp ∧ (s.dir dp (key name) ≠ none ∨
      (∀ i < s.count dp, s.entries dp i ≠ none) ∧ CannotGrow sb s dp s')) ∨
    (r = 0 ∧ s.dir dp (key name) = none ∧
      s'.dir dp = update (s.dir dp) (key name) (some inum) ∧
      ((s'.count dp = s.count dp ∧ ∃ i < s.count dp, s.entries dp i = none ∧
          s'.entries dp i = some (key name, inum)) ∨
        (s'.count dp = s.count dp + 1 ∧ (∀ i < s.count dp, s.entries dp i ≠ none) ∧
          s'.entries dp (s.count dp) = some (key name, inum))))) (fun _ => False) s

/-- `dirlookup` answers what the map has for the name, and where it stands. -/
def LooksUpAsMap (sb : Superblock) (s : State) (dp : Nat) (name : Chars) : Prop :=
  Wp (dirlookup sb dp name) (fun r s' => s'.dir dp = s.dir dp ∧
    ((r = none ∧ s.dir dp (key name) = none) ∨
      ∃ i inum, r = some (inum, DIRENT * i) ∧ s.dir dp (key name) = some inum ∧
        i < s.count dp ∧ s.entries dp i = some (key name, inum))) (fun _ => False) s

theorem linksAsMap_iff {name : Chars} {inum : Nat} (hd : Directory s dp) (hown : Owned sb first s)
    (hpos : inum ≠ 0) (hlt : inum < 2 ^ 16) :
    LinksAsMap sb s dp name inum ↔ RoomFor s dp name := by
  refine wp_total_iff ((dirlink_spec hd hown hpos hlt).post fun r s' h => ?_)
  obtain ⟨hroom, hd', -, -, hlinked⟩ := h
  refine ⟨hroom, ?_⟩
  cases hlinked with
  | present h hsame => exact .inl ⟨rfl, hsame, .inl h⟩
  | full _ hfull hgrow hsame => exact .inl ⟨rfl, hsame, .inr ⟨hfull, hgrow⟩⟩
  | @added i h hi hend hput =>
    refine .inr ⟨rfl, h, hput.toMap hd.unique h, ?_⟩
    by_cases hlast : i = s.count dp
    · subst hlast
      refine .inr ⟨?_, hend rfl, hput.at'⟩
      have hlt' := hput.lt
      by_contra hne
      have hgap := hput.gap (s.count dp + 1) (by omega) (by omega)
      omega
    · refine .inl ⟨?_, i, by omega, hput.free (by omega), hput.at'⟩
      have hle := hput.le
      by_contra hne
      have hgap := hput.gap (s.count dp) (Nat.le_refl _) (by omega)
      omega

theorem looksUpAsMap_iff {name : Chars} (hd : Directory s dp) :
    LooksUpAsMap sb s dp name ↔ RoomFor s dp name := by
  refine wp_total_iff ((dirlookup_spec hd).post fun r s' h => ?_)
  obtain ⟨hroom, hlooked⟩ := h
  refine ⟨hroom, ?_⟩
  cases hlooked with
  | absent h => exact ⟨rfl, .inl ⟨rfl, h⟩⟩
  | @present i inum hi hent =>
    refine ⟨by rw [(sameFiles_got _).dir], .inr ⟨i, inum, rfl, ?_, hi, hent⟩⟩
    exact (Slots.toMap_eq_some hd.unique).2 ⟨i, hi, hent⟩

theorem directory_lone : Directory (lone T_DIR) 1 where
  locked := locked_lone (by decide)
  type := rfl
  allocated := allocated_lone (by decide)
  aligned := by
    rw [(locked_lone (by decide)).cur_eq]
    exact Nat.dvd_zero _
  unique := by
    intro i j _ _ _ hi
    have hcount : (lone T_DIR).count 1 = 0 := rfl
    omega

/-- The name `x`. -/
def nameX : Chars := fun i => if i = 0 then 120 else 0

/-- The inodes 1 to 50 are in memory, and the directory 1 has a name for one
more. -/
def crowded : State where
  bitmap b := b < 3
  dinode i :=
    if i = 1 then ⟨T_DIR, 0, 0, 1, 16, fun k => if k = 0 then 2 else 0⟩
    else { Dinode.zero with type := T_FILE, nlink := 1 }
  data b a := if b = 2 then (entryBytes (key nameX) 60).getD a 0 else 0
  refs := List.range' 1 50
  valid _ := true
  copy i :=
    if i = 1 then ⟨T_DIR, 0, 0, 1, 16, fun k => if k = 0 then 2 else 0⟩
    else { Dinode.zero with type := T_FILE, nlink := 1 }
  logged := []

theorem cur_crowded (i : Nat) : crowded.cur i = crowded.dinode i := ite_self (crowded.dinode i)

theorem slot_crowded (x : Nat × Nat) : crowded.slot x = if x = (1, 0) then 2 else 0 := by
  obtain ⟨i, k⟩ := x
  have htype : (crowded.dinode i).type ≠ 0 := by
    by_cases hi : i = 1 <;> simp [crowded, hi]
  unfold State.slot slotOf
  rw [cur_crowded, if_neg htype]
  by_cases hi : i = 1
  · by_cases hk : k = 0
    · simp [crowded, hi, hk]
    · simp [crowded, hi, hk]
  · simp [crowded, hi, Dinode.zero]

theorem owned_crowded : Owned tiny 2 crowded := owned_single slot_crowded fun _ => rfl

theorem directory_crowded : Directory crowded 1 where
  locked := ⟨List.mem_range'_1.2 (by decide), rfl, by decide⟩
  type := rfl
  allocated := by
    intro bn hbn
    have hsize : (crowded.cur 1).size = 16 := by
      rw [cur_crowded]
      rfl
    rw [hsize] at hbn
    have hbn : bn = 0 := by
      change bn * 1024 < 16 at hbn
      omega
    subst hbn
    rw [slot_crowded]
    decide
  aligned := by
    rw [cur_crowded]
    exact Nat.dvd_refl 16
  unique := by
    intro i j _ _ _ hi hj
    have hcount : crowded.count 1 = 1 := by
      rw [State.count, cur_crowded]
      rfl
    omega

theorem entries_crowded : crowded.entries 1 0 = some (key nameX, 60) := by
  have hbytes : crowded.bytes 1 0 DIRENT = entryBytes (key nameX) 60 := by
    refine List.ext_getElem (by simp [length_entryBytes]) fun k hk hk' => ?_
    have hlt : k < BSIZE := (by simpa using hk : k < DIRENT).trans (by decide)
    simp only [State.bytes, List.getElem_map, List.getElem_range, State.byte]
    rw [Nat.zero_add, Nat.div_eq_of_lt hlt, Nat.mod_eq_of_lt hlt, slot_crowded]
    simp [crowded, index, hk']
  obtain ⟨hinum, hname⟩ := ofBytes_entryBytes nameX (show 60 < 2 ^ 16 by decide)
  rw [entries_eq_some, State.ent, Nat.mul_zero, hbytes]
  exact ⟨by rw [hinum]; decide, hname, hinum⟩

theorem dir_crowded : crowded.dir 1 (key nameX) = some 60 := by
  have hcount : crowded.count 1 = 1 := by
    rw [State.count, cur_crowded]
    rfl
  refine (Slots.toMap_eq_some directory_crowded.unique).2 ⟨0, ?_, entries_crowded⟩
  omega

theorem noRoom_crowded : ¬ Room crowded.refs 60 := by
  rintro (hin | hroom)
  · exact absurd hin (by decide)
  · exact absurd hroom (by decide)

end Xv6.Fs
