import Xv6.Mkfs.Mounted

/-!
# Reading an image

The root directory of the mounted image has an entry for each file, and behind
these only free entries.  So the kernel finds a file under its name, and reads
the bytes of which it was made.
-/

namespace Xv6.Mkfs

open Run
open Fs (BSIZE I16 T_DIR T_FILE State index Allocated DIRENT dots Chars Kept Tree Visited
  stored components SLASH)

variable {img : Image} {files : List Input} {f : Input} {e : Nat × Chars} {i j : Nat}
  {path c : List Byte} {E : String → Prop}

/-! ## The roster -/

theorem roster_file (hf : files[i]? = some f) : (roster files)[i + 2]? = some (i + 2, f.name) := by
  rw [roster, List.getElem?_cons_succ, List.getElem?_cons_succ, List.getElem?_map,
    List.getElem?_zipIdx, hf, Nat.add_comm]
  rfl

theorem roster_cases (he : (roster files)[j]? = some e) :
    e.1 = Fs.ROOTINO ∧ (e.2 = dots 1 ∨ e.2 = dots 2) ∨
      ∃ i f, files[i]? = some f ∧ e = (i + 2, f.name) := by
  rcases j with _ | _ | i
  · cases he
    exact .inl ⟨rfl, .inl rfl⟩
  · cases he
    exact .inl ⟨rfl, .inr rfl⟩
  · have hlt := (List.getElem?_eq_some_iff.1 he).1
    rw [length_roster] at hlt
    have hf := List.getElem?_eq_getElem (show i < files.length by omega)
    rw [roster_file hf] at he
    cases he
    exact .inr ⟨i, _, hf, rfl⟩

theorem inum_lt (hlen : files.length + 2 ≤ NINODES) (he : (roster files)[j]? = some e) :
    e.1 ≠ 0 ∧ e.1 < 2 ^ 16 := by
  have hlen : files.length + 2 ≤ 200 := hlen
  obtain ⟨hroot, -⟩ | ⟨i, f, hf, rfl⟩ := roster_cases he
  · rw [hroot]
    decide
  · have hi := (List.getElem?_eq_some_iff.1 hf).1
    exact ⟨Nat.succ_ne_zero _, by show i + 2 < 2 ^ 16; omega⟩

theorem dirent_eq {n : Nat} (name : Chars) (hn : n < 2 ^ 16) :
    dirent n name = Fs.entryBytes (Fs.key name) n := by
  rw [dirent, xshort_eq, BitVec.toNat_ofNat, Nat.mod_eq_of_lt hn]
  rfl

/-- A part of a list of parts of one length. -/
theorem drop_flatten {α : Type} {n i : Nat} {L : List (List α)} {l : List α}
    (hL : ∀ l ∈ L, l.length = n) (hl : L[i]? = some l) : (L.flatten.drop (n * i)).take n = l := by
  induction L generalizing i with
  | nil => cases hl
  | cons a L ih =>
    have ha := hL a List.mem_cons_self
    cases i with
    | zero =>
      obtain rfl : a = l := by simpa using hl
      rw [Nat.mul_zero, List.drop_zero, List.flatten_cons, ← ha, List.take_left]
    | succ i =>
      rw [List.flatten_cons, Nat.mul_succ, Nat.add_comm, ← List.drop_drop, ← ha, List.drop_left, ha]
      exact ih (fun l hl => hL l (List.mem_cons_of_mem _ hl)) (by simpa using hl)

/-! ## The entries of the root directory -/

section finished

variable (h : Made (listing files) img) (hlen : files.length + 2 ≤ NINODES)
  (hdvd : ¬ 64 ∣ files.length + 2)

include h

theorem count_root : (mount sb img.finish.disk).count Fs.ROOTINO =
    rounded (DIRENT * (files.length + 2)) / DIRENT := by
  rw [State.count, size_root h]

theorem lt_count_root (hj : j < files.length + 2) :
    j < (mount sb img.finish.disk).count Fs.ROOTINO := by
  rw [count_root h]
  show j < (16 * (files.length + 2) / 1024 + 1) * 1024 / 16
  omega

theorem byte_root {p : Nat}
    (hp : (mount sb img.finish.disk).slot (Fs.ROOTINO, index (p / BSIZE)) ≠ 0) :
    (mount sb img.finish.disk).byte Fs.ROOTINO p = (rootBytes files).getD p 0 := by
  rw [slot_mount h] at hp
  rw [← (bytes_root h).byte p hp, State.byte, slot_mount h, data_mount h hp, State.byte]

include hdvd

/-- The bytes of an entry, which are zero behind the last one. -/
theorem bytes_entry {m : Nat} (hj : j < (mount sb img.finish.disk).count Fs.ROOTINO)
    (hm : m < DIRENT) :
    ((mount sb img.finish.disk).bytes Fs.ROOTINO (DIRENT * j) DIRENT).getD m 0 =
      (rootBytes files).getD (DIRENT * j + m) 0 := by
  have hlen : ((mount sb img.finish.disk).bytes Fs.ROOTINO (DIRENT * j) DIRENT).length = DIRENT :=
    Fs.length_bytes ..
  have hroot := (allocated_root_iff h).2 hdvd
  rw [List.getD_eq_getElem _ _ (by rw [hlen]; exact hm)]
  simp only [State.bytes, List.getElem_map, List.getElem_range]
  refine byte_root h (hroot _ ?_)
  have hj : j < ((mount sb img.finish.disk).cur Fs.ROOTINO).size / 16 := hj
  have hm : m < 16 := hm
  show (16 * j + m) / 1024 * 1024 < _
  omega

include hlen

/-- The directory holds the roster. -/
theorem entries_root (hj : j < (mount sb img.finish.disk).count Fs.ROOTINO) :
    (mount sb img.finish.disk).entries Fs.ROOTINO j =
      (roster files)[j]?.map fun e => (Fs.key e.2, e.1) := by
  have hbyte := fun m hm => bytes_entry h hdvd (m := m) hj hm
  have hlength : ((mount sb img.finish.disk).bytes Fs.ROOTINO (DIRENT * j) DIRENT).length =
    DIRENT := Fs.length_bytes ..
  cases hr : (roster files)[j]? with
  | some e =>
    obtain ⟨hne, hlt⟩ := inum_lt hlen hr
    have hbytes : (mount sb img.finish.disk).bytes Fs.ROOTINO (DIRENT * j) DIRENT =
        Fs.entryBytes (Fs.key e.2) e.1 := by
      have hpart := drop_flatten (i := j) (l := dirent e.1 e.2) (length_dirents files)
        (by rw [List.getElem?_map, hr]; rfl)
      rw [← rootBytes_eq] at hpart
      have hsize := length_dirent e.1 e.2
      rw [← dirent_eq _ hlt]
      refine List.ext_getElem (hlength.trans hsize.symm) fun m hm hm' => ?_
      have hget := hbyte m (hlength ▸ hm)
      rw [List.getD_eq_getElem _ _ hm] at hget
      rw [hget, ← List.getD_eq_getElem _ 0 hm', ← hpart, List.getD_eq_getElem?_getD,
        List.getD_eq_getElem?_getD, List.getElem?_take_of_lt (hsize ▸ hm'), List.getElem?_drop]
    obtain ⟨hinum, hname⟩ := Fs.ofBytes_entryBytes e.2 hlt
    rw [Option.map_some, Fs.entries_eq_some, State.ent, hbytes]
    exact ⟨by rw [hinum]; exact hne, hname, hinum⟩
  | none =>
    have hge := List.getElem?_eq_none_iff.1 hr
    rw [length_roster] at hge
    have hzero : ∀ m, ((mount sb img.finish.disk).bytes Fs.ROOTINO (DIRENT * j) DIRENT).getD m 0 =
        0 := by
      intro m
      by_cases hm : m < DIRENT
      · rw [hbyte m hm, List.getD_eq_default]
        rw [length_rootBytes]
        show 16 * (files.length + 2) ≤ 16 * j + m
        omega
      · exact List.getD_eq_default _ _ (by rw [hlength]; exact Nat.not_lt.1 hm)
    rw [Option.map_none, Fs.entries_eq_none]
    show Words.load (fun i => ((mount sb img.finish.disk).bytes Fs.ROOTINO (DIRENT * j)
      DIRENT).getD i 0) 2 0 = 0
    rw [funext hzero]
    exact Fs.load_zero 2 0

variable (hnames : ((roster files).map fun e => Fs.key e.2).Nodup)

include hnames

theorem unique_root : Slots.Unique ((mount sb img.finish.disk).entries Fs.ROOTINO)
    ((mount sb img.finish.disk).count Fs.ROOTINO) := by
  intro i j k v w hi hj hv hw
  rw [entries_root h hlen hdvd hi, Option.map_eq_some_iff] at hv
  rw [entries_root h hlen hdvd hj, Option.map_eq_some_iff] at hw
  obtain ⟨e, he, hek⟩ := hv
  obtain ⟨e', he', hek'⟩ := hw
  cases hek
  have hkey : Fs.key e'.2 = Fs.key e.2 := congrArg Prod.fst hek'
  refine (List.getElem?_inj ?_ hnames).1 ?_
  · rw [List.length_map]
    exact (List.getElem?_eq_some_iff.1 he).1
  · rw [List.getElem?_map, List.getElem?_map, he, he', Option.map_some, Option.map_some, hkey]

omit hlen hdvd hnames in
theorem kept_mount (he : (roster files)[j]? = some e) :
    Kept (mount sb img.finish.disk) e.1 := by
  obtain ⟨hroot, -⟩ | ⟨i, f, hf, rfl⟩ := roster_cases he
  · rw [hroot]
    refine ⟨by rw [type_root h]; decide, .inl ?_⟩
    rw [cur_root h, Image.root, dinode_root h]
    exact show (1 : I16) ≠ 0 by decide
  · obtain ⟨-, htype, hnlink⟩ := file_mount h hf
    exact ⟨by rw [htype]; decide, .inl (by rw [hnlink]; decide)⟩

theorem tree_mount : Tree (mount sb img.finish.disk) := by
  have honly : ∀ {i}, ((mount sb img.finish.disk).cur i).type = T_DIR → i = Fs.ROOTINO := by
    intro i htype
    obtain hroot | ⟨k, f, rfl, hf⟩ | hzero := inode_cases h i
    · exact hroot
    · rw [(file_mount h hf).2.1] at htype
      exact absurd htype (by decide)
    · rw [hzero] at htype
      exact absurd htype (by decide)
  refine ⟨fun htype => ?_, fun htype hn => ?_,
    kept_mount h (e := (Fs.ROOTINO, dots 1)) (j := 0) rfl⟩
  · obtain rfl := honly htype
    refine ⟨(allocated_root_iff h).2 hdvd, ?_, unique_root h hlen hdvd hnames⟩
    rw [size_root h]
    exact Dvd.dvd.mul_left (by decide) _
  · obtain rfl := honly htype
    obtain ⟨j, hj, hent⟩ := (Slots.toMap_eq_some (unique_root h hlen hdvd hnames)).1 hn
    rw [entries_root h hlen hdvd hj, Option.map_eq_some_iff] at hent
    obtain ⟨e, he, heq⟩ := hent
    cases heq
    exact kept_mount h he

end finished

/-! ## Reading a file -/

/-- What the kernel finds at a path in `/`: the type and all bytes of the
file. -/
def readFile (path : List Byte) : Fs.M (Option (I16 × List Byte)) := do
  let cwd ← Fs.iget Fs.ROOTINO
  match ← Fs.namei sb cwd path (dots 0) with
  | none => return none
  | some ip =>
    Fs.ilock ip
    let d := (← get).copy ip
    let r ← Fs.readi sb ip (fun _ => true) 0 (BitVec.ofNat 32 d.size)
    return some (d.type, r.2)

theorem readLength_whole {n : Nat} (hn : n < 2 ^ 32) :
    Fs.readLength n 0 (BitVec.ofNat 32 n) = n := by
  unfold Fs.readLength
  rw [BitVec.toNat_ofNat, Nat.mod_eq_of_lt hn, if_neg]
  · exact Nat.min_self n
  · simp

theorem namei_mount {s : State} (ht : Tree s) (hrefs : s.refs = [Fs.ROOTINO])
    (hdir : (s.cur Fs.ROOTINO).type = T_DIR) (hz : (0 : Byte) ∉ path)
    (hc : components path = [c]) :
    Wp (Fs.namei sb Fs.ROOTINO path (dots 0)) (fun r s' =>
      r = s.dir Fs.ROOTINO (stored c) ∧ Visited s (r.toList ++ s.refs) s') E s := by
  have hmem : Fs.ROOTINO ∈ s.refs := by
    rw [hrefs]
    exact List.mem_singleton_self _
  have hstart : Fs.start Fs.ROOTINO path = Fs.ROOTINO := ite_self _
  have hwalk : Fs.RoomToWalk s Fs.ROOTINO path (Fs.lookups false (components path)) := by
    refine ⟨fun _ => .inl hmem, ?_⟩
    rw [hstart, hc]
    refine fun _ n _ => ⟨.inr ?_, trivial⟩
    rw [hrefs]
    decide
  unfold Fs.namei
  refine Wp.bind ((Fs.namex_spec ht hmem ht.root.1 hz).mono (fun _ _ h => h)
    fun _ hno => absurd hwalk hno) fun r s' h => ?_
  refine ⟨h.2.inode.trans ?_, h.2.visited⟩
  rw [hstart, hc]
  show Fs.follow s Fs.ROOTINO [c] = _
  rw [Fs.follow, if_pos hdir]
  cases s.dir Fs.ROOTINO (stored c) <;> rfl

theorem readFile_spec {s : State} (ht : Tree s) (hrefs : s.refs = [])
    (hdir : (s.cur Fs.ROOTINO).type = T_DIR) (hz : (0 : Byte) ∉ path)
    (hc : components path = [c])
    (halloc : ∀ n, s.dir Fs.ROOTINO (stored c) = some n → Allocated s n) :
    Wp (readFile path) (fun r _ => r = (s.dir Fs.ROOTINO (stored c)).map fun n =>
      ((s.cur n).type, s.bytes n 0 (s.cur n).size)) E s := by
  have hself : Visited s s.refs s := ⟨⟨rfl, rfl, rfl⟩, rfl, rfl, rfl⟩
  have hv := hself.got Fs.ROOTINO
  have hfiles := hv.files
  have htree := ht.visited hv (List.subset_cons_self ..)
  have hroom : Fs.Room s.refs Fs.ROOTINO := .inr (by rw [hrefs]; decide)
  unfold readFile
  refine Wp.bind ((Fs.iget_spec Fs.ROOTINO).mono (fun _ _ h => h)
    fun _ hno => absurd hroom hno) fun cwd s₁ hget => ?_
  obtain ⟨-, rfl, rfl⟩ := hget
  refine (namei_mount htree (congrArg (Fs.ROOTINO :: ·) hrefs) (by rwa [hfiles.cur]) hz hc).bind
    fun r s₂ h₂ => ?_
  obtain ⟨hr, hv₂⟩ := h₂
  rw [hfiles.dir] at hr
  subst hr
  cases hn : s.dir Fs.ROOTINO (stored c) with
  | none => exact rfl
  | some n =>
    rw [hn] at hv₂
    have htype : ((s.got Fs.ROOTINO).cur n).type ≠ 0 := by
      rw [hfiles.cur]
      exact (ht.named hdir hn).1
    refine (Fs.ilock_spec hv₂ List.mem_cons_self htype).bind fun _ s₃ h₃ => ?_
    obtain ⟨hv₃, hl⟩ := h₃
    have hcur₃ : s₃.cur = s.cur := hv₃.files.cur.trans hfiles.cur
    have hsize : (s.cur n).size < 2 ^ 32 :=
      Nat.lt_of_le_of_lt (halloc n hn).size_le (by decide)
    rw [wp_bind, wp_get, ← hl.cur_eq, hcur₃]
    refine (Fs.readi_spec hl (hv₃.files.allocated (hfiles.allocated (halloc n hn)))).bind
      fun r s₄ hr => ?_
    rw [hcur₃, readLength_whole hsize] at hr
    obtain ⟨-, ⟨rfl, -⟩ | ⟨k, -, -, hbad⟩⟩ := hr
    · show some (_, s₃.bytes n 0 _) = some (_, s.bytes n 0 _)
      unfold State.bytes
      rw [hv₃.files.byte, hfiles.byte]
      rfl
    · cases hbad

/-- The file with that name. -/
def found (files : List Input) (name : List Byte) : Option (I16 × List Byte) :=
  (files.find? fun f => Fs.key f.name = name).map fun f => (T_FILE, f.content)

theorem readFile_mount (h : Made (listing files) img) (hlen : files.length + 2 ≤ NINODES)
    (hdvd : ¬ 64 ∣ files.length + 2)
    (hnames : ((roster files).map fun e => Fs.key e.2).Nodup) (hz : (0 : Byte) ∉ path)
    (hc : components path = [c]) (hdot : stored c ∉ [Fs.key (dots 1), Fs.key (dots 2)]) :
    Wp (readFile path) (fun r _ => r = found files (stored c)) E
      (mount sb img.finish.disk) := by
  have ht := tree_mount h hlen hdvd hnames
  have hspec : (∀ n, (mount sb img.finish.disk).dir Fs.ROOTINO (stored c) = some n →
      Allocated (mount sb img.finish.disk) n) → Wp (readFile path) _ E _ :=
    readFile_spec ht rfl (type_root h) hz hc
  refine (hspec fun n hn => allocated_mount h hdvd n
    (ht.named (type_root h) hn).1).post fun r _ hr => hr.trans ?_
  cases hfind : files.find? fun f => Fs.key f.name = stored c with
  | some f =>
    obtain ⟨hkey, i, hi, hget, -⟩ := List.find?_eq_some_iff_getElem.1 hfind
    have hf : files[i]? = some f := List.getElem?_eq_some_iff.2 ⟨hi, hget⟩
    have hkey : Fs.key f.name = stored c := by simpa using hkey
    have hcount := lt_count_root h (show i + 2 < files.length + 2 by omega)
    have hdir : (mount sb img.finish.disk).dir Fs.ROOTINO (stored c) = some (i + 2) := by
      refine (Slots.toMap_eq_some (unique_root h hlen hdvd hnames)).2 ⟨i + 2, hcount, ?_⟩
      rw [entries_root h hlen hdvd hcount, roster_file hf, Option.map_some, hkey]
    obtain ⟨hexact, htype, -⟩ := file_mount h hf
    rw [hdir, found, hfind, Option.map_some, Option.map_some, htype, hexact.size,
      hexact.bytes (by omega), List.drop_zero, List.take_length]
  | none =>
    have hdir : (mount sb img.finish.disk).dir Fs.ROOTINO (stored c) = none := by
      refine Slots.toMap_eq_none.2 fun j hj v hv => ?_
      rw [entries_root h hlen hdvd hj, Option.map_eq_some_iff] at hv
      obtain ⟨e, he, heq⟩ := hv
      have hkey : Fs.key e.2 = stored c := congrArg Prod.fst heq
      obtain ⟨-, hone | htwo⟩ | ⟨i, f, hf, rfl⟩ := roster_cases he
      · exact hdot (by rw [← hkey, hone]; exact List.mem_cons_self)
      · exact hdot (by rw [← hkey, htwo]; exact List.mem_cons_of_mem _ List.mem_cons_self)
      · exact List.find?_eq_none.1 hfind f (List.mem_of_getElem? hf) (decide_eq_true hkey)
    rw [hdir, found, hfind, Option.map_none, Option.map_none]

attribute [local irreducible] Run.Wp

/-- If the names differ and the root directory has a block for its size, the
kernel finds under each name the file that was put under it, with all its bytes,
and nothing under other names. -/
theorem kernel_reads (files : List Input) (hlen : files.length + 2 ≤ NINODES)
    (hdvd : ¬ 64 ∣ files.length + 2)
    (hnames : ((roster files).map fun e => Fs.key e.2).Nodup) :
    Wp (main files)
      (fun _ img => ∀ path c, (0 : Byte) ∉ path → components path = [c] →
        stored c ∉ [Fs.key (dots 1), Fs.key (dots 2)] →
        Wp (readFile path) (fun r _ => r = found files (stored c)) (fun _ => False)
          (mount sb img.disk))
      (fun _ => ¬ ((∀ f ∈ files, f.Good) ∧ Fits (listing files))) start := by
  refine (main_rule files hlen).post fun _ img' hr path c hz hc hdot => ?_
  obtain ⟨-, img, hmade, rfl⟩ := hr
  exact readFile_mount hmade hlen hdvd hnames hz hc hdot

theorem zero_not_mem_a : (0 : Byte) ∉ [97] := by decide

/-- A file `a` with two bytes. -/
def inputA : Input := ⟨[97], zero_not_mem_a, some [[1], [2]]⟩

/-- The kernel reads `/a`. -/
theorem kernel_reads_a : ∃ x y, (main [inputA]).run start = .ok x ∧
    (readFile [SLASH, 97]).run (mount sb x.2.disk) = .ok (some (T_FILE, [1, 2]), y) := by
  have hfits : Fits (listing [inputA]) := by
    have hroot : (rootBytes [inputA]).length = 48 := length_rootBytes _
    refine ⟨fun f hf => ?_, ?_⟩
    · rcases List.mem_cons.1 hf with rfl | hf
      · show (rootBytes [inputA]).length ≤ _
        rw [hroot]
        decide
      · rw [List.mem_singleton.1 hf]
        decide
    · show used [(T_DIR, rootBytes [inputA]), (T_FILE, inputA.content)] ≤ _
      rw [used_cons, hroot]
      decide
  have hgood : ∀ f ∈ [inputA], f.Good := fun f hf => by
    rw [List.mem_singleton.1 hf]
    exact ⟨by decide, by decide⟩
  obtain ⟨x, hrun, hreads⟩ := ((kernel_reads [inputA] (by decide) (by decide) (by decide)).mono
    (fun _ _ h => h) fun _ hno => hno ⟨hgood, hfits⟩).run
  obtain ⟨⟨r, y⟩, hread, hr⟩ := (hreads [SLASH, 97] [97] (by decide) (by decide) (by decide)).run
  have hfound : found [inputA] (stored [97]) = some (T_FILE, [1, 2]) := by decide
  obtain rfl : r = _ := hr.trans hfound
  exact ⟨x, y, hrun, hread⟩

end Xv6.Mkfs
