import Xv6.Fs.Code
import Xv6.Pool.Marks

/-!
# Who owns a block

An inode has places for block numbers: `addrs`, and behind them the entries of
its indirect block.  `Owned` says that the bitmap and the places of all inodes
agree.  `Wrote` is what allocation and writing do to an inode: no place loses
its block, the bytes that `g` gives are written, and new blocks are zero.
-/

namespace Xv6.Fs

open Run
open Function (update)
open Words (load store)

/-- The places of an inode. -/
abbrev NSLOT : Nat := NDIRECT + 1 + NINDIRECT

/-- The block in place `k` of an inode. -/
def slotOf (data : Nat → Words.Mem) (d : Dinode) (k : Nat) : Nat :=
  if k ≤ NDIRECT then d.addrs k
  else if k < NSLOT ∧ d.addrs NDIRECT ≠ 0 then
    entry (data (d.addrs NDIRECT)) (k - (NDIRECT + 1))
  else 0

/-- The place of the `bn`th block of a file. -/
def index (bn : Nat) : Nat := if bn < NDIRECT then bn else bn + 1

namespace State

variable (s : State)

/-- An inode as its users see it. -/
def cur (i : Nat) : Dinode := if i ∈ s.refs ∧ s.valid i = true then s.copy i else s.dinode i

/-- The block in a place of an inode that is in use. -/
def slot (x : Nat × Nat) : Nat :=
  if (s.cur x.1).type = 0 then 0 else slotOf s.data (s.cur x.1) x.2

/-- The byte at a position of a file. -/
def byte (i p : Nat) : Byte := s.data (s.slot (i, index (p / BSIZE))) (p % BSIZE)

/-- The state after `balloc` has found block `b`. -/
def alloc (sb : Superblock) (b : Nat) : State :=
  { s with
    bitmap := update s.bitmap b true
    data := update s.data b fun _ => 0
    logged := b :: sb.BBLOCK b :: s.logged }

end State

/-- An inode that is in use and has been locked. -/
structure Locked (s : State) (ip : Nat) : Prop where
  ref : ip ∈ s.refs
  valid : s.valid ip = true
  type : (s.copy ip).type ≠ 0

variable {sb : Superblock} {first : Nat} {s s' : State} {ip : Nat} {E : String → Prop}

/-- The bitmap agrees with the inodes; the first data block is `first`. -/
def Owned (sb : Superblock) (first : Nat) (s : State) : Prop :=
  Pool.Marks first sb.size s.bitmap s.slot

/-- There is no free block. -/
def Full (sb : Superblock) (s : State) : Prop := ∀ b < sb.size, s.bitmap b = true

/-- Every block below the size of the inode is there. -/
def Allocated (s : State) (i : Nat) : Prop :=
  ∀ bn, bn * BSIZE < (s.cur i).size → s.slot (i, index bn) ≠ 0

theorem Locked.cur_eq (h : Locked s ip) : s.cur ip = s.copy ip := if_pos ⟨h.ref, h.valid⟩

theorem Locked.slot_eq (h : Locked s ip) (k : Nat) :
    s.slot (ip, k) = slotOf s.data (s.copy ip) k := by
  unfold State.slot
  rw [h.cur_eq, if_neg h.type]

/-! ## Blocks -/

section steps

variable {Q : Unit → State → Prop} {b : Nat}

@[simp] theorem wp_logWrite :
    Wp (logWrite b) Q E s ↔ Q () { s with logged := b :: s.logged } := Iff.rfl

@[simp] theorem wp_setData {d : Words.Mem} :
    Wp (setData b d) Q E s ↔ Q () { s with data := update s.data b d } := Iff.rfl

@[simp] theorem wp_setCopy {f : Dinode → Dinode} :
    Wp (setCopy ip f) Q E s ↔ Q () { s with copy := update s.copy ip (f (s.copy ip)) } := Iff.rfl

end steps

theorem balloc_spec (hown : Owned sb first s) :
    Wp (balloc sb) (fun b s' => (b = 0 ∧ s' = s ∧ Full sb s) ∨
      (b ≠ 0 ∧ b < sb.size ∧ s.bitmap b = false ∧ s' = s.alloc sb b)) E s := by
  unfold balloc
  rw [wp_bind, wp_get]
  cases hfind : (List.range sb.size).find? fun b => !s.bitmap b with
  | none =>
    refine .inl ⟨rfl, rfl, fun b hb => ?_⟩
    simpa using List.find?_eq_none.1 hfind b (List.mem_range.2 hb)
  | some b =>
    have hfree : s.bitmap b = false := by simpa using List.find?_some hfind
    have hb : b < sb.size := List.mem_range.1 (List.mem_of_find?_eq_some hfind)
    exact .inr ⟨hown.ne_zero_of_unmarked hb hfree, hb, hfree, rfl⟩

theorem bfree_spec {b : Nat} (hused : s.bitmap b = true) :
    Wp (bfree sb b) (fun _ s' => s' = { s with
      bitmap := update s.bitmap b false, logged := sb.BBLOCK b :: s.logged }) E s := by
  unfold bfree
  rw [wp_bind, wp_get, if_pos hused]
  rfl

/-! ## What a write does to an inode -/

/-- Blocks were added to `ip`, and the bytes that `g` gives were written. -/
structure Wrote (ip : Nat) (g : Nat → Option Byte) (s s' : State) : Prop where
  dinode : s'.dinode = s.dinode
  refs : s'.refs = s.refs
  valid : s'.valid = s.valid
  others : ∀ j, j ≠ ip → s'.copy j = s.copy j
  info : s'.copy ip = { s.copy ip with addrs := (s'.copy ip).addrs }
  marked : ∀ b, s.bitmap b = true → s'.bitmap b = true
  mono : ∀ x, s.slot x ≠ 0 → s'.slot x = s.slot x
  slot : ∀ x : Nat × Nat, x.1 ≠ ip → s'.slot x = s.slot x
  data : ∀ x : Nat × Nat, x.1 ≠ ip → s.slot x ≠ 0 → s'.data (s.slot x) = s.data (s.slot x)
  byte : ∀ p, s'.slot (ip, index (p / BSIZE)) ≠ 0 → s'.byte ip p =
    (g p).getD (if s.slot (ip, index (p / BSIZE)) = 0 then 0 else s.byte ip p)
  there : ∀ p, g p ≠ none → s'.slot (ip, index (p / BSIZE)) ≠ 0

namespace Wrote

variable {g h : Nat → Option Byte} {s'' : State}

theorem refl (ip : Nat) (s : State) : Wrote ip (fun _ => none) s s where
  dinode := rfl
  refs := rfl
  valid := rfl
  others _ _ := rfl
  info := rfl
  marked _ hb := hb
  mono _ _ := rfl
  slot _ _ := rfl
  data _ _ _ := rfl
  byte p hp := by rw [if_neg hp, Option.getD_none]
  there p hp := absurd rfl hp

/-- A later write covers an earlier one. -/
theorem trans (hg : Wrote ip g s s') (hh : Wrote ip h s' s'') :
    Wrote ip (fun p => (h p).or (g p)) s s'' where
  dinode := hh.dinode.trans hg.dinode
  refs := hh.refs.trans hg.refs
  valid := hh.valid.trans hg.valid
  others j hj := (hh.others j hj).trans (hg.others j hj)
  info := by
    rw [hh.info, hg.info]
  marked b hb := hh.marked b (hg.marked b hb)
  mono x hx := by
    have hx' := hg.mono x hx
    rw [hh.mono x (by rwa [hx']), hx']
  slot x hx := (hh.slot x hx).trans (hg.slot x hx)
  data x hne hx := by
    have hslot := hg.slot x hne
    have hdata := hh.data x hne (by rwa [hslot])
    rw [hslot] at hdata
    rw [hdata, hg.data x hne hx]
  byte p hp := by
    rw [hh.byte p hp]
    cases hhp : h p with
    | some b => rfl
    | none =>
      rw [Option.none_or, Option.getD_none]
      by_cases hp' : s'.slot (ip, index (p / BSIZE)) = 0
      · -- what has been written lies in a block, and so does what was there
        have hgp : g p = none := by
          by_contra hne
          exact hg.there p hne hp'
        have hs : s.slot (ip, index (p / BSIZE)) = 0 := by
          by_contra hne
          exact hne ((hg.mono _ hne).symm.trans hp')
        rw [if_pos hp', hgp, if_pos hs, Option.getD_none]
      · rw [if_neg hp', hg.byte p hp']
  there p hp := by
    cases hhp : h p with
    | some b => exact hh.there p (by simp [hhp])
    | none =>
      have hgp : g p ≠ none := by simpa [hhp] using hp
      have hs' := hg.there p hgp
      rwa [hh.mono _ hs']

theorem congr (hg : Wrote ip g s s') (heq : ∀ p, g p = h p) : Wrote ip h s s' := by
  rwa [← funext heq]

theorem locked (hg : Wrote ip g s s') (hl : Locked s ip) : Locked s' ip where
  ref := by
    rw [hg.refs]
    exact hl.ref
  valid := by
    rw [hg.valid]
    exact hl.valid
  type := by
    rw [hg.info]
    exact hl.type

/-- The inode of another user of the file system stays as it is. -/
theorem cur (hg : Wrote ip g s s') {j : Nat} (hj : j ≠ ip) : s'.cur j = s.cur j := by
  unfold State.cur
  rw [hg.refs, hg.valid, hg.dinode, hg.others j hj]

theorem full (hg : Wrote ip g s s') (hf : Full sb s) : Full sb s' :=
  fun b hb => hg.marked b (hf b hb)

end Wrote

/-! ## A new block -/

theorem index_ne (bn : Nat) : index bn ≠ NDIRECT := by
  unfold index
  split_ifs <;> omega

theorem load_zero (n p : Nat) : load (fun _ => 0) n p = 0 := by
  induction n generalizing p with
  | zero => rfl
  | succ n ih => rw [load, ih]; rfl

/-- A free block `b` has been put into place `k`; apart from it, only the
indirect block has changed. -/
theorem wrote_of_take (s' : State) {k b : Nat} (hown : Owned sb first s)
    (hb : b < sb.size) (hfree : s.bitmap b = false) (hk : s.slot (ip, k) = 0)
    (hbitmap : s'.bitmap = update s.bitmap b true) (hslot : s'.slot = update s.slot (ip, k) b)
    (hdinode : s'.dinode = s.dinode) (hrefs : s'.refs = s.refs) (hvalid : s'.valid = s.valid)
    (hothers : ∀ j, j ≠ ip → s'.copy j = s.copy j)
    (hinfo : s'.copy ip = { s.copy ip with addrs := (s'.copy ip).addrs })
    (hzero : s'.data b = fun _ => 0)
    (hdata : ∀ c, c ≠ b → c ≠ s.slot (ip, NDIRECT) → s'.data c = s.data c) :
    Wrote ip (fun _ => none) s s' ∧ Owned sb first s' := by
  have hfresh := (hown.fresh hb hfree).2
  have hkeep : ∀ x, s.slot x ≠ 0 → s'.slot x = s.slot x := by
    intro x hx
    rw [hslot, Function.update_of_ne]
    rintro rfl
    exact hx hk
  refine ⟨⟨hdinode, hrefs, hvalid, hothers, hinfo, fun c hc => ?_, hkeep, fun x hx => ?_,
    fun x hne hx => ?_, fun p hp => ?_, fun p hp => absurd rfl hp⟩, ?_⟩
  · rw [hbitmap]
    by_cases hcb : c = b
    · rw [hcb, Function.update_self]
    · rw [Function.update_of_ne hcb, hc]
  · rw [hslot, Function.update_of_ne]
    rintro rfl
    exact hx rfl
  · refine hdata _ (hfresh x) fun heq => hne ?_
    rw [hown.inj hx heq]
  · rw [Option.getD_none]
    by_cases hpk : index (p / BSIZE) = k
    · rw [hpk, if_pos hk]
      unfold State.byte
      rw [hpk, hslot, Function.update_self, hzero]
    · have hsame : s'.slot (ip, index (p / BSIZE)) = s.slot (ip, index (p / BSIZE)) := by
        rw [hslot, Function.update_of_ne (by simpa using hpk)]
      rw [hsame] at hp
      rw [if_neg hp]
      unfold State.byte
      rw [hsame, hdata _ (hfresh _)]
      intro heq
      exact index_ne _ (Prod.mk.inj (hown.inj hp heq)).2
  · unfold Owned
    rw [hbitmap, hslot]
    exact hown.take hb hfree hk

/-! ## Places after a change -/

theorem slotOf_congr {data data' : Nat → Words.Mem} {d : Dinode} {k : Nat}
    (h : d.addrs NDIRECT ≠ 0 → data' (d.addrs NDIRECT) = data (d.addrs NDIRECT)) :
    slotOf data' d k = slotOf data d k := by
  unfold slotOf
  split_ifs with hk hind
  · rfl
  · rw [h hind.2]
  · rfl

/-- The places of an inode depend on its indirect block only. -/
theorem slot_congr {j : Nat} (hcur : s'.cur j = s.cur j)
    (h : s.slot (j, NDIRECT) ≠ 0 → s'.data (s.slot (j, NDIRECT)) = s.data (s.slot (j, NDIRECT)))
    (k : Nat) : s'.slot (j, k) = s.slot (j, k) := by
  unfold State.slot
  rw [hcur]
  by_cases htype : (s.cur j).type = 0
  · rw [if_pos htype, if_pos htype]
  · rw [if_neg htype, if_neg htype]
    have hind : s.slot (j, NDIRECT) = (s.cur j).addrs NDIRECT := if_neg htype
    rw [hind] at h
    exact slotOf_congr h

/-- The state after a block for `addrs[i]` has been allocated. -/
def State.addAddr (s : State) (sb : Superblock) (ip i b : Nat) : State :=
  { s.alloc sb b with copy := update s.copy ip ((s.copy ip).setAddr i b) }

theorem cur_of_ne {j : Nat} {d : Dinode} (hj : j ≠ ip) (hrefs : s'.refs = s.refs)
    (hvalid : s'.valid = s.valid) (hdinode : s'.dinode = s.dinode)
    (hcopy : s'.copy = update s.copy ip d) : s'.cur j = s.cur j := by
  unfold State.cur
  rw [hrefs, hvalid, hdinode, hcopy, Function.update_of_ne hj]

theorem slot_addAddr {i b : Nat} (hl : Locked s ip) (hi : i ≤ NDIRECT)
    (hnone : s.slot (ip, i) = 0) (hfresh : ∀ x, s.slot x ≠ b) :
    (s.addAddr sb ip i b).slot = update s.slot (ip, i) b := by
  have hl' : Locked (s.addAddr sb ip i b) ip := by
    refine ⟨hl.ref, hl.valid, ?_⟩
    simpa [State.addAddr, State.alloc, Dinode.setAddr] using hl.type
  have hcopy : (s.addAddr sb ip i b).copy ip = (s.copy ip).setAddr i b := Function.update_self ..
  have hdata : ∀ c, c ≠ b → (s.addAddr sb ip i b).data c = s.data c := fun c hc =>
    Function.update_of_ne hc ..
  have hzero : (s.addAddr sb ip i b).data b = fun _ => 0 := Function.update_self ..
  funext ⟨j, k⟩
  by_cases hj : j = ip
  · subst hj
    rw [hl'.slot_eq, hcopy]
    by_cases hki : k = i
    · subst hki
      simp [slotOf, hi, Dinode.setAddr]
    · rw [Function.update_of_ne (by simpa using hki), hl.slot_eq]
      by_cases hk : k ≤ NDIRECT
      · simp [slotOf, hk, Dinode.setAddr, hki]
      · by_cases hind : i = NDIRECT
        · -- the new indirect block is empty
          subst hind
          have hold : (s.copy j).addrs NDIRECT = 0 := by simpa [hl.slot_eq, slotOf] using hnone
          have hempty : ∀ n p, load ((s.addAddr sb j NDIRECT b).data b) n p = 0 := by
            rw [hzero]
            exact load_zero
          simp [slotOf, hk, Dinode.setAddr, hold, entry, hempty]
        · have hne : (s.copy j).addrs NDIRECT ≠ b := by
            simpa [hl.slot_eq, slotOf] using hfresh (j, NDIRECT)
          have haddr : ((s.copy j).setAddr i b).addrs NDIRECT = (s.copy j).addrs NDIRECT :=
            Function.update_of_ne (Ne.symm hind) ..
          simp only [slotOf, hk, if_false, haddr, hdata _ hne]
  · rw [Function.update_of_ne (by simp [hj])]
    have hcur : (s.addAddr sb ip i b).cur j = s.cur j := cur_of_ne hj rfl rfl rfl rfl
    exact slot_congr hcur (fun _ => hdata _ (hfresh _)) k

theorem wrote_addAddr {i b : Nat} (hl : Locked s ip) (hown : Owned sb first s)
    (hi : i ≤ NDIRECT) (hnone : s.slot (ip, i) = 0) (hb : b < sb.size)
    (hfree : s.bitmap b = false) :
    Wrote ip (fun _ => none) s (s.addAddr sb ip i b) ∧ Owned sb first (s.addAddr sb ip i b) :=
  wrote_of_take _ hown hb hfree hnone rfl (slot_addAddr hl hi hnone (hown.fresh hb hfree).2)
    rfl rfl rfl (fun _ hj => Function.update_of_ne hj ..)
    (by simp [State.addAddr, Dinode.setAddr]) (Function.update_self ..)
    fun _ hc _ => Function.update_of_ne hc ..

/-- What `addrOf` and `bmap` do: the block in place `k` is `addr`. -/
structure Mapped (sb : Superblock) (first ip k : Nat) (s : State) (addr : Nat) (s' : State) :
    Prop where
  wrote : Wrote ip (fun _ => none) s s'
  owned : Owned sb first s'
  slot : addr ≠ 0 → s'.slot (ip, k) = addr
  full : addr = 0 → Full sb s' ∧ s'.slot (ip, k) = 0
  /-- A block that is there already is found, and nothing changes. -/
  found : s.slot (ip, k) ≠ 0 → s' = s ∧ addr = s.slot (ip, k)

theorem addrOf_spec {i : Nat} (hl : Locked s ip) (hown : Owned sb first s) (hi : i ≤ NDIRECT) :
    Wp (addrOf sb ip i) (Mapped sb first ip i s) E s := by
  have hslot : s.slot (ip, i) = (s.copy ip).addrs i := by rw [hl.slot_eq, slotOf, if_pos hi]
  unfold addrOf
  rw [wp_bind, wp_get]
  refine Wp.ite (fun hnone => ?_) fun hsome => ?_
  · rw [← hslot] at hnone
    refine (balloc_spec hown).bind fun b s' hb => ?_
    obtain ⟨rfl, rfl, hfull⟩ | ⟨hne, hb, hfree, rfl⟩ := hb
    · exact ⟨.refl ip s', hown, fun h => absurd rfl h, fun _ => ⟨hfull, hnone⟩,
        fun h => absurd hnone h⟩
    · rw [if_neg hne]
      obtain ⟨hwrote, hown'⟩ := wrote_addAddr hl hown hi hnone hb hfree
      refine ⟨hwrote, hown', fun _ => ?_, fun h => absurd h hne, fun h => absurd hnone h⟩
      show (s.addAddr sb ip i b).slot (ip, i) = b
      rw [slot_addAddr hl hi hnone (hown.fresh hb hfree).2, Function.update_self]
  · exact ⟨.refl ip s, hown, fun _ => hslot, fun h => absurd h hsome, fun _ => ⟨rfl, hslot.symm⟩⟩

theorem entry_setEntry (d : Words.Mem) {i j v : Nat} (hv : v < 2 ^ 32) :
    entry (setEntry d i v) j = if j = i then v else entry d j := by
  unfold entry setEntry
  split_ifs with hij
  · rw [hij, Words.load_store_of_lt (by omega)]
  · rw [Words.load_store_of_disjoint (by omega)]

/-- The state after a block for an entry of the indirect block `ind` has been
allocated. -/
def State.addEntry (s : State) (sb : Superblock) (ind j b : Nat) : State :=
  { s.alloc sb b with
    data := update (s.alloc sb b).data ind (setEntry ((s.alloc sb b).data ind) j b)
    logged := ind :: (s.alloc sb b).logged }

theorem slot_addEntry (sb : Superblock) {ind j b : Nat} (hl : Locked s ip) (hown : Owned sb first s)
    (hind : s.slot (ip, NDIRECT) = ind) (hne : ind ≠ 0) (hj : j < NINDIRECT)
    (hfresh : ∀ x, s.slot x ≠ b) (hb : b < 2 ^ 32) :
    (s.addEntry sb ind j b).slot = update s.slot (ip, NDIRECT + 1 + j) b := by
  have hl' : Locked (s.addEntry sb ind j b) ip := ⟨hl.ref, hl.valid, hl.type⟩
  have hindb : ind ≠ b := hind ▸ hfresh (ip, NDIRECT)
  have hdata : ∀ c, c ≠ b → c ≠ ind → (s.addEntry sb ind j b).data c = s.data c := by
    intro c hcb hci
    simp [State.addEntry, State.alloc, hcb, hci]
  have hnew : (s.addEntry sb ind j b).data ind = setEntry (s.data ind) j b := by
    simp [State.addEntry, State.alloc, hindb]
  have haddr : (s.copy ip).addrs NDIRECT = ind := by simpa [hl.slot_eq, slotOf] using hind
  have hslots : NSLOT = NDIRECT + 1 + NINDIRECT := rfl
  funext ⟨i, k⟩
  by_cases hi : i = ip
  · subst hi
    rw [hl'.slot_eq]
    by_cases hk : k ≤ NDIRECT
    · rw [Function.update_of_ne (by simp; omega), hl.slot_eq]
      simp [slotOf, hk, State.addEntry, State.alloc]
    · by_cases hks : k < NSLOT
      · have hentry : slotOf (s.addEntry sb ind j b).data (s.copy i) k =
            if k - (NDIRECT + 1) = j then b else entry (s.data ind) (k - (NDIRECT + 1)) := by
          rw [slotOf, if_neg hk, haddr, if_pos ⟨hks, hne⟩, hnew, entry_setEntry _ hb]
        show slotOf (s.addEntry sb ind j b).data (s.copy i) k = _
        rw [hentry]
        by_cases hkj : k = NDIRECT + 1 + j
        · rw [hkj, Function.update_self, if_pos (by omega)]
        · rw [Function.update_of_ne (by simpa using hkj), if_neg (by omega), hl.slot_eq, slotOf,
            if_neg hk, haddr, if_pos ⟨hks, hne⟩]
      · rw [Function.update_of_ne (by simp; omega), hl.slot_eq]
        simp [slotOf, hk, hks]
  · rw [Function.update_of_ne (by simp [hi])]
    have hcur : (s.addEntry sb ind j b).cur i = s.cur i := rfl
    refine slot_congr hcur (fun hx => hdata _ (hfresh _) fun heq => hi ?_) k
    exact (Prod.mk.inj (hown.inj hx (heq.trans hind.symm))).1

/-- An entry lies in an indirect block. -/
theorem slot_of_no_indirect {k : Nat} (hl : Locked s ip) (hk : NDIRECT < k)
    (hnone : s.slot (ip, NDIRECT) = 0) : s.slot (ip, k) = 0 := by
  rw [hl.slot_eq, slotOf, if_pos (Nat.le_refl _)] at hnone
  rw [hl.slot_eq, slotOf, if_neg (by omega), if_neg (by simp [hnone])]

/-- Return the block of a file, which is allocated if there is none. -/
theorem bmap_spec {bn : Nat} (hl : Locked s ip) (hown : Owned sb first s) (hbn : bn < MAXFILE) :
    Wp (bmap sb ip bn) (Mapped sb first ip (index bn) s) E s := by
  unfold bmap
  refine Wp.ite (fun hdirect => ?_) fun hdirect => ?_
  · have hindex : index bn = bn := if_pos hdirect
    rw [hindex]
    exact addrOf_spec hl hown (by omega)
  · have hmax : MAXFILE = NDIRECT + NINDIRECT := rfl
    have hslots : NSLOT = NDIRECT + 1 + NINDIRECT := rfl
    have hindex : index bn = NDIRECT + 1 + (bn - NDIRECT) := by
      rw [index, if_neg hdirect]
      omega
    rw [if_pos (by omega), hindex]
    have hlt : bn - NDIRECT < NINDIRECT := by omega
    refine (addrOf_spec hl hown (Nat.le_refl _)).bind fun ind s₁ h₁ => ?_
    refine Wp.ite (fun hzero => ?_) fun hne => ?_
    · obtain ⟨hfull, hnone⟩ := h₁.full hzero
      refine ⟨h₁.wrote, h₁.owned, fun h => absurd rfl h, fun _ => ⟨hfull, ?_⟩, fun hx => ?_⟩
      · exact slot_of_no_indirect (h₁.wrote.locked hl) (by omega) hnone
      · have hind : s.slot (ip, NDIRECT) ≠ 0 := fun hno =>
          hx (slot_of_no_indirect hl (by omega) hno)
        exact absurd ((h₁.found hind).2.symm.trans hzero) hind
    · have hl₁ := h₁.wrote.locked hl
      have hind := h₁.slot hne
      have haddr : (s₁.copy ip).addrs NDIRECT = ind := by simpa [hl₁.slot_eq, slotOf] using hind
      have hslot : s₁.slot (ip, NDIRECT + 1 + (bn - NDIRECT)) =
          entry (s₁.data ind) (bn - NDIRECT) := by
        rw [hl₁.slot_eq, slotOf, if_neg (by omega), haddr, if_pos ⟨by omega, hne⟩,
          Nat.add_sub_cancel_left]
      have hfound : s.slot (ip, NDIRECT + 1 + (bn - NDIRECT)) ≠ 0 → s₁ = s := by
        intro hx
        have hold : s.slot (ip, NDIRECT) ≠ 0 := fun hno =>
          hx (slot_of_no_indirect hl (by omega) hno)
        exact (h₁.found hold).1
      rw [wp_bind, wp_get]
      refine Wp.ite (fun hnone => ?_) fun hsome => ?_
      · rw [← hslot] at hnone
        have hnot : s.slot (ip, NDIRECT + 1 + (bn - NDIRECT)) = 0 := by
          by_contra hx
          rw [hfound hx] at hnone
          exact hx hnone
        refine (balloc_spec h₁.owned).bind fun b s₂ hb => ?_
        obtain ⟨rfl, rfl, hfull⟩ | ⟨hb0, hb, hfree, rfl⟩ := hb
        · exact ⟨h₁.wrote, h₁.owned, fun h => absurd rfl h, fun _ => ⟨hfull, hnone⟩,
            fun h => absurd hnot h⟩
        · rw [if_neg hb0]
          have hfresh := (h₁.owned.fresh hb hfree).2
          have hsb := sb.size_lt
          have hnew := slot_addEntry sb hl₁ h₁.owned hind hne hlt hfresh (by omega)
          obtain ⟨hwrote, hown'⟩ := wrote_of_take (s₁.addEntry sb ind (bn - NDIRECT) b)
            h₁.owned hb hfree hnone rfl hnew rfl rfl rfl (fun _ _ => rfl) rfl
            (by
              have hbi : b ≠ ind := fun h => hfresh (ip, NDIRECT) (hind.trans h.symm)
              simp [State.addEntry, State.alloc, hbi])
            (fun c hc hci => by
              rw [hind] at hci
              simp [State.addEntry, State.alloc, hc, hci])
          refine ⟨h₁.wrote.trans hwrote, hown', fun _ => ?_, fun h => absurd h hb0,
            fun h => absurd hnot h⟩
          show (s₁.addEntry sb ind (bn - NDIRECT) b).slot _ = b
          rw [hnew, Function.update_self]
      · refine ⟨h₁.wrote, h₁.owned, fun _ => hslot, fun h => absurd h hsome, fun hx => ?_⟩
        obtain rfl := hfound hx
        exact ⟨rfl, hslot.symm⟩

/-! ## A file system with one empty inode -/

/-- A superblock for ten blocks, the first of them reserved. -/
def tiny : Superblock := ⟨10, 16, 0, 0, by decide⟩

/-- Inode 1 is in use, locked and empty; no block is. -/
def lone (type : I16) : State where
  bitmap b := b = 0
  dinode i := if i = 1 then { Dinode.zero with type := type, nlink := 1 } else .zero
  data _ _ := 0
  refs := [1]
  valid _ := true
  copy i := if i = 1 then { Dinode.zero with type := type, nlink := 1 } else .zero
  logged := []

theorem slot_lone (type : I16) (x : Nat × Nat) : (lone type).slot x = 0 := by
  have haddrs : ∀ i k, ((lone type).cur i).addrs k = 0 := by
    intro i k
    have hcur : (lone type).cur i = (lone type).dinode i := ite_self ((lone type).dinode i)
    rw [hcur]
    by_cases hi : i = 1 <;> simp [lone, Dinode.zero, hi]
  unfold State.slot slotOf
  simp [haddrs]

theorem owned_lone (type : I16) : Owned tiny 1 (lone type) where
  pos := Nat.one_pos
  inj h _ := absurd (slot_lone type _) h
  range h := absurd (slot_lone type _) h
  reserved hb _ := decide_eq_true (by omega)
  bit {b} hb _ := by
    have hne : b ≠ 0 := by omega
    refine iff_of_false (by simp [lone, hne]) fun ⟨x, hx⟩ => hne ?_
    rw [← hx, slot_lone]

/-- One block is in use, the first of inode 1. -/
theorem owned_single (hslot : ∀ x, s.slot x = if x = (1, 0) then 2 else 0)
    (hbitmap : ∀ b, s.bitmap b = decide (b < 3)) : Owned tiny 2 s where
  pos := Nat.two_pos
  inj {x y} hx heq := by
    simp only [hslot] at hx heq
    split_ifs at hx heq with h h'
    · rw [h, h']
    · exact absurd rfl hx
  range {x} hx := by
    rw [hslot] at hx ⊢
    split_ifs at hx with h
    · rw [if_pos h]
      decide
    · exact absurd rfl hx
  reserved hb _ := by
    rw [hbitmap]
    exact decide_eq_true (by omega)
  bit {b} hb _ := by
    rw [hbitmap, decide_eq_true_iff]
    constructor
    · intro hlt
      refine ⟨(1, 0), ?_⟩
      rw [hslot, if_pos rfl]
      omega
    · rintro ⟨x, hx⟩
      rw [hslot] at hx
      split_ifs at hx <;> omega

theorem locked_lone {type : I16} (h : type ≠ 0) : Locked (lone type) 1 :=
  ⟨List.mem_singleton.2 rfl, rfl, h⟩

theorem allocated_lone {type : I16} (h : type ≠ 0) : Allocated (lone type) 1 := by
  intro bn hbn
  rw [(locked_lone h).cur_eq] at hbn
  exact absurd hbn (Nat.not_lt_zero _)

end Xv6.Fs
