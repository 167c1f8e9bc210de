import Xv6.Fs.Logged
import Xv6.Fs.Path
import Xv6.Fs.Sysfile

/-!
# What every operation keeps

`Sound` is what holds between the steps of the file-system code: every block
has one owner, and the inodes in memory are those on disk.  Nothing is asked
of what directories contain.  Each function has a rule that says what happens
to the references and to the inodes that are held locked, and which blocks are
logged.
-/

namespace Xv6.Fs

open Run
open Function (update)

variable {sb : Superblock} {first : Nat} {s s' s'' : State} {ip dp : Nat} {E : String → Prop}
  {inodes held refs refs' : List Nat} {m n : Nat}

/-- The law of block ownership. -/
structure Sound (sb : Superblock) (first : Nat) (s : State) : Prop where
  owned : Owned sb first s
  allocated : ∀ i, (s.cur i).type ≠ 0 → Allocated s i
  /-- What is in memory is what is on disk. -/
  synced : ∀ i ∈ s.refs, s.valid i = true → s.copy i = s.dinode i ∧ (s.copy i).type ≠ 0

/-- A panic other than that a free block is freed. -/
def Benign (e : String) : Prop := e ≠ "freeing free block"

instance : DecidablePred Benign := fun e => inferInstanceAs (Decidable (e ≠ _))

@[simp] theorem wp_panic {α : Type} {msg : String} {Q : α → State → Prop} :
    Wp (panic msg : M α) Q E s ↔ E msg := Iff.rfl

namespace Sound

theorem locked (h : Sound sb first s) (href : ip ∈ s.refs) (hvalid : s.valid ip = true) :
    Locked s ip :=
  ⟨href, hvalid, (h.synced ip href hvalid).2⟩

theorem cur_eq (h : Sound sb first s) (i : Nat) : s.cur i = s.dinode i := by
  unfold State.cur
  split_ifs with hi
  · exact (h.synced i hi.1 hi.2).1
  · rfl

theorem allocated_of_locked (h : Sound sb first s) (hl : Locked s ip) : Allocated s ip :=
  h.allocated ip (by rw [hl.cur_eq]; exact hl.type)

/-- Only what is in memory has changed. -/
theorem of_same (h : Sound sb first s) (hsame : SameFiles s s')
    (hsync : ∀ i ∈ s'.refs, s'.valid i = true → s'.copy i = s'.dinode i ∧ (s'.copy i).type ≠ 0) :
    Sound sb first s' where
  owned := hsame.owned h.owned
  allocated i hi := hsame.allocated (h.allocated i (by rwa [← hsame.cur]))
  synced := hsync

end Sound

/-- Two states differ in inode `ip` only. -/
structure Only (ip : Nat) (s s' : State) : Prop where
  refs : s'.refs = s.refs
  valid : ∀ j, j ≠ ip → s'.valid j = s.valid j
  copy : ∀ j, j ≠ ip → s'.copy j = s.copy j
  dinode : ∀ j, j ≠ ip → s'.dinode j = s.dinode j
  slot : ∀ x : Nat × Nat, x.1 ≠ ip → s'.slot x = s.slot x

namespace Only

theorem cur (h : Only ip s s') {j : Nat} (hj : j ≠ ip) : s'.cur j = s.cur j := by
  unfold State.cur
  rw [h.refs, h.valid j hj, h.copy j hj, h.dinode j hj]

theorem locked (h : Only ip s s') {j : Nat} (hj : j ≠ ip) (hl : Locked s j) : Locked s' j where
  ref := by
    rw [h.refs]
    exact hl.ref
  valid := by
    rw [h.valid j hj]
    exact hl.valid
  type := by
    rw [h.copy j hj]
    exact hl.type

theorem sound (h : Only ip s s') (hs : Sound sb first s) (hown : Owned sb first s')
    (halloc : (s'.cur ip).type ≠ 0 → Allocated s' ip)
    (hsync : s'.valid ip = true → s'.copy ip = s'.dinode ip ∧ (s'.copy ip).type ≠ 0) :
    Sound sb first s' where
  owned := hown
  allocated j htype := by
    by_cases hj : j = ip
    · subst hj
      exact halloc htype
    · rw [h.cur hj] at htype
      intro bn hbn
      rw [h.cur hj] at hbn
      rw [h.slot _ hj]
      exact hs.allocated j htype bn hbn
  synced j hj hvalid := by
    by_cases hji : j = ip
    · subst hji
      exact hsync hvalid
    · rw [h.refs] at hj
      rw [h.valid j hji] at hvalid
      rw [h.copy j hji, h.dinode j hji]
      exact hs.synced j hj hvalid

end Only

/-- What a piece of code does: the references become `refs`, the inodes `held`
stay locked, and the blocks of `inodes` and `n` more are logged. -/
structure Moves (sb : Superblock) (first : Nat) (inodes : List Nat) (n : Nat)
    (refs held : List Nat) (s s' : State) : Prop where
  sound : Sound sb first s'
  refs_eq : s'.refs = refs
  held_locked : ∀ j ∈ held, Locked s j → Locked s' j
  logs : Logs sb inodes n s s'

namespace Moves

theorem refl (hs : Sound sb first s) : Moves sb first inodes 0 s.refs held s s where
  sound := hs
  refs_eq := rfl
  held_locked _ _ hl := hl
  logs := .of_eq rfl

theorem trans (h : Moves sb first inodes m refs held s s')
    (h' : Moves sb first inodes n refs' held s' s'') :
    Moves sb first inodes (m + n) refs' held s s'' where
  sound := h'.sound
  refs_eq := h'.refs_eq
  held_locked j hj hl := h'.held_locked j hj (h.held_locked j hj hl)
  logs := h.logs.trans h'.logs

theorem mono {inodes' held' : List Nat} (h : Moves sb first inodes m refs held s s')
    (his : inodes ⊆ inodes') (hn : m ≤ n) (hheld : held' ⊆ held) :
    Moves sb first inodes' n refs held' s s' where
  sound := h.sound
  refs_eq := h.refs_eq
  held_locked j hj := h.held_locked j (hheld hj)
  logs := h.logs.mono his hn

end Moves

/-! ## The inode table -/

theorem Sound.got (hs : Sound sb first s) (inum : Nat) : Sound sb first (s.got inum) := by
  refine hs.of_same (sameFiles_got inum) fun i hi hvalid => ?_
  by_cases hold : i ∈ s.refs
  · rw [got_valid hold] at hvalid
    exact hs.synced i hold hvalid
  · rcases List.mem_cons.1 hi with rfl | hi
    · simp [State.got, hold] at hvalid
    · exact absurd hi hold

theorem moves_got (hs : Sound sb first s) (inum : Nat) :
    Moves sb first inodes 0 (inum :: s.refs) held s (s.got inum) where
  sound := hs.got inum
  refs_eq := rfl
  held_locked _ _ hl := hl.got inum
  logs := .of_eq rfl

theorem iget_benign (inum : Nat) :
    Wp (iget inum) (fun r s' => r = inum ∧ s' = s.got inum) Benign s := by
  unfold iget
  rw [wp_bind, wp_get]
  refine Wp.ite (fun hin => ?_) fun hout => Wp.ite (fun _ => ?_) fun _ => ?_
  · exact ⟨rfl, by simp [State.got, hin]⟩
  · exact (by decide : Benign "iget: no inodes")
  · exact ⟨rfl, by simp [State.got, hout]⟩

theorem ilock_moves (inodes held : List Nat) (hs : Sound sb first s) :
    Wp (ilock ip) (fun _ s' => Moves sb first inodes 0 s.refs held s s' ∧ Locked s' ip ∧
      Visited s s.refs s') Benign s := by
  unfold ilock
  rw [wp_bind, wp_get]
  refine Wp.ite (fun _ => ?_) fun hcount => Wp.ite (fun hvalid => ?_) fun hvalid => ?_
  · exact (by decide : Benign "ilock")
  · have href : ip ∈ s.refs := List.count_pos_iff.1 (by omega)
    exact ⟨.refl hs, hs.locked href hvalid, ⟨rfl, rfl, rfl⟩, rfl, rfl, rfl⟩
  · have href : ip ∈ s.refs := List.count_pos_iff.1 (by omega)
    rw [wp_bind, wp_modify]
    refine Wp.ite (fun _ => ?_) fun htype => ?_
    · exact (by decide : Benign "ilock: no type")
    · have hsame : SameFiles s { s with
          copy := update s.copy ip (s.dinode ip), valid := update s.valid ip true } := by
        refine ⟨funext fun j => ?_, rfl, rfl⟩
        unfold State.cur
        by_cases hj : j = ip
        · subst hj
          simp [hvalid]
        · simp [hj]
      refine ⟨⟨hs.of_same hsame fun i hi hv => ?_, rfl, fun j _ hl => ?_, .of_eq rfl⟩,
        ⟨href, Function.update_self .., by simpa using htype⟩, hsame, rfl, rfl, rfl⟩
      · by_cases hip : i = ip
        · subst hip
          simpa using htype
        · simp only [Function.update_of_ne hip] at hv ⊢
          exact hs.synced i hi hv
      · have hj : j ≠ ip := by
          rintro rfl
          exact hvalid hl.valid
        exact ⟨hl.ref, by simpa [hj] using hl.valid, by simpa [hj] using hl.type⟩

/-- `iunlock` checks only. -/
theorem iunlock_moves : Wp (iunlock ip) (fun _ s' => s' = s) Benign s := by
  unfold iunlock
  rw [wp_bind, wp_get]
  refine Wp.ite (fun _ => ?_) fun _ => rfl
  exact (by decide : Benign "iunlock")

/-! ## Freeing an inode -/

theorem Truncated.only (h : Truncated sb first ip s s') : Only ip s s' := by
  obtain ⟨addrs, hcopy⟩ := h.copy
  refine ⟨h.refs, fun j _ => congrFun h.valid j, fun j hj => ?_, fun j hj => ?_, fun x hx => ?_⟩
  · rw [hcopy, Function.update_of_ne hj]
  · rw [h.dinode, Function.update_of_ne hj]
  · rw [h.slot, State.emptied, if_neg hx]

theorem Truncated.locked (h : Truncated sb first ip s s') (hl : Locked s ip) : Locked s' ip := by
  obtain ⟨addrs, hcopy⟩ := h.copy
  refine ⟨?_, ?_, ?_⟩
  · rw [h.refs]
    exact hl.ref
  · rw [h.valid]
    exact hl.valid
  · rw [hcopy, Function.update_self]
    exact hl.type

theorem itrunc_moves (held : List Nat) (hs : Sound sb first s) (hl : Locked s ip) (hip : ip ∈ inodes) :
    Wp (itrunc sb ip) (fun _ s' => Moves sb first inodes 0 s.refs held s s' ∧ Locked s' ip ∧
      Truncated sb first ip s s') E s := by
  refine (itrunc_spec hl hs.owned).post fun _ s' h => ?_
  have hl' := h.locked hl
  obtain ⟨addrs, hcopy⟩ := h.copy
  refine ⟨⟨h.only.sound hs h.owned (fun _ bn hbn => ?_) fun _ => ?_, h.refs, fun j _ hj => ?_,
    ⟨[], Nat.le_refl 0, fun b hb => ?_⟩⟩, hl', h⟩
  · rw [hl'.cur_eq, hcopy, Function.update_self] at hbn
    exact absurd hbn (Nat.not_lt_zero _)
  · rw [h.dinode, Function.update_self]
    exact ⟨rfl, hl'.type⟩
  · by_cases hji : j = ip
    · rwa [hji]
    · exact h.only.locked hji hj
  · rcases h.logged b hb with hold | hmap | hi
    · exact .inl hold
    · exact .inr (.inl hmap)
    · exact .inr (.inr (.inl ⟨ip, hip, hi⟩))

/-- The state after an inode has lost its type. -/
def State.untyped (s : State) (sb : Superblock) (ip : Nat) : State :=
  { s with
    copy := update s.copy ip { s.copy ip with type := 0 }
    dinode := update s.dinode ip { s.copy ip with type := 0 }
    valid := update s.valid ip false
    logged := sb.IBLOCK ip :: s.logged }

theorem slot_untyped (k : Nat) : (s.untyped sb ip).slot (ip, k) = 0 := by
  have hcur : ((s.untyped sb ip).cur ip).type = 0 := by
    unfold State.cur State.untyped
    simp
  unfold State.slot
  rw [if_pos hcur]

theorem only_untyped : Only ip s (s.untyped sb ip) := by
  refine ⟨rfl, fun j hj => Function.update_of_ne hj .., fun j hj => Function.update_of_ne hj ..,
    fun j hj => Function.update_of_ne hj .., fun x hx => ?_⟩
  obtain ⟨j, k⟩ := x
  have hj : j ≠ ip := hx
  have hcur : (s.untyped sb ip).cur j = s.cur j := by
    simp only [State.cur, State.untyped, Function.update_of_ne hj]
  exact slot_congr hcur (fun _ => rfl) k

/-- The inode is free, and so are its blocks. -/
theorem ifree_moves (hs : Sound sb first s) (hl : Locked s ip) (hip : ip ∈ inodes)
    (hheld : ip ∉ held) :
    Wp (ifree sb ip) (fun _ s' => Moves sb first inodes 0 s.refs held s s' ∧
      s'.slot = s.emptied ip) E s := by
  unfold ifree
  refine (itrunc_moves held hs hl hip).bind fun _ s₁ h₁ => ?_
  obtain ⟨hmoves, hl₁, htrunc⟩ := h₁
  rw [wp_bind, wp_setCopy, wp_bind, wp_iupdate, wp_modify]
  have hfinal : ({ s₁ with
      copy := update s₁.copy ip { s₁.copy ip with type := 0 }
      dinode := update s₁.dinode ip
        (update s₁.copy ip { s₁.copy ip with type := 0 } ip)
      valid := update s₁.valid ip false
      logged := sb.IBLOCK ip :: s₁.logged } : State) = s₁.untyped sb ip := by
    rw [Function.update_self]
    rfl
  have hslot : (s₁.untyped sb ip).slot = s.emptied ip := by
    funext x
    obtain ⟨j, k⟩ := x
    by_cases hj : j = ip
    · rw [hj, slot_untyped, State.emptied, if_pos rfl]
    · rw [only_untyped.slot (j, k) hj, htrunc.slot]
  have hown : Owned sb first (s₁.untyped sb ip) := by
    have hold := htrunc.owned
    unfold Owned at hold ⊢
    rwa [hslot, ← htrunc.slot]
  have hfree : (s₁.untyped sb ip).valid ip = false := Function.update_self ..
  have hmoves' : Moves sb first inodes 0 s₁.refs held s₁ (s₁.untyped sb ip) := by
    refine ⟨only_untyped.sound hmoves.sound hown (fun htype => ?_) (fun hv => ?_), rfl,
      fun j hj hlj => ?_, ⟨[], Nat.le_refl 0, fun b hb => ?_⟩⟩
    · simp [State.cur, State.untyped] at htype
    · rw [hfree] at hv
      cases hv
    · exact only_untyped.locked (fun hji => hheld (hji ▸ hj)) hlj
    · rcases List.mem_cons.1 hb with rfl | hb
      · exact .inr (.inr (.inl ⟨ip, hip, rfl⟩))
      · exact .inl hb
  have hdone : Moves sb first inodes 0 s.refs held s (s₁.untyped sb ip) ∧
      (s₁.untyped sb ip).slot = s.emptied ip := by
    rw [hmoves.refs_eq] at hmoves'
    exact ⟨hmoves.trans hmoves', hslot⟩
  rw [← hfinal] at hdone
  exact hdone

theorem Sound.unref (hs : Sound sb first s) (ip : Nat) :
    Sound sb first { s with refs := s.refs.erase ip } := by
  have hsync : ∀ i ∈ s.refs.erase ip, s.valid i = true →
      s.copy i = s.dinode i ∧ (s.copy i).type ≠ 0 := fun i hi =>
    hs.synced i (List.mem_of_mem_erase hi)
  refine hs.of_same ⟨funext fun i => ?_, rfl, rfl⟩ hsync
  rw [hs.cur_eq]
  show (if i ∈ s.refs.erase ip ∧ s.valid i = true then s.copy i else s.dinode i) = s.dinode i
  split_ifs with hi
  · exact (hsync i hi.1 hi.2).1
  · rfl

theorem iput_moves (inodes held : List Nat) (hs : Sound sb first s) (href : ip ∈ s.refs)
    (hip : ip ∈ inodes) (hheld : held ⊆ s.refs.erase ip) :
    Wp (iput sb ip) (fun _ s' => Moves sb first inodes 0 (s.refs.erase ip) held s s') E s := by
  have hunref : ∀ {t : State}, Moves sb first inodes 0 s.refs held s t →
      Moves sb first inodes 0 (s.refs.erase ip) held s { t with refs := t.refs.erase ip } := by
    intro t h
    refine ⟨h.sound.unref ip, by rw [h.refs_eq], fun j hj hl => ?_, h.logs⟩
    have hl' := h.held_locked j hj hl
    refine ⟨?_, hl'.valid, hl'.type⟩
    show j ∈ t.refs.erase ip
    rw [h.refs_eq]
    exact hheld hj
  unfold iput
  rw [wp_bind, wp_get]
  refine Wp.ite (fun hlast => ?_) fun _ => hunref (.refl hs)
  obtain ⟨hone, hvalid, -⟩ := hlast
  have hout : ip ∉ held := by
    intro hin
    have hpos := List.count_pos_iff.2 (hheld hin)
    rw [List.count_erase_self, hone] at hpos
    omega
  exact (ifree_moves hs (hs.locked href hvalid) hip hout).bind fun _ s₁ h₁ => hunref h₁.1

theorem iunlockput_moves (inodes held : List Nat) (hs : Sound sb first s) (href : ip ∈ s.refs)
    (hip : ip ∈ inodes) (hheld : held ⊆ s.refs.erase ip) :
    Wp (iunlockput sb ip) (fun _ s' => Moves sb first inodes 0 (s.refs.erase ip) held s s')
      Benign s := by
  unfold iunlockput
  refine iunlock_moves.bind fun _ s₁ h₁ => ?_
  subst h₁
  exact iput_moves inodes held hs href hip hheld

/-! ## Writing -/

theorem Written.only {size : Nat} {g : Nat → Option Byte}
    (h : Written sb first ip size g s s') : Only ip s s' where
  refs := h.refs
  valid j _ := congrFun h.valid j
  copy := h.others
  dinode j hj := by rw [h.dinode, Function.update_of_ne hj]
  slot := h.slot

theorem writei_moves {src : Source} {off n : U32} (held : List Nat) (hs : Sound sb first s)
    (hl : Locked s ip) (hip : ip ∈ inodes) :
    Wp (writei sb ip src off n) (fun r s' =>
      Moves sb first inodes (2 * blocks off.toNat n.toNat) s.refs held s s' ∧ Locked s' ip ∧
        Writes sb first ip src off n s r s') E s := by
  have hspec : Wp (writei sb ip src off n) (Writes sb first ip src off n s) E s :=
    writei_spec hl hs.owned (hs.allocated_of_locked hl)
  refine (hspec.and writei_logs).mono (fun r s' h => ?_) fun e he => he.1
  obtain ⟨hwrites, hlogs⟩ := h
  have hlogs : Logs sb inodes (2 * blocks off.toNat n.toNat) s s' :=
    hlogs.mono (fun i hi => List.mem_singleton.1 hi ▸ hip) (Nat.le_refl _)
  obtain ⟨hl', -, -⟩ := hwrites.keeps hl hs.owned (hs.allocated_of_locked hl)
  refine ⟨?_, hl', hwrites⟩
  rcases hwrites with ⟨-, -, rfl⟩ | ⟨-, k, e, -, -, hw, -⟩
  · exact ⟨hs, rfl, fun _ _ hj => hj, hlogs⟩
  · refine ⟨hw.only.sound hs hw.owned (fun _ => hw.allocated) fun _ => ?_, hw.refs,
      fun j _ hj => ?_, hlogs⟩
    · rw [hw.dinode, Function.update_self]
      exact ⟨rfl, hl'.type⟩
    · by_cases hji : j = ip
      · rwa [hji]
      · exact hw.only.locked hji hj

/-- The state after the fields of an inode that say nothing about its blocks
have been changed and saved. -/
def State.saved (s : State) (sb : Superblock) (ip : Nat) (d : Dinode) : State :=
  { s with
    copy := update s.copy ip d
    dinode := update s.dinode ip d
    logged := sb.IBLOCK ip :: s.logged }

theorem only_saved (d : Dinode) : Only ip s (s.saved sb ip d) := by
  refine ⟨rfl, fun _ _ => rfl, fun j hj => Function.update_of_ne hj ..,
    fun j hj => Function.update_of_ne hj .., fun x hx => ?_⟩
  obtain ⟨j, k⟩ := x
  have hj : j ≠ ip := hx
  have hcur : (s.saved sb ip d).cur j = s.cur j := by
    simp only [State.cur, State.saved, Function.update_of_ne hj]
  exact slot_congr hcur (fun _ => rfl) k

theorem Locked.saved {d : Dinode} (hl : Locked s ip) (htype : d.type = (s.copy ip).type) :
    Locked (s.saved sb ip d) ip := by
  have hcopy : (s.saved sb ip d).copy ip = d := Function.update_self ..
  refine ⟨hl.ref, hl.valid, ?_⟩
  rw [hcopy, htype]
  exact hl.type

theorem slot_saved {d : Dinode} (hl : Locked s ip) (htype : d.type = (s.copy ip).type)
    (haddrs : d.addrs = (s.copy ip).addrs) : (s.saved sb ip d).slot = s.slot := by
  have hcopy : (s.saved sb ip d).copy ip = d := Function.update_self ..
  funext x
  obtain ⟨j, k⟩ := x
  by_cases hj : j = ip
  · subst hj
    rw [(hl.saved htype).slot_eq, hl.slot_eq, hcopy, slotOf, slotOf, haddrs]
    rfl
  · exact (only_saved d).slot (j, k) hj

theorem saved_moves {d : Dinode} (held : List Nat) (hs : Sound sb first s) (hl : Locked s ip)
    (hip : ip ∈ inodes) (htype : d.type = (s.copy ip).type) (hsize : d.size = (s.copy ip).size)
    (haddrs : d.addrs = (s.copy ip).addrs) :
    Moves sb first inodes 0 s.refs held s (s.saved sb ip d) ∧ Locked (s.saved sb ip d) ip := by
  have hcopy : (s.saved sb ip d).copy ip = d := Function.update_self ..
  have hl' : Locked (s.saved sb ip d) ip := hl.saved htype
  have hslot : (s.saved sb ip d).slot = s.slot := slot_saved hl htype haddrs
  have hown : Owned sb first (s.saved sb ip d) := by
    have hold := hs.owned
    unfold Owned at hold ⊢
    rwa [hslot]
  refine ⟨⟨(only_saved d).sound hs hown (fun _ bn hbn => ?_) fun _ => ?_, rfl, fun j _ hj => ?_,
    ⟨[], Nat.le_refl 0, fun b hb => ?_⟩⟩, hl'⟩
  · rw [hslot]
    refine hs.allocated_of_locked hl bn ?_
    rwa [hl'.cur_eq, hcopy, hsize, ← hl.cur_eq] at hbn
  · have hdinode : (s.saved sb ip d).dinode ip = d := Function.update_self ..
    rw [hcopy, hdinode]
    exact ⟨rfl, hcopy ▸ hl'.type⟩
  · by_cases hji : j = ip
    · rwa [hji]
    · exact (only_saved d).locked hji hj
  · rcases List.mem_cons.1 hb with rfl | hb
    · exact .inr (.inr (.inl ⟨ip, hip, rfl⟩))
    · exact .inl hb

/-- `setCopy` and `iupdate`. -/
theorem save_moves {f : Dinode → Dinode} (held : List Nat) (hs : Sound sb first s)
    (hl : Locked s ip) (hip : ip ∈ inodes) (htype : ∀ d, (f d).type = d.type)
    (hsize : ∀ d, (f d).size = d.size) (haddrs : ∀ d, (f d).addrs = d.addrs) :
    Wp (do setCopy ip f; iupdate sb ip) (fun _ s' =>
      Moves sb first inodes 0 s.refs held s s' ∧ Locked s' ip ∧
        s' = s.saved sb ip (f (s.copy ip))) E s := by
  rw [wp_bind, wp_setCopy, wp_iupdate]
  have hfinal : ({ s with
      copy := update s.copy ip (f (s.copy ip))
      dinode := update s.dinode ip (update s.copy ip (f (s.copy ip)) ip)
      logged := sb.IBLOCK ip :: s.logged } : State) = s.saved sb ip (f (s.copy ip)) := by
    rw [Function.update_self]
    rfl
  obtain ⟨hmoves, hl'⟩ := saved_moves held hs hl hip (htype _) (hsize _) (haddrs _)
  have hdone : Moves sb first inodes 0 s.refs held s (s.saved sb ip (f (s.copy ip))) ∧
      Locked (s.saved sb ip (f (s.copy ip))) ip ∧
        s.saved sb ip (f (s.copy ip)) = s.saved sb ip (f (s.copy ip)) := ⟨hmoves, hl', rfl⟩
  nth_rewrite 1 2 3 [← hfinal] at hdone
  exact hdone

theorem relink_moves {f : I16 → I16} (held : List Nat) (hs : Sound sb first s)
    (hl : Locked s ip) (hip : ip ∈ inodes) :
    Wp (relink sb ip f) (fun _ s' => Moves sb first inodes 0 s.refs held s s' ∧ Locked s' ip ∧
      s' = s.saved sb ip { s.copy ip with nlink := f (s.copy ip).nlink }) E s :=
  save_moves held hs hl hip (fun _ => rfl) (fun _ => rfl) fun _ => rfl

/-! ## Directories -/

theorem readEntry_keeps {msg : String} {off : Nat} (hs : Sound sb first s) (hl : Locked s dp)
    (hmsg : Benign msg) : Wp (readEntry sb msg dp off) (fun _ s' => s' = s) Benign s := by
  unfold readEntry
  refine (readi_spec hl (hs.allocated_of_locked hl)).bind fun r s' hr => ?_
  exact Wp.ite (fun _ => hr.1) fun _ => hmsg

theorem offset_of_mem {off size : Nat} (h : off ∈ offsets size) : ∃ i, off = DIRENT * i := by
  obtain ⟨i, -, rfl⟩ := List.mem_map.1 h
  exact ⟨i, rfl⟩

/-- A loop over the entries that changes nothing until it answers. -/
theorem entries_keep {α : Type} {g : Nat → M (Option α)} {Q : Option α → State → Prop}
    {offs : List Nat} (hg : ∀ off ∈ offs, Wp (g off)
      (fun r s' => (∀ a, r = some a → Q (some a) s') ∧ (r = none → s' = s)) E s)
    (hnone : Q none s) : Wp (findM? g offs) Q E s := by
  refine Wp.findM? (fun _ is s' => s' = s ∧ is ⊆ offs) [] ⟨rfl, List.Subset.refl _⟩
    (fun _ off is s' h => ?_) fun _ s' h => h.1 ▸ hnone
  obtain ⟨rfl, hsub⟩ := h
  refine (hg off (hsub List.mem_cons_self)).post fun r s'' hr => ⟨hr.1, fun hno => ⟨hr.2 hno, ?_⟩⟩
  exact fun x hx => hsub (List.mem_cons_of_mem _ hx)

/-- What `dirlookup` does, whatever is in the directory. -/
theorem dirlookup_keeps {name : Chars} (hs : Sound sb first s) (hl : Locked s dp) :
    Wp (dirlookup sb dp name) (fun r s' => (r = none ∧ s' = s) ∨
      ∃ inum i, r = some (inum, DIRENT * i) ∧ s' = s.got inum) Benign s := by
  unfold dirlookup
  rw [wp_bind, wp_get]
  refine Wp.ite (fun _ => ?_) fun _ => ?_
  · refine entries_keep (fun off hoff => ?_) (.inl ⟨rfl, rfl⟩)
    refine (readEntry_keeps hs hl (by decide)).bind fun de s' hs' => ?_
    subst hs'
    refine Wp.ite (fun _ => ⟨fun _ h => (by cases h), fun _ => rfl⟩) fun _ =>
      Wp.ite (fun _ => ?_) fun _ => ⟨fun _ h => (by cases h), fun _ => rfl⟩
    refine (iget_benign de.inum).bind fun ip s' h => ?_
    obtain ⟨rfl, rfl⟩ := h
    obtain ⟨i, rfl⟩ := offset_of_mem hoff
    refine ⟨fun a ha => .inr ⟨de.inum, i, ha.symm ▸ rfl, rfl⟩, fun h => by cases h⟩
  · exact (by decide : Benign "dirlookup not DIR")

theorem dirlookup_moves {name : Chars} (inodes held : List Nat) (hs : Sound sb first s)
    (hl : Locked s dp) :
    Wp (dirlookup sb dp name) (fun r s' =>
      Moves sb first inodes 0 ((r.map (·.1)).toList ++ s.refs) held s s' ∧ Locked s' dp ∧
        ∀ x, r = some x → ∃ i, x.2 = DIRENT * i) Benign s := by
  refine (dirlookup_keeps hs hl).post fun r s' h => ?_
  rcases h with ⟨rfl, rfl⟩ | ⟨inum, i, rfl, rfl⟩
  · exact ⟨.refl hs, hl, fun x hx => by cases hx⟩
  · exact ⟨moves_got hs inum, hl.got inum, fun x hx => ⟨i, by cases hx; rfl⟩⟩

theorem writeEntry_moves {bs : List Byte} (i : Nat) (held : List Nat) (hs : Sound sb first s)
    (hl : Locked s dp) (hdp : dp ∈ inodes) :
    Wp (writei sb dp (kernel bs) (BitVec.ofNat 32 (DIRENT * i)) (BitVec.ofNat 32 DIRENT))
      (fun _ s' => Moves sb first inodes 2 s.refs held s s' ∧ Locked s' dp) E s := by
  refine (writei_moves held hs hl hdp).post fun r s' h => ⟨?_, h.2.1⟩
  have hmoves := h.1
  rwa [blocks_entry, Nat.mul_one] at hmoves

theorem zeroEntry_moves (i : Nat) (held : List Nat) (hs : Sound sb first s) (hl : Locked s dp)
    (hdp : dp ∈ inodes) :
    Wp (zeroEntry sb dp (DIRENT * i))
      (fun _ s' => Moves sb first inodes 2 s.refs held s s' ∧ Locked s' dp) Benign s := by
  unfold zeroEntry
  refine (writeEntry_moves i held hs hl hdp).bind fun r s' h => ?_
  refine Wp.ite (fun _ => ?_) fun _ => h
  exact (by decide : Benign "unlink: writei")

theorem isdirempty_keeps (hs : Sound sb first s) (hl : Locked s dp) :
    Wp (isdirempty sb dp) (fun _ s' => s' = s) Benign s := by
  unfold isdirempty
  rw [wp_bind, wp_get]
  refine Wp.bind (entries_keep (Q := fun _ s' => s' = s) (fun off _ => ?_) rfl) fun _ s' h => h
  refine (readEntry_keeps hs hl (by decide)).bind fun de s' hs' => ?_
  subst hs'
  exact ⟨fun _ _ => rfl, fun _ => rfl⟩

theorem erase_second (a b : Nat) (l : List Nat) : (a :: b :: l).erase b = a :: l := by
  by_cases h : a = b
  · rw [h, List.erase_cons_head]
  · rw [List.erase_cons_tail (by simpa using h), List.erase_cons_head]

theorem dirlink_moves {name : Chars} {inum : Nat} (held : List Nat) (hs : Sound sb first s)
    (hl : Locked s dp) (hdp : dp ∈ inodes) (hheld : held ⊆ s.refs) :
    Wp (dirlink sb dp name inum)
      (fun _ s' => Moves sb first inodes 2 s.refs held s s' ∧ Locked s' dp) Benign s := by
  unfold dirlink
  refine (dirlookup_keeps hs hl).bind fun r s₁ h => ?_
  rcases h with ⟨rfl, rfl⟩ | ⟨n, i, rfl, rfl⟩
  · rw [wp_bind, wp_get]
    have hfind : Wp (findM? (fun off => do
        let de ← readEntry sb "dirlink read" dp off
        return if de.inum = 0 then some off else none) (offsets (s₁.copy dp).size))
        (fun r s' => s' = s₁ ∧ ∃ i, r.getD (lastOffset (s₁.copy dp).size) = DIRENT * i)
        Benign s₁ := by
      refine entries_keep (fun off hoff => ?_) ⟨rfl, _, rfl⟩
      refine (readEntry_keeps hs hl (by decide)).bind fun de s' hs' => ?_
      subst hs'
      refine ⟨fun a ha => ⟨rfl, ?_⟩, fun _ => rfl⟩
      obtain ⟨i, rfl⟩ := offset_of_mem hoff
      refine ⟨i, ?_⟩
      split_ifs at ha
      exact (Option.some.inj ha).symm
    refine hfind.bind fun r s₂ h => ?_
    obtain ⟨rfl, i, hi⟩ := h
    rw [hi]
    exact (writeEntry_moves i held hs hl hdp).bind fun r s₃ h => h
  · -- the name is there already
    have hgot := hs.got n
    refine (iput_moves (n :: inodes) (dp :: held) hgot List.mem_cons_self List.mem_cons_self
      ?_).bind fun _ s₂ h => ?_
    · show dp :: held ⊆ (n :: s.refs).erase n
      rw [List.erase_cons_head]
      exact List.cons_subset.2 ⟨hl.ref, hheld⟩
    · have hrefs : (s.got n).refs.erase n = s.refs := List.erase_cons_head ..
      rw [hrefs] at h
      refine ⟨⟨h.sound, h.refs_eq, fun j hj hlj => ?_, ?_⟩, ?_⟩
      · exact h.held_locked j (List.mem_cons_of_mem _ hj) (hlj.got n)
      · exact (h.logs.of_inode).mono (List.Subset.refl _) (by omega)
      · exact h.held_locked dp List.mem_cons_self (hl.got n)

/-! ## A new inode -/

/-- The state after a free inode has been marked allocated. -/
def State.marked (s : State) (sb : Superblock) (inum : Nat) (type : I16) : State :=
  { s with
    dinode := update s.dinode inum { Dinode.zero with type := type }
    logged := sb.IBLOCK inum :: s.logged }

theorem cur_marked {inum : Nat} {type : I16} (hs : Sound sb first s)
    (hfree : (s.dinode inum).type = 0) :
    (s.marked sb inum type).cur inum = { Dinode.zero with type := type } := by
  have hnot : ¬ (inum ∈ s.refs ∧ s.valid inum = true) := by
    rintro ⟨href, hvalid⟩
    obtain ⟨heq, htype⟩ := hs.synced inum href hvalid
    rw [heq] at htype
    exact htype hfree
  have hcur : (s.marked sb inum type).cur inum = (s.marked sb inum type).dinode inum := if_neg hnot
  rw [hcur]
  exact Function.update_self ..

theorem sound_marked {inum : Nat} {type : I16} (hs : Sound sb first s)
    (hfree : (s.dinode inum).type = 0) : Sound sb first (s.marked sb inum type) := by
  have hcur : (s.marked sb inum type).cur inum = { Dinode.zero with type := type } :=
    cur_marked hs hfree
  have hothers : ∀ j, j ≠ inum → (s.marked sb inum type).cur j = s.cur j := by
    intro j hj
    simp only [State.cur, State.marked, Function.update_of_ne hj]
  have hslot : (s.marked sb inum type).slot = s.slot := by
    funext x
    obtain ⟨j, k⟩ := x
    by_cases hj : j = inum
    · subst hj
      have hold : s.slot (j, k) = 0 := by
        rw [State.slot, if_pos]
        rwa [hs.cur_eq]
      rw [hold, State.slot, hcur]
      split_ifs
      · rfl
      · simp [slotOf, Dinode.zero]
    · exact slot_congr (hothers j hj) (fun _ => rfl) k
  have honly : Only inum s (s.marked sb inum type) :=
    ⟨rfl, fun _ _ => rfl, fun _ _ => rfl, fun j hj => Function.update_of_ne hj ..,
      fun x _ => congrFun hslot x⟩
  have hown : Owned sb first (s.marked sb inum type) := by
    have hold := hs.owned
    unfold Owned at hold ⊢
    rwa [hslot]
  refine ⟨hown, fun i hi bn hbn => ?_, fun i hi hvalid => ?_⟩
  · by_cases hii : i = inum
    · subst hii
      rw [hcur] at hbn
      exact absurd hbn (Nat.not_lt_zero _)
    · rw [hothers i hii] at hi hbn
      rw [hslot]
      exact hs.allocated i hi bn hbn
  · have hsync := hs.synced i hi hvalid
    have hii : i ≠ inum := by
      rintro rfl
      rw [hsync.1] at hsync
      exact hsync.2 hfree
    have hdinode : (s.marked sb inum type).dinode i = s.dinode i := honly.dinode i hii
    rw [hdinode]
    exact hsync

/-- What `ialloc` does: a free inode is marked and got. -/
theorem ialloc_keeps {type : I16} :
    Wp (ialloc sb type) (fun r s' => (r = none ∧ s' = s) ∨ ∃ inum, r = some inum ∧
      (s.dinode inum).type = 0 ∧ s' = (s.marked sb inum type).got inum) Benign s := by
  unfold ialloc
  refine entries_keep (fun inum _ => ?_) (.inl ⟨rfl, rfl⟩)
  rw [wp_bind, wp_get]
  refine Wp.ite (fun hfree => ?_) fun _ => ⟨fun _ h => (by cases h), fun _ => rfl⟩
  rw [wp_bind, wp_modify, wp_bind, wp_logWrite]
  refine (iget_benign inum).bind fun ip s' h => ?_
  obtain ⟨rfl, rfl⟩ := h
  exact ⟨fun a ha => .inr ⟨ip, ha.symm, hfree, rfl⟩, fun h => by cases h⟩

theorem ialloc_moves {type : I16} (inodes held : List Nat) (hs : Sound sb first s) :
    Wp (ialloc sb type) (fun r s' => (r = none ∧ s' = s) ∨ ∃ inum, r = some inum ∧
      Moves sb first (inum :: inodes) 0 (inum :: s.refs) held s s') Benign s := by
  refine ialloc_keeps.post fun r s' h => h.imp_right fun hnew => ?_
  obtain ⟨inum, rfl, hfree, rfl⟩ := hnew
  refine ⟨inum, rfl, (sound_marked hs hfree).got inum, rfl, fun j _ hl => ?_,
    ⟨[], Nat.le_refl 0, fun b hb => ?_⟩⟩
  · have hl' : Locked (s.marked sb inum type) j := ⟨hl.ref, hl.valid, hl.type⟩
    exact hl'.got inum
  · rcases List.mem_cons.1 hb with rfl | hb
    · exact .inr (.inr (.inl ⟨inum, List.mem_cons_self, rfl⟩))
    · exact .inl hb

/-! ## Paths -/

theorem namexLoop_sound {nameiparent : Bool} {fuel : Nat} {path : List Byte} {name : Chars}
    (hs : Sound sb first s) (hrefs : s.refs = ip :: refs) :
    Wp (namexLoop sb nameiparent fuel path name ip)
      (fun r s' => Sound sb first s' ∧ s'.refs = (r.map (·.1)).toList ++ refs) Benign s := by
  induction fuel generalizing path name ip s with
  | zero => exact (by decide : Benign "namex: no end")
  | succ fuel ih =>
    have hput : ∀ {t : State}, Sound sb first t → t.refs = ip :: refs →
        Wp (iunlockput sb ip) (fun _ s' => Sound sb first s' ∧ s'.refs = refs) Benign t := by
      intro t ht hr
      refine (iunlockput_moves [ip] [] ht (hr ▸ List.mem_cons_self) List.mem_cons_self
        (List.nil_subset _)).post fun _ s' h => ⟨h.sound, ?_⟩
      rw [h.refs_eq, hr, List.erase_cons_head]
    unfold namexLoop
    cases skipelem path name with
    | none =>
      cases nameiparent with
      | true =>
        refine (iput_moves [ip] [] hs (hrefs ▸ List.mem_cons_self) List.mem_cons_self
          (List.nil_subset _)).bind fun _ s' h => ⟨h.sound, ?_⟩
        rw [h.refs_eq, hrefs, List.erase_cons_head]
        rfl
      | false => exact ⟨hs, hrefs⟩
    | some r =>
      refine (ilock_moves [] [] hs).bind fun _ s₁ h₁ => ?_
      obtain ⟨h₁, hl, -⟩ := h₁
      have hrefs₁ := h₁.refs_eq.trans hrefs
      rw [wp_bind, wp_get]
      refine Wp.ite (fun _ => Wp.ite (fun _ => ?_) fun _ => ?_) fun _ => ?_
      · refine iunlock_moves.bind fun _ s₂ h₂ => ?_
        subst h₂
        exact ⟨h₁.sound, hrefs₁⟩
      · refine (dirlookup_moves [] [] h₁.sound hl).bind fun r s₂ h₂ => ?_
        obtain ⟨h₂, -, -⟩ := h₂
        rw [hrefs₁] at h₂
        cases r with
        | none => exact (hput h₂.sound h₂.refs_eq).bind fun _ s₃ h₃ => h₃
        | some next =>
          have hrefs₂ : s₂.refs = next.1 :: ip :: refs := h₂.refs_eq
          refine (iunlockput_moves [ip] [] h₂.sound ?_ List.mem_cons_self
            (List.nil_subset _)).bind fun _ s₃ h₃ => ?_
          · rw [hrefs₂]
            exact List.mem_cons_of_mem _ List.mem_cons_self
          · refine ih h₃.sound ?_
            rw [h₃.refs_eq, hrefs₂, erase_second]
      · exact (hput h₁.sound hrefs₁).bind fun _ s₃ h₃ => h₃

theorem namex_sound {nameiparent : Bool} {cwd : Nat} {path : List Byte} {name : Chars}
    (hs : Sound sb first s) (hcwd : cwd ∈ s.refs) :
    Wp (namex sb cwd path nameiparent name)
      (fun r s' => Sound sb first s' ∧ s'.refs = (r.map (·.1)).toList ++ s.refs) Benign s := by
  unfold namex
  split_ifs
  · refine (iget_benign ROOTINO).bind fun ip s₁ h => ?_
    obtain ⟨rfl, rfl⟩ := h
    exact namexLoop_sound (hs.got _) rfl
  · have hgot : Sound sb first { s with refs := cwd :: s.refs } := by
      have h := hs.got cwd
      rwa [State.got, if_pos hcwd] at h
    exact Wp.bind (m := idup cwd)
      (Q := fun ip s' => ip = cwd ∧ Sound sb first s' ∧ s'.refs = cwd :: s.refs)
      ⟨rfl, hgot, rfl⟩ fun ip s₁ h => by
        obtain ⟨rfl, hs₁, hr⟩ := h
        exact namexLoop_sound hs₁ hr

end Xv6.Fs
