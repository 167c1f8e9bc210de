import Xv6.Inode.Alloc

/-!
# One operation on the inode table

Each operation keeps the invariant, and what the other processes have locked.
-/

namespace Xv6.Inodes

open Function (update)

variable {s s' : State} {p : Slot} {e : Entry} {h : Handle} {d : Doing} {k : Key} {K : Prop}

/-- The part about allocated inodes holds in runs that meet the condition
`K`. -/
structure Inv (K : Prop) (s : State) : Prop where
  table : Table s.key s.ref s.handle s.fresh
  owners : Owners s.lock s.handle s.held s.doing
  clean : AllClean s.key s.ref s.lock s.valid s.copy s.disk
  alloc : K → Allocated s.key s.handle s.disk s.doing

/-- What process `p` leaves alone. -/
structure Others (p : Slot) (s s' : State) : Prop where
  doing : ∀ q, q ≠ p → s'.doing q = s.doing q
  held : ∀ q h, q ≠ p → (s'.held h = some q ↔ s.held h = some q)
  handle : ∀ h, s.handle h ≠ none → (s.doing p).puts? ≠ some h → s'.handle h = s.handle h
  locked : ∀ q e, q ≠ p → s.lock e = some q → s'.key e = s.key e ∧ s'.valid e = s.valid e ∧
    s'.copy e = s.copy e ∧
    ((s.disk (s.key e)).type ≠ 0 → s'.disk (s.key e) = s.disk (s.key e))

theorem Others.refl (p : Slot) (s : State) : Others p s s :=
  ⟨fun _ _ => rfl, fun _ _ _ => Iff.rfl, fun _ _ _ => rfl,
    fun _ _ _ _ => ⟨rfl, rfl, rfl, fun _ => rfl⟩⟩

theorem Inv.used_of_lock (hinv : Inv K s) {q : Slot} (hlock : s.lock e = some q) :
    s.ref e ≠ 0 := by
  obtain ⟨h, hh, -⟩ := hinv.owners.locked e q hlock
  exact hinv.table.ref_ne hh

/-- Entries that different processes have locked are of different inodes. -/
theorem Inv.ne_of_lock (hinv : Inv K s) {q : Slot} {c : Entry} (hp : s.lock e = some p)
    (hq : s.lock c = some q) (hne : q ≠ p) : c ≠ e ∧ s.key c ≠ s.key e := by
  have hce : c ≠ e := by
    rintro rfl
    exact hne (Option.some.inj (hq.symm.trans hp))
  exact ⟨hce, fun heq => hce
    (hinv.table.unique c e (hinv.used_of_lock hq) (hinv.used_of_lock hp) heq)⟩

/-! ## What a process knows -/

/-- The copy of an inode is what is on the disk, and the inode is allocated. -/
def Good (v : Bool) (c c' : Dinode) : Prop := v = true ∧ c = c' ∧ c.type ≠ 0

/-- A process does `d`, and the inodes that it has locked are in order, but for
the one that it has locked through the handle `x`. -/
structure Calm (p : Slot) (d : Doing) (x : Option Handle) (s : State) : Prop where
  doing : s.doing p = d
  good : ∀ h e, s.held h = some p → some h ≠ x → s.handle h = some e →
    Good (s.valid e) (s.copy e) (s.disk (s.key e))

/-- A process works with a handle on `e`. -/
structure Out (p : Slot) (d : Doing) (h : Handle) (e : Entry) (s : State) : Prop where
  calm : Calm p d none s
  handle : s.handle h = some e

/-- A process has locked the inode `e`, and knows `φ` of it: whether it is
valid, the copy and what is on the disk. -/
structure At (p : Slot) (d : Doing) (h : Handle) (e : Entry)
    (φ : Bool → Dinode → Dinode → Prop) (s : State) : Prop where
  calm : Calm p d (some h) s
  handle : s.handle h = some e
  locks : Locks s.held s.doing p h
  inside : φ (s.valid e) (s.copy e) (s.disk (s.key e))

/-- A free inode on disk may be allocated at any moment. -/
def Lasts (φ : Bool → Dinode → Dinode → Prop) : Prop :=
  ∀ v c c' c'', φ v c c' → (c'.type ≠ 0 → c'' = c') → φ v c c''

/-- What other processes do does not make `P` false. -/
def Keeps (K : Prop) (p : Slot) (P : State → Prop) : Prop :=
  ∀ u s s', p ≠ u → Inv K s → Others u s s' → P s → P s'

theorem good_lasts : Lasts Good := by
  rintro v c c' c'' ⟨rfl, rfl, htype⟩ hsame
  exact ⟨rfl, (hsame htype).symm, htype⟩

/-- A handle that `p` works with, or through which it has locked an inode,
stays. -/
theorem Others.handle_of_locks {u : Slot} (hg : Others u s s') (hinv : Inv K s) (hne : p ≠ u)
    (hl : Locks s.held s.doing p h) : s'.handle h = s.handle h := by
  obtain ⟨e, hh, -⟩ := hinv.owners.locks p h hl
  refine hg.handle h (by rw [hh]; exact Option.some_ne_none e) fun hu => ?_
  obtain ⟨hnone, hother⟩ := hinv.owners.apart u h hu
  rcases hl with hl | ⟨b, hb⟩
  · rw [hl] at hnone
    cases hnone
  · exact hother p hne (by rw [hb]; rfl)

theorem Others.handle_of_doing {u : Slot} (hg : Others u s s') (hinv : Inv K s) (hne : p ≠ u)
    (hd : (s.doing p).handle? = some h) : s'.handle h = s.handle h :=
  hg.handle h (hinv.owners.named p h hd) fun hu => (hinv.owners.apart u h hu).2 p hne hd

theorem Calm.keeps {x : Option Handle} : Keeps K p (Calm p d x) := by
  intro u s s' hne hinv hg hcalm
  refine ⟨(hg.doing p hne).trans hcalm.doing, fun h e hheld hx hh => ?_⟩
  have hheld := (hg.held p h hne).1 hheld
  rw [hg.handle_of_locks hinv hne (.inl hheld)] at hh
  obtain ⟨hkey, hvalid, hcopy, hdisk⟩ :=
    hg.locked p e hne (hinv.owners.lock_of_locks (.inl hheld) hh)
  rw [hkey, hvalid, hcopy]
  exact good_lasts _ _ _ _ (hcalm.good h e hheld hx hh) hdisk

theorem Out.keeps (hd : d.handle? = some h) : Keeps K p (Out p d h e) := by
  intro u s s' hne hinv hg hout
  have hdoing := hd
  rw [← hout.calm.doing] at hdoing
  exact ⟨Calm.keeps u s s' hne hinv hg hout.calm,
    (hg.handle_of_doing hinv hne hdoing).trans hout.handle⟩

theorem At.keeps {φ : Bool → Dinode → Dinode → Prop} (hφ : Lasts φ) :
    Keeps K p (At p d h e φ) := by
  intro u s s' hne hinv hg hat
  obtain ⟨hkey, hvalid, hcopy, hdisk⟩ :=
    hg.locked p e hne (hinv.owners.lock_of_locks hat.locks hat.handle)
  refine ⟨Calm.keeps u s s' hne hinv hg hat.calm,
    (hg.handle_of_locks hinv hne hat.locks).trans hat.handle, ?_, ?_⟩
  · unfold Locks
    rw [hg.held p h hne, hg.doing p hne]
    exact hat.locks
  · rw [hkey, hvalid, hcopy]
    exact hφ _ _ _ _ hat.inside hdisk

/-- A step of `p` after which the inodes that it has locked are in order. -/
theorem Calm.step {x y : Option Handle} {d' : Doing} (hcalm : Calm p d x s)
    (hdoing : s'.doing p = d')
    (hheld : ∀ h, s'.held h = some p → some h ≠ y → s.held h = some p ∧ some h ≠ x)
    (hhandle : ∀ h e, s.held h = some p → s'.handle h = some e → s.handle h = some e)
    (hgood : ∀ h e, s.held h = some p → some h ≠ x → s.handle h = some e →
      s'.key e = s.key e ∧ s'.valid e = s.valid e ∧ s'.copy e = s.copy e ∧
        s'.disk (s.key e) = s.disk (s.key e)) : Calm p d' y s' := by
  refine ⟨hdoing, fun h e hl hy hh => ?_⟩
  obtain ⟨hl, hx⟩ := hheld h hl hy
  have hh := hhandle h e hl hh
  obtain ⟨hkey, hvalid, hcopy, hdisk⟩ := hgood h e hl hx hh
  rw [hkey, hvalid, hcopy, hdisk]
  exact hcalm.good h e hl hx hh

/-! ## Inside a lock -/

/-- The process that has an inode locked writes to the copy. -/
theorem At.write {φ φ' : Bool → Dinode → Dinode → Prop} (hat : At p d h e φ s) (hinv : Inv K s)
    {v : Bool} {c : Dinode} (hφ : φ' v c (s.disk (s.key e)))
    (hs : s' = { s with valid := update s.valid e v, copy := update s.copy e c }) :
    Inv K s' ∧ Others p s s' ∧ At p d h e φ' s' := by
  have hlock := hinv.owners.lock_of_locks hat.locks hat.handle
  have hsame : ∀ a, a ≠ e → s'.valid a = s.valid a ∧ s'.copy a = s.copy a := by
    intro a ha
    rw [hs]
    exact ⟨Function.update_of_ne ha .., Function.update_of_ne ha ..⟩
  refine ⟨⟨?_, ?_, fun a ha hused => ?_, ?_⟩, ⟨fun _ _ => by rw [hs], fun _ _ _ => by rw [hs],
    fun _ _ _ => by rw [hs], fun q a hq ha => ?_⟩, hat.calm.step ?_ (fun _ hl hx => ?_) ?_ ?_, ?_, ?_, ?_⟩
  · rw [hs]
    exact hinv.table
  · rw [hs]
    exact hinv.owners
  · have hae : a ≠ e := by
      rintro rfl
      rw [hs] at ha
      rw [show s.lock a = none from ha] at hlock
      cases hlock
    unfold Clean
    rw [(hsame a hae).1, (hsame a hae).2, hs]
    rw [hs] at ha hused
    exact hinv.clean a ha hused
  · rw [hs]
    exact hinv.alloc
  · obtain ⟨hae, -⟩ := hinv.ne_of_lock hlock ha hq
    rw [hs]
    exact ⟨rfl, Function.update_of_ne hae .., Function.update_of_ne hae .., fun _ => rfl⟩
  · rw [hs]
    exact hat.calm.doing
  · rw [hs] at hl
    exact ⟨hl, hx⟩
  · intro h' a _ hh
    rw [hs] at hh
    exact hh
  · intro h' a hl hx hh
    have hae : a ≠ e := by
      rintro rfl
      exact hx (congrArg some (hinv.owners.once p h' h a (.inl hl) hat.locks hh hat.handle))
    rw [hs]
    exact ⟨rfl, Function.update_of_ne hae .., Function.update_of_ne hae .., rfl⟩
  · rw [hs]
    exact hat.handle
  · rw [hs]
    exact hat.locks
  · rw [hs]
    show φ' (update s.valid e v e) (update s.copy e c e) _
    rw [Function.update_self, Function.update_self]
    exact hφ

/-- Nobody else frees or claims the inode that a process has locked. -/
theorem Allocated.lone (ha : Allocated s.key s.handle s.disk s.doing) (hinv : Inv K s)
    (hl : Locks s.held s.doing p h) (hh : s.handle h = some e) (hfreed : ¬ Freed s.doing h) :
    (∀ q, s.doing q ≠ .claims (s.key e)) ∧ ∀ q h' a, s.doing q = .frees h' false →
      s.handle h' = some a → s.key a = s.key e → q = p ∧ h' = h := by
  refine ⟨fun q hq => hfreed ((ha.claim q _ hq).2.2 h e hh rfl), fun q h' a hq hh' hkey => ?_⟩
  obtain rfl := hinv.table.unique a e (hinv.table.ref_ne hh') (hinv.table.ref_ne hh) hkey
  have hq' : Locks s.held s.doing q h' := .inr ⟨false, hq⟩
  have hqp : q = p := Option.some.inj ((hinv.owners.lock_of_locks hq' hh').symm.trans
    (hinv.owners.lock_of_locks hl hh))
  rw [hqp] at hq'
  exact ⟨hqp, hinv.owners.once p h' h a hq' hl hh' hh⟩

/-- The copy of a locked inode goes to the disk. -/
theorem At.flush {φ : Bool → Dinode → Dinode → Prop} (hat : At p d h e φ s) (hinv : Inv K s)
    (hs : s' = { s with disk := update s.disk (s.key e) (s.copy e) }) :
    AllClean s'.key s'.ref s'.lock s'.valid s'.copy s'.disk ∧ Others p s s' ∧
      (∀ h' a, s.held h' = some p → h' ≠ h → s.handle h' = some a →
        update s.disk (s.key e) (s.copy e) (s.key a) = s.disk (s.key a)) := by
  have hlock := hinv.owners.lock_of_locks hat.locks hat.handle
  have hdisk : ∀ a, s.ref a ≠ 0 → a ≠ e →
      update s.disk (s.key e) (s.copy e) (s.key a) = s.disk (s.key a) := by
    intro a hused hae
    refine Function.update_of_ne (fun heq => hae ?_) ..
    exact hinv.table.unique a e hused (hinv.used_of_lock hlock) heq
  refine ⟨fun a ha hused => ?_, ⟨fun _ _ => by rw [hs], fun _ _ _ => by rw [hs],
    fun _ _ _ => by rw [hs], fun q a hq ha => ?_⟩, fun h' a hl hne hh => ?_⟩
  · have hae : a ≠ e := by
      rintro rfl
      rw [hs] at ha
      rw [show s.lock a = none from ha] at hlock
      cases hlock
    rw [hs] at ha hused
    have hclean := hinv.clean a ha hused
    unfold Clean at hclean ⊢
    rw [← hdisk a hused hae] at hclean
    rw [hs]
    exact hclean
  · obtain ⟨hae, -⟩ := hinv.ne_of_lock hlock ha hq
    refine ⟨by rw [hs]; rfl, by rw [hs], by rw [hs], fun _ => ?_⟩
    rw [hs]
    exact hdisk a (hinv.used_of_lock ha) hae
  · refine hdisk a (hinv.table.ref_ne hh) ?_
    rintro rfl
    exact hne (hinv.owners.once p h' h a (.inl hl) hat.locks hh hat.handle)

theorem puts?_of_freed {q : Slot} {doing : Slot → Doing}
    (hq : doing q = .frees h true ∨ doing q = .drops h) : (doing q).puts? = some h := by
  rcases hq with hq | hq <;> rw [hq] <;> rfl

/-- A handle through which an inode is locked is not given up. -/
theorem Inv.not_freed_of_held (hinv : Inv K s) {q : Slot} (hheld : s.held h = some q) :
    ¬ Freed s.doing h := by
  rintro ⟨r, hr⟩
  rw [(hinv.owners.apart r h (puts?_of_freed hr)).1] at hheld
  cases hheld

/-- A handle that a process works with is not given up by another. -/
theorem Inv.not_freed (hinv : Inv K s) (hd : (s.doing p).handle? = some h)
    (hp : s.doing p ≠ .frees h true ∧ s.doing p ≠ .drops h) : ¬ Freed s.doing h := by
  rintro ⟨r, hr⟩
  by_cases hrp : r = p
  · rw [hrp] at hr
    exact hr.elim hp.1 hp.2
  · exact (hinv.owners.apart r h (puts?_of_freed hr)).2 p (Ne.symm hrp) hd

theorem iupdate_eq_uses (hd : s.doing p = .uses h) : iupdate p e s = { s with
    disk := update s.disk (s.key e) (s.copy e)
    doing := update s.doing p .idle } := by
  dsimp only [iupdate]
  rw [hd]

theorem iupdate_eq_frees {b : Bool} (hd : s.doing p = .frees h b) : iupdate p e s = { s with
    disk := update s.disk (s.key e) (s.copy e)
    doing := update s.doing p (.frees h (decide ((s.copy e).type = 0))) } := by
  dsimp only [iupdate]
  rw [hd]

/-- The process that has an inode locked writes it back. -/
theorem At.iupdate_uses (hat : At p (.uses h) h e (fun v c _ => v = true ∧ c.type ≠ 0) s)
    (hinv : Inv K s) : Inv K (iupdate p e s) ∧ Others p s (iupdate p e s) ∧
      Calm p .idle none (iupdate p e s) := by
  have hdoing := hat.calm.doing
  obtain ⟨hvalid, htype⟩ := hat.inside
  obtain ⟨hclean, hothers, hdisk⟩ := hat.flush hinv rfl
  have hnot : ¬ Freed s.doing h := hinv.not_freed (by rw [hdoing]; rfl)
    (by rw [hdoing]; exact ⟨(fun hno => by cases hno), (fun hno => by cases hno)⟩)
  have hfrees : ¬ (s.doing p).Frees := by
    rw [hdoing]
    exact id
  rw [iupdate_eq_uses hdoing]
  refine ⟨⟨hinv.table, hinv.owners.rest hfrees rfl, hclean, fun hK => ?_⟩,
    ⟨fun q hq => Function.update_of_ne hq .., hothers.held, hothers.handle, hothers.locked⟩,
    Function.update_self .., fun h' a hl _ hh => ?_⟩
  · obtain ⟨hclaim, hlast⟩ := (hinv.alloc hK).lone hinv hat.locks hat.handle hnot
    refine Allocated.rest ((hinv.alloc hK).setDisk hclaim (fun _ _ _ _ _ => htype)
      fun q h' a hq hh hkey => ?_) (fun h' => ?_) id (fun _ hno => by cases hno)
        fun _ hno => by cases hno
    · obtain ⟨rfl, -⟩ := hlast q h' a hq hh hkey
      rw [hdoing] at hq
      cases hq
    · rw [hdoing]
      exact ⟨(fun hno => by cases hno), (fun hno => by cases hno)⟩
  · by_cases hne : h' = h
    · obtain rfl : e = a := Option.some.inj (hat.handle.symm.trans (hne ▸ hh))
      show Good (s.valid e) (s.copy e) (update s.disk (s.key e) (s.copy e) (s.key e))
      rw [Function.update_self]
      exact ⟨hvalid, rfl, htype⟩
    · show Good (s.valid a) (s.copy a) (update s.disk (s.key e) (s.copy e) (s.key a))
      rw [hdisk h' a hl hne hh]
      exact hat.calm.good h' a hl (fun heq => hne (Option.some.inj heq)) hh

/-- The inode that is freed has been truncated on disk. -/
def Truncated (c : Dinode) : Prop := c.nlink = 0 ∧ c.size = 0 ∧ c.addrs = fun _ => 0

/-- While an inode is freed: its copy says that it has no links, nor has it on
disk. -/
def Freeing (v : Bool) (c c' : Dinode) : Prop :=
  v = true ∧ Truncated c ∧ c.type ≠ 0 ∧ c'.type ≠ 0 ∧ c'.nlink = 0

theorem freeing_lasts : Lasts Freeing := by
  rintro v c c' c'' ⟨hv, hc, htype, htype', hnlink⟩ hsame
  rw [hsame htype']
  exact ⟨hv, hc, htype, htype', hnlink⟩

/-- The end of `itrunc`. -/
theorem At.iupdate_trunc (hat : At p (.frees h false) h e Freeing s) (hinv : Inv K s) :
    Inv K (iupdate p e s) ∧ Others p s (iupdate p e s) ∧
      At p (.frees h false) h e (fun v c c' => v = true ∧ Truncated c ∧ c' = c ∧ c.type ≠ 0)
        (iupdate p e s) := by
  have hdoing := hat.calm.doing
  obtain ⟨hvalid, htrunc, htype, -, -⟩ := hat.inside
  obtain ⟨hclean, hothers, hdisk⟩ := hat.flush hinv rfl
  have hnot : ¬ Freed s.doing h := hinv.not_freed (by rw [hdoing]; rfl)
    (by rw [hdoing]; exact ⟨(fun hno => by cases hno), (fun hno => by cases hno)⟩)
  have hsame : update s.doing p (.frees h (decide ((s.copy e).type = 0))) = s.doing := by
    rw [decide_eq_false htype, ← hdoing, Function.update_eq_self]
  rw [iupdate_eq_frees hdoing, hsame]
  refine ⟨⟨hinv.table, hinv.owners, hclean, fun hK => ?_⟩, hothers,
    ⟨hdoing, fun h' a hl hx hh => ?_⟩, hat.handle, hat.locks, ?_⟩
  · obtain ⟨hclaim, hlast⟩ := (hinv.alloc hK).lone hinv hat.locks hat.handle hnot
    exact (hinv.alloc hK).setDisk hclaim (fun _ _ _ _ _ => htype) fun _ _ _ _ _ _ => htrunc.1
  · have hne : h' ≠ h := fun heq => hx (congrArg some heq)
    show Good (s.valid a) (s.copy a) (update s.disk (s.key e) (s.copy e) (s.key a))
    rw [hdisk h' a hl hne hh]
    exact hat.calm.good h' a hl hx hh
  · show s.valid e = true ∧ Truncated (s.copy e) ∧
      update s.disk (s.key e) (s.copy e) (s.key e) = s.copy e ∧ (s.copy e).type ≠ 0
    rw [Function.update_self]
    exact ⟨hvalid, htrunc, rfl, htype⟩

/-- The copy has been marked free. -/
def Dying (v : Bool) (c c' : Dinode) : Prop :=
  v = true ∧ Truncated c ∧ c.type = 0 ∧ c'.type ≠ 0 ∧ c'.nlink = 0

theorem dying_lasts : Lasts Dying := by
  rintro v c c' c'' ⟨hv, hc, htype, htype', hnlink⟩ hsame
  rw [hsame htype']
  exact ⟨hv, hc, htype, htype', hnlink⟩

/-- The inode on disk is freed. -/
theorem At.iupdate_free (hat : At p (.frees h false) h e Dying s) (hinv : Inv K s) :
    Inv K (iupdate p e s) ∧ Others p s (iupdate p e s) ∧
      At p (.frees h true) h e (fun _ _ _ => True) (iupdate p e s) := by
  have hdoing := hat.calm.doing
  obtain ⟨hvalid, htrunc, htype, -, -⟩ := hat.inside
  obtain ⟨hclean, hothers, hdisk⟩ := hat.flush hinv rfl
  have hnot : ¬ Freed s.doing h := hinv.not_freed (by rw [hdoing]; rfl)
    (by rw [hdoing]; exact ⟨(fun hno => by cases hno), (fun hno => by cases hno)⟩)
  have hputs : (s.doing p).puts? = some h := puts?_of_frees hdoing
  rw [iupdate_eq_frees hdoing, decide_eq_true htype]
  refine ⟨⟨hinv.table, hinv.owners.freed hdoing, hclean, fun hK => ?_⟩,
    ⟨fun q hq => Function.update_of_ne hq .., hothers.held, hothers.handle, hothers.locked⟩,
    ⟨Function.update_self .., fun h' a hl hx hh => ?_⟩, hat.handle,
    .inr ⟨true, Function.update_self ..⟩, trivial⟩
  · obtain ⟨hclaim, hlast⟩ := (hinv.alloc hK).lone hinv hat.locks hat.handle hnot
    have ha := (hinv.alloc hK).goOn (d := .frees h true) hputs rfl (fun _ => .inl rfl)
      fun _ hno => (by cases hno)
    refine ha.setDisk (fun q hq => ?_) (fun h' a hh hkey hf => ?_) fun _ _ _ _ _ _ => htrunc.1
    · by_cases hqp : q = p
      · rw [hqp, Function.update_self] at hq
        cases hq
      · rw [Function.update_of_ne hqp] at hq
        exact hclaim q hq
    · obtain rfl := hinv.table.unique a e (hinv.table.ref_ne hh) (hinv.table.ref_ne hat.handle) hkey
      have honly := ((hinv.alloc hK).last p h a hdoing hat.handle).2 h' hh
      exact absurd ⟨p, .inl (by rw [Function.update_self, honly])⟩ hf
  · have hne : h' ≠ h := fun heq => hx (congrArg some heq)
    show Good (s.valid a) (s.copy a) (update s.disk (s.key e) (s.copy e) (s.key a))
    rw [hdisk h' a hl hne hh]
    exact hat.calm.good h' a hl hx hh

end Xv6.Inodes
