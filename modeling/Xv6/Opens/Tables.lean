import Xv6.Opens.Rules

/-!
# The inode table and the file table

What the critical sections of `iget`, `idup`, `iput`, `filealloc` and
`fileclose` do to the references, and what the functions over them do.
-/

namespace Xv6.Opens

open Conc Conc.Logic
open Function (update)
open Fs (NINODE NFILE NOFILE)

variable {s s' : State} {p : Slot} {e : Entry} {f : FileNo} {K : Prop} {c : Entry}
  {m : Multiset Entry} {ninodes : Nat} {k : Inum}

/-! ## Entries -/

theorem refs_take (s : State) (p : Slot) (e a : Entry) :
    (s.take p e).refs a = s.refs a + if a = e then 1 else 0 := by
  have hsum := sum_update (fun m : Multiset Entry => m.count a) s.mine p (e ::ₘ s.mine p)
  simp only [Multiset.count_cons] at hsum
  simp only [State.refs, State.take]
  omega

theorem refs_give (he : e ∈ s.mine p) (a : Entry) :
    (s.give p e).refs a + (if a = e then 1 else 0) = s.refs a := by
  have hsum := sum_update (fun m : Multiset Entry => m.count a) s.mine p ((s.mine p).erase e)
  have hcount : (s.mine p).count a = ((s.mine p).erase e).count a + if a = e then 1 else 0 := by
    conv_lhs => rw [← Multiset.cons_erase he]
    rw [Multiset.count_cons]
  simp only [State.refs, State.give]
  omega

/-- What the processes have is not changed but for `p`. -/
theorem Guar.of_mine (hinv : Inv s') (hmine : ∀ q, q ≠ p → s'.mine q = s.mine q)
    (hcwd : s'.cwd = s.cwd) (hofile : s'.ofile = s.ofile) (hfile : s'.file = s.file)
    (howner : s'.owner = s.owner) : Guar p s s' where
  inv := hinv
  mine := hmine
  cwd _ _ := by rw [hcwd]
  ofile _ _ := by rw [hofile]
  file _ _ _ hown := by
    rw [howner, hfile]
    exact ⟨hown, rfl⟩

theorem Has.take (h : Has p c m s) : Has p c (e ::ₘ m) (s.take p e) where
  cwd := h.cwd
  mine := by
    rw [← h.mine]
    exact Function.update_self ..
  owns := h.owns
  apart := h.apart

theorem Has.give (h : Has p c (e ::ₘ m) s) : Has p c m (s.give p e) where
  cwd := h.cwd
  mine := by
    have hm : s.mine p = e ::ₘ m := h.mine
    simp [State.give, hm]
  owns := h.owns
  apart := h.apart

theorem Has.mem (h : Has p c (e ::ₘ m) s) : e ∈ s.mine p := by
  rw [h.mine]
  exact Multiset.mem_cons_self e m

/-- One more reference to an entry that is in use. -/
theorem Inv.take (hinv : Inv s) (he : s.ref e ≠ 0) :
    Inv (({ s with ref := update s.ref e (s.ref e + 1) } : State).take p e) := by
  have hused : ∀ a, update s.ref e (s.ref e + 1) a ≠ 0 → s.ref a ≠ 0 := by
    intro a ha
    by_cases hae : a = e
    · rw [hae]
      exact he
    · rwa [Function.update_of_ne hae] at ha
  refine ⟨fun a => ?_, fun a b ha hb heq => hinv.inum a b (hused a ha) (hused b hb) heq,
    hinv.owner, hinv.one, hinv.idle⟩
  rw [refs_take]
  have href := hinv.ref a
  change update s.ref e (s.ref e + 1) a = ((s.refs a + if a = e then 1 else 0 : Nat) : Int)
  by_cases hae : a = e
  · subst hae
    rw [Function.update_self, if_pos rfl, href, Nat.cast_add, Nat.cast_one]
  · rw [Function.update_of_ne hae, if_neg hae, href, Nat.add_zero]

/-- An entry that is not in use is recycled. -/
theorem Inv.recycle (hinv : Inv s) (he : s.ref e = 0) (hno : ∀ a, s.ref a ≠ 0 → s.inum a ≠ k) :
    Inv (({ s with inum := update s.inum e k, ref := update s.ref e 1 } : State).take p e) := by
  refine ⟨fun a => ?_, fun a b ha hb heq => ?_, hinv.owner, hinv.one, hinv.idle⟩
  · rw [refs_take]
    have href := hinv.ref a
    change update s.ref e 1 a = ((s.refs a + if a = e then 1 else 0 : Nat) : Int)
    by_cases hae : a = e
    · subst hae
      have hzero : s.refs a = 0 := by omega
      rw [Function.update_self, if_pos rfl, hzero, Nat.zero_add, Nat.cast_one]
    · rw [Function.update_of_ne hae, if_neg hae, href, Nat.add_zero]
  · have ha : update s.ref e 1 a ≠ 0 := ha
    have hb : update s.ref e 1 b ≠ 0 := hb
    have heq : update s.inum e k a = update s.inum e k b := heq
    by_cases hae : a = e <;> by_cases hbe : b = e
    · rw [hae, hbe]
    · rw [Function.update_of_ne hbe] at hb
      rw [hae, Function.update_self, Function.update_of_ne hbe] at heq
      exact absurd heq.symm (hno b hb)
    · rw [Function.update_of_ne hae] at ha
      rw [hbe, Function.update_self, Function.update_of_ne hae] at heq
      exact absurd heq (hno a ha)
    · rw [Function.update_of_ne hae] at ha heq
      rw [Function.update_of_ne hbe] at hb heq
      exact hinv.inum a b ha hb heq

/-- A reference is given up. -/
theorem Inv.give (hinv : Inv s) (he : e ∈ s.mine p) :
    Inv (({ s with ref := update s.ref e (s.ref e - 1) } : State).give p e) := by
  have hused : ∀ a, update s.ref e (s.ref e - 1) a ≠ 0 → s.ref a ≠ 0 := by
    intro a ha
    by_cases hae : a = e
    · rw [hae]
      exact ref_ne_of_mem hinv he
    · rwa [Function.update_of_ne hae] at ha
  refine ⟨fun a => ?_, fun a b ha hb heq => hinv.inum a b (hused a ha) (hused b hb) heq,
    hinv.owner, hinv.one, hinv.idle⟩
  have hgive := refs_give he a
  have href := hinv.ref a
  change update s.ref e (s.ref e - 1) a = ((s.give p e).refs a : Int)
  by_cases hae : a = e
  · subst hae
    simp only [if_true] at hgive
    rw [Function.update_self]
    omega
  · simp only [hae, if_false] at hgive
    rw [Function.update_of_ne hae]
    omega

/-- An entry counts something just when it is in use. -/
theorem inUse_iff (hinv : Inv s) (a : Entry) : s.InUse a ↔ s.ref a ≠ 0 := by
  have hsum : s.refs a = 0 ↔ ¬ s.InUse a := by
    rw [State.refs, Nat.add_eq_zero_iff, Finset.sum_eq_zero_iff, Finset.sum_eq_zero_iff]
    simp [State.InUse]
  rw [← not_iff_comm.1 hsum.symm, hinv.ref a]
  omega

/-- There is no room when all entries are in use for other inodes. -/
theorem not_room (hinv : Inv s) (hall : ∀ a, s.ref a ≠ 0) (hno : ∀ a, s.inum a ≠ k) :
    ¬ s.Room k := by
  have huse : Finset.univ.filter s.InUse = Finset.univ :=
    Finset.filter_true_of_mem fun a _ => (inUse_iff hinv a).2 (hall a)
  rintro (hmem | hcard)
  · obtain ⟨a, -, ha⟩ := Finset.mem_image.1 hmem
    exact hno a ha
  · rw [State.inUse, huse, Finset.card_image_of_injective _ fun a b heq =>
      hinv.inum a b (hall a) (hall b) heq, Finset.card_univ, Fintype.card_fin] at hcard
    exact lt_irrefl _ hcard

/-! ## The functions on inodes -/

/-- What `iget` finds, and that it finds something when there is room. -/
theorem iget_cases (hinv : Inv s) (hhas : Has p c m s) {r : Option Entry}
    (hx : iget p k s = (r, s')) :
    (∃ e, r = some e ∧ Guar p s s' ∧ Has p c (e ::ₘ m) s') ∨
      r = none ∧ s' = s ∧ (∀ a, s.ref a ≠ 0) ∧ ∀ a, s.inum a ≠ k := by
  have hmine : ∀ (t : State) (e : Entry) (q : Slot), q ≠ p → (t.take p e).mine q = t.mine q :=
    fun t e q hq => Function.update_of_ne hq _ _
  have hpos : ∀ a, s.ref a ≠ 0 → s.ref a > 0 := by
    intro a ha
    have := hinv.ref a
    omega
  unfold iget at hx
  split at hx
  · rename_i e hfound
    have he := List.find?_some hfound
    simp only [gt_iff_lt, Bool.and_eq_true, decide_eq_true_eq] at he
    cases hx
    have hinv' := Inv.take (p := p) hinv (ne_of_gt he.1)
    exact .inl ⟨e, rfl, .of_mine hinv' (hmine _ e) rfl rfl rfl rfl,
      Has.take (s := { s with ref := update s.ref e (s.ref e + 1) })
        ⟨hhas.cwd, hhas.mine, hhas.owns, hhas.apart⟩⟩
  · rename_i hnone
    have hno : ∀ a, s.ref a ≠ 0 → s.inum a ≠ k := by
      intro a ha
      have := List.find?_eq_none.1 hnone a (List.mem_finRange a)
      simp only [gt_iff_lt, Bool.and_eq_true, decide_eq_true_eq, not_and] at this
      exact this (hpos a ha)
    split at hx
    · rename_i e hfree
      have he := List.find?_some hfree
      simp only [decide_eq_true_eq] at he
      cases hx
      exact .inl ⟨e, rfl, .of_mine (hinv.recycle he hno) (hmine _ e) rfl rfl rfl rfl,
        Has.take (s := { s with inum := update s.inum e k, ref := update s.ref e 1 })
          ⟨hhas.cwd, hhas.mine, hhas.owns, hhas.apart⟩⟩
    · rename_i hfull
      cases hx
      have hall : ∀ a, s.ref a ≠ 0 := by
        intro a ha
        exact List.find?_eq_none.1 hfull a (List.mem_finRange a) (decide_eq_true ha)
      exact .inr ⟨rfl, rfl, hall, fun a => hno a (hall a)⟩

variable (m) in
/-- What `p` has when it may have got one more reference. -/
def Got (p : Slot) (c : Entry) (r : Option Entry) (s : State) : Prop :=
  r.elim (Has p c m s) fun e => Has p c (e ::ₘ m) s

theorem panic_rule {β : Type} {msg : String} (h : K → msg ≠ "iget: no inodes")
    {Q : β → State → Prop} :
    (logic ninodes K).Triple p (Has p c m) (Code.panic msg) Q :=
  Triple.act (fun _ _ => rfl) (stable Has.keeps) (fun _ _ _ _ => h) fun _ _ _ _ _ _ _ hx => by
    cases hx

theorem iget_rule (k : Inum) :
    (logic ninodes K).Triple p (Has p c m) (Code.iget k) fun e => Has p c (e ::ₘ m) := by
  refine Triple.bind (R := fun r s => Got m p c r s ∧ (K → r ≠ none)) ?_ fun r => ?_
  · refine Triple.act (fun _ _ => rfl) (stable Has.keeps) (fun _ _ _ _ => trivial)
      fun s i r s' hs hinv hroom hx => ?_
    rcases iget_cases hinv hs (Option.some.inj hx) with ⟨e, rfl, hguar, hs'⟩ | ⟨rfl, rfl, hall, hno⟩
    · exact ⟨hguar, hs', fun _ he => by cases he⟩
    · refine ⟨(Same.refl _).guar hinv p, hs, fun hK => absurd (hroom hK k rfl) ?_⟩
      exact not_room hinv hall hno
  · cases r with
    | none =>
      rintro s ⟨hs, hno⟩
      exact panic_rule (fun hK => absurd rfl (hno hK)) s hs
    | some e => exact fun s hs => hs.1

theorem idup_rule (he : e ∈ m) :
    (logic ninodes K).Triple p (Has p c m) (Code.idup e) fun r s => r = e ∧ Has p c (e ::ₘ m) s := by
  refine Triple.bind (R := fun _ => Has p c (e ::ₘ m)) ?_ fun _ s hs => ⟨rfl, hs⟩
  refine Triple.act (fun _ _ => rfl) (stable Has.keeps) (fun _ _ _ _ => trivial)
    fun s i r s' hs hinv _ hx => ?_
  cases hx
  have hmem : e ∈ s.mine p := by rwa [hs.mine]
  exact ⟨.of_mine (hinv.take (ref_ne_of_mem hinv hmem)) (fun q hq => Function.update_of_ne hq _ _)
    rfl rfl rfl rfl, Has.take (s := { s with ref := update s.ref e (s.ref e + 1) })
      ⟨hs.cwd, hs.mine, hs.owns, hs.apart⟩⟩

/-- Process `p` gives up a reference to `e`. -/
theorem unref_guar (hinv : Inv s) (hs : Has p c (e ::ₘ m) s)
    (heq : s' = ({ s with ref := update s.ref e (s.ref e - 1) } : State).give p e) :
    Guar p s s' ∧ Has p c m s' := by
  subst heq
  exact ⟨.of_mine (hinv.give hs.mem) (fun q hq => Function.update_of_ne hq _ _) rfl rfl rfl rfl,
    Has.give (s := { s with ref := update s.ref e (s.ref e - 1) })
      ⟨hs.cwd, hs.mine, hs.owns, hs.apart⟩⟩

theorem iput_rule :
    (logic ninodes K).Triple p (Has p c (e ::ₘ m)) (Code.iput e) fun _ => Has p c m := by
  refine Triple.bind (R := fun r => if r = true then Has p c (e ::ₘ m) else Has p c m) ?_
    fun r => ?_
  · refine Triple.act (fun _ _ => rfl) (stable Has.keeps) (fun _ _ _ _ => trivial)
      fun s i r s' hs hinv _ hx => ?_
    have hx : drop p e s = some (r, s') := hx
    unfold drop at hx
    split at hx
    · obtain ⟨-, heq⟩ := Option.ite_none_right_eq_some.1 hx
      cases heq
      have hsame : Same s { s with lock := update s.lock e (some p) } :=
        ⟨rfl, rfl, rfl, rfl, rfl, rfl, rfl⟩
      exact ⟨hsame.guar hinv p, hs.same hsame⟩
    · cases hx
      exact unref_guar hinv hs rfl
  · cases r with
    | false => exact fun s hs => hs
    | true =>
      refine Triple.bind (plain_rule plain_inode) fun d => ?_
      refine Triple.bind (plain_rule plain_setInode) fun _ => ?_
      refine Triple.bind (plain_rule plain_releasesleep) fun _ => ?_
      refine Triple.act (fun _ _ => rfl) (stable Has.keeps) (fun _ _ _ _ => trivial)
        fun s i r s' hs hinv _ hx => ?_
      cases hx
      exact unref_guar hinv hs rfl

/-- A panic of another kind. -/
theorem stop_rule {β γ : Type} {msg : String} (h : msg ≠ "iget: no inodes") (f : β → Code γ)
    (Q : γ → State → Prop) :
    (logic ninodes K).Triple p (Has p c m) ((Code.panic msg).bind f) Q :=
  Triple.bind (R := fun _ _ => False) (panic_rule fun _ => h) fun _ _ hs => hs.elim

theorem ilock_rule :
    (logic ninodes K).Triple p (Has p c m) (Code.ilock e) fun _ => Has p c m := by
  refine Triple.bind (plain_rule plain_ref) fun n => ?_
  refine Triple.ite (fun _ => stop_rule (by decide) _ _) fun _ => ?_
  refine Triple.bind (plain_rule plain_acquiresleep) fun _ => ?_
  refine Triple.bind (plain_rule plain_inode) fun d => ?_
  exact Triple.ite (fun _ => panic_rule fun _ => by decide) fun _ s hs => hs

theorem iunlock_rule :
    (logic ninodes K).Triple p (Has p c m) (Code.iunlock e) fun _ => Has p c m := by
  refine Triple.bind (plain_rule plain_holdingsleep) fun b => ?_
  refine Triple.ite (fun _ => stop_rule (by decide) _ _) fun _ => ?_
  refine Triple.bind (plain_rule plain_ref) fun n => ?_
  refine Triple.ite (fun _ => stop_rule (by decide) _ _) fun _ => ?_
  exact plain_rule plain_releasesleep

theorem iunlockput_rule :
    (logic ninodes K).Triple p (Has p c (e ::ₘ m)) (Code.iunlockput e) fun _ => Has p c m :=
  Triple.bind iunlock_rule fun _ => iput_rule

/-! ## Files -/

theorem sum_file (file : FileNo → File) (f : FileNo) (x : File) (a : Entry) :
    ∑ g, (update file f x g).refs a + (file f).refs a = ∑ g, (file g).refs a + x.refs a :=
  sum_update (fun x : File => x.refs a) file f x

/-- A file that `p` owns, or nobody, is changed. -/
theorem Guar.of_file (hinv : Inv s') (hmine : ∀ q, q ≠ p → s'.mine q = s.mine q)
    (hcwd : s'.cwd = s.cwd) (hofile : s'.ofile = s.ofile)
    (hother : ∀ g, g ≠ f → s'.file g = s.file g ∧ s'.owner g = s.owner g)
    (hown : ∀ q, q ≠ p → s.owner f ≠ some q) : Guar p s s' where
  inv := hinv
  mine := hmine
  cwd _ _ := by rw [hcwd]
  ofile _ _ := by rw [hofile]
  file q hq g hg := by
    have hne : g ≠ f := by
      intro heq
      exact hown q hq (heq ▸ hg)
    rw [(hother g hne).1, (hother g hne).2]
    exact ⟨hg, rfl⟩

/-- What `p` has after it has tried to get a file. -/
def Allocated (p : Slot) (c : Entry) (m : Multiset Entry) (r : Option FileNo) (s : State) : Prop :=
  r.elim (Has p c m s) fun f => Has p c m s ∧ Blank p f s ∧ Loose p f s

/-- The descriptors of `p` are for files of its own that are kept. -/
theorem Has.keep_files (h : Has p c m s) {m' : Multiset Entry} (hcwd : s'.cwd p = s.cwd p)
    (hmine : s'.mine p = m') (hofile : s'.ofile p = s.ofile p)
    (howner : ∀ fd f, s.ofile p fd = some f → s'.owner f = s.owner f) : Has p c m' s' := by
  refine ⟨hcwd.trans h.cwd, hmine, fun fd g hg => ?_, fun fd fd' g hg hg' => ?_⟩
  · rw [hofile] at hg
    rw [howner fd g hg]
    exact h.owns fd g hg
  · rw [hofile] at hg hg'
    exact h.apart fd fd' g hg hg'

theorem filealloc_rule :
    (logic ninodes K).Triple p (Has p c m) (.perform .filealloc) (Allocated p c m) := by
  refine Triple.act (fun _ _ => rfl) (stable Has.keeps) (fun _ _ _ _ => trivial)
    fun s i r s' hs hinv _ hx => ?_
  have hx := Option.some.inj hx
  unfold filealloc at hx
  split at hx
  · rename_i f hfree
    have hzero := List.find?_some hfree
    simp only [decide_eq_true_eq] at hzero
    cases hx
    have hnone := (hinv.owner f).2 hzero
    have htype := hinv.idle f hzero
    have hapart : ∀ fd g, s.ofile p fd = some g → g ≠ f := by
      rintro fd g hg rfl
      rw [hs.owns fd g hg] at hnone
      cases hnone
    have hinv' : Inv { s with
        file := update s.file f { s.file f with ref := 1 }, owner := update s.owner f (some p) } := by
      refine ⟨fun a => ?_, hinv.inum, fun g => ?_, fun g => ?_, fun g hg => ?_⟩
      · rw [hinv.ref a]
        have hsum := sum_file s.file f { s.file f with ref := 1 } a
        have hsum := Nat.add_right_cancel hsum
        rw [State.refs, State.refs, hsum]
      · by_cases hgf : g = f
        · simp [hgf]
        · simpa [hgf] using hinv.owner g
      · by_cases hgf : g = f
        · simp [hgf]
        · simpa [hgf] using hinv.one g
      · by_cases hgf : g = f
        · simp [hgf] at hg
        · simp only [ne_eq, hgf, not_false_eq_true, Function.update_of_ne] at hg ⊢
          exact hinv.idle g hg
    refine ⟨.of_file (f := f) hinv' (fun _ _ => rfl) rfl rfl (fun g hg => ?_) fun q _ heq => ?_,
      hs.keep_files rfl hs.mine rfl fun fd g hg => Function.update_of_ne (hapart fd g hg) _ _,
      ⟨Function.update_self .., ?_⟩, Function.update_self .., fun fd hfd => hapart fd f hfd rfl⟩
    · exact ⟨Function.update_of_ne hg _ _, Function.update_of_ne hg _ _⟩
    · rw [hnone] at heq
      cases heq
    · show (update s.file f { s.file f with ref := 1 } f).type = .none
      rw [Function.update_self]
      exact htype
  · cases hx
    exact ⟨(Same.refl s).guar hinv p, hs⟩

/-- What `p` has after it has tried to get a descriptor for `f`. -/
def Described (p : Slot) (c : Entry) (m : Multiset Entry) (f : FileNo) (r : Option Fd)
    (s : State) : Prop :=
  Has p c m s ∧ Blank p f s ∧ (r = none → Loose p f s)

theorem fdalloc_rule :
    (logic ninodes K).Triple p (fun s => Has p c m s ∧ Blank p f s ∧ Loose p f s)
      (.perform (.fdalloc f)) (Described p c m f) := by
  refine Triple.act (fun _ _ => rfl) (stable (Has.keeps.and (Blank.keeps.and Loose.keeps)))
    (fun _ _ _ _ => trivial) fun s i r s' hs hinv _ hx => ?_
  obtain ⟨hhas, hblank, hloose⟩ := hs
  have hx := Option.some.inj hx
  unfold fdalloc at hx
  split at hx
  · rename_i fd hfree
    have hnone := List.find?_some hfree
    simp only [Option.isNone_iff_eq_none] at hnone
    cases hx
    have hfds : ∀ d g, update s.ofile p (update (s.ofile p) fd (some f)) p d = some g →
        d = fd ∧ g = f ∨ d ≠ fd ∧ s.ofile p d = some g := by
      intro d g hd
      rw [Function.update_self] at hd
      by_cases hdf : d = fd
      · subst hdf
        rw [Function.update_self] at hd
        exact .inl ⟨rfl, (Option.some.inj hd).symm⟩
      · rw [Function.update_of_ne hdf] at hd
        exact .inr ⟨hdf, hd⟩
    refine ⟨⟨⟨hinv.ref, hinv.inum, hinv.owner, hinv.one, hinv.idle⟩, fun _ _ => rfl,
      fun _ _ => rfl, fun q hq => Function.update_of_ne hq _ _, fun _ _ _ hg => ⟨hg, rfl⟩⟩,
      ⟨hhas.cwd, hhas.mine, fun d g hd => ?_, fun d d' g hd hd' => ?_⟩,
      ⟨hblank.owner, hblank.type⟩, fun hno => by cases hno⟩
    · rcases hfds d g hd with ⟨-, rfl⟩ | ⟨-, hd⟩
      · exact hblank.owner
      · exact hhas.owns d g hd
    · rcases hfds d g hd with ⟨hfd, rfl⟩ | ⟨-, hold⟩ <;>
        rcases hfds d' _ hd' with ⟨hfd', hg⟩ | ⟨-, hold'⟩
      · rw [hfd, hfd']
      · exact absurd hold' (hloose.ofile d')
      · exact absurd (hg ▸ hold) (hloose.ofile d)
      · exact hhas.apart d d' g hold hold'
  · cases hx
    exact ⟨(Same.refl s).guar hinv p, hhas, hblank, fun _ => hloose⟩

/-- A file takes over a reference of the process. -/
theorem fill_rule {type : FileType} (htype : type = .inode ∨ type = .device) :
    (logic ninodes K).Triple p (fun s => Has p c (e ::ₘ m) s ∧ Blank p f s)
      (.perform (.fill f e type)) fun _ => Has p c m := by
  refine Triple.act (fun _ _ => rfl) (stable (Has.keeps.and Blank.keeps))
    (fun _ _ _ _ => trivial) fun s i r s' hs hinv _ hx => ?_
  obtain ⟨hhas, hblank⟩ := hs
  cases hx
  have howner : ∀ q, q ≠ p → s.owner f ≠ some q := by
    rintro q hq heq
    rw [hblank.owner] at heq
    exact hq (Option.some.inj heq).symm
  have href : (s.file f).ref ≠ 0 := by
    intro hzero
    have hnone := (hinv.owner f).2 hzero
    rw [hblank.owner] at hnone
    cases hnone
  have hinv' : Inv (fill p f e type s) := by
    refine ⟨fun a => ?_, hinv.inum, fun g => ?_, fun g => ?_, fun g hg => ?_⟩
    · have hsum := sum_file s.file f ⟨type, (s.file f).ref, e⟩ a
      have hold : (s.file f).refs a = 0 := refs_none hblank.type
      have hnew : (⟨type, (s.file f).ref, e⟩ : File).refs a = if a = e then 1 else 0 :=
        refs_self htype a
      have hgive := refs_give (s := s) hhas.mem a
      rw [hold, hnew] at hsum
      change s.ref a = _
      rw [hinv.ref a]
      simp only [State.refs, State.give, fill] at hgive ⊢
      omega
    · by_cases hgf : g = f
      · subst hgf
        simp [fill, State.give, hinv.owner g]
      · simpa [fill, State.give, hgf] using hinv.owner g
    · by_cases hgf : g = f
      · subst hgf
        simpa [fill, State.give] using hinv.one g
      · simpa [fill, State.give, hgf] using hinv.one g
    · by_cases hgf : g = f
      · subst hgf
        exact absurd (by simpa [fill, State.give] using hg) href
      · simp only [fill, State.give, ne_eq, hgf, not_false_eq_true, Function.update_of_ne] at hg ⊢
        exact hinv.idle g hg
  refine ⟨.of_file (f := f) hinv' (fun q hq => Function.update_of_ne hq _ _) rfl rfl
    (fun g hg => ⟨Function.update_of_ne hg _ _, rfl⟩) howner, Has.give (s := { s with
      file := update s.file f { s.file f with type := type, ip := e } })
      ⟨hhas.cwd, hhas.mine, hhas.owns, hhas.apart⟩⟩

/-- What `p` has after it has closed a file. -/
def Closed (p : Slot) (c : Entry) (m : Multiset Entry) (r : Option (Option Entry))
    (s : State) : Prop :=
  ∃ r', r = some r' ∧ Got m p c r' s

theorem fileclose_rule_op :
    (logic ninodes K).Triple p (fun s => Has p c m s ∧ Loose p f s) (.perform (.fileclose f))
      (Closed p c m) := by
  refine Triple.act (fun _ _ => rfl) (stable (Has.keeps.and Loose.keeps))
    (fun _ _ _ _ => trivial) fun s i r s' hs hinv _ hx => ?_
  obtain ⟨hhas, hloose⟩ := hs
  have hne : (s.file f).ref ≠ 0 := by
    intro hzero
    have hnone := (hinv.owner f).2 hzero
    rw [hloose.owner] at hnone
    cases hnone
  have hone := hinv.one f
  have howner : ∀ q, q ≠ p → s.owner f ≠ some q := by
    rintro q hq heq
    rw [hloose.owner] at heq
    exact hq (Option.some.inj heq).symm
  have hkeep : ∀ fd g, s.ofile p fd = some g → update s.owner f none g = s.owner g := by
    rintro fd g hg
    refine Function.update_of_ne ?_ _ _
    rintro rfl
    exact hloose.ofile fd hg
  have hx := Option.some.inj hx
  unfold fileclose at hx
  rw [if_neg (by omega), if_neg (by omega)] at hx
  have hrest : ∀ {t : State}, t.file = update s.file f { s.file f with ref := 0, type := .none } →
      t.owner = update s.owner f none → t.inum = s.inum → t.ref = s.ref →
      (∀ a, t.refs a = s.refs a) → Inv t := by
    intro t hfile hown hinum hr hrefs
    refine ⟨fun a => ?_, fun a b ha hb heq => ?_, fun g => ?_, fun g => ?_, fun g hg => ?_⟩
    · rw [hr, hrefs, hinv.ref a]
    · rw [hr] at ha hb
      rw [hinum] at heq
      exact hinv.inum a b ha hb heq
    · rw [hfile, hown]
      by_cases hgf : g = f
      · simp [hgf]
      · simpa [hgf] using hinv.owner g
    · rw [hfile]
      by_cases hgf : g = f
      · simp [hgf]
      · simpa [hgf] using hinv.one g
    · rw [hfile] at hg ⊢
      by_cases hgf : g = f
      · simp [hgf]
      · simp only [ne_eq, hgf, not_false_eq_true, Function.update_of_ne] at hg ⊢
        exact hinv.idle g hg
  have hsum := sum_file s.file f ⟨.none, 0, (s.file f).ip⟩
  have hblank : ∀ a, (⟨.none, 0, (s.file f).ip⟩ : File).refs a = 0 := fun a => refs_none rfl
  split at hx
  · rename_i htype
    cases hx
    refine ⟨.of_file (f := f) (hrest rfl rfl rfl rfl fun a => ?_)
      (fun q hq => Function.update_of_ne hq _ _) rfl rfl
      (fun g hg => ⟨Function.update_of_ne hg _ _, Function.update_of_ne hg _ _⟩) howner,
      some (s.file f).ip, rfl, hhas.keep_files rfl ?_ rfl hkeep⟩
    · have hself := refs_self htype a
      have hsum := hsum a
      have hblank := hblank a
      rw [refs_take]
      simp only [State.refs]
      omega
    · rw [← hhas.mine]
      exact Function.update_self ..
  · rename_i htype
    cases hx
    refine ⟨.of_file (f := f) (hrest rfl rfl rfl rfl fun a => ?_) (fun _ _ => rfl) rfl rfl
      (fun g hg => ⟨Function.update_of_ne hg _ _, Function.update_of_ne hg _ _⟩) howner,
      none, rfl, hhas.keep_files rfl hhas.mine rfl hkeep⟩
    have hself : (s.file f).refs a = 0 := by simp [File.refs, htype]
    have hsum := hsum a
    have hblank := hblank a
    simp only [State.refs]
    omega

theorem fileclose_rule :
    (logic ninodes K).Triple p (fun s => Has p c m s ∧ Loose p f s) (Code.fileclose f)
      fun _ => Has p c m := by
  refine Triple.bind fileclose_rule_op fun r => ?_
  rintro s ⟨r', rfl, hs⟩
  cases r' with
  | none => exact hs
  | some e => exact iput_rule s hs

/-! ## The process itself -/

theorem cwd_rule :
    (logic ninodes K).Triple p (Has p c m) (.perform .cwd) fun r s => r = c ∧ Has p c m s :=
  Triple.act (fun _ _ => rfl) (stable Has.keeps) (fun _ _ _ _ => trivial)
    fun s i r s' hs hinv _ hx => by
      cases hx
      exact ⟨(Same.refl s).guar hinv p, hs.cwd, hs⟩

theorem setCwd_rule {d : Entry} :
    (logic ninodes K).Triple p (Has p c m) (.perform (.setCwd d)) fun _ => Has p d m := by
  refine Triple.act (fun _ _ => rfl) (stable Has.keeps) (fun _ _ _ _ => trivial)
    fun s i r s' hs hinv _ hx => ?_
  cases hx
  exact ⟨⟨⟨hinv.ref, hinv.inum, hinv.owner, hinv.one, hinv.idle⟩, fun _ _ => rfl,
    fun q hq => Function.update_of_ne hq _ _, fun _ _ => rfl, fun _ _ _ hg => ⟨hg, rfl⟩⟩,
    Function.update_self .., hs.mine, hs.owns, hs.apart⟩

/-- Descriptor `fd` of `p` is for file `f`. -/
def Names (p : Slot) (fd : Nat) (f : FileNo) (s : State) : Prop :=
  ∃ h : fd < NOFILE, s.ofile p ⟨fd, h⟩ = some f

theorem Names.keeps {fd : Nat} : Keeps p (Names p fd f) := by
  rintro u s s' hu hg ⟨h, hf⟩
  exact ⟨h, by rw [hg.ofile p hu.symm, hf]⟩

theorem ofile_rule (fd : Nat) :
    (logic ninodes K).Triple p (Has p c m) (.perform (.ofile fd)) fun r s =>
      Has p c m s ∧ ∀ f ∈ r, Names p fd f s :=
  Triple.act (fun _ _ => rfl) (stable Has.keeps) (fun _ _ _ _ => trivial)
    fun s i r s' hs hinv _ hx => by
      cases hx
      refine ⟨(Same.refl s).guar hinv p, hs, fun f hf => ?_⟩
      split at hf
      · exact ⟨‹_›, hf⟩
      · cases hf

theorem clear_rule (fd : Nat) :
    (logic ninodes K).Triple p (fun s => Has p c m s ∧ Names p fd f s) (.perform (.clear fd))
      fun _ s => Has p c m s ∧ Loose p f s := by
  refine Triple.act (fun _ _ => rfl) (stable (Has.keeps.and Names.keeps))
    (fun _ _ _ _ => trivial) fun s i r s' hs hinv _ hx => ?_
  obtain ⟨hhas, hfd, hname⟩ := hs
  have hx := Option.some.inj hx
  simp only [hfd, dite_true, Prod.mk.injEq, true_and] at hx
  subst hx
  have hold : ∀ d g, update s.ofile p (update (s.ofile p) ⟨fd, hfd⟩ none) p d = some g →
      d ≠ ⟨fd, hfd⟩ ∧ s.ofile p d = some g := by
    intro d g hd
    rw [Function.update_self] at hd
    by_cases hdf : d = ⟨fd, hfd⟩
    · rw [hdf, Function.update_self] at hd
      cases hd
    · rw [Function.update_of_ne hdf] at hd
      exact ⟨hdf, hd⟩
  refine ⟨⟨⟨hinv.ref, hinv.inum, hinv.owner, hinv.one, hinv.idle⟩, fun _ _ => rfl,
    fun _ _ => rfl, fun q hq => Function.update_of_ne hq _ _, fun _ _ _ hg => ⟨hg, rfl⟩⟩,
    ⟨hhas.cwd, hhas.mine, fun d g hd => ?_, fun d d' g hd hd' => ?_⟩,
    hhas.owns _ f hname, fun d hd => ?_⟩
  · exact hhas.owns d g (hold d g hd).2
  · exact hhas.apart d d' g (hold d g hd).2 (hold d' g hd').2
  · obtain ⟨hne, hd⟩ := hold d f hd
    exact hne (hhas.apart d _ f hd hname)

end Xv6.Opens
