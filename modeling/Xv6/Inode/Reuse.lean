import Xv6.Inode.Handles
import Xv6.Conc.Guarantee

/-!
# Every run of the inode table

Processes use handles in any order.  An inode has one entry, with the number
of its handles; `ilock` returns what is on the disk, also when `ialloc` takes
an inode that `iput` is still giving up; and an inode is freed by the process
that has the only handle.
-/

namespace Xv6.Inodes

open Conc Conc.Logic
open Function (update)

variable {s s' : State} {p : Slot} {e : Entry} {h : Handle} {d : Doing} {k : Key} {K : Prop}
  {n : Nat} {φ : Bool → Dinode → Dinode → Prop}

/-- The inode that an operation looks up. -/
def wanted {β : Type} : Op β → Option Key
  | .iget dev inum => some (dev, inum)
  | _ => none

/-- An inode is looked up by a process that has a link to it. -/
def LooksUp (β : Type) (p : Slot) (o : Op β) (s : State) : Prop :=
  ∀ k ∈ wanted o, Linked s p k

instance {β : Type} (p : Slot) (o : Op β) (s : State) : Decidable (LooksUp β p o s) :=
  Option.decidableForallMem (wanted o)

/-- Process `p` frees the inode `e` through a handle, which is the only one if
`K` holds. -/
def Frees (K : Prop) (p : Slot) (e : Entry) (s : State) : Prop :=
  Truncated (s.copy e) ∧ (s.disk (s.key e)).nlink = 0 ∧
    ∃ h, s.doing p = .frees h false ∧ s.handle h = some e ∧
      (K → ∀ h', s.handle h' = some e → h' = h)

/-- What an operation needs.  `ilock` returns what is on the disk, and `iput`
does not wait for a lock. -/
def Safe (K : Prop) (β : Type) (p : Slot) (o : Op β) (s : State) : Prop :=
  match o with
  | .claim _ type => type ≠ 0
  | .got e => s.lock e = some p ∧ Good (s.valid e) (s.copy e) (s.disk (s.key e))
  | .drop e => (drop p e s).isSome
  | .iupdate e => (s.copy e).type = 0 → Frees K p e s
  | .panic msg => msg = "iget: no inodes" ∨ msg = "ilock: no type" ∧ ¬ K
  | _ => True

structure Guar (K : Prop) (p : Slot) (s s' : State) : Prop where
  inv : Inv K s → Inv K s'
  others : Others p s s'

abbrev logic (K : Prop) (n : Nat) : Logic (machine n) :=
  ofGuarantee (machine n) (Inv K) (fun β p o s => K → LooksUp β p o s) (Safe K) (Guar K)
    fun _ _ _ hinv hg => hg.inv hinv

theorem Keeps.stable {P : State → Prop} (h : Keeps K p P) : (logic K n).Stable p P :=
  stable_of_guarantee (fun _ _ => rfl) fun u s s' hu hinv hg hs =>
    h u s s' (Ne.symm hu) hinv hg.others hs

/-- One operation. -/
theorem act {β : Type} {o : Op β} {P : State → Prop} {Q : β → State → Prop} (hP : Keeps K p P)
    (hsafe : ∀ s, P s → Inv K s → Safe K β p o s)
    (hstep : ∀ s i b s', P s → Inv K s → (K → LooksUp β p o s) →
      exec p i s o = some (b, s') → Inv K s' ∧ Others p s s' ∧ Q b s') :
    (logic K n).Triple p P (.perform o) Q := by
  refine Triple.act (fun _ _ => rfl) hP.stable (fun s hs hinv _ => hsafe s hs hinv)
    fun s i b s' hs hinv ha hx => ?_
  obtain ⟨hinv', hothers, hq⟩ := hstep s i b s' hs hinv ha hx
  exact ⟨⟨fun _ => hinv', hothers⟩, hq⟩

/-- An operation that looks at the state. -/
theorem look {β : Type} {o : Op β} {P : State → Prop} (f : State → β) {ψ : β → Prop}
    (hP : Keeps K p P) (hsafe : ∀ s, Safe K β p o s)
    (ho : ∀ i s, exec p i s o = some (f s, s)) (hψ : ∀ s, P s → Inv K s → ψ (f s)) :
    (logic K n).Triple p P (.perform o) fun b s => ψ b ∧ P s := by
  refine act hP (fun s _ _ => hsafe s) fun s i b s' hs hinv _ hx => ?_
  obtain ⟨rfl, rfl⟩ := Prod.mk.inj (Option.some.inj ((ho i s).symm.trans hx))
  exact ⟨hinv, .refl p s, hψ s hs hinv, hs⟩

/-- A panic ends what a process does. -/
theorem panic_rule {β : Type} {msg : String} {P : State → Prop} {Q : β → State → Prop}
    (hP : Keeps K p P)
    (hmsg : msg = "iget: no inodes" ∨ msg = "ilock: no type" ∧ ¬ K) :
    (logic K n).Triple p P (Code.panic msg) Q :=
  act hP (fun _ _ _ => hmsg) fun s i b s' _ _ _ hx => by cases hx

/-! ## The calls -/

theorem iget_rule {dev inum : I32} (hfrees : ¬ d.Frees) (hputs : d.puts? = none) :
    (logic K n).Triple p (Calm p d none) (Code.iget dev inum) fun _ => Calm p .idle none := by
  refine Triple.bind (R := fun r s => (r = none → Calm p d none s) ∧
      (r ≠ none → Calm p .idle none s)) (act Calm.keeps (fun _ _ _ => trivial)
        fun s i r s' hs hinv ha hx => ?_) fun r => ?_
  · exact hinv.iget hs hfrees hputs (fun hK => ha hK _ rfl) (Option.some.inj hx)
  · cases r with
    | none => exact (panic_rule Calm.keeps (.inl rfl)).pre fun s hs => hs.1 rfl
    | some e => exact fun s hs => hs.2 (Option.some_ne_none e)

theorem claim_rule {type : I16} (htype : type ≠ 0) :
    (logic K n).Triple p (Calm p .idle none) (.perform (.claim k type)) fun r s =>
      Calm p (if r then .claims k else .idle) none s := by
  refine act Calm.keeps (fun _ _ _ => htype) fun s i r s' hs hinv _ hx => ?_
  have hx : some (claim p k type s) = some (r, s') := hx
  unfold claim at hx
  by_cases hfree : (s.disk k).type = 0
  · rw [if_pos hfree] at hx
    obtain ⟨rfl, rfl⟩ := Prod.mk.inj (Option.some.inj hx)
    exact hinv.claim hs htype hfree rfl
  · rw [if_neg hfree] at hx
    obtain ⟨rfl, rfl⟩ := Prod.mk.inj (Option.some.inj hx)
    exact ⟨hinv, .refl p s, hs⟩

theorem ialloc_rule {ninodes : Nat} {dev : I32} {type : I16} (htype : type ≠ 0) :
    (logic K n).Triple p (Calm p .idle none) (Code.ialloc ninodes dev type)
      fun _ => Calm p .idle none := by
  refine Triple.post (Triple.findM? (J := fun _ => Calm p .idle none)
    (Q := fun _ => Calm p .idle none) fun inum _ => ?_) fun r s hs => ?_
  · refine Triple.bind (claim_rule htype) fun r => ?_
    cases r with
    | true =>
      refine Triple.ite (fun _ => ?_) fun hno => absurd rfl hno
      refine Triple.bind (iget_rule (d := .claims (dev, BitVec.ofNat 32 inum)) id rfl) fun ip => ?_
      exact fun _ hs => hs
    | false =>
      refine Triple.ite (fun hno => Bool.noConfusion hno) fun _ => ?_
      exact fun _ hs => hs
  · cases r <;> exact hs

theorem idup_rule :
    (logic K n).Triple p (Out p (.uses h) h e) (.perform (.idup e)) fun _ => Calm p .idle none := by
  refine act (Out.keeps rfl) (fun _ _ _ => trivial) fun s i r s' hs hinv _ hx => ?_
  exact hs.idup hinv (Prod.mk.inj (Option.some.inj hx)).2.symm

/-- The count of an entry that has a handle. -/
theorem ref_rule {P : State → Prop} (hP : Keeps K p P) (hh : ∀ s, P s → s.handle h = some e) :
    (logic K n).Triple p P (.perform (.ref e)) fun r s => ¬ r < 1 ∧ P s :=
  look (fun s => s.ref e) hP (fun _ => trivial) (fun _ _ => rfl) fun s hs hinv =>
    Int.not_lt.2 (hinv.table.ref_pos (hh s hs))

theorem acquiresleep_rule :
    (logic K n).Triple p (Out p (.uses h) h e) (.perform (.acquiresleep e))
      fun _ => At p (.uses h) h e Fetched := by
  refine act (Out.keeps rfl) (fun _ _ _ => trivial) fun s i r s' hs hinv _ hx => ?_
  obtain ⟨s₁, hacq, heq⟩ := Option.map_eq_some_iff.1 hx
  obtain rfl := (Prod.mk.inj heq).2
  unfold acquiresleep at hacq
  by_cases hlock : s.lock e = none
  · rw [if_pos hlock] at hacq
    simp only [hs.calm.doing] at hacq
    exact hs.acquire hinv hlock (Option.some.inj hacq).symm
  · rw [if_neg hlock] at hacq
    cases hacq

/-- The process that has an inode locked writes to the copy. -/
theorem write_rule {φ' : Bool → Dinode → Dinode → Prop} {o : Op Unit} (hφ : Lasts φ)
    (v : State → Bool) (c : State → Dinode) (hsafe : ∀ s, Safe K Unit p o s)
    (ho : ∀ i s, exec p i s o = some ((), { s with
      valid := update s.valid e (v s), copy := update s.copy e (c s) }))
    (hφ' : ∀ s, At p d h e φ s → Inv K s → φ' (v s) (c s) (s.disk (s.key e))) :
    (logic K n).Triple p (At p d h e φ) (.perform o) fun _ => At p d h e φ' := by
  refine act (At.keeps hφ) (fun s _ _ => hsafe s) fun s i r s' hs hinv _ hx => ?_
  have hx := (ho i s).symm.trans hx
  exact hs.write hinv (hφ' s hs hinv) (Prod.mk.inj (Option.some.inj hx)).2.symm

theorem Lasts.and {a : Bool → Dinode → Prop} (hφ : Lasts φ) :
    Lasts fun v c c' => a v c ∧ φ v c c' := fun v c c' c'' h hsame =>
  ⟨h.1, hφ v c c' c'' h.2 hsame⟩

theorem At.imp {φ' : Bool → Dinode → Dinode → Prop} (hat : At p d h e φ s)
    (himp : ∀ v c c', φ v c c' → φ' v c c') : At p d h e φ' s :=
  ⟨hat.calm, hat.handle, hat.locks, himp _ _ _ hat.inside⟩

/-- What the process that has an inode locked finds in it. -/
theorem peek_rule {β : Type} {o : Op β} (f : Bool → Dinode → β) (hφ : Lasts φ)
    (hsafe : ∀ s, Safe K β p o s)
    (ho : ∀ i s, exec p i s o = some (f (s.valid e) (s.copy e), s)) :
    (logic K n).Triple p (At p d h e φ) (.perform o) fun b =>
      At p d h e fun v c c' => f v c = b ∧ φ v c c' := by
  refine act (At.keeps hφ) (fun s _ _ => hsafe s) fun s i r s' hs hinv _ hx => ?_
  obtain ⟨rfl, rfl⟩ := Prod.mk.inj (Option.some.inj ((ho i s).symm.trans hx))
  exact ⟨hinv, .refl p s, hs.calm, hs.handle, hs.locks, rfl, hs.inside⟩

/-- After an inode has been read from the disk. -/
def Loaded (K : Prop) (c c' : Dinode) : Prop := (c.type ≠ 0 → c = c') ∧ (K → c.type ≠ 0)

theorem loaded_lasts : Lasts fun _ => Loaded K := by
  rintro v c c' c'' ⟨hsame, hK⟩ hlater
  refine ⟨fun htype => ?_, hK⟩
  obtain rfl := hsame htype
  exact (hlater htype).symm

theorem load_rule :
    (logic K n).Triple p (At p (.uses h) h e fun v c c' => v = false ∧ Fetched v c c')
      (.perform (.load e)) fun _ => At p (.uses h) h e fun v c c' => v = false ∧ Loaded K c c' := by
  refine write_rule fetched_lasts.and (fun s => s.valid e) (fun s => s.disk (s.key e))
    (fun _ => trivial) (fun i s => by rw [Function.update_eq_self]; rfl) fun s hs hinv => ?_
  refine ⟨hs.inside.1, fun _ => rfl, fun hK => ?_⟩
  refine (hinv.alloc hK).alloc h e hs.handle (hinv.not_freed (p := p) ?_ ?_) <;>
    rw [hs.calm.doing]
  · rfl
  · exact ⟨(fun hno => by cases hno), (fun hno => by cases hno)⟩

theorem setValid_rule :
    (logic K n).Triple p (At p (.uses h) h e fun v c c' => v = false ∧ Loaded K c c')
      (.perform (.setValid e true)) fun _ =>
        At p (.uses h) h e fun v c c' => v = true ∧ Loaded K c c' :=
  write_rule loaded_lasts.and (fun _ => true) (fun s => s.copy e) (fun _ => trivial)
    (fun i s => by rw [Function.update_eq_self]; rfl) fun s hs _ => ⟨rfl, hs.inside.2⟩

theorem got_rule :
    (logic K n).Triple p (At p (.uses h) h e Good) (.perform (.got e))
      fun _ => Calm p .idle none := by
  refine act (At.keeps good_lasts)
    (fun s hs hinv => ⟨hinv.owners.lock_of_locks hs.locks hs.handle, hs.inside⟩)
    fun s i r s' hs hinv _ hx => ?_
  exact hs.got hinv (Prod.mk.inj (Option.some.inj hx)).2.symm

theorem ilock_rule :
    (logic K n).Triple p (Out p (.uses h) h e) (Code.ilock e) fun _ => Calm p .idle none := by
  refine Triple.bind (ref_rule (Out.keeps rfl) fun _ hs => hs.handle) fun r =>
    Triple.of_pure fun hr => Triple.ite (fun hno => absurd hno hr) fun _ => ?_
  refine Triple.bind acquiresleep_rule fun _ => ?_
  refine Triple.bind (peek_rule (fun v _ => v) fetched_lasts (fun _ => trivial)
    fun _ _ => rfl) fun v => ?_
  cases v with
  | true =>
    refine Triple.ite (fun hno => Bool.noConfusion hno) fun _ => (got_rule (h := h)).pre fun s hs => ?_
    exact hs.imp fun v c c' hφ => ⟨hφ.1, hφ.2 hφ.1⟩
  | false =>
    refine Triple.ite (fun _ => ?_) fun hno => absurd rfl hno
    refine Triple.bind load_rule fun _ => Triple.bind setValid_rule fun _ => ?_
    refine Triple.bind (peek_rule (fun _ c => c.type) loaded_lasts.and (fun _ => trivial)
      fun _ _ => rfl) fun t => Triple.ite (fun ht => fun s hs => ?_) fun ht => ?_
    · subst ht
      have hnK : ¬ K := fun hK => hs.inside.2.2.2 hK hs.inside.1
      exact (Triple.bind (panic_rule (At.keeps loaded_lasts.and.and) (.inr ⟨rfl, hnK⟩))
        fun _ => got_rule (h := h)) s hs
    · refine (got_rule (h := h)).pre fun s hs => hs.imp fun v c c' hφ => ?_
      obtain ⟨rfl, rfl, hsame, -⟩ := hφ
      exact ⟨rfl, hsame ht, ht⟩

theorem iunlock_rule :
    (logic K n).Triple p (At p (.uses h) h e Good) (Code.iunlock e) fun _ => Calm p .idle none := by
  refine Triple.bind (R := fun r s => r = true ∧ At p (.uses h) h e Good s)
    (act (At.keeps good_lasts) (fun _ _ _ => trivial) fun s i r s' hs hinv _ hx => ?_)
    fun r => Triple.of_pure fun hr => Triple.ite (fun hno => ?_) fun _ => ?_
  · obtain ⟨rfl, rfl⟩ := Prod.mk.inj (Option.some.inj hx)
    exact ⟨hinv, .refl p s,
      decide_eq_true (hinv.owners.lock_of_locks hs.locks hs.handle), hs⟩
  · rw [hr] at hno
    cases hno
  · refine Triple.bind (ref_rule (At.keeps good_lasts) fun _ hs => hs.handle) fun r =>
      Triple.of_pure fun hr => Triple.ite (fun hno => absurd hno hr) fun _ => ?_
    refine act (At.keeps good_lasts) (fun _ _ _ => trivial) fun s i r s' hs hinv _ hx => ?_
    have heq := (Prod.mk.inj (Option.some.inj hx)).2.symm
    unfold releasesleep at heq
    simp only [hs.calm.doing] at heq
    exact hs.release hinv heq

theorem update_rule (c : Dinode) :
    (logic K n).Triple p (At p (.uses h) h e Good)
      ((Prog.perform (.change e c)).bind fun _ => .perform (.iupdate e))
      fun _ => Calm p .idle none := by
  refine Triple.bind (R := fun _ => At p (.uses h) h e fun v c _ => v = true ∧ c.type ≠ 0)
    (write_rule good_lasts (fun s => s.valid e) (fun s => { c with type := (s.copy e).type })
      (fun _ => trivial) (fun i s => by rw [Function.update_eq_self]; rfl)
      fun s hs _ => ⟨hs.inside.1, hs.inside.2.2⟩) fun _ => ?_
  refine act (At.keeps fun _ _ _ _ h _ => h) (fun s hs _ hno => absurd hno hs.inside.2)
    fun s i r s' hs hinv _ hx => ?_
  rw [← (Prod.mk.inj (Option.some.inj hx)).2]
  exact hs.iupdate_uses hinv

/-! ## Giving a handle up -/

/-- After the first critical section of `iput`. -/
def Dropped (p : Slot) (h : Handle) (e : Entry) : Bool → State → Prop
  | true => At p (.frees h false) h e Unlinked
  | false => Calm p .idle none

theorem Out.drop_eq (hout : Out p (.puts h) h e s) (hinv : Inv K s) : drop p e s =
    if s.ref e = 1 && s.valid e && (s.copy e).nlink = 0 then
      some (true, { s with
        lock := update s.lock e (some p)
        doing := update s.doing p (.frees h false) })
    else
      some (false, { s with
        ref := update s.ref e (s.ref e - 1)
        handle := update s.handle h none
        doing := update s.doing p .idle }) := by
  unfold drop
  by_cases hlast : (s.ref e = 1 && s.valid e && (s.copy e).nlink = 0) = true
  · have hone : s.ref e = 1 := by
      simp only [Bool.and_eq_true, decide_eq_true_eq] at hlast
      exact hlast.1.1
    rw [if_pos hlast, if_pos hlast, if_pos (hout.lock_none hinv hone)]
    simp only [hout.calm.doing]
  · rw [if_neg hlast, if_neg hlast]
    simp only [hout.calm.doing]

theorem drop_rule :
    (logic K n).Triple p (Out p (.puts h) h e) (.perform (.drop e)) (Dropped p h e) := by
  refine act (Out.keeps rfl) (fun s hs hinv => ?_) fun s i r s' hs hinv _ hx => ?_
  · show (drop p e s).isSome = true
    rw [hs.drop_eq hinv]
    split_ifs <;> rfl
  · have hx := (hs.drop_eq hinv).symm.trans hx
    by_cases hlast : (s.ref e = 1 && s.valid e && (s.copy e).nlink = 0) = true
    · rw [if_pos hlast] at hx
      obtain ⟨rfl, rfl⟩ := Prod.mk.inj (Option.some.inj hx)
      simp only [Bool.and_eq_true, decide_eq_true_eq] at hlast
      exact hs.free hinv hlast.1.1 hlast.1.2 hlast.2 rfl
    · rw [if_neg hlast] at hx
      obtain ⟨rfl, rfl⟩ := Prod.mk.inj (Option.some.inj hx)
      exact hs.dropHandle hinv (.inl rfl) rfl

theorem itrunc_rule :
    (logic K n).Triple p (At p (.frees h false) h e Unlinked) (Code.itrunc e) fun _ =>
      At p (.frees h false) h e fun v c c' => v = true ∧ Truncated c ∧ c' = c ∧ c.type ≠ 0 := by
  refine Triple.bind (R := fun _ => At p (.frees h false) h e Freeing)
    (write_rule unlinked_lasts (fun s => s.valid e)
      (fun s => { s.copy e with size := 0, addrs := fun _ => 0 })
      (fun _ => trivial) (fun i s => by rw [Function.update_eq_self]; rfl) fun s hs _ => ?_)
    fun _ => ?_
  · obtain ⟨⟨hvalid, hcopy, htype⟩, hnlink⟩ := hs.inside
    refine ⟨hvalid, ⟨hnlink, rfl, rfl⟩, htype, ?_, ?_⟩
    · rw [← hcopy]
      exact htype
    · rw [← hcopy]
      exact hnlink
  · refine act (At.keeps freeing_lasts) (fun s hs _ hno => absurd hno hs.inside.2.2.1)
      fun s i r s' hs hinv _ hx => ?_
    rw [← (Prod.mk.inj (Option.some.inj hx)).2]
    exact hs.iupdate_trunc hinv

/-- The inode on disk becomes free. -/
theorem free_rule :
    (logic K n).Triple p (At p (.frees h false) h e Dying) (.perform (.iupdate e)) fun _ =>
      At p (.frees h true) h e fun _ _ _ => True := by
  refine act (At.keeps dying_lasts) (fun s hs hinv _ => ?_) fun s i r s' hs hinv _ hx => ?_
  · obtain ⟨-, htrunc, -, -, hnlink⟩ := hs.inside
    exact ⟨htrunc, hnlink, h, hs.calm.doing, hs.handle,
      fun hK => ((hinv.alloc hK).last p h e hs.calm.doing hs.handle).2⟩
  · rw [← (Prod.mk.inj (Option.some.inj hx)).2]
    exact hs.iupdate_free hinv

theorem iput_rule :
    (logic K n).Triple p (Out p (.puts h) h e) (Code.iput e) fun _ => Calm p .idle none := by
  refine Triple.bind drop_rule fun r => ?_
  cases r with
  | false => exact Triple.ite (fun hno => Bool.noConfusion hno) fun _ _ hs => hs
  | true =>
    refine Triple.ite (fun _ => ?_) fun hno => absurd rfl hno
    refine Triple.bind itrunc_rule fun _ => ?_
    refine Triple.bind (R := fun _ => At p (.frees h false) h e Dying)
      (write_rule (fun v c c' c'' hφ hsame => ?_) (fun s => s.valid e)
        (fun s => { s.copy e with type := 0 }) (fun _ => trivial)
        (fun i s => by rw [Function.update_eq_self]; rfl) fun s hs _ => ?_) fun _ => ?_
    · obtain ⟨hv, htrunc, rfl, htype⟩ := hφ
      exact ⟨hv, htrunc, hsame htype, htype⟩
    · obtain ⟨hv, htrunc, heq, htype⟩ := hs.inside
      refine ⟨hv, htrunc, rfl, ?_, ?_⟩
      · rw [heq]
        exact htype
      · rw [heq]
        exact htrunc.1
    refine Triple.bind free_rule fun _ => ?_
    refine Triple.bind (R := fun _ => At p (.frees h true) h e fun v _ _ => v = false)
      (write_rule (fun _ _ _ _ _ _ => trivial) (fun _ => false) (fun s => s.copy e)
        (fun _ => trivial) (fun i s => by rw [Function.update_eq_self]; rfl) fun _ _ _ => rfl)
      fun _ => ?_
    refine Triple.bind (R := fun _ => Out p (.drops h) h e)
      (act (At.keeps fun _ _ _ _ hφ _ => hφ) (fun _ _ _ => trivial)
        fun s i r s' hs hinv _ hx => ?_) fun _ => ?_
    · have heq := (Prod.mk.inj (Option.some.inj hx)).2.symm
      unfold releasesleep at heq
      simp only [hs.calm.doing] at heq
      exact hs.unfree hinv heq
    · refine act (Out.keeps rfl) (fun _ _ _ => trivial) fun s i r s' hs hinv _ hx => ?_
      have heq := (Prod.mk.inj (Option.some.inj hx)).2.symm
      unfold unref at heq
      simp only [hs.calm.doing] at heq
      exact hs.dropHandle hinv (.inr rfl) heq

/-! ## The processes -/

/-- What a process knows when a call begins. -/
def Begun (p : Slot) (s : State) : Call Entry → Prop
  | .iget _ _ => Calm p .idle none s
  | .ialloc _ type => type ≠ 0 ∧ Calm p .idle none s
  | .idup e | .ilock e => ∃ h, Out p (.uses h) h e s
  | .iunlock e | .update e _ => ∃ h, At p (.uses h) h e Good s
  | .iput e => ∃ h, Out p (.puts h) h e s

/-- What a process knows of an inode that it has locked. -/
theorem Calm.inside (hcalm : Calm p d none s) (hheld : s.held h = some p)
    (hh : s.handle h = some e) : At p d h e Good s :=
  ⟨⟨hcalm.doing, fun h' a hl _ hh' => hcalm.good h' a hl (Option.some_ne_none h') hh'⟩, hh,
    .inl hheld, hcalm.good h e hheld (Option.some_ne_none h) hh⟩

theorem next_rule :
    (logic K n).Triple p (Calm p .idle none) (.perform .next) fun c s => Begun p s c := by
  refine act Calm.keeps (fun _ _ _ => trivial) fun s i c s' hs hinv _ hx => ?_
  have hx : (if i.Proper p s then (i.start s).map fun r => (r.1, ({ s with
      doing := update s.doing p r.2 } : State)) else none) = some (c, s') := hx
  by_cases hproper : i.Proper p s
  · rw [if_pos hproper] at hx
    obtain ⟨r, hr, heq⟩ := Option.map_eq_some_iff.1 hx
    obtain ⟨rfl, rfl⟩ := Prod.mk.inj heq
    obtain ⟨hinv', hothers, hcalm⟩ := hinv.next hs hproper hr rfl
    refine ⟨hinv', hothers, ?_⟩
    cases i with
    | iget =>
      obtain rfl := Option.some.inj hr
      exact hcalm
    | ialloc =>
      obtain rfl := Option.some.inj hr
      exact ⟨hproper, hcalm⟩
    | idup h =>
      obtain ⟨e, hh, rfl⟩ := Option.map_eq_some_iff.1 hr
      exact ⟨h, hcalm, hh⟩
    | ilock h =>
      obtain ⟨e, hh, rfl⟩ := Option.map_eq_some_iff.1 hr
      exact ⟨h, hcalm, hh⟩
    | iunlock h =>
      obtain ⟨e, hh, rfl⟩ := Option.map_eq_some_iff.1 hr
      exact ⟨h, hcalm.inside hproper hh⟩
    | update h =>
      obtain ⟨e, hh, rfl⟩ := Option.map_eq_some_iff.1 hr
      exact ⟨h, hcalm.inside hproper hh⟩
    | iput h =>
      obtain ⟨e, hh, rfl⟩ := Option.map_eq_some_iff.1 hr
      exact ⟨h, hcalm, hh⟩
  · rw [if_neg hproper] at hx
    cases hx

theorem main_rule {ninodes : Nat} :
    (logic K n).Triple p (Calm p .idle none) (Code.main ninodes) fun _ _ => False := by
  refine Triple.forever (Calm.keeps.stable) (next_rule.bind fun c => ?_)
  cases c with
  | iget => exact Triple.bind (iget_rule id rfl) fun _ _ hs => hs
  | ialloc => exact Triple.of_pure fun htype => Triple.bind (ialloc_rule htype) fun _ _ hs => hs
  | idup e =>
    rintro s ⟨h, hs⟩
    exact idup_rule s hs
  | ilock e =>
    rintro s ⟨h, hs⟩
    exact ilock_rule s hs
  | iunlock e =>
    rintro s ⟨h, hs⟩
    exact iunlock_rule s hs
  | update e c =>
    rintro s ⟨h, hs⟩
    exact update_rule c s hs
  | iput e =>
    rintro s ⟨h, hs⟩
    exact iput_rule s hs

theorem inv_start (disk : Key → Dinode) : Inv K (start n disk).mem := by
  refine ⟨⟨fun _ _ hno => absurd rfl hno, fun _ => rfl, fun _ hno => absurd rfl hno⟩,
    ⟨fun _ _ hno => (by cases hno), fun p h hl => ?_, fun p h _ _ hl => ?_,
      fun _ _ hno => (by cases hno), fun _ _ hno => (by cases hno)⟩,
    fun _ _ hno => absurd rfl hno, fun _ => ⟨fun _ _ hno => (by cases hno),
      fun _ _ hno => (by cases hno), fun _ _ _ hno => (by cases hno),
      fun _ _ _ hno => (by cases hno)⟩⟩
  · rcases hl with hl | ⟨b, hl⟩ <;> cases hl
  · rcases hl with hl | ⟨b, hl⟩ <;> cases hl

theorem main_ok (disk : Key → Dinode) (p : Slot) :
    (logic K n).Ok p ((start n disk).code p) (start n disk).mem := by
  refine wp_mono (Q := fun _ _ => False) (fun _ _ h => h.elim) (main_rule _ ⟨rfl, ?_⟩)
  exact fun h e hl => by cases hl

/-! ## Every run -/

theorem iget_disk (p : Slot) (dev inum : I32) (s : State) : (iget p dev inum s).2.disk = s.disk := by
  unfold iget
  split
  · rfl
  · split <;> rfl

theorem drop_disk {r : Bool} (hx : drop p e s = some (r, s')) : s'.disk = s.disk := by
  unfold drop at hx
  split at hx
  · split at hx
    · split at hx <;> obtain ⟨-, rfl⟩ := Prod.mk.inj (Option.some.inj hx) <;> rfl
    · cases hx
  · split at hx <;> obtain ⟨-, rfl⟩ := Prod.mk.inj (Option.some.inj hx) <;> rfl

theorem acquiresleep_disk (hx : acquiresleep p e s = some s') : s'.disk = s.disk := by
  unfold acquiresleep at hx
  split at hx
  · split at hx <;> obtain rfl := Option.some.inj hx <;> rfl
  · cases hx

theorem releasesleep_disk (p : Slot) (e : Entry) (s : State) :
    (releasesleep p e s).disk = s.disk := by
  unfold releasesleep
  split <;> rfl

theorem unref_disk (p : Slot) (e : Entry) (s : State) : (unref p e s).disk = s.disk := by
  unfold unref
  split <;> rfl

theorem iupdate_disk (p : Slot) (e : Entry) (s : State) :
    (iupdate p e s).disk = update s.disk (s.key e) (s.copy e) := by
  dsimp only [iupdate]
  split <;> rfl

/-- An operation that frees an inode on disk is the `iupdate` in `iput`. -/
theorem frees_of_exec {β : Type} {o : Op β} {i : Call Handle} {b : β} (hsafe : Safe K β p o s)
    (hx : exec p i s o = some (b, s')) (hused : (s.disk k).type ≠ 0)
    (hfree : (s'.disk k).type = 0) :
    ∃ e, s.key e = k ∧ Frees K p e s ∧ Truncated (s'.disk k) := by
  have hsame : s'.disk ≠ s.disk := fun heq => hused (by rw [← heq, hfree])
  cases o with
  | iupdate e =>
    obtain rfl := (Prod.mk.inj (Option.some.inj hx)).2
    rw [iupdate_disk] at hfree ⊢
    have hk : k = s.key e := by
      by_contra hne
      rw [Function.update_of_ne hne] at hfree
      exact hused hfree
    subst hk
    rw [Function.update_self] at hfree ⊢
    exact ⟨e, rfl, hsafe hfree, (hsafe hfree).1⟩
  | claim k' type =>
    have hx : some (claim p k' type s) = some (b, s') := hx
    unfold claim at hx
    by_cases hzero : (s.disk k').type = 0
    · rw [if_pos hzero] at hx
      obtain ⟨-, rfl⟩ := Prod.mk.inj (Option.some.inj hx)
      have hfree : (update s.disk k' { Dinode.zero with type := type } k).type = 0 := hfree
      by_cases hk : k = k'
      · rw [hk, Function.update_self] at hfree
        exact absurd hfree hsafe
      · rw [Function.update_of_ne hk] at hfree
        exact absurd hfree hused
    · rw [if_neg hzero] at hx
      obtain ⟨-, rfl⟩ := Prod.mk.inj (Option.some.inj hx)
      exact absurd rfl hsame
  | iget dev inum =>
    have heq : iget p dev inum s = (b, s') := Option.some.inj hx
    refine absurd ?_ hsame
    rw [← iget_disk p dev inum s, heq]
  | drop e => exact absurd (drop_disk hx) hsame
  | acquiresleep e =>
    obtain ⟨s₁, hacq, heq⟩ := Option.map_eq_some_iff.1 hx
    obtain rfl := (Prod.mk.inj heq).2
    exact absurd (acquiresleep_disk hacq) hsame
  | releasesleep e =>
    obtain rfl := (Prod.mk.inj (Option.some.inj hx)).2
    exact absurd (releasesleep_disk p e s) hsame
  | unref e =>
    obtain rfl := (Prod.mk.inj (Option.some.inj hx)).2
    exact absurd (unref_disk p e s) hsame
  | panic msg => cases hx
  | next =>
    have hx : (if i.Proper p s then (i.start s).map fun r => (r.1, ({ s with
        doing := update s.doing p r.2 } : State)) else none) = some (b, s') := hx
    split_ifs at hx with hproper
    obtain ⟨r, -, heq⟩ := Option.map_eq_some_iff.1 hx
    obtain rfl := (Prod.mk.inj heq).2
    exact absurd rfl hsame
  | idup | ref | holdingsleep | valid | setValid | load | type | setType | got | change
  | truncate =>
    obtain rfl := (Prod.mk.inj (Option.some.inj hx)).2
    exact absurd rfl hsame

/-- Looking an inode up leaves the disk alone. -/
theorem looks_or_same {β : Type} {o : Op β} {i : Call Handle} {b : β}
    (hx : exec p i s o = some (b, s')) : LooksUp β p o s ∨ s'.disk = s.disk := by
  cases o with
  | iget dev inum =>
    have heq : iget p dev inum s = (b, s') := Option.some.inj hx
    right
    rw [← iget_disk p dev inum s, heq]
  | _ => exact .inl fun _ hk => by cases hk

/-- An inode has one entry in use at most, and the count of an entry is the
number of its handles. -/
structure Consistent (s : State) : Prop where
  unique : ∀ e e', s.ref e > 0 → s.ref e' > 0 → s.key e = s.key e' → e = e'
  count : ∀ e, ∃ hs : Finset Handle, (∀ h, h ∈ hs ↔ s.handle h = some e) ∧ s.ref e = hs.card

theorem Inv.consistent (hinv : Inv K s) : Consistent s where
  unique e e' he he' := hinv.table.unique e e' he.ne' he'.ne'
  count e := ⟨handlesOn s.handle s.fresh e, fun _ => hinv.table.mem, hinv.table.count e⟩

/-- The inode is freed by the process that gives up the only handle on it,
when it has no links; its contents are gone. -/
def FreedByLast (p : Slot) (k : Key) (s s' : State) : Prop :=
  ∃ e h, s.key e = k ∧ s.handle h = some e ∧ (s.doing p).puts? = some h ∧
    (∀ h', s.handle h' = some e → h' = h) ∧ (s.disk k).nlink = 0 ∧ Truncated (s'.disk k)

/-- In every run the table is consistent, and `ilock` returns the inode that is
on the disk.  In a run in which inodes are looked up by processes that have a
link to them, an inode is freed by the process that has the only handle on it,
and `ilock` finds an inode. -/
theorem inode_table (ninodes : Nat) (disk : Key → Dinode) :
    (∀ g, (machine ninodes).Reach Machine.always (start ninodes disk) g →
      Consistent g.mem ∧ ∀ p e, (machine ninodes).Next g p (.got e) →
        g.mem.lock e = some p ∧ Good (g.mem.valid e) (g.mem.copy e) (g.mem.disk (g.mem.key e))) ∧
    ∀ g, (machine ninodes).Reach LooksUp (start ninodes disk) g →
      (∀ (β : Type) p msg, (machine ninodes).Next g p (.panic msg : Op β) →
        msg = "iget: no inodes") ∧
      ∀ p i g', (machine ninodes).step p i g = some g' → ∀ k, (g.mem.disk k).type ≠ 0 →
        (g'.mem.disk k).type = 0 → FreedByLast p k g.mem g'.mem := by
  constructor
  · intro g hg
    obtain ⟨hinv, hsafe⟩ := Logic.inv_of_reach (fun _ h => h.elim) (fun _ => rfl) (inv_start disk)
      (main_ok (K := False) disk) hg
    exact ⟨hinv.consistent, fun p e hn => hsafe _ p _ hn fun h => h.elim⟩
  · intro g hg
    obtain ⟨hinv, hsafe⟩ := Logic.inv_of_reach (fun h _ => h) (fun _ => rfl) (inv_start disk)
      (main_ok (K := True) disk) hg
    refine ⟨fun β p msg hn => ?_, fun p i g' hs k hused hfree => ?_⟩
    · refine (hsafe β p _ hn fun _ k hk => by cases hk).resolve_right fun hno => ?_
      exact hno.2 trivial
    · obtain ⟨β, γ, body, b, κ, -, rfl⟩ | ⟨β, o, κ, b, mem, hcode, hexec, rfl⟩ :=
        Machine.step_cases _ hs
      · exact absurd hfree hused
      · have hn : (machine ninodes).Next g p o := ⟨κ, hcode⟩
        have hlooks : LooksUp β p o g.mem :=
          (looks_or_same hexec).resolve_right fun heq => hused (by rw [← heq, hfree])
        obtain ⟨e, hkey, ⟨-, hnlink, h, hdoing, hh, honly⟩, htrunc⟩ :=
          frees_of_exec (hsafe β p o hn fun _ => hlooks) hexec hused hfree
        exact ⟨e, h, hkey, hh, puts?_of_frees hdoing, honly trivial, hkey ▸ hnlink, htrunc⟩

/-! ## Two runs -/

/-- Process 0 takes the links of inode 1 away and starts to free it. -/
def startsFree : List (Slot × Call Handle) :=
  List.replicate 3 (0, .iget 1 1) ++ List.replicate 9 (0, .ilock 0) ++
    List.replicate 4 (0, .update 0 .zero) ++ List.replicate 5 (0, .iunlock 0) ++
    List.replicate 3 (0, .iput 0)

/-- A disk on which all inodes are allocated, with one link. -/
def fullDisk : Key → Dinode := fun _ => { Dinode.zero with type := 2, nlink := 1 }

/-- Process 1 allocates inode 1 before process 0 has given up its handle. -/
def reuses : List (Slot × Call Handle) :=
  startsFree ++ List.replicate 4 (0, .iput 0) ++ List.replicate 4 (1, .ialloc 1 3) ++
    List.replicate 3 (1, .ilock 1) ++ List.replicate 2 (0, .iput 0) ++
    List.replicate 5 (1, .ilock 1)

/-- The inode with which `ilock` is about to return. -/
def atGot : (Σ β, Op β) → Option Entry
  | ⟨_, .got e⟩ => some e
  | _ => none

theorem next_got {g : Config Op State Slot} {e : Entry}
    (hg : ((machine n).next? g p).bind atGot = some e) : (machine n).Next g p (.got e) := by
  obtain ⟨⟨β, o⟩, ho, hgot⟩ := Option.bind_eq_some_iff.1 hg
  cases o with
  | got e' =>
    obtain rfl : e' = e := Option.some.inj hgot
    exact (machine n).next?_eq_some.1 ho
  | _ => cases hgot

/-- `ilock` returns the inode as `ialloc` has left it, while the entry still
has two handles. -/
theorem inode_table_reuses : ∃ g : Config Op State Slot,
    Consistent g.mem ∧ g.mem.ref 0 = 2 ∧ g.mem.copy 0 = g.mem.disk (1, 1) ∧
      (g.mem.copy 0).type = 3 := by
  have hview : ((machine 10).run Machine.always reuses (start 10 fullDisk)).map (fun g =>
      (g.mem.ref 0, g.mem.key 0, (g.mem.copy 0).type, ((machine 10).next? g 1).bind atGot)) =
        some (2, (1, 1), 3, some 0) := by
    decide
  obtain ⟨g, hrun, hg⟩ := Option.map_eq_some_iff.1 hview
  simp only [Prod.mk.injEq] at hg
  obtain ⟨href, hkey, htype, hnext⟩ := hg
  obtain ⟨hconsistent, hgot⟩ :=
    (inode_table 10 fullDisk).1 g (Machine.reach_of_run _ _ .start hrun)
  obtain ⟨-, -, hcopy, -⟩ := hgot 1 0 (next_got hnext)
  exact ⟨g, hconsistent, href, by rw [hcopy, hkey], htype⟩

/-- Process 1 gets a handle on the inode that process 0 frees. -/
def joins : List (Slot × Call Handle) :=
  startsFree ++ List.replicate 3 (1, .iget 1 1) ++ List.replicate 3 (0, .iput 0)

/-- Who has no link to an inode can make it have two handles when it is
freed. -/
theorem freed_with_two_handles : ¬ ∀ g : Config Op State Slot,
    (machine 10).Reach Machine.always (start 10 fullDisk) g →
      ∀ p i g', (machine 10).step p i g = some g' → ∀ k, (g.mem.disk k).type ≠ 0 →
        (g'.mem.disk k).type = 0 → FreedByLast p k g.mem g'.mem := by
  have hview : ((machine 10).run Machine.always joins (start 10 fullDisk)).map (fun g =>
      ((g.mem.handle 0, g.mem.handle 1), (g.mem.disk (1, 1)).type,
        ((machine 10).step 0 (.iput 0) g).map fun g' => (g'.mem.disk (1, 1)).type,
        decide (∀ e, g.mem.key e = (1, 1) → e = 0))) =
          some ((some 0, some 0), 2, some 0, true) := by
    decide
  intro h
  obtain ⟨g, hrun, hg⟩ := Option.map_eq_some_iff.1 hview
  simp only [Prod.mk.injEq, decide_eq_true_eq] at hg
  obtain ⟨⟨hh, hh'⟩, htype, hstep, hkey⟩ := hg
  obtain ⟨g', hs, hfree⟩ := Option.map_eq_some_iff.1 hstep
  obtain ⟨e, h₀, he, -, -, honly, -⟩ := h g (Machine.reach_of_run _ _ .start hrun) 0 (.iput 0) g' hs
    (1, 1) (by rw [htype]; decide) hfree
  obtain rfl := hkey e he
  exact absurd ((honly 0 hh).trans (honly 1 hh').symm) (by decide)

end Xv6.Inodes
