import Xv6.Inode.Steps

/-!
# Handles and locks come and go

The operations that make a handle or give it up, and those on the sleep-lock
of an inode.
-/

namespace Xv6.Inodes

open Function (update)

variable {s s' : State} {p : Slot} {e : Entry} {h : Handle} {d : Doing} {k : Key} {K : Prop}

/-! ## Calls begin and end -/

/-- A process begins a call. -/
theorem Inv.enter (hinv : Inv K s) (hcalm : Calm p .idle none s)
    (hfrees : ¬ d.Frees) (hdrops : ∀ h, d ≠ .drops h) (hclaims : ∀ k, d ≠ .claims k)
    (hnamed : ∀ h, d.handle? = some h →
      s.handle h ≠ none ∧ ∀ q, q ≠ p → (s.doing q).puts? ≠ some h)
    (hapart : ∀ h, d.puts? = some h →
      s.held h = none ∧ ∀ q, q ≠ p → (s.doing q).handle? ≠ some h)
    (hs : s' = { s with doing := update s.doing p d }) :
    Inv K s' ∧ Others p s s' ∧ Calm p d none s' := by
  have hidle : ¬ (s.doing p).Frees := by
    rw [hcalm.doing]
    exact id
  subst hs
  refine ⟨⟨hinv.table, hinv.owners.setDoing hidle hfrees hnamed hapart, hinv.clean, fun hK => ?_⟩,
    ⟨fun q hq => Function.update_of_ne hq .., fun _ _ _ => Iff.rfl, fun _ _ _ => rfl,
      fun _ _ _ _ => ⟨rfl, rfl, rfl, fun _ => rfl⟩⟩, Function.update_self .., hcalm.good⟩
  refine (hinv.alloc hK).rest (fun h => ?_) hfrees hdrops hclaims
  rw [hcalm.doing]
  exact ⟨(fun hno => by cases hno), (fun hno => by cases hno)⟩

/-- The calls, as a process begins them. -/
theorem Inv.next (hinv : Inv K s) (hcalm : Calm p .idle none s) {c : Call Handle}
    {r : Call Entry} (hproper : c.Proper p s) (hstart : c.start s = some (r, d))
    (hs : s' = { s with doing := update s.doing p d }) :
    Inv K s' ∧ Others p s s' ∧ Calm p d none s' := by
  have hidle : d = .idle → Inv K s' ∧ Others p s s' ∧ Calm p d none s' := by
    rintro rfl
    exact hinv.enter hcalm id (fun _ hno => by cases hno) (fun _ hno => by cases hno)
      (fun _ hd => by cases hd) (fun _ hd => by cases hd) hs
  have huses : ∀ h, d = .uses h → s.handle h ≠ none → (∀ q, (s.doing q).puts? ≠ some h) →
      Inv K s' ∧ Others p s s' ∧ Calm p d none s' := by
    rintro h rfl hh hq
    refine hinv.enter hcalm id (fun _ hno => by cases hno) (fun _ hno => by cases hno)
      (fun h' hd => ?_) (fun _ hd => by cases hd) hs
    obtain rfl : h = h' := Option.some.inj hd
    exact ⟨hh, fun q _ => hq q⟩
  have hheld : ∀ h, s.held h = some p → s.handle h ≠ none ∧ ∀ q, (s.doing q).puts? ≠ some h := by
    intro h hheld
    obtain ⟨e, hh, -⟩ := hinv.owners.locks p h (.inl hheld)
    refine ⟨by rw [hh]; exact Option.some_ne_none e, fun q hq => ?_⟩
    rw [(hinv.owners.apart q h hq).1] at hheld
    cases hheld
  cases c with
  | iget => exact hidle (Prod.mk.inj (Option.some.inj hstart)).2.symm
  | ialloc => exact hidle (Prod.mk.inj (Option.some.inj hstart)).2.symm
  | idup h =>
    obtain ⟨_, -, heq⟩ := Option.map_eq_some_iff.1 hstart
    exact huses h (Prod.mk.inj heq).2.symm hproper.1 hproper.2
  | ilock h =>
    obtain ⟨_, -, heq⟩ := Option.map_eq_some_iff.1 hstart
    exact huses h (Prod.mk.inj heq).2.symm hproper.1 hproper.2
  | iunlock h =>
    obtain ⟨_, -, heq⟩ := Option.map_eq_some_iff.1 hstart
    exact huses h (Prod.mk.inj heq).2.symm (hheld h hproper).1 (hheld h hproper).2
  | update h =>
    obtain ⟨_, -, heq⟩ := Option.map_eq_some_iff.1 hstart
    exact huses h (Prod.mk.inj heq).2.symm (hheld h hproper).1 (hheld h hproper).2
  | iput h =>
    obtain ⟨_, -, heq⟩ := Option.map_eq_some_iff.1 hstart
    obtain rfl := (Prod.mk.inj heq).2.symm
    obtain ⟨hh, hnone, hother⟩ := hproper
    refine hinv.enter hcalm id (fun _ hno => by cases hno) (fun _ hno => by cases hno)
      (fun h' hd => ?_) (fun h' hd => ?_) hs
    · obtain rfl : h = h' := Option.some.inj hd
      exact ⟨hh, fun q _ hq => hother q (handle?_of_puts? hq)⟩
    · obtain rfl : h = h' := Option.some.inj hd
      exact ⟨hnone, fun q _ => hother q⟩

/-- `ilock` returns. -/
theorem At.got (hat : At p (.uses h) h e Good s) (hinv : Inv K s)
    (hs : s' = { s with doing := update s.doing p .idle }) :
    Inv K s' ∧ Others p s s' ∧ Calm p .idle none s' := by
  have hdoing := hat.calm.doing
  subst hs
  refine ⟨⟨hinv.table, hinv.owners.rest (by rw [hdoing]; exact id) rfl, hinv.clean, fun hK => ?_⟩,
    ⟨fun q hq => Function.update_of_ne hq .., fun _ _ _ => Iff.rfl, fun _ _ _ => rfl,
      fun _ _ _ _ => ⟨rfl, rfl, rfl, fun _ => rfl⟩⟩, Function.update_self ..,
        fun h' a hl _ hh => ?_⟩
  · refine (hinv.alloc hK).rest (fun h => ?_) id (fun _ hno => by cases hno)
      fun _ hno => by cases hno
    rw [hdoing]
    exact ⟨(fun hno => by cases hno), (fun hno => by cases hno)⟩
  · by_cases hne : h' = h
    · obtain rfl : e = a := Option.some.inj (hat.handle.symm.trans (hne ▸ hh))
      exact hat.inside
    · exact hat.calm.good h' a hl (fun heq => hne (Option.some.inj heq)) hh

/-! ## The sleep-lock -/

/-- What a process learns when it locks an inode. -/
def Fetched (v : Bool) (c c' : Dinode) : Prop := v = true → c = c' ∧ c.type ≠ 0

theorem fetched_lasts : Lasts Fetched := by
  intro v c c' c'' hφ hsame hv
  obtain ⟨rfl, htype⟩ := hφ hv
  exact ⟨(hsame htype).symm, htype⟩

theorem Out.acquire (hout : Out p (.uses h) h e s) (hinv : Inv K s) (hlock : s.lock e = none)
    (hs : s' = { s with
      lock := update s.lock e (some p), held := update s.held h (some p) }) :
    Inv K s' ∧ Others p s s' ∧ At p (.uses h) h e Fetched s' := by
  have hdoing := hout.calm.doing
  have hfree : ∀ q, s.held h ≠ some q := by
    intro q hq
    rw [hinv.owners.lock_of_locks (.inl hq) hout.handle] at hlock
    cases hlock
  subst hs
  refine ⟨⟨hinv.table, hinv.owners.ilock hlock hout.handle hdoing, fun a ha hused => ?_,
    hinv.alloc⟩, ⟨fun _ _ => rfl, fun q h' hq => ?_, fun _ _ _ => rfl,
      fun _ _ _ _ => ⟨rfl, rfl, rfl, fun _ => rfl⟩⟩, ⟨hdoing, fun h' a hl hx hh => ?_⟩,
        hout.handle, .inl (Function.update_self ..), ?_⟩
  · have ha : update s.lock e (some p) a = none := ha
    by_cases hae : a = e
    · rw [hae, Function.update_self] at ha
      cases ha
    · rw [Function.update_of_ne hae] at ha
      exact hinv.clean a ha hused
  · show update s.held h (some p) h' = some q ↔ _
    by_cases hh : h' = h
    · rw [hh, Function.update_self]
      exact ⟨fun heq => absurd (Option.some.inj heq).symm hq, fun heq => absurd heq (hfree q)⟩
    · rw [Function.update_of_ne hh]
  · have hne : h' ≠ h := fun heq => hx (congrArg some heq)
    have hl : update s.held h (some p) h' = some p := hl
    rw [Function.update_of_ne hne] at hl
    exact hout.calm.good h' a hl (Option.some_ne_none h') hh
  · exact hinv.clean e hlock (hinv.table.ref_ne hout.handle)

/-- The lock of `e` is given back, and the inode is clean. -/
theorem Inv.clean_unlock (hinv : Inv K s)
    (hclean : Clean s.key s.valid s.copy s.disk e) :
    AllClean s.key s.ref (update s.lock e none) s.valid s.copy s.disk := by
  intro a ha hused
  by_cases hae : a = e
  · rw [hae]
    exact hclean
  · rw [Function.update_of_ne hae] at ha
    exact hinv.clean a ha hused

theorem At.release (hat : At p (.uses h) h e Good s) (hinv : Inv K s)
    (hs : s' = { s with
      lock := update s.lock e none
      held := update s.held h none
      doing := update s.doing p .idle }) : Inv K s' ∧ Others p s s' ∧ Calm p .idle none s' := by
  have hdoing := hat.calm.doing
  have hheld : s.held h = some p := by
    refine hat.locks.resolve_right ?_
    rintro ⟨b, hb⟩
    rw [hdoing] at hb
    cases hb
  subst hs
  refine ⟨⟨hinv.table, hinv.owners.iunlock hheld hat.handle hdoing,
    hinv.clean_unlock fun _ => hat.inside.2, fun hK => ?_⟩,
    ⟨fun q hq => Function.update_of_ne hq .., fun q h' hq => ?_, fun _ _ _ => rfl,
      fun _ _ _ _ => ⟨rfl, rfl, rfl, fun _ => rfl⟩⟩, Function.update_self ..,
        fun h' a hl _ hh => ?_⟩
  · refine (hinv.alloc hK).rest (fun h => ?_) id (fun _ hno => by cases hno)
      fun _ hno => by cases hno
    rw [hdoing]
    exact ⟨(fun hno => by cases hno), (fun hno => by cases hno)⟩
  · show update s.held h none h' = some q ↔ _
    by_cases hh : h' = h
    · rw [hh, Function.update_self, hheld]
      exact ⟨fun heq => (Option.some_ne_none q heq.symm).elim,
        fun heq => absurd (Option.some.inj heq).symm hq⟩
    · rw [Function.update_of_ne hh]
  · have hl : update s.held h none h' = some p := hl
    have hne : h' ≠ h := by
      rintro rfl
      rw [Function.update_self] at hl
      cases hl
    rw [Function.update_of_ne hne] at hl
    exact hat.calm.good h' a hl (fun heq => hne (Option.some.inj heq)) hh

/-! ## Giving a handle up -/

/-- A handle is gone. -/
theorem Out.dropHandle (hout : Out p d h e s) (hinv : Inv K s) (hd : d = .puts h ∨ d = .drops h)
    (hs : s' = { s with
      ref := update s.ref e (s.ref e - 1)
      handle := update s.handle h none
      doing := update s.doing p .idle }) : Inv K s' ∧ Others p s s' ∧ Calm p .idle none s' := by
  have hdoing := hout.calm.doing
  have hputs : (s.doing p).puts? = some h := by
    rw [hdoing]
    rcases hd with rfl | rfl <;> rfl
  have hfrees : ¬ (s.doing p).Frees := by
    rw [hdoing]
    rcases hd with rfl | rfl <;> exact id
  have hold : ∀ h' a, update s.handle h none h' = some a → s.handle h' = some a := by
    intro h' a hh
    by_cases hne : h' = h
    · rw [hne, Function.update_self] at hh
      cases hh
    · rwa [Function.update_of_ne hne] at hh
  subst hs
  refine ⟨⟨hinv.table.dropHandle hout.handle, hinv.owners.dropHandle hputs hfrees,
    fun a ha hused => hinv.clean a ha ?_, fun hK => (hinv.alloc hK).dropHandle (hdoing ▸ hd)⟩,
    ⟨fun q hq => Function.update_of_ne hq .., fun _ _ _ => Iff.rfl, fun h' _ hne => ?_,
      fun _ _ _ _ => ⟨rfl, rfl, rfl, fun _ => rfl⟩⟩, Function.update_self ..,
        fun h' a hl hx hh => hout.calm.good h' a hl hx (hold h' a hh)⟩
  · by_cases hae : a = e
    · rw [hae]
      exact hinv.table.ref_ne hout.handle
    · exact fun hzero => hused ((Function.update_of_ne hae ..).trans hzero)
  · refine Function.update_of_ne (fun heq => hne ?_) ..
    rw [heq, hputs]

/-- What `iput` knows when it starts to free an inode. -/
def Unlinked (v : Bool) (c c' : Dinode) : Prop := Good v c c' ∧ c.nlink = 0

theorem unlinked_lasts : Lasts Unlinked := fun v c c' c'' hφ hsame =>
  ⟨good_lasts v c c' c'' hφ.1 hsame, hφ.2⟩

/-- The last handle on an inode without links: nobody has it locked. -/
theorem Out.lock_none (hout : Out p (.puts h) h e s) (hinv : Inv K s) (hone : s.ref e = 1) :
    s.lock e = none := by
  have hdoing := hout.calm.doing
  have hputs : (s.doing p).puts? = some h := by
    rw [hdoing]
    rfl
  obtain ⟨hnone, hother⟩ := hinv.owners.apart p h hputs
  by_contra hne
  obtain ⟨q, hq⟩ := Option.ne_none_iff_exists'.1 hne
  obtain ⟨h', hh', hl⟩ := hinv.owners.locked e q hq
  obtain rfl := hinv.table.only hone hout.handle hh'
  rcases hl with hl | ⟨b, hb⟩
  · rw [hnone] at hl
    cases hl
  · by_cases hqp : q = p
    · rw [hqp, hdoing] at hb
      cases hb
    · exact hother q hqp (by rw [hb]; rfl)

theorem Out.free (hout : Out p (.puts h) h e s) (hinv : Inv K s) (hone : s.ref e = 1)
    (hvalid : s.valid e = true) (hnlink : (s.copy e).nlink = 0)
    (hs : s' = { s with
      lock := update s.lock e (some p)
      doing := update s.doing p (.frees h false) }) :
    Inv K s' ∧ Others p s s' ∧ At p (.frees h false) h e Unlinked s' := by
  have hdoing := hout.calm.doing
  have hlock := hout.lock_none hinv hone
  obtain ⟨hcopy, htype⟩ := hinv.clean e hlock (hinv.table.ref_ne hout.handle) hvalid
  have hputs : (s.doing p).puts? = some h := by
    rw [hdoing]
    rfl
  subst hs
  refine ⟨⟨hinv.table, hinv.owners.free hlock hout.handle hdoing, fun a ha hused => ?_,
    fun hK => (hinv.alloc hK).goOn hputs rfl (fun hf => ?_) fun a _ hh => ?_⟩,
    ⟨fun q hq => Function.update_of_ne hq .., fun _ _ _ => Iff.rfl, fun _ _ _ => rfl,
      fun _ _ _ _ => ⟨rfl, rfl, rfl, fun _ => rfl⟩⟩, ⟨Function.update_self ..,
        fun h' a hl _ hh => hout.calm.good h' a hl (Option.some_ne_none h') hh⟩, hout.handle,
          .inr ⟨false, Function.update_self ..⟩, ⟨hvalid, hcopy, htype⟩, hnlink⟩
  · have ha : update s.lock e (some p) a = none := ha
    by_cases hae : a = e
    · rw [hae, Function.update_self] at ha
      cases ha
    · rw [Function.update_of_ne hae] at ha
      exact hinv.clean a ha hused
  · refine (hinv.not_freed (p := p) (by rw [hdoing]; rfl) ?_ hf).elim
    rw [hdoing]
    exact ⟨(fun hno => by cases hno), (fun hno => by cases hno)⟩
  · obtain rfl : e = a := Option.some.inj (hout.handle.symm.trans hh)
    rw [← hcopy]
    exact ⟨hnlink, fun h' hh' => hinv.table.only hone hout.handle hh'⟩

theorem At.unfree (hat : At p (.frees h true) h e (fun v _ _ => v = false) s) (hinv : Inv K s)
    (hs : s' = { s with
      lock := update s.lock e none
      doing := update s.doing p (.drops h) }) : Inv K s' ∧ Others p s s' ∧ Out p (.drops h) h e s' := by
  have hdoing := hat.calm.doing
  have hputs : (s.doing p).puts? = some h := puts?_of_frees hdoing
  have hnone := (hinv.owners.apart p h hputs).1
  subst hs
  refine ⟨⟨hinv.table, hinv.owners.unfree hat.handle hdoing, hinv.clean_unlock fun hv => ?_,
    fun hK => (hinv.alloc hK).goOn hputs rfl (fun _ => .inr rfl) fun _ hno => (by cases hno)⟩,
    ⟨fun q hq => Function.update_of_ne hq .., fun _ _ _ => Iff.rfl, fun _ _ _ => rfl,
      fun _ _ _ _ => ⟨rfl, rfl, rfl, fun _ => rfl⟩⟩, ⟨Function.update_self ..,
        fun h' a hl _ hh => hat.calm.good h' a hl (fun heq => ?_) hh⟩, hat.handle⟩
  · rw [hat.inside] at hv
    cases hv
  · have hl : s.held h' = some p := hl
    rw [Option.some.inj heq, hnone] at hl
    cases hl

/-! ## Making a handle -/

/-- An inode that a process may ask for is allocated, and nobody is about to
free it or to return it. -/
structure Present (s : State) (p : Slot) (k : Key) : Prop where
  type : (s.disk k).type ≠ 0
  claim : ∀ q, q ≠ p → s.doing q ≠ .claims k
  last : ∀ q h a, s.doing q = .frees h false → s.handle h = some a → s.key a ≠ k

/-- A process asks for an inode that has a link, or that it has locked, or
that it has just allocated. -/
def Linked (s : State) (p : Slot) (k : Key) : Prop :=
  s.doing p = .claims k ∨ ((s.disk k).type ≠ 0 ∧ (s.disk k).nlink ≠ 0) ∨
    ∃ e, s.lock e = some p ∧ s.key e = k

instance (s : State) (p : Slot) (k : Key) : Decidable (Linked s p k) :=
  inferInstanceAs (Decidable (_ ∨ _ ∨ _))

theorem Inv.present (hinv : Inv K s) (hK : K) (hfrees : ¬ (s.doing p).Frees) (h : Linked s p k) :
    Present s p k := by
  have ha := hinv.alloc hK
  rcases h with hclaim | ⟨htype, hnlink⟩ | ⟨e, hlock, rfl⟩
  · obtain ⟨htype, -, hfreed⟩ := ha.claim p k hclaim
    refine ⟨htype, fun q hq hq' => hq (ha.once q p k hq' hclaim), fun q h a hq hh hkey => ?_⟩
    refine hinv.not_freed (by rw [hq]; rfl) ?_ (hfreed h a hh hkey)
    rw [hq]
    exact ⟨(fun hno => by cases hno), (fun hno => by cases hno)⟩
  · refine ⟨htype, fun q _ hq => hnlink (ha.claim q k hq).2.1, fun q h a hq hh hkey => ?_⟩
    rw [← hkey] at hnlink
    exact hnlink (ha.last q h a hq hh).1
  · obtain ⟨h, hh, hl⟩ := hinv.owners.locked e p hlock
    have hheld : s.held h = some p := by
      refine hl.resolve_right ?_
      rintro ⟨b, hb⟩
      rw [hb] at hfrees
      exact hfrees trivial
    have hnot := hinv.not_freed_of_held hheld
    obtain ⟨hclaim, hlast⟩ := ha.lone hinv hl hh hnot
    refine ⟨ha.alloc h e hh hnot, fun q _ => hclaim q, fun q h' a hq hh' hkey => ?_⟩
    obtain ⟨rfl, -⟩ := hlast q h' a hq hh' hkey
    rw [hq] at hfrees
    exact hfrees trivial

/-- A process makes a handle on an entry in use. -/
theorem Inv.addHandle (hinv : Inv K s) {x : Option Handle} (hcalm : Calm p d x s) (hfrees : ¬ d.Frees)
    (hputs : d.puts? = none) (hused : s.ref e ≠ 0) (hK : K → Present s p (s.key e))
    (hs : s' = ({ s with ref := update s.ref e (s.ref e + 1) } : State).addHandle p e) :
    Inv K s' ∧ Others p s s' ∧ Calm p .idle x s' := by
  have hdoing := hcalm.doing
  have hfrees' : ¬ (s.doing p).Frees := by rwa [hdoing]
  have hfresh := hinv.table.handle_fresh
  have hne : ∀ h', s.handle h' ≠ none → h' ≠ s.fresh := fun h' hh => hinv.table.ne_fresh hh
  have hrest : ∀ h', s.doing p ≠ .frees h' true ∧ s.doing p ≠ .drops h' := by
    intro h'
    rw [hdoing]
    constructor <;> rintro rfl <;> cases hputs
  subst hs
  refine ⟨⟨hinv.table.addHandle hused, (hinv.owners.rest (d := .idle) hfrees' rfl).addHandle hfresh,
    fun a ha hused' => hinv.clean a ha ?_, fun hK' => ?_⟩,
    ⟨fun q hq => Function.update_of_ne hq .., fun _ _ _ => Iff.rfl,
      fun h' hh _ => Function.update_of_ne (hne h' hh) ..,
      fun _ _ _ _ => ⟨rfl, rfl, rfl, fun _ => rfl⟩⟩, Function.update_self ..,
        fun h' a hl hx hh => ?_⟩
  · by_cases hae : a = e
    · rw [hae]
      exact hused
    · exact fun hzero => hused' ((Function.update_of_ne hae ..).trans hzero)
  · obtain ⟨htype, hclaim, hlast⟩ := hK hK'
    refine Allocated.addHandle ((hinv.alloc hK').rest hrest id (fun _ hno => by cases hno)
      fun _ hno => by cases hno) (fun _ _ _ => rfl) htype (fun q hq => ?_) fun q h' hq => ?_
    · by_cases hqp : q = p
      · rw [hqp, Function.update_self] at hq
        cases hq
      · rw [Function.update_of_ne hqp] at hq
        exact hclaim q hqp hq
    · have hq : s.doing q = .frees h' false := by
        by_cases hqp : q = p
        · rw [hqp, Function.update_self] at hq
          cases hq
        · rwa [Function.update_of_ne hqp] at hq
      refine ⟨hne h' (hinv.owners.named q h' (by rw [hq]; rfl)), fun hh => ?_⟩
      exact hlast q h' e hq hh rfl
  · obtain ⟨c, hc, -⟩ := hinv.owners.locks p h' (.inl hl)
    have hh' : s.handle h' ≠ none := by
      rw [hc]
      exact Option.some_ne_none c
    exact hcalm.good h' a hl hx ((Function.update_of_ne (hne h' hh') ..).symm.trans hh)

/-- A process makes the first handle on an entry that is recycled. -/
theorem Inv.newHandle (hinv : Inv K s) {x : Option Handle} (hcalm : Calm p d x s) (hfrees : ¬ d.Frees)
    (hputs : d.puts? = none) (hunused : s.ref e = 0) (hnew : ∀ a, s.ref a ≠ 0 → s.key a ≠ k)
    (hK : K → Present s p k)
    (hs : s' = ({ s with
      dev := update s.dev e k.1
      inum := update s.inum e k.2
      ref := update s.ref e 1
      valid := update s.valid e false } : State).addHandle p e) :
    Inv K s' ∧ Others p s s' ∧ Calm p .idle x s' := by
  have hdoing := hcalm.doing
  have hfrees' : ¬ (s.doing p).Frees := by rwa [hdoing]
  have hfresh := hinv.table.handle_fresh
  have hne : ∀ h', s.handle h' ≠ none → h' ≠ s.fresh := fun h' hh => hinv.table.ne_fresh hh
  have hrest : ∀ h', s.doing p ≠ .frees h' true ∧ s.doing p ≠ .drops h' := by
    intro h'
    rw [hdoing]
    constructor <;> rintro rfl <;> cases hputs
  have hkey : s'.key = update s.key e k := by
    rw [hs]
    funext a
    show (update s.dev e k.1 a, update s.inum e k.2 a) = _
    by_cases hae : a = e
    · rw [hae, Function.update_self, Function.update_self, Function.update_self]
    · rw [Function.update_of_ne hae, Function.update_of_ne hae, Function.update_of_ne hae]
      rfl
  have hother : ∀ a, s.ref a ≠ 0 → a ≠ e := by
    rintro a ha rfl
    exact ha hunused
  have hsame : ∀ a, a ≠ e → s'.key a = s.key a ∧ s'.valid a = s.valid a := by
    intro a ha
    rw [hkey, hs]
    exact ⟨Function.update_of_ne ha .., Function.update_of_ne ha ..⟩
  have htable : Table s'.key s'.ref s'.handle s'.fresh := by
    rw [hkey, hs]
    exact hinv.table.newHandle hunused hnew
  have halloc : K → Allocated s'.key s'.handle s'.disk s'.doing := by
    intro hK'
    obtain ⟨htype, hclaim, hlast⟩ := hK hK'
    have hself : s'.key e = k := by rw [hkey, Function.update_self]
    rw [hs] at hself ⊢
    refine Allocated.addHandle ((hinv.alloc hK').rest hrest id (fun _ hno => by cases hno)
      fun _ hno => by cases hno) (fun h' a hh => ?_) (by rw [hself]; exact htype) (fun q hq => ?_)
        fun q h' hq => ?_
    · have hused := hinv.table.ref_ne hh
      rw [hs] at hsame
      exact (hsame a (hother a hused)).1
    · rw [hself] at hq
      by_cases hqp : q = p
      · rw [hqp, Function.update_self] at hq
        cases hq
      · rw [Function.update_of_ne hqp] at hq
        exact hclaim q hqp hq
    · have hq : s.doing q = .frees h' false := by
        by_cases hqp : q = p
        · rw [hqp, Function.update_self] at hq
          cases hq
        · rwa [Function.update_of_ne hqp] at hq
      refine ⟨hne h' (hinv.owners.named q h' (by rw [hq]; rfl)), fun hh => ?_⟩
      exact hother e (hinv.table.ref_ne hh) rfl
  refine ⟨⟨htable, ?_, fun a ha hused => ?_, halloc⟩,
    ⟨fun q hq => ?_, fun _ _ _ => by rw [hs]; rfl, fun h' hh _ => ?_, fun q a _ ha => ?_⟩,
      ?_, fun h' a hl hx hh => ?_⟩
  · rw [hs]
    exact (hinv.owners.rest (d := .idle) hfrees' rfl).addHandle hfresh
  · by_cases hae : a = e
    · intro hv
      rw [hae, hs] at hv
      have hv : update s.valid e false e = true := hv
      rw [Function.update_self] at hv
      cases hv
    · obtain ⟨hkeya, hvalida⟩ := hsame a hae
      have hclean := hinv.clean a (by rw [hs] at ha; exact ha) (by
        rw [hs] at hused
        exact fun hzero => hused ((Function.update_of_ne hae ..).trans hzero))
      unfold Clean at hclean ⊢
      rw [hkeya, hvalida, hs]
      exact hclean
  · rw [hs]
    exact Function.update_of_ne hq ..
  · rw [hs]
    exact Function.update_of_ne (hne h' hh) ..
  · obtain ⟨hkeya, hvalida⟩ := hsame a (hother a (hinv.used_of_lock ha))
    refine ⟨hkeya, hvalida, by rw [hs]; rfl, fun _ => by rw [hs]; rfl⟩
  · rw [hs]
    exact Function.update_self ..
  · rw [hs] at hl hh
    have hl : s.held h' = some p := hl
    obtain ⟨c, hc, hlock⟩ := hinv.owners.locks p h' (.inl hl)
    have hh' : s.handle h' ≠ none := by
      rw [hc]
      exact Option.some_ne_none c
    have hh : update s.handle s.fresh (some e) h' = some a := hh
    rw [Function.update_of_ne (hne h' hh')] at hh
    obtain ⟨hkeya, hvalida⟩ := hsame a (hother a (hinv.table.ref_ne hh))
    rw [hkeya, hvalida, hs]
    exact hcalm.good h' a hl hx hh

/-- `idup`. -/
theorem Out.idup (hout : Out p (.uses h) h e s) (hinv : Inv K s)
    (hs : s' = ({ s with ref := update s.ref e (s.ref e + 1) } : State).addHandle p e) :
    Inv K s' ∧ Others p s s' ∧ Calm p .idle none s' := by
  have hdoing := hout.calm.doing
  refine hinv.addHandle hout.calm id rfl (hinv.table.ref_ne hout.handle) (fun hK => ?_) hs
  have ha := hinv.alloc hK
  have hnot : ¬ Freed s.doing h := hinv.not_freed (by rw [hdoing]; rfl)
    (by rw [hdoing]; exact ⟨(fun hno => by cases hno), (fun hno => by cases hno)⟩)
  refine ⟨ha.alloc h e hout.handle hnot,
    fun q _ hq => hnot ((ha.claim q _ hq).2.2 h e hout.handle rfl), fun q h' a hq hh hkey => ?_⟩
  obtain rfl := hinv.table.unique a e (hinv.table.ref_ne hh)
    (hinv.table.ref_ne hout.handle) hkey
  obtain rfl := (ha.last q h' a hq hh).2 h hout.handle
  by_cases hqp : q = p
  · rw [hqp, hdoing] at hq
    cases hq
  · exact (hinv.owners.apart q h (puts?_of_frees hq)).2 p (Ne.symm hqp) (by rw [hdoing]; rfl)

/-- `iget` finds the entry of the inode, or takes one that is not in use. -/
theorem Inv.iget (hinv : Inv K s) {x : Option Handle} (hcalm : Calm p d x s) (hfrees : ¬ d.Frees)
    (hputs : d.puts? = none) {dev inum : I32} (hK : K → Linked s p (dev, inum))
    {r : Option Entry} (hx : iget p dev inum s = (r, s')) :
    Inv K s' ∧ Others p s s' ∧ (r = none → Calm p d x s') ∧ (r ≠ none → Calm p .idle x s') := by
  have hfrees' : ¬ (s.doing p).Frees := by
    rw [hcalm.doing]
    exact hfrees
  have hpresent : K → Present s p (dev, inum) := fun hK' => hinv.present hK' hfrees' (hK hK')
  unfold Xv6.Inodes.iget at hx
  cases hfind : (List.finRange NINODE).find?
      fun e => s.ref e > 0 && s.dev e = dev && s.inum e = inum with
  | some e =>
    rw [hfind] at hx
    obtain ⟨rfl, rfl⟩ := Prod.mk.inj hx
    have hmatch := List.find?_some hfind
    simp only [Bool.and_eq_true, decide_eq_true_eq] at hmatch
    obtain ⟨⟨hpos, rfl⟩, rfl⟩ := hmatch
    obtain ⟨hinv', hothers, hcalm'⟩ := hinv.addHandle hcalm hfrees hputs hpos.ne' hpresent rfl
    exact ⟨hinv', hothers, fun hno => (Option.some_ne_none e hno).elim, fun _ => hcalm'⟩
  | none =>
    rw [hfind] at hx
    have hnew : ∀ a, s.ref a ≠ 0 → s.key a ≠ (dev, inum) := by
      intro a ha heq
      have hnot := List.find?_eq_none.1 hfind a (List.mem_finRange a)
      obtain ⟨rfl, rfl⟩ := Prod.mk.inj heq
      have hpos : s.ref a > 0 := lt_of_le_of_ne (hinv.table.ref_nonneg a) (Ne.symm ha)
      simp [hpos] at hnot
    cases hunused : (List.finRange NINODE).find? fun e => s.ref e = 0 with
    | some e =>
      simp only [hunused] at hx
      obtain ⟨rfl, rfl⟩ := Prod.mk.inj hx
      have hzero := List.find?_some hunused
      simp only [decide_eq_true_eq] at hzero
      obtain ⟨hinv', hothers, hcalm'⟩ :=
        hinv.newHandle hcalm hfrees hputs hzero hnew hpresent rfl
      exact ⟨hinv', hothers, fun hno => (Option.some_ne_none e hno).elim, fun _ => hcalm'⟩
    | none =>
      simp only [hunused] at hx
      obtain ⟨rfl, rfl⟩ := Prod.mk.inj hx
      exact ⟨hinv, .refl p s, fun _ => hcalm, fun hno => absurd rfl hno⟩

/-- `ialloc` marks a free inode allocated. -/
theorem Inv.claim (hinv : Inv K s) {x : Option Handle} (hcalm : Calm p .idle x s) {type : I16}
    (htype : type ≠ 0) (hfree : (s.disk k).type = 0) (hs : s' = { s with
      disk := update s.disk k { Dinode.zero with type := type }
      doing := update s.doing p (.claims k) }) :
    Inv K s' ∧ Others p s s' ∧ Calm p (.claims k) x s' := by
  have hdoing := hcalm.doing
  have hdisk : ∀ a, (s.disk (s.key a)).type ≠ 0 → update s.disk k { Dinode.zero with type := type }
      (s.key a) = s.disk (s.key a) := by
    intro a ha
    refine Function.update_of_ne ?_ ..
    rintro heq
    rw [heq] at ha
    exact ha hfree
  subst hs
  refine ⟨⟨hinv.table, hinv.owners.rest (by rw [hdoing]; exact id) rfl, fun a ha hused hv => ?_,
    fun hK => (hinv.alloc hK).claimed (fun h => ?_) hfree htype rfl⟩,
    ⟨fun q hq => Function.update_of_ne hq .., fun _ _ _ => Iff.rfl, fun _ _ _ => rfl,
      fun q a _ _ => ⟨rfl, rfl, rfl, hdisk a⟩⟩, Function.update_self .., fun h a hl hx hh => ?_⟩
  · obtain ⟨hcopy, hne⟩ := hinv.clean a ha hused hv
    refine ⟨hcopy.trans (hdisk a ?_).symm, hne⟩
    rw [← hcopy]
    exact hne
  · rw [hdoing]
    exact ⟨(fun hno => by cases hno), (fun hno => by cases hno)⟩
  · have hgood := hcalm.good h a hl hx hh
    refine good_lasts _ _ _ _ hgood fun hne => hdisk a hne

end Xv6.Inodes
