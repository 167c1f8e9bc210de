import Xv6.Inode.Rules

/-!
# Inodes that are allocated and freed

Between the two steps of `ialloc`, and while `iput` frees an inode, the inode
has no other handle.
-/

namespace Xv6.Inodes

open Function (update)

variable {key : Entry → Key} {handle : Handle → Option Entry} {fresh : Nat}
  {doing : Slot → Doing} {p q : Slot} {e : Entry} {h : Handle} {d : Doing}

/-! ## Copies -/

/-- The copy of an inode is what is on the disk. -/
def Clean (key : Entry → Key) (valid : Entry → Bool) (copy : Entry → Dinode)
    (disk : Key → Dinode) (e : Entry) : Prop :=
  valid e = true → copy e = disk (key e) ∧ (copy e).type ≠ 0

/-- The inodes in use that nobody has locked are clean. -/
def AllClean (key : Entry → Key) (ref : Entry → Int) (lock : Entry → Option Slot)
    (valid : Entry → Bool) (copy : Entry → Dinode) (disk : Key → Dinode) : Prop :=
  ∀ e, lock e = none → ref e ≠ 0 → Clean key valid copy disk e

/-! ## Allocated inodes -/

/-- The handle is given up, and its inode on disk is free already. -/
def Freed (doing : Slot → Doing) (h : Handle) : Prop :=
  ∃ p, doing p = .frees h true ∨ doing p = .drops h

/-- An inode that has a handle is allocated on disk, but for a handle that is
given up; nobody else has a handle on an inode that is being freed, or on one
that `ialloc` is about to return. -/
structure Allocated (key : Entry → Key) (handle : Handle → Option Entry) (disk : Key → Dinode)
    (doing : Slot → Doing) : Prop where
  alloc : ∀ h e, handle h = some e → ¬ Freed doing h → (disk (key e)).type ≠ 0
  claim : ∀ p k, doing p = .claims k → (disk k).type ≠ 0 ∧ (disk k).nlink = 0 ∧
    ∀ h e, handle h = some e → key e = k → Freed doing h
  once : ∀ p q k, doing p = .claims k → doing q = .claims k → p = q
  last : ∀ p h e, doing p = .frees h false → handle h = some e →
    (disk (key e)).nlink = 0 ∧ ∀ h', handle h' = some e → h' = h

variable {disk : Key → Dinode}

theorem freed_setDoing (hold : ∀ h, doing p ≠ .frees h true ∧ doing p ≠ .drops h)
    (hnew : ∀ h, d ≠ .frees h true ∧ d ≠ .drops h) : Freed (update doing p d) h ↔ Freed doing h := by
  unfold Freed
  refine exists_congr fun q => ?_
  by_cases hq : q = p
  · rw [hq, Function.update_self]
    constructor
    · rintro (heq | heq)
      · exact absurd heq (hnew h).1
      · exact absurd heq (hnew h).2
    · rintro (heq | heq)
      · exact absurd heq (hold h).1
      · exact absurd heq (hold h).2
  · rw [Function.update_of_ne hq]

/-- A process goes on to something that has no part in freeing or in
allocating. -/
theorem Allocated.rest (ha : Allocated key handle disk doing)
    (hold : ∀ h, doing p ≠ .frees h true ∧ doing p ≠ .drops h)
    (hfrees : ¬ d.Frees) (hdrops : ∀ h, d ≠ .drops h) (hclaims : ∀ k, d ≠ .claims k) :
    Allocated key handle disk (update doing p d) := by
  have hnew : ∀ h, d ≠ .frees h true ∧ d ≠ .drops h := fun h =>
    ⟨by rintro rfl; exact hfrees trivial, hdrops h⟩
  refine ⟨fun h e hh hf => ha.alloc h e hh fun hno => hf ((freed_setDoing hold hnew).2 hno),
    fun q k hq => ?_, fun q r k hq hr => ?_, fun q h e hq hh => ?_⟩
  · by_cases hqp : q = p
    · rw [hqp, Function.update_self] at hq
      exact absurd hq (hclaims k)
    · rw [Function.update_of_ne hqp] at hq
      obtain ⟨htype, hnlink, hfreed⟩ := ha.claim q k hq
      exact ⟨htype, hnlink, fun h e hh hk => (freed_setDoing hold hnew).2 (hfreed h e hh hk)⟩
  · by_cases hqp : q = p
    · rw [hqp, Function.update_self] at hq
      exact absurd hq (hclaims k)
    · by_cases hrp : r = p
      · rw [hrp, Function.update_self] at hr
        exact absurd hr (hclaims k)
      · rw [Function.update_of_ne hqp] at hq
        rw [Function.update_of_ne hrp] at hr
        exact ha.once q r k hq hr
  · by_cases hqp : q = p
    · rw [hqp, Function.update_self] at hq
      rw [hq] at hfrees
      exact (hfrees trivial).elim
    · rw [Function.update_of_ne hqp] at hq
      exact ha.last q h e hq hh

/-- A new handle on an inode that is allocated, and that nobody frees or is
about to return. -/
theorem Allocated.addHandle (ha : Allocated key handle disk doing) {key' : Entry → Key}
    (hkey : ∀ h c, handle h = some c → key' c = key c)
    (htype : (disk (key' e)).type ≠ 0) (hclaim : ∀ q, doing q ≠ .claims (key' e))
    (hlast : ∀ q h, doing q = .frees h false → h ≠ fresh ∧ handle h ≠ some e) :
    Allocated key' (update handle fresh (some e)) disk doing := by
  have hold : ∀ h c, h ≠ fresh → update handle fresh (some e) h = some c → handle h = some c := by
    intro h c hne hh
    rwa [Function.update_of_ne hne] at hh
  refine ⟨fun h c hh hf => ?_, fun q k hq => ?_, ha.once, fun q h c hq hh => ?_⟩
  · by_cases hne : h = fresh
    · rw [hne, Function.update_self] at hh
      rw [← Option.some.inj hh]
      exact htype
    · have hh := hold h c hne hh
      rw [hkey h c hh]
      exact ha.alloc h c hh hf
  · obtain ⟨htype', hnlink, hfreed⟩ := ha.claim q k hq
    refine ⟨htype', hnlink, fun h c hh hk => ?_⟩
    by_cases hne : h = fresh
    · rw [hne, Function.update_self] at hh
      rw [← Option.some.inj hh] at hk
      rw [← hk] at hq
      exact absurd hq (hclaim q)
    · have hh := hold h c hne hh
      rw [hkey h c hh] at hk
      exact hfreed h c hh hk
  · have hh := hold h c (hlast q h hq).1 hh
    obtain ⟨hnlink, honly⟩ := ha.last q h c hq hh
    rw [hkey h c hh]
    refine ⟨hnlink, fun h' hh' => ?_⟩
    by_cases hne : h' = fresh
    · rw [hne, Function.update_self] at hh'
      rw [← Option.some.inj hh'] at hh
      exact absurd hh (hlast q h hq).2
    · exact honly h' (hold h' c hne hh')

/-- A handle is given up. -/
theorem Allocated.dropHandle (ha : Allocated key handle disk doing)
    (hputs : doing p = .puts h ∨ doing p = .drops h) :
    Allocated key (update handle h none) disk (update doing p .idle) := by
  have hold : ∀ h' c, update handle h none h' = some c → h' ≠ h ∧ handle h' = some c := by
    intro h' c hh
    by_cases hne : h' = h
    · rw [hne, Function.update_self] at hh
      cases hh
    · rw [Function.update_of_ne hne] at hh
      exact ⟨hne, hh⟩
  have hfreed : ∀ h', h' ≠ h → Freed doing h' → Freed (update doing p .idle) h' := by
    rintro h' hne ⟨q, hq⟩
    refine ⟨q, ?_⟩
    by_cases hqp : q = p
    · subst hqp
      rcases hputs with hputs | hputs <;> rw [hputs] at hq <;> rcases hq with hq | hq <;> cases hq
      exact absurd rfl hne
    · rwa [Function.update_of_ne hqp]
  have hother : ∀ q, (∀ h, update doing p .idle q = .frees h false → doing q = .frees h false) ∧
      ∀ k, update doing p .idle q = .claims k → doing q = .claims k := by
    intro q
    by_cases hqp : q = p
    · rw [hqp, Function.update_self]
      exact ⟨fun _ hq => (by cases hq), fun _ hq => (by cases hq)⟩
    · rw [Function.update_of_ne hqp]
      exact ⟨fun _ hq => hq, fun _ hq => hq⟩
  refine ⟨fun h' c hh hf => ?_, fun q k hq => ?_,
    fun q r k hq hr => ha.once q r k ((hother q).2 k hq) ((hother r).2 k hr),
    fun q h' c hq hh => ?_⟩
  · obtain ⟨hne, hh⟩ := hold h' c hh
    exact ha.alloc h' c hh fun hno => hf (hfreed h' hne hno)
  · obtain ⟨htype, hnlink, hall⟩ := ha.claim q k ((hother q).2 k hq)
    refine ⟨htype, hnlink, fun h' c hh hk => ?_⟩
    obtain ⟨hne, hh⟩ := hold h' c hh
    exact hfreed h' hne (hall h' c hh hk)
  · obtain ⟨hnlink, honly⟩ := ha.last q h' c ((hother q).1 h' hq) (hold h' c hh).2
    exact ⟨hnlink, fun h'' hh'' => honly h'' (hold h'' c hh'').2⟩

/-- A free inode is marked allocated. -/
theorem Allocated.claimed (ha : Allocated key handle disk doing) {k : Key} {c : Dinode}
    (hold : ∀ h, doing p ≠ .frees h true ∧ doing p ≠ .drops h) (hfree : (disk k).type = 0)
    (htype : c.type ≠ 0) (hnlink : c.nlink = 0) :
    Allocated key handle (update disk k c) (update doing p (.claims k)) := by
  have hfreed : ∀ h, Freed (update doing p (.claims k)) h ↔ Freed doing h := fun h =>
    freed_setDoing hold fun h => ⟨(fun hno => by cases hno), (fun hno => by cases hno)⟩
  have hne : ∀ q k', doing q = .claims k' → k' ≠ k := by
    rintro q k' hq rfl
    exact (ha.claim q k' hq).1 hfree
  refine ⟨fun h e hh hf => ?_, fun q k' hq => ?_, fun q r k' hq hr => ?_, fun q h e hq hh => ?_⟩
  · by_cases hk : key e = k
    · rw [hk, Function.update_self]
      exact htype
    · rw [Function.update_of_ne hk]
      exact ha.alloc h e hh fun hno => hf ((hfreed h).2 hno)
  · by_cases hqp : q = p
    · rw [hqp, Function.update_self] at hq
      obtain rfl : k = k' := Doing.claims.inj hq
      rw [Function.update_self]
      refine ⟨htype, hnlink, fun h e hh hk => (hfreed h).2 ?_⟩
      by_contra hno
      refine ha.alloc h e hh hno ?_
      rw [hk, hfree]
    · rw [Function.update_of_ne hqp] at hq
      rw [Function.update_of_ne (hne q k' hq)]
      obtain ⟨htype', hnlink', hall⟩ := ha.claim q k' hq
      exact ⟨htype', hnlink', fun h e hh hk => (hfreed h).2 (hall h e hh hk)⟩
  · by_cases hqp : q = p
    · by_cases hrp : r = p
      · rw [hqp, hrp]
      · rw [hqp, Function.update_self] at hq
        rw [Function.update_of_ne hrp] at hr
        exact absurd (Doing.claims.inj hq).symm (hne r k' hr)
    · rw [Function.update_of_ne hqp] at hq
      by_cases hrp : r = p
      · rw [hrp, Function.update_self] at hr
        exact absurd (Doing.claims.inj hr).symm (hne q k' hq)
      · rw [Function.update_of_ne hrp] at hr
        exact ha.once q r k' hq hr
  · have hq : doing q = .frees h false := by
      by_cases hqp : q = p
      · rw [hqp, Function.update_self] at hq
        cases hq
      · rwa [Function.update_of_ne hqp] at hq
    obtain ⟨hnlink', honly⟩ := ha.last q h e hq hh
    refine ⟨?_, honly⟩
    by_cases hk : key e = k
    · rw [hk, Function.update_self, hnlink]
    · rw [Function.update_of_ne hk, hnlink']

/-- An inode on disk changes. -/
theorem Allocated.setDisk (ha : Allocated key handle disk doing) {k : Key} {c : Dinode}
    (hclaim : ∀ q, doing q ≠ .claims k)
    (htype : ∀ h e, handle h = some e → key e = k → ¬ Freed doing h → c.type ≠ 0)
    (hlast : ∀ q h e, doing q = .frees h false → handle h = some e → key e = k → c.nlink = 0) :
    Allocated key handle (update disk k c) doing := by
  refine ⟨fun h e hh hf => ?_, fun q k' hq => ?_, ha.once, fun q h e hq hh => ?_⟩
  · by_cases hk : key e = k
    · rw [hk, Function.update_self]
      exact htype h e hh hk hf
    · rw [Function.update_of_ne hk]
      exact ha.alloc h e hh hf
  · have hne : k' ≠ k := by
      rintro rfl
      exact hclaim q hq
    rw [Function.update_of_ne hne]
    exact ha.claim q k' hq
  · obtain ⟨hnlink, honly⟩ := ha.last q h e hq hh
    refine ⟨?_, honly⟩
    by_cases hk : key e = k
    · rw [hk, Function.update_self]
      exact hlast q h e hq hh hk
    · rw [Function.update_of_ne hk, hnlink]

/-- A process goes on with the handle that it gives up: it frees the inode, or
has freed it. -/
theorem Allocated.goOn (ha : Allocated key handle disk doing)
    (hold : (doing p).puts? = some h) (hnew : d.puts? = some h)
    (hfreed : Freed doing h → d = .frees h true ∨ d = .drops h)
    (hlast : ∀ e, d = .frees h false → handle h = some e →
      (disk (key e)).nlink = 0 ∧ ∀ h', handle h' = some e → h' = h) :
    Allocated key handle disk (update doing p d) := by
  have hgrow : ∀ h', Freed doing h' → Freed (update doing p d) h' := by
    rintro h' ⟨q, hq⟩
    by_cases hqp : q = p
    · have hput : (doing q).puts? = some h' := by
        rcases hq with hq | hq <;> rw [hq] <;> rfl
      obtain rfl : h = h' := Option.some.inj (hold.symm.trans (hqp ▸ hput))
      exact ⟨p, by rw [Function.update_self]; exact hfreed ⟨q, hq⟩⟩
    · exact ⟨q, by rwa [Function.update_of_ne hqp]⟩
  have hclaims : ∀ q k, update doing p d q = .claims k → doing q = .claims k := by
    intro q k hq
    by_cases hqp : q = p
    · rw [hqp, Function.update_self] at hq
      rw [hq] at hnew
      cases hnew
    · rwa [Function.update_of_ne hqp] at hq
  refine ⟨fun h' e hh hf => ha.alloc h' e hh fun hno => hf (hgrow h' hno), fun q k hq => ?_,
    fun q r k hq hr => ha.once q r k (hclaims q k hq) (hclaims r k hr), fun q h' e hq hh => ?_⟩
  · obtain ⟨htype, hnlink, hall⟩ := ha.claim q k (hclaims q k hq)
    exact ⟨htype, hnlink, fun h' e hh hk => hgrow h' (hall h' e hh hk)⟩
  · by_cases hqp : q = p
    · rw [hqp, Function.update_self] at hq
      have heq : h' = h := by
        rw [hq] at hnew
        exact Option.some.inj hnew
      subst heq
      exact hlast e hq hh
    · rw [Function.update_of_ne hqp] at hq
      exact ha.last q h' e hq hh

end Xv6.Inodes
