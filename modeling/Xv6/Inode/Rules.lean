import Xv6.Inode.Code
import Mathlib.Data.Finset.Card
import Mathlib.Data.Finset.Range

/-!
# What the operations on the inode table keep

The count of an entry is the number of its handles.  Who has an inode locked
has a handle on it, and nobody works with a handle that is given up.  An inode
that nobody has locked is the same in memory and on disk.
-/

namespace Xv6.Inodes

open Function (update)

variable {key : Entry → Key} {ref : Entry → Int} {handle : Handle → Option Entry} {fresh : Nat}
  {lock : Entry → Option Slot} {held : Handle → Option Slot} {doing : Slot → Doing}
  {p q : Slot} {e : Entry} {h : Handle} {d : Doing} {K : Prop}

/-! ## Handles -/

/-- The handles on an entry. -/
def handlesOn (handle : Handle → Option Entry) (fresh : Nat) (e : Entry) : Finset Handle :=
  (Finset.range fresh).filter fun h => handle h = some e

/-- An inode has one entry at most, whose count is the number of its handles. -/
structure Table (key : Entry → Key) (ref : Entry → Int) (handle : Handle → Option Entry)
    (fresh : Nat) : Prop where
  unique : ∀ e e', ref e ≠ 0 → ref e' ≠ 0 → key e = key e' → e = e'
  count : ∀ e, ref e = (handlesOn handle fresh e).card
  fresh : ∀ h, handle h ≠ none → h < fresh

theorem mem_handlesOn : h ∈ handlesOn handle fresh e ↔ h < fresh ∧ handle h = some e := by
  unfold handlesOn
  rw [Finset.mem_filter, Finset.mem_range]

theorem Table.mem (ht : Table key ref handle fresh) :
    h ∈ handlesOn handle fresh e ↔ handle h = some e := by
  rw [mem_handlesOn]
  exact ⟨fun h => h.2, fun hh => ⟨ht.fresh h (by rw [hh]; exact Option.some_ne_none e), hh⟩⟩

theorem Table.ref_pos (ht : Table key ref handle fresh) (hh : handle h = some e) : 0 < ref e := by
  rw [ht.count]
  exact Int.natCast_pos.2 (Finset.card_pos.2 ⟨h, ht.mem.2 hh⟩)

theorem Table.ref_ne (ht : Table key ref handle fresh) (hh : handle h = some e) : ref e ≠ 0 :=
  (ht.ref_pos hh).ne'

theorem Table.ref_nonneg (ht : Table key ref handle fresh) (e : Entry) : 0 ≤ ref e := by
  rw [ht.count]
  exact Int.natCast_nonneg _

/-- The only handle on an entry with count 1. -/
theorem Table.only (ht : Table key ref handle fresh) (hone : ref e = 1) (hh : handle h = some e)
    {h' : Handle} (hh' : handle h' = some e) : h' = h := by
  rw [ht.count] at hone
  have hcard : (handlesOn handle fresh e).card = 1 := by exact_mod_cast hone
  exact Finset.card_le_one.1 hcard.le h' (ht.mem.2 hh') h (ht.mem.2 hh)

/-- No handle has the next number yet. -/
theorem Table.handle_fresh (ht : Table key ref handle fresh) : handle fresh = none := by
  by_contra hne
  exact Nat.lt_irrefl _ (ht.fresh fresh hne)

theorem Table.ne_fresh (ht : Table key ref handle fresh) (hh : handle h ≠ none) : h ≠ fresh :=
  (ht.fresh h hh).ne

/-- A handle more on `e`. -/
theorem card_addHandle (hnone : handle fresh = none) (c : Entry) :
    (handlesOn (update handle fresh (some e)) (fresh + 1) c).card =
      (handlesOn handle fresh c).card + if c = e then 1 else 0 := by
  have hsame : ∀ h, h < fresh → update handle fresh (some e) h = handle h := fun h hh =>
    Function.update_of_ne hh.ne ..
  by_cases hc : c = e
  · have hins : handlesOn (update handle fresh (some e)) (fresh + 1) c =
        insert fresh (handlesOn handle fresh c) := by
      ext h
      rw [Finset.mem_insert, mem_handlesOn, mem_handlesOn]
      constructor
      · rintro ⟨hlt, hh⟩
        rcases Nat.lt_succ_iff_lt_or_eq.1 hlt with hlt | heq
        · rw [hsame h hlt] at hh
          exact .inr ⟨hlt, hh⟩
        · exact .inl heq
      · rintro (rfl | ⟨hlt, hh⟩)
        · rw [Function.update_self, hc]
          exact ⟨Nat.lt_succ_self h, rfl⟩
        · rw [hsame h hlt]
          exact ⟨Nat.lt_succ_of_lt hlt, hh⟩
    have hout : fresh ∉ handlesOn handle fresh c := fun hmem =>
      Nat.lt_irrefl _ (mem_handlesOn.1 hmem).1
    rw [hins, Finset.card_insert_of_notMem hout, if_pos hc]
  · have heq : handlesOn (update handle fresh (some e)) (fresh + 1) c =
        handlesOn handle fresh c := by
      ext h
      rw [mem_handlesOn, mem_handlesOn]
      constructor
      · rintro ⟨hlt, hh⟩
        rcases Nat.lt_succ_iff_lt_or_eq.1 hlt with hlt | rfl
        · rw [hsame h hlt] at hh
          exact ⟨hlt, hh⟩
        · rw [Function.update_self] at hh
          exact absurd (Option.some.inj hh).symm hc
      · rintro ⟨hlt, hh⟩
        rw [hsame h hlt]
        exact ⟨Nat.lt_succ_of_lt hlt, hh⟩
    rw [heq, if_neg hc]
    rfl

/-- A handle less. -/
theorem card_dropHandle (ht : Table key ref handle fresh) (hh : handle h = some e) (c : Entry) :
    (handlesOn handle fresh c).card =
      (handlesOn (update handle h none) fresh c).card + if c = e then 1 else 0 := by
  have heq : handlesOn (update handle h none) fresh c = (handlesOn handle fresh c).erase h := by
    ext h'
    rw [Finset.mem_erase, mem_handlesOn, mem_handlesOn]
    by_cases hne : h' = h
    · rw [hne, Function.update_self]
      exact ⟨fun h => absurd h.2.symm (Option.some_ne_none c), fun h => absurd rfl h.1⟩
    · rw [Function.update_of_ne hne]
      exact ⟨fun h => ⟨hne, h⟩, fun h => h.2⟩
  rw [heq]
  by_cases hc : c = e
  · subst hc
    rw [if_pos rfl, Finset.card_erase_add_one (ht.mem.2 hh)]
  · have hout : h ∉ handlesOn handle fresh c := fun hmem => by
      have hboth := hh.symm.trans (mem_handlesOn.1 hmem).2
      exact hc (Option.some.inj hboth).symm
    rw [if_neg hc, Finset.erase_eq_of_notMem hout]
    rfl

/-- A new handle on an entry in use. -/
theorem Table.addHandle (ht : Table key ref handle fresh) (hused : ref e ≠ 0) :
    Table key (update ref e (ref e + 1)) (update handle fresh (some e)) (fresh + 1) where
  unique a b ha hb hkey := by
    have hne : ∀ c, update ref e (ref e + 1) c ≠ 0 → ref c ≠ 0 := by
      intro c hc
      by_cases hce : c = e
      · rw [hce]
        exact hused
      · rwa [Function.update_of_ne hce] at hc
    exact ht.unique a b (hne a ha) (hne b hb) hkey
  count c := by
    rw [card_addHandle ht.handle_fresh]
    by_cases hc : c = e
    · rw [hc, Function.update_self, if_pos rfl, ht.count]
      push_cast
      rfl
    · rw [Function.update_of_ne hc, if_neg hc, ht.count]
      rfl
  fresh h' hh := by
    by_cases hf : h' = fresh
    · rw [hf]
      exact Nat.lt_succ_self fresh
    · rw [Function.update_of_ne hf] at hh
      exact Nat.lt_succ_of_lt (ht.fresh h' hh)

/-- The first handle on an entry that was not in use. -/
theorem Table.newHandle (ht : Table key ref handle fresh) (hunused : ref e = 0) {k : Key}
    (hnew : ∀ c, ref c ≠ 0 → key c ≠ k) : Table (update key e k) (update ref e 1)
      (update handle fresh (some e)) (fresh + 1) where
  unique a b ha hb hkey := by
    by_cases hae : a = e
    · by_cases hbe : b = e
      · rw [hae, hbe]
      · rw [hae, Function.update_self, Function.update_of_ne hbe] at hkey
        rw [Function.update_of_ne hbe] at hb
        exact absurd hkey.symm (hnew b hb)
    · rw [Function.update_of_ne hae] at ha hkey
      by_cases hbe : b = e
      · rw [hbe, Function.update_self] at hkey
        exact absurd hkey (hnew a ha)
      · rw [Function.update_of_ne hbe] at hb hkey
        exact ht.unique a b ha hb hkey
  count c := by
    rw [card_addHandle ht.handle_fresh]
    by_cases hc : c = e
    · have hzero := ht.count e
      rw [hunused] at hzero
      rw [hc, Function.update_self, if_pos rfl]
      push_cast
      rw [← hzero]
      rfl
    · rw [Function.update_of_ne hc, if_neg hc, ht.count]
      rfl
  fresh h' hh := by
    by_cases hf : h' = fresh
    · rw [hf]
      exact Nat.lt_succ_self fresh
    · rw [Function.update_of_ne hf] at hh
      exact Nat.lt_succ_of_lt (ht.fresh h' hh)

theorem Table.dropHandle (ht : Table key ref handle fresh) (hh : handle h = some e) :
    Table key (update ref e (ref e - 1)) (update handle h none) fresh where
  unique a b ha hb hkey := by
    have hne : ∀ c, update ref e (ref e - 1) c ≠ 0 → ref c ≠ 0 := by
      intro c hc
      by_cases hce : c = e
      · rw [hce]
        exact ht.ref_ne hh
      · rwa [Function.update_of_ne hce] at hc
    exact ht.unique a b (hne a ha) (hne b hb) hkey
  count c := by
    have hcard := card_dropHandle ht hh c
    by_cases hc : c = e
    · rw [hc] at hcard ⊢
      rw [if_pos rfl] at hcard
      rw [Function.update_self, ht.count, hcard]
      push_cast
      omega
    · rw [if_neg hc] at hcard
      rw [Function.update_of_ne hc, ht.count, hcard]
      rfl
  fresh h' hh' := by
    refine ht.fresh h' fun hnone => hh' ?_
    by_cases hne : h' = h
    · rw [hne, Function.update_self]
    · rw [Function.update_of_ne hne, hnone]

/-! ## Locks -/

/-- Process `p` has a lock through the handle `h`. -/
def Locks (held : Handle → Option Slot) (doing : Slot → Doing) (p : Slot) (h : Handle) : Prop :=
  held h = some p ∨ ∃ b, doing p = .frees h b

/-- Who has an inode locked has one handle for it, and a handle that is given
up is for one process alone. -/
structure Owners (lock : Entry → Option Slot) (handle : Handle → Option Entry)
    (held : Handle → Option Slot) (doing : Slot → Doing) : Prop where
  locked : ∀ e p, lock e = some p → ∃ h, handle h = some e ∧ Locks held doing p h
  locks : ∀ p h, Locks held doing p h → ∃ e, handle h = some e ∧ lock e = some p
  once : ∀ p h h' e, Locks held doing p h → Locks held doing p h' → handle h = some e →
    handle h' = some e → h = h'
  named : ∀ p h, (doing p).handle? = some h → handle h ≠ none
  apart : ∀ p h, (doing p).puts? = some h →
    held h = none ∧ ∀ q, q ≠ p → (doing q).handle? ≠ some h

/-- A process does not free an inode, before or after. -/
def Doing.Frees : Doing → Prop
  | .frees _ _ => True
  | _ => False

theorem handle?_of_puts? (hd : d.puts? = some h) : d.handle? = some h := by
  cases d <;> first | exact hd | cases hd

theorem puts?_of_frees {b : Bool} (hd : d = .frees h b) : d.puts? = some h := by
  rw [hd]
  rfl

theorem Owners.lock_of_locks (ho : Owners lock handle held doing) (hl : Locks held doing p h)
    (hh : handle h = some e) : lock e = some p := by
  obtain ⟨e', hh', hlock⟩ := ho.locks p h hl
  rw [Option.some.inj (hh.symm.trans hh')]
  exact hlock

/-- A process goes on to something that is no freeing. -/
theorem Owners.setDoing (ho : Owners lock handle held doing) (hold : ¬ (doing p).Frees)
    (hnew : ¬ d.Frees)
    (hnamed : ∀ h, d.handle? = some h → handle h ≠ none ∧ ∀ q, q ≠ p → (doing q).puts? ≠ some h)
    (hapart : ∀ h, d.puts? = some h →
      held h = none ∧ ∀ q, q ≠ p → (doing q).handle? ≠ some h) :
    Owners lock handle held (update doing p d) := by
  have hlocks : ∀ q h, Locks held (update doing p d) q h ↔ Locks held doing q h := by
    intro q h
    refine or_congr Iff.rfl ?_
    by_cases hq : q = p
    · rw [hq, Function.update_self]
      constructor
      · rintro ⟨b, hb⟩
        rw [hb] at hnew
        exact (hnew trivial).elim
      · rintro ⟨b, hb⟩
        rw [hb] at hold
        exact (hold trivial).elim
    · rw [Function.update_of_ne hq]
  refine ⟨fun e q hlock => ?_, fun q h hl => ho.locks q h ((hlocks q h).1 hl),
    fun q h h' e hl hl' => ho.once q h h' e ((hlocks q h).1 hl) ((hlocks q h').1 hl'),
    fun q h hq => ?_, fun q h hq => ?_⟩
  · obtain ⟨h, hh, hl⟩ := ho.locked e q hlock
    exact ⟨h, hh, (hlocks q h).2 hl⟩
  · by_cases hqp : q = p
    · rw [hqp, Function.update_self] at hq
      exact (hnamed h hq).1
    · rw [Function.update_of_ne hqp] at hq
      exact ho.named q h hq
  · by_cases hqp : q = p
    · subst hqp
      rw [Function.update_self] at hq
      refine ⟨(hapart h hq).1, fun r hr => ?_⟩
      rw [Function.update_of_ne hr]
      exact (hapart h hq).2 r hr
    · rw [Function.update_of_ne hqp] at hq
      refine ⟨(ho.apart q h hq).1, fun r hr => ?_⟩
      by_cases hrp : r = p
      · rw [hrp, Function.update_self]
        exact fun hd => (hnamed h hd).2 q hqp hq
      · rw [Function.update_of_ne hrp]
        exact (ho.apart q h hq).2 r hr

/-- A process is done with a handle. -/
theorem Owners.rest (ho : Owners lock handle held doing) (hold : ¬ (doing p).Frees)
    (hnone : d.handle? = none) : Owners lock handle held (update doing p d) := by
  refine ho.setDoing hold (fun hd => ?_) (fun h hd => ?_) fun h hd => ?_
  · cases d <;> first | exact hd | cases hnone
  · rw [hnone] at hd
    cases hd
  · rw [handle?_of_puts? hd] at hnone
    cases hnone

/-- A new handle. -/
theorem Owners.addHandle (ho : Owners lock handle held doing) (hfresh : handle fresh = none) :
    Owners lock (update handle fresh (some e)) held doing := by
  have hne : ∀ h, handle h ≠ none → h ≠ fresh := by
    rintro h hh rfl
    exact hh hfresh
  have hsame : ∀ h, handle h ≠ none → update handle fresh (some e) h = handle h := fun h hh =>
    Function.update_of_ne (hne h hh) ..
  have hkept : ∀ h c, handle h = some c → update handle fresh (some e) h = some c := fun h c hh => by
    rw [hsame h (by rw [hh]; exact Option.some_ne_none c), hh]
  have hback : ∀ q h c, Locks held doing q h → update handle fresh (some e) h = some c →
      handle h = some c := by
    intro q h c hl hh
    obtain ⟨c', hc', -⟩ := ho.locks q h hl
    rwa [hsame h (by rw [hc']; exact Option.some_ne_none c')] at hh
  refine ⟨fun c q hlock => ?_, fun q h hl => ?_, fun q h h' c hl hl' hh hh' => ?_,
    fun q h hq => ?_, ho.apart⟩
  · obtain ⟨h, hh, hl⟩ := ho.locked c q hlock
    exact ⟨h, hkept h c hh, hl⟩
  · obtain ⟨c, hh, hlock⟩ := ho.locks q h hl
    exact ⟨c, hkept h c hh, hlock⟩
  · exact ho.once q h h' c hl hl' (hback q h c hl hh) (hback q h' c hl' hh')
  · have hh := ho.named q h hq
    rw [hsame h hh]
    exact hh

/-- A handle is given up. -/
theorem Owners.dropHandle (ho : Owners lock handle held doing) (hputs : (doing p).puts? = some h)
    (hold : ¬ (doing p).Frees) :
    Owners lock (update handle h none) held (update doing p .idle) := by
  have ho' := ho.rest (d := .idle) hold rfl
  have hne : ∀ q h', Locks held (update doing p .idle) q h' → h' ≠ h := by
    rintro q h' (hl | ⟨b, hl⟩) rfl
    · rw [(ho.apart p h' hputs).1] at hl
      cases hl
    · by_cases hq : q = p
      · rw [hq, Function.update_self] at hl
        cases hl
      · rw [Function.update_of_ne hq] at hl
        exact (ho.apart p h' hputs).2 q hq (by rw [hl]; rfl)
  refine ⟨fun c q hlock => ?_, fun q h' hl => ?_, fun q h' h'' c hl hl' hh hh' => ?_,
    fun q h' hq => ?_, ho'.apart⟩
  · obtain ⟨h', hh, hl⟩ := ho'.locked c q hlock
    exact ⟨h', by rw [Function.update_of_ne (hne q h' hl), hh], hl⟩
  · obtain ⟨c, hh, hlock⟩ := ho'.locks q h' hl
    exact ⟨c, by rw [Function.update_of_ne (hne q h' hl), hh], hlock⟩
  · rw [Function.update_of_ne (hne q h' hl)] at hh
    rw [Function.update_of_ne (hne q h'' hl')] at hh'
    exact ho'.once q h' h'' c hl hl' hh hh'
  · have hh := ho'.named q h' hq
    have hne' : h' ≠ h := by
      rintro rfl
      by_cases hqp : q = p
      · rw [hqp, Function.update_self] at hq
        cases hq
      · rw [Function.update_of_ne hqp] at hq
        exact (ho.apart p h' hputs).2 q hqp hq
    rwa [Function.update_of_ne hne']

/-- An inode that nobody has locked is locked through the handle `h`. -/
theorem Owners.acquire (ho : Owners lock handle held doing) (hlock : lock e = none)
    (hh : handle h = some e) {held' : Handle → Option Slot} {doing' : Slot → Doing}
    (hlocks : ∀ q h', Locks held' doing' q h' ↔ Locks held doing q h' ∨ q = p ∧ h' = h)
    (hnamed : ∀ q h', (doing' q).handle? = some h' → handle h' ≠ none)
    (hapart : ∀ q h', (doing' q).puts? = some h' →
      held' h' = none ∧ ∀ r, r ≠ q → (doing' r).handle? ≠ some h') :
    Owners (update lock e (some p)) handle held' doing' := by
  have hfree : ∀ q h', Locks held doing q h' → handle h' ≠ some e := by
    intro q h' hl hh'
    rw [ho.lock_of_locks hl hh'] at hlock
    cases hlock
  refine ⟨fun c q hc => ?_, fun q h' hl => ?_, fun q h' h'' c hl hl' hc hc' => ?_, hnamed, hapart⟩
  · by_cases hce : c = e
    · rw [hce, Function.update_self] at hc
      exact ⟨h, by rw [hce, hh], (hlocks q h).2 (.inr ⟨(Option.some.inj hc).symm, rfl⟩)⟩
    · rw [Function.update_of_ne hce] at hc
      obtain ⟨h', hh', hl⟩ := ho.locked c q hc
      exact ⟨h', hh', (hlocks q h').2 (.inl hl)⟩
  · rcases (hlocks q h').1 hl with hl | ⟨rfl, rfl⟩
    · obtain ⟨c, hc, hlock'⟩ := ho.locks q h' hl
      have hce : c ≠ e := by
        rintro rfl
        exact hfree q h' hl hc
      exact ⟨c, hc, by rw [Function.update_of_ne hce, hlock']⟩
    · exact ⟨e, hh, Function.update_self ..⟩
  · rcases (hlocks q h').1 hl with hl | ⟨-, rfl⟩ <;> rcases (hlocks q h'').1 hl' with hl' | ⟨-, rfl⟩
    · exact ho.once q h' h'' c hl hl' hc hc'
    · exact absurd (hc.trans (hc'.symm.trans hh)) (hfree q h' hl)
    · exact absurd (hc'.trans (hc.symm.trans hh)) (hfree q h'' hl')
    · rfl

/-- The lock that goes with the handle `h` is given back. -/
theorem Owners.release (ho : Owners lock handle held doing) (hlock : Locks held doing p h)
    (hh : handle h = some e) {held' : Handle → Option Slot} {doing' : Slot → Doing}
    (hlocks : ∀ q h', Locks held' doing' q h' ↔ Locks held doing q h' ∧ h' ≠ h)
    (hnamed : ∀ q h', (doing' q).handle? = some h' → handle h' ≠ none)
    (hapart : ∀ q h', (doing' q).puts? = some h' →
      held' h' = none ∧ ∀ r, r ≠ q → (doing' r).handle? ≠ some h') :
    Owners (update lock e none) handle held' doing' := by
  have hself := ho.lock_of_locks hlock hh
  refine ⟨fun c q hc => ?_, fun q h' hl => ?_, fun q h' h'' c hl hl' hc hc' => ?_, hnamed, hapart⟩
  · by_cases hce : c = e
    · rw [hce, Function.update_self] at hc
      cases hc
    · rw [Function.update_of_ne hce] at hc
      obtain ⟨h', hh', hl⟩ := ho.locked c q hc
      refine ⟨h', hh', (hlocks q h').2 ⟨hl, ?_⟩⟩
      rintro rfl
      exact hce (Option.some.inj (hh'.symm.trans hh))
  · obtain ⟨hl, hne⟩ := (hlocks q h').1 hl
    obtain ⟨c, hc, hlock'⟩ := ho.locks q h' hl
    have hce : c ≠ e := by
      rintro rfl
      obtain rfl : p = q := Option.some.inj (hself.symm.trans hlock')
      exact hne (ho.once p h' h c hl hlock hc hh)
    exact ⟨c, hc, by rw [Function.update_of_ne hce, hlock']⟩
  · exact ho.once q h' h'' c ((hlocks q h').1 hl).1 ((hlocks q h'').1 hl').1 hc hc'

/-- `acquiresleep` in `ilock`. -/
theorem Owners.ilock (ho : Owners lock handle held doing) (hlock : lock e = none)
    (hh : handle h = some e) (hdoing : doing p = .uses h) :
    Owners (update lock e (some p)) handle (update held h (some p)) doing := by
  have hfree : ∀ q, held h ≠ some q := by
    intro q hq
    rw [ho.lock_of_locks (.inl hq) hh] at hlock
    cases hlock
  refine ho.acquire hlock hh (fun q h' => ?_) ho.named fun q h' hq => ?_
  · unfold Locks
    by_cases hh' : h' = h
    · rw [hh', Function.update_self]
      constructor
      · rintro (heq | hb)
        · exact .inr ⟨(Option.some.inj heq).symm, rfl⟩
        · exact .inl (.inr hb)
      · rintro ((heq | hb) | ⟨rfl, -⟩)
        · exact absurd heq (hfree q)
        · exact .inr hb
        · exact .inl rfl
    · rw [Function.update_of_ne hh']
      exact ⟨.inl, fun h => h.resolve_right fun h => hh' h.2⟩
  · obtain ⟨hnone, hother⟩ := ho.apart q h' hq
    have hne : h' ≠ h := by
      rintro rfl
      by_cases hqp : p = q
      · rw [← hqp, hdoing] at hq
        cases hq
      · exact hother p hqp (by rw [hdoing]; rfl)
    rw [Function.update_of_ne hne]
    exact ⟨hnone, hother⟩

/-- `releasesleep` in `iunlock`. -/
theorem Owners.iunlock (ho : Owners lock handle held doing) (hheld : held h = some p)
    (hh : handle h = some e) (hdoing : doing p = .uses h) :
    Owners (update lock e none) handle (update held h none) (update doing p .idle) := by
  have hold : ¬ (doing p).Frees := by
    rw [hdoing]
    exact id
  have ho' := ho.rest (d := .idle) hold rfl
  have hl : ∀ q h', Locks held doing q h' ↔ Locks held (update doing p .idle) q h' := by
    intro q h'
    refine or_congr Iff.rfl ?_
    by_cases hq : q = p
    · rw [hq, Function.update_self, hdoing]
      constructor <;> rintro ⟨b, hb⟩ <;> cases hb
    · rw [Function.update_of_ne hq]
  refine ho.release (.inl hheld) hh (fun q h' => ?_) ho'.named fun q h' hq => ?_
  · rw [hl]
    unfold Locks
    by_cases hh' : h' = h
    · subst hh'
      rw [Function.update_self]
      constructor
      · rintro (heq | ⟨b, hb⟩)
        · cases heq
        · have hnone := (ho'.apart q h' (puts?_of_frees hb)).1
          rw [hheld] at hnone
          cases hnone
      · exact fun h => absurd rfl h.2
    · rw [Function.update_of_ne hh']
      exact ⟨fun h => ⟨h, hh'⟩, fun h => h.1⟩
  · obtain ⟨hnone, hother⟩ := ho'.apart q h' hq
    refine ⟨?_, hother⟩
    by_cases hne : h' = h
    · rw [hne, Function.update_self]
    · rw [Function.update_of_ne hne, hnone]

/-- A process that works with one handle goes on with it. -/
theorem Owners.keep (ho : Owners lock handle held doing) (hsame : d.handle? = (doing p).handle?)
    (hputs : d.puts? = (doing p).puts?) :
    (∀ q h', (update doing p d q).handle? = some h' → handle h' ≠ none) ∧
      ∀ q h', (update doing p d q).puts? = some h' →
        held h' = none ∧ ∀ r, r ≠ q → (update doing p d r).handle? ≠ some h' := by
  have hhandle : ∀ q, (update doing p d q).handle? = (doing q).handle? := by
    intro q
    by_cases hq : q = p
    · rw [hq, Function.update_self, hsame]
    · rw [Function.update_of_ne hq]
  have hputs' : ∀ q, (update doing p d q).puts? = (doing q).puts? := by
    intro q
    by_cases hq : q = p
    · rw [hq, Function.update_self, hputs]
    · rw [Function.update_of_ne hq]
  constructor
  · intro q h' hq
    rw [hhandle] at hq
    exact ho.named q h' hq
  · intro q h' hq
    rw [hputs'] at hq
    obtain ⟨hnone, hother⟩ := ho.apart q h' hq
    refine ⟨hnone, fun r hr => ?_⟩
    rw [hhandle]
    exact hother r hr

/-- `acquiresleep` in `iput`. -/
theorem Owners.free (ho : Owners lock handle held doing) (hlock : lock e = none)
    (hh : handle h = some e) (hdoing : doing p = .puts h) :
    Owners (update lock e (some p)) handle held (update doing p (.frees h false)) := by
  obtain ⟨hnamed, hapart⟩ := ho.keep (p := p) (d := .frees h false) (by rw [hdoing]; rfl)
    (by rw [hdoing]; rfl)
  refine ho.acquire hlock hh (fun q h' => ?_) hnamed hapart
  unfold Locks
  by_cases hq : q = p
  · rw [hq, Function.update_self, hdoing]
    constructor
    · rintro (hl | ⟨b, hb⟩)
      · exact .inl (.inl hl)
      · cases hb
        exact .inr ⟨rfl, rfl⟩
    · rintro ((hl | ⟨b, hb⟩) | ⟨-, rfl⟩)
      · exact .inl hl
      · cases hb
      · exact .inr ⟨false, rfl⟩
  · rw [Function.update_of_ne hq]
    exact ⟨.inl, fun h => h.resolve_right fun h => hq h.1⟩

/-- The inode on disk is free. -/
theorem Owners.freed (ho : Owners lock handle held doing) {b b' : Bool}
    (hdoing : doing p = .frees h b) :
    Owners lock handle held (update doing p (.frees h b')) := by
  obtain ⟨hnamed, hapart⟩ := ho.keep (p := p) (d := .frees h b') (by rw [hdoing]; rfl)
    (by rw [hdoing]; rfl)
  have hl : ∀ q h', Locks held (update doing p (.frees h b')) q h' ↔ Locks held doing q h' := by
    intro q h'
    refine or_congr Iff.rfl ?_
    by_cases hq : q = p
    · rw [hq, Function.update_self, hdoing]
      constructor
      · rintro ⟨c, hc⟩
        cases hc
        exact ⟨b, rfl⟩
      · rintro ⟨c, hc⟩
        cases hc
        exact ⟨b', rfl⟩
    · rw [Function.update_of_ne hq]
  refine ⟨fun c q hlock => ?_, fun q h' h => ho.locks q h' ((hl q h').1 h),
    fun q h' h'' c h h' => ho.once q _ _ c ((hl q _).1 h) ((hl q _).1 h'), hnamed, hapart⟩
  obtain ⟨h', hh', h⟩ := ho.locked c q hlock
  exact ⟨h', hh', (hl q h').2 h⟩

/-- `releasesleep` in `iput`. -/
theorem Owners.unfree (ho : Owners lock handle held doing) {b : Bool} (hh : handle h = some e)
    (hdoing : doing p = .frees h b) :
    Owners (update lock e none) handle held (update doing p (.drops h)) := by
  obtain ⟨hnamed, hapart⟩ := ho.keep (p := p) (d := .drops h) (by rw [hdoing]; rfl)
    (by rw [hdoing]; rfl)
  have hput : (doing p).puts? = some h := puts?_of_frees hdoing
  obtain ⟨hnone, hother⟩ := ho.apart p h hput
  refine ho.release (.inr ⟨b, hdoing⟩) hh (fun q h' => ?_) hnamed hapart
  unfold Locks
  by_cases hq : q = p
  · rw [hq, Function.update_self, hdoing]
    constructor
    · rintro (hl | ⟨c, hc⟩)
      · refine ⟨.inl hl, ?_⟩
        rintro rfl
        rw [hnone] at hl
        cases hl
      · cases hc
    · rintro ⟨hl | ⟨c, hc⟩, hne⟩
      · exact .inl hl
      · cases hc
        exact absurd rfl hne
  · rw [Function.update_of_ne hq]
    refine ⟨fun hl => ⟨hl, ?_⟩, fun h => h.1⟩
    rintro rfl
    rcases hl with hl | ⟨c, hc⟩
    · rw [hnone] at hl
      cases hl
    · exact hother q hq (by rw [hc]; rfl)

end Xv6.Inodes
