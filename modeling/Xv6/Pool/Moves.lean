import Mathlib.Data.List.Perm.Basic

/-!
# Cells handed out by a pool

A pool hands out cells of a memory and takes them back.  A step that starts
with the cells `own` in its hands ends with `own'`: it neither loses a cell
nor makes one up, and it leaves every cell alone that was neither its own nor
in the pool.
-/

namespace Pool

variable {A B : Type}

/-- The cells in the pool and those handed out are all different. -/
def Apart (free own : List A) : Prop := (free ++ own).Nodup

/-- A step on a memory and its pool takes the holdings `own` to `own'`. -/
structure Moves (h h' : A → B) (free free' own own' : List A) : Prop where
  perm : (free' ++ own').Perm (free ++ own)
  frame : ∀ a, a ∉ free → a ∉ own → h' a = h a

variable {h h' h'' : A → B} {free free' free'' own own' own'' rest : List A} {a : A}

theorem Apart.not_mem (hd : Apart free own) (ha : a ∈ own) : a ∉ free :=
  fun hfree => (List.nodup_append.1 hd).2.2 a hfree a ha rfl

theorem Apart.nodup_own (hd : Apart free own) : own.Nodup := (List.nodup_append.1 hd).2.1

theorem Apart.nodup_free (hd : Apart free own) : free.Nodup := (List.nodup_append.1 hd).1

theorem Apart.perm (hd : Apart free own) (hp : own'.Perm own) : Apart free own' :=
  (hp.append_left free).nodup_iff.2 hd

theorem Apart.sublist (hd : Apart free own) (hs : own'.Sublist own) : Apart free own' :=
  List.Nodup.sublist (hs.append_left free) hd

namespace Moves

theorem apart (hm : Moves h h' free free' own own') (hd : Apart free own) : Apart free' own' :=
  hm.perm.nodup_iff.2 hd

theorem mem_iff (hm : Moves h h' free free' own own') :
    a ∈ free' ∨ a ∈ own' ↔ a ∈ free ∨ a ∈ own := by
  rw [← List.mem_append, ← List.mem_append]
  exact hm.perm.mem_iff

theorem length_eq (hm : Moves h h' free free' own own') :
    free'.length + own'.length = free.length + own.length := by
  rw [← List.length_append, ← List.length_append]
  exact hm.perm.length_eq

theorem refl : Moves h h free free own own := ⟨.rfl, fun _ _ _ => rfl⟩

theorem trans (hm : Moves h h' free free' own own') (hm' : Moves h' h'' free' free'' own' own'') :
    Moves h h'' free free'' own own'' where
  perm := hm'.perm.trans hm.perm
  frame a hfree hown := by
    have hnot : ¬ (a ∈ free' ∨ a ∈ own') := fun hmem => (hm.mem_iff.1 hmem).elim hfree hown
    rw [hm'.frame a (fun hf => hnot (.inl hf)) fun ho => hnot (.inr ho), hm.frame a hfree hown]

/-- The order of the holdings does not matter. -/
theorem congr {own₁ own₁' : List A} (hm : Moves h h' free free' own own') (hp : own₁.Perm own)
    (hp' : own₁'.Perm own') : Moves h h' free free' own₁ own₁' where
  perm := (hp'.append_left free').trans (hm.perm.trans (hp.append_left free).symm)
  frame a hfree hown := hm.frame a hfree fun ho => hown (hp.mem_iff.2 ho)

/-- More holdings, which the step does not use. -/
theorem extend (hm : Moves h h' free free' own own') (rest : List A) :
    Moves h h' free free' (own ++ rest) (own' ++ rest) where
  perm := by
    rw [← List.append_assoc, ← List.append_assoc]
    exact hm.perm.append_right rest
  frame a hfree hown := hm.frame a hfree fun ho => hown (List.mem_append_left rest ho)

/-- A step leaves what it does not hold as it was. -/
theorem keeps (hm : Moves h h' free free' own own') (hd : Apart free (own ++ rest))
    (ha : a ∈ rest) : h' a = h a := by
  refine hm.frame a (hd.not_mem (List.mem_append_right own ha)) fun ho => ?_
  exact (List.nodup_append.1 hd.nodup_own).2.2 a ho a ha rfl

end Moves

end Pool
