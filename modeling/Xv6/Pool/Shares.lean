import Mathlib.Data.List.Nodup
import Mathlib.Data.List.Pairwise
import Mathlib.Logic.Function.Basic

/-!
# Holdings of several owners

Each owner has a list of cells.  When all cells together are different, a cell
has one owner; and when one owner's cells change, those of the others do not.
-/

namespace Pool

variable {I A : Type} {owners : List I} {share : I → List A} {i j : I} {a : A}

/-- A cell has one owner. -/
theorem owner_unique (hd : (owners.flatMap share).Nodup) (hi : i ∈ owners) (hj : j ∈ owners)
    (hai : a ∈ share i) (haj : a ∈ share j) : i = j := by
  obtain ⟨-, hpair⟩ := List.nodup_flatMap.1 hd
  have hsymm : Std.Symm (Function.onFun List.Disjoint share) :=
    ⟨fun _ _ h _ ha hb => h hb ha⟩
  by_contra hne
  exact hpair.forall hi hj hne hai haj

theorem share_nodup (hd : (owners.flatMap share).Nodup) (hi : i ∈ owners) : (share i).Nodup :=
  (List.nodup_flatMap.1 hd).1 i hi

theorem flatMap_update_of_not_mem [DecidableEq I] (hi : i ∉ owners) (x : List A) :
    owners.flatMap (Function.update share i x) = owners.flatMap share := by
  refine List.flatMap_congr fun j hj => Function.update_of_ne ?_ ..
  rintro rfl
  exact hi hj

/-- What the owners other than `i` have. -/
theorem exists_others [DecidableEq I] (hd : owners.Nodup) (hi : i ∈ owners)
    (share : I → List A) : ∃ others : List A,
      (∀ j ∈ owners, j ≠ i → ∀ a ∈ share j, a ∈ others) ∧
      ∀ x, (owners.flatMap (Function.update share i x)).Perm (x ++ others) := by
  obtain ⟨before, after, rfl⟩ := List.append_of_mem hi
  have hnot := List.nodup_middle.1 hd
  rw [List.nodup_cons, List.mem_append, not_or] at hnot
  obtain ⟨⟨hbefore, hafter⟩, -⟩ := hnot
  refine ⟨before.flatMap share ++ after.flatMap share, fun j hj hne a ha => ?_, fun x => ?_⟩
  · rw [List.mem_append, List.mem_cons] at hj
    rw [List.mem_append]
    obtain hj | rfl | hj := hj
    · exact .inl (List.mem_flatMap.2 ⟨j, hj, ha⟩)
    · exact absurd rfl hne
    · exact .inr (List.mem_flatMap.2 ⟨j, hj, ha⟩)
  · rw [List.flatMap_append, List.flatMap_cons, flatMap_update_of_not_mem hbefore,
      flatMap_update_of_not_mem hafter, Function.update_self, ← List.append_assoc,
      ← List.append_assoc]
    exact List.perm_append_comm.append_right _

end Pool
