import Xv6.Opens.Overflow

/-!
# No reference is left behind

The inode that a process or an open file refers to stays in its entry of the
inode table.
-/

namespace Xv6.Opens

open Conc Conc.Logic
open Function (update)

variable {s s' : State} {p : Slot} {e : Entry}

/-- Only `iget` gives an entry another inode, and only if nothing refers to
it. -/
theorem iget_inum (p : Slot) (k : Inum) (he : s.ref e ≠ 0) :
    (iget p k s).2.inum e = s.inum e := by
  unfold iget
  split
  · rfl
  · split
    · rename_i a hfree
      have ha := List.find?_some hfree
      simp only [decide_eq_true_eq] at ha
      have hne : e ≠ a := by
        rintro rfl
        exact he ha
      exact Function.update_of_ne hne ..
    · rfl

theorem filealloc_inum (p : Slot) (s : State) : (filealloc p s).2.inum = s.inum := by
  unfold filealloc
  split <;> rfl

theorem fdalloc_inum (p : Slot) (f : FileNo) (s : State) : (fdalloc p f s).2.inum = s.inum := by
  unfold fdalloc
  split <;> rfl

theorem fileclose_inum (p : Slot) (f : FileNo) (s : State) :
    (fileclose p f s).2.inum = s.inum := by
  simp only [fileclose]
  split
  · rfl
  · split
    · rfl
    · split <;> rfl

theorem exec_inum {β : Type} {i : Input} {o : Op β} {b : β} (he : s.ref e ≠ 0)
    (hx : exec p i s o = some (b, s')) : s'.inum e = s.inum e := by
  have hsame : ∀ {t : State} {b' : β}, some (b', t) = some (b, s') → t.inum = s.inum →
      s'.inum e = s.inum e := by
    intro t b' heq ht
    obtain rfl := (Prod.mk.inj (Option.some.inj heq)).2
    rw [ht]
  cases o with
  | iget k =>
    obtain rfl := congrArg Prod.snd (Option.some.inj hx)
    exact iget_inum p k he
  | filealloc => exact hsame hx (filealloc_inum p s)
  | fdalloc f => exact hsame hx (fdalloc_inum p f s)
  | fileclose f => exact hsame hx (fileclose_inum p f s)
  | acquiresleep a =>
    simp only [exec] at hx
    split at hx
    · exact hsame hx rfl
    · cases hx
  | claim k type =>
    simp only [exec] at hx
    split at hx <;> exact hsame hx rfl
  | drop a =>
    simp only [exec, drop] at hx
    split at hx
    · split at hx
      · exact hsame hx rfl
      · cases hx
    · exact hsame hx rfl
  | setEntry dp name k =>
    simp only [exec] at hx
    split at hx <;> exact hsame hx rfl
  | clear fd =>
    simp only [exec] at hx
    split at hx <;> exact hsame hx rfl
  | panic => cases hx
  | next | idup | ref | releasesleep | holdingsleep | inode | inum | setInode | unref | entry
  | fill | ofile | cwd | setCwd => exact hsame hx rfl

/-- In every run the reference count of an entry of the inode table is the
number of references to it that processes and open files have, and no two
entries in use are for one inode; so as long as somebody has a reference, the
entry stays the one of its inode. -/
theorem references_counted (ninodes : Nat) (inode : Inum → Dinode)
    (entry : Inum → List Byte → Option Inum) (g : Config Op State Slot)
    (hg : (machine ninodes).Reach Machine.always (start ninodes inode entry) g) :
    (∀ e, g.mem.ref e = g.mem.refs e) ∧
    (∀ e e', g.mem.ref e ≠ 0 → g.mem.ref e' ≠ 0 → g.mem.inum e = g.mem.inum e' → e = e') ∧
    ∀ p i g', (machine ninodes).step p i g = some g' →
      ∀ e, g.mem.refs e ≠ 0 → g'.mem.inum e = g.mem.inum e := by
  have hinv : Inv g.mem := (Logic.inv_of_reach (fun _ h => h.elim) (fun _ => rfl) inv_start
    (main_ok False) hg).1
  refine ⟨hinv.ref, hinv.inum, fun p i g' hstep e he => ?_⟩
  have href : g.mem.ref e ≠ 0 := by
    rw [hinv.ref e]
    exact Nat.cast_ne_zero.2 he
  obtain ⟨_, _, _, _, _, -, rfl⟩ | ⟨_, _, _, _, _, -, hx, rfl⟩ := Machine.step_cases _ hstep
  · rfl
  · exact exec_inum href hx

/-- Two files are open. -/
theorem references_counted_two : ∃ g : Config Op State Slot,
    (machine 200).Reach Machine.always (start 200 flat files) g ∧ g.mem.ref 2 = 1 ∧
      g.mem.refs 2 = 1 := by
  have hview : ((machine 200).run Machine.always ((List.range 2).flatMap (openSteps · 28))
      (start 200 flat files)).map (fun g => g.mem.ref 2) = some 1 := by decide +kernel
  obtain ⟨g, hrun, hg⟩ := Option.map_eq_some_iff.1 hview
  have hreach := Machine.reach_of_run _ _ .start hrun
  have href := (references_counted 200 flat files g hreach).1 2
  refine ⟨g, hreach, hg, ?_⟩
  rw [hg] at href
  exact_mod_cast href.symm

end Xv6.Opens
