import Xv6.Opens.Code
import Xv6.Conc.Guarantee
import Mathlib.Algebra.BigOperators.Group.Finset.Basic
import Mathlib.Algebra.BigOperators.Group.Finset.Piecewise
import Mathlib.Algebra.Order.BigOperators.Group.Finset
import Mathlib.Data.Fintype.BigOperators

/-!
# References to inodes

Every reference that an entry of the inode table counts is held by a process,
for its current directory or for a call that it makes, or by an open file.
-/

namespace Xv6.Opens

open Conc Conc.Logic
open Function (update)
open Fs (NINODE)

variable {s s' : State} {p : Slot} {e : Entry} {f : FileNo} {K : Prop}

/-- A sum over a table of which one place is changed. -/
theorem sum_update {ι α : Type} [Fintype ι] [DecidableEq ι] (g : α → Nat) (t : ι → α) (i : ι)
    (x : α) : ∑ j, g (update t i x j) + g (t i) = ∑ j, g (t j) + g x := by
  have hrest : ∀ j ∈ Finset.univ.erase i, g (update t i x j) = g (t j) := by
    intro j hj
    rw [Function.update_of_ne (Finset.ne_of_mem_erase hj)]
  rw [← Finset.add_sum_erase _ (fun j => g (update t i x j)) (Finset.mem_univ i),
    ← Finset.add_sum_erase _ (fun j => g (t j)) (Finset.mem_univ i), Finset.sum_congr rfl hrest,
    Function.update_self]
  omega

/-- The references that a file has to an entry. -/
def File.refs (x : File) (e : Entry) : Nat :=
  if (x.type = .inode ∨ x.type = .device) ∧ x.ip = e then 1 else 0

theorem refs_none {x : File} (h : x.type = .none) : x.refs e = 0 := by
  simp [File.refs, h]

theorem refs_self {x : File} (h : x.type = .inode ∨ x.type = .device) (e : Entry) :
    x.refs e = if e = x.ip then 1 else 0 := by
  simp [File.refs, h, eq_comm (a := x.ip)]

/-- The references to an entry that processes have, and those that files
have. -/
def State.refs (s : State) (e : Entry) : Nat :=
  ∑ p, (s.mine p).count e + ∑ f, (s.file f).refs e

structure Inv (s : State) : Prop where
  ref : ∀ e, s.ref e = s.refs e
  /-- No two entries are for one inode. -/
  inum : ∀ e e', s.ref e ≠ 0 → s.ref e' ≠ 0 → s.inum e = s.inum e' → e = e'
  owner : ∀ f, s.owner f = none ↔ (s.file f).ref = 0
  one : ∀ f, (s.file f).ref ≤ 1
  idle : ∀ f, (s.file f).ref = 0 → (s.file f).type = .none

theorem ref_ne_of_mem (hinv : Inv s) (he : e ∈ s.mine p) : s.ref e ≠ 0 := by
  have hpos : 0 < (s.mine p).count e := Multiset.count_pos.2 he
  have hle : (s.mine p).count e ≤ ∑ q, (s.mine q).count e :=
    Finset.single_le_sum (f := fun q => (s.mine q).count e) (fun _ _ => Nat.zero_le _)
      (Finset.mem_univ p)
  rw [hinv.ref e, State.refs]
  omega

/-! ## What a step may do -/

/-- A step of process `u`. -/
structure Guar (u : Slot) (s s' : State) : Prop where
  inv : Inv s'
  mine : ∀ p, p ≠ u → s'.mine p = s.mine p
  cwd : ∀ p, p ≠ u → s'.cwd p = s.cwd p
  ofile : ∀ p, p ≠ u → s'.ofile p = s.ofile p
  file : ∀ p, p ≠ u → ∀ f, s.owner f = some p → s'.owner f = some p ∧ s'.file f = s.file f

/-- What holds of process `p` and the other processes keep. -/
def Keeps (p : Slot) (P : State → Prop) : Prop :=
  ∀ u s s', u ≠ p → Guar u s s' → P s → P s'

/-- Process `p` is in directory `c`, and has the references `m`. -/
structure Has (p : Slot) (c : Entry) (m : Multiset Entry) (s : State) : Prop where
  cwd : s.cwd p = c
  mine : s.mine p = m
  owns : ∀ fd f, s.ofile p fd = some f → s.owner f = some p
  apart : ∀ fd fd' f, s.ofile p fd = some f → s.ofile p fd' = some f → fd = fd'

/-- Process `p` has opened file `f`, which has no inode yet. -/
structure Blank (p : Slot) (f : FileNo) (s : State) : Prop where
  owner : s.owner f = some p
  type : (s.file f).type = .none

/-- Process `p` has file `f`, and no descriptor for it. -/
structure Loose (p : Slot) (f : FileNo) (s : State) : Prop where
  owner : s.owner f = some p
  ofile : ∀ fd, s.ofile p fd ≠ some f

variable {c : Entry} {m : Multiset Entry} {P Q : State → Prop}

theorem Has.keeps : Keeps p (Has p c m) := by
  intro u s s' hu hg h
  have hof := hg.ofile p hu.symm
  refine ⟨(hg.cwd p hu.symm).trans h.cwd, (hg.mine p hu.symm).trans h.mine, fun fd f hfd => ?_,
    fun fd fd' f hfd hfd' => ?_⟩
  · rw [hof] at hfd
    exact (hg.file p hu.symm f (h.owns fd f hfd)).1
  · rw [hof] at hfd hfd'
    exact h.apart fd fd' f hfd hfd'

theorem Blank.keeps : Keeps p (Blank p f) := by
  intro u s s' hu hg h
  obtain ⟨howner, hfile⟩ := hg.file p hu.symm f h.owner
  exact ⟨howner, by rw [hfile]; exact h.type⟩

theorem Loose.keeps : Keeps p (Loose p f) := by
  intro u s s' hu hg h
  refine ⟨(hg.file p hu.symm f h.owner).1, fun fd => ?_⟩
  rw [hg.ofile p hu.symm]
  exact h.ofile fd

theorem Keeps.and (hP : Keeps p P) (hQ : Keeps p Q) : Keeps p fun s => P s ∧ Q s :=
  fun u s s' hu hg h => ⟨hP u s s' hu hg h.1, hQ u s s' hu hg h.2⟩

/-! ## The logic -/

/-- An entry that a process or a file refers to. -/
def State.InUse (s : State) (e : Entry) : Prop :=
  (∃ p, e ∈ s.mine p) ∨ ∃ f, (s.file f).refs e ≠ 0

instance (s : State) (e : Entry) : Decidable (s.InUse e) := by
  unfold State.InUse
  infer_instance

/-- The inodes that the processes and the open files refer to. -/
def State.inUse (s : State) : Finset Inum := (Finset.univ.filter s.InUse).image s.inum

/-- There is an entry for an inode. -/
def State.Room (s : State) (k : Inum) : Prop := k ∈ s.inUse ∨ s.inUse.card < NINODE

instance (s : State) (k : Inum) : Decidable (s.Room k) := by
  unfold State.Room
  infer_instance

/-- The inode that an operation looks for in the table. -/
def wanted {β : Type} : Op β → Option Inum
  | .iget inum => some inum
  | _ => none

/-- When `iget` looks for an inode there is room for it. -/
def Roomy (β : Type) (_ : Slot) (o : Op β) (s : State) : Prop := ∀ k ∈ wanted o, s.Room k

instance {β : Type} (p : Slot) (o : Op β) (s : State) : Decidable (Roomy β p o s) :=
  Option.decidableForallMem (wanted o)

/-- With room for the inodes, `iget` does not panic. -/
def Safe (K : Prop) (β : Type) (_ : Slot) (o : Op β) (_ : State) : Prop :=
  match o with
  | .panic msg => K → msg ≠ "iget: no inodes"
  | _ => True

abbrev logic (ninodes : Nat) (K : Prop) : Logic (machine ninodes) :=
  ofGuarantee (machine ninodes) Inv (fun β p o s => K → Roomy β p o s) (Safe K) Guar
    fun _ _ _ _ hg => hg.inv

variable {ninodes : Nat}

theorem stable (hP : Keeps p P) : (logic ninodes K).Stable p P :=
  stable_of_guarantee (fun _ _ => rfl) fun u s s' hu _ hg hs => hP u s s' hu hg hs

/-- An operation leaves the references, the files and the descriptors alone. -/
structure Same (s s' : State) : Prop where
  inum : s'.inum = s.inum
  ref : s'.ref = s.ref
  file : s'.file = s.file
  ofile : s'.ofile = s.ofile
  cwd : s'.cwd = s.cwd
  mine : s'.mine = s.mine
  owner : s'.owner = s.owner

theorem Same.refl (s : State) : Same s s := ⟨rfl, rfl, rfl, rfl, rfl, rfl, rfl⟩

theorem Same.guar (h : Same s s') (hinv : Inv s) (u : Slot) : Guar u s s' where
  inv := by
    refine ⟨fun e => ?_, fun e e' he he' heq => ?_, fun f => ?_, fun f => ?_, fun f => ?_⟩
    · rw [h.ref, hinv.ref, State.refs, State.refs, h.mine, h.file]
    · rw [h.ref] at he he'
      rw [h.inum] at heq
      exact hinv.inum e e' he he' heq
    · rw [h.owner, h.file]
      exact hinv.owner f
    · rw [h.file]
      exact hinv.one f
    · rw [h.file]
      exact hinv.idle f
  mine _ _ := by rw [h.mine]
  cwd _ _ := by rw [h.cwd]
  ofile _ _ := by rw [h.ofile]
  file _ _ _ hown := by
    rw [h.owner, h.file]
    exact ⟨hown, rfl⟩

theorem Has.same (h : Has p c m s) (hs : Same s s') : Has p c m s' := by
  refine ⟨by rw [hs.cwd]; exact h.cwd, by rw [hs.mine]; exact h.mine, fun fd f hfd => ?_,
    fun fd fd' f hfd hfd' => ?_⟩
  · rw [hs.ofile] at hfd
    rw [hs.owner]
    exact h.owns fd f hfd
  · rw [hs.ofile] at hfd hfd'
    exact h.apart fd fd' f hfd hfd'

/-- The operations that change nothing that is tracked. -/
def Plain {β : Type} (o : Op β) : Prop :=
  (∀ (p : Slot) (i : Input) (s s' : State) (b : β), exec p i s o = some (b, s') → Same s s') ∧
    ∀ (K : Prop) (p : Slot) (s : State), Safe K β p o s

theorem plain_rule {β : Type} {o : Op β} (ho : Plain o) :
    (logic ninodes K).Triple p (Has p c m) (.perform o) fun _ => Has p c m :=
  Triple.act (fun _ _ => rfl) (stable Has.keeps) (fun s _ _ _ => ho.2 K p s)
    fun _ _ _ _ hs hinv _ hx =>
      have hsame := ho.1 _ _ _ _ _ hx
      ⟨hsame.guar hinv p, hs.same hsame⟩

/-- An operation that answers without a change. -/
theorem plain_read {β : Type} {o : Op β} (f : Slot → Input → State → β)
    (ho : ∀ (p : Slot) (i : Input) (s : State), exec p i s o = some (f p i s, s))
    (hsafe : ∀ (K : Prop) (p : Slot) (s : State), Safe K β p o s) : Plain o := by
  refine ⟨fun p i s s' b hx => ?_, hsafe⟩
  rw [ho p i s] at hx
  cases hx
  exact .refl s

theorem plain_next : Plain .next := plain_read (fun _ i _ => i.call) (fun _ _ _ => rfl) (fun _ _ _ => trivial)

theorem plain_ref : Plain (.ref e) :=
  plain_read (fun _ _ s => s.ref e) (fun _ _ _ => rfl) (fun _ _ _ => trivial)

theorem plain_inode : Plain (.inode e) :=
  plain_read (fun _ _ s => s.node e) (fun _ _ _ => rfl) (fun _ _ _ => trivial)

theorem plain_inum : Plain (.inum e) :=
  plain_read (fun _ _ s => s.inum e) (fun _ _ _ => rfl) (fun _ _ _ => trivial)

theorem plain_holdingsleep : Plain (.holdingsleep e) :=
  plain_read (fun p _ s => decide (s.lock e = some p)) (fun _ _ _ => rfl) (fun _ _ _ => trivial)

theorem plain_entry {name : Fs.Chars} : Plain (.entry e name) :=
  plain_read (fun _ _ s => s.entry (s.inum e) (Fs.strncpy name Fs.DIRSIZ)) (fun _ _ _ => rfl)
    (fun _ _ _ => trivial)

theorem plain_acquiresleep : Plain (.acquiresleep e) := by
  refine ⟨fun p i s s' b hx => ?_, fun _ _ _ => trivial⟩
  obtain ⟨-, heq⟩ := Option.ite_none_right_eq_some.1 hx
  cases heq
  exact ⟨rfl, rfl, rfl, rfl, rfl, rfl, rfl⟩

theorem plain_releasesleep : Plain (.releasesleep e) := by
  refine ⟨fun p i s s' b hx => ?_, fun _ _ _ => trivial⟩
  cases hx
  exact ⟨rfl, rfl, rfl, rfl, rfl, rfl, rfl⟩

theorem plain_setInode {d : Dinode} : Plain (.setInode e d) := by
  refine ⟨fun p i s s' b hx => ?_, fun _ _ _ => trivial⟩
  cases hx
  exact ⟨rfl, rfl, rfl, rfl, rfl, rfl, rfl⟩

theorem plain_claim {k : Inum} {type : Fs.I16} : Plain (.claim k type) := by
  refine ⟨fun p i s s' b hx => ?_, fun _ _ _ => trivial⟩
  simp only [exec] at hx
  split at hx <;> cases hx
  · exact ⟨rfl, rfl, rfl, rfl, rfl, rfl, rfl⟩
  · exact .refl _

theorem plain_setEntry {name : Fs.Chars} {k : Inum} : Plain (.setEntry e name k) := by
  refine ⟨fun p i s s' b hx => ?_, fun _ _ _ => trivial⟩
  simp only [exec] at hx
  split at hx <;> cases hx
  · exact .refl _
  · exact ⟨rfl, rfl, rfl, rfl, rfl, rfl, rfl⟩

end Xv6.Opens
