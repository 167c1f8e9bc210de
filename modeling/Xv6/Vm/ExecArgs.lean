import Xv6.Vm.ExecClean

/-!
# `exec` passes the arguments

A program that `exec` has started finds its arguments on its stack page, and
arguments that do not fit there are an error.
-/

namespace Xv6

open Vm (Caller FileSystem)

variable {Inode : Type} {m : Mem} {ts : List U64}

namespace Vm

/-- A store into the array `ustack`, which has `MAXARG` entries. -/
def storeUstack (ustack : List U64) (w : U64) : Vm (List U64) := do
  if ustack.length ≥ MAXARG then
    Vm.panic "ustack"
  return ustack ++ [w]

/-- `pushStrings` with checked stores into `ustack`. -/
def pushStringsChecked (pagetable stackbase : U64) :
    List U64 → U64 → List U64 → Vm (Option (U64 × List U64))
  | [], sp, ustack => return some (sp, ustack)
  | arg :: argv, sp, ustack => do
    if ustack.length ≥ MAXARG then
      return none
    let s ← stringAt arg
    let sp := sp - .ofNat 64 (s.length + 1)
    let sp := sp - sp % 16
    if sp < stackbase then
      return none
    match ← copyout pagetable sp (s ++ [0]) with
    | none => return none
    | some () =>
      let ustack ← storeUstack ustack sp
      pushStringsChecked pagetable stackbase argv sp ustack

/-- `pushArgs` with checked stores into `ustack`. -/
def pushArgsChecked (pagetable stackbase sp : U64) (argv : List U64) :
    Vm (Option (U64 × Nat)) := do
  match ← pushStringsChecked pagetable stackbase argv sp [] with
  | none => return none
  | some (sp, ustack) =>
    let words ← storeUstack ustack 0
    let sp := sp - .ofNat 64 ((ustack.length + 1) * 8)
    let sp := sp - sp % 16
    if sp < stackbase then
      return none
    match ← copyout pagetable sp (words.flatMap wordBytes) with
    | none => return none
    | some () => return some (sp, ustack.length)

end Vm

/-! ## The array of the kernel -/

theorem storeUstack_ok {ustack : List U64} (h : ustack.length < Vm.MAXARG) (w : U64) :
    Vm.storeUstack ustack w = pure (ustack ++ [w]) := by
  unfold Vm.storeUstack
  rw [if_neg (Nat.not_le.2 h)]

/-- The strings go to the entries of `ustack` one after the other. -/
theorem pushStrings_length {root base : U64} {argv : List U64} :
    ∀ {m m' : Mem} {sp sp' : U64} {ustack us : List U64},
      Vm.pushStrings root base argv sp ustack m = .ok (some (sp', us), m') →
        us.length = ustack.length + argv.length := by
  induction argv with
  | nil =>
    intro m m' sp sp' ustack us h
    cases h
    rfl
  | cons arg argv ih =>
    intro m m' sp sp' ustack us h
    unfold Vm.pushStrings at h
    split at h
    · cases h
    · obtain ⟨s, m₁, -, h⟩ := Vm.of_bind h
      dsimp only at h
      split at h
      · cases h
      · obtain ⟨r, m₂, -, h⟩ := Vm.of_bind h
        cases r with
        | none => cases h
        | some u =>
          rw [ih h]
          simp
          omega

theorem pushStringsChecked_eq {root base : U64} {argv : List U64} :
    ∀ {sp : U64} {ustack : List U64},
      Vm.pushStringsChecked root base argv sp ustack = Vm.pushStrings root base argv sp ustack := by
  induction argv with
  | nil => intros; rfl
  | cons arg argv ih =>
    intro sp ustack
    unfold Vm.pushStringsChecked Vm.pushStrings
    split
    · rfl
    · rename_i hroom
      refine bind_congr fun s => ?_
      dsimp only
      split
      · rfl
      · refine bind_congr fun r => ?_
        cases r with
        | none => rfl
        | some u =>
          dsimp only
          rw [storeUstack_ok (Nat.not_le.1 hroom), pure_bind, ih]

/-- With fewer than `MAXARG` arguments no store into `ustack` is out of
bounds. -/
theorem pushArgsChecked_eq {root base sp : U64} {argv : List U64}
    (hmany : argv.length < Vm.MAXARG) :
    Vm.pushArgsChecked root base sp argv = Vm.pushArgs root base sp argv := by
  unfold Vm.pushArgsChecked Vm.pushArgs
  rw [pushStringsChecked_eq]
  funext m
  cases hrun : Vm.pushStrings root base argv sp [] m with
  | error msg =>
    show Except.bind _ _ = Except.bind _ _
    rw [hrun]
    rfl
  | ok r =>
    obtain ⟨r, m'⟩ := r
    rw [Vm.bind_ok hrun, Vm.bind_ok hrun]
    cases r with
    | none => rfl
    | some pushed =>
      have hlen := pushStrings_length hrun
      rw [List.length_nil, Nat.zero_add] at hlen
      dsimp only
      rw [storeUstack_ok (by omega)]
      exact congrFun (pure_bind _ _) m'

/-! ## The arguments of a program -/

/-- A page of the kernel's own data holds the empty string. -/
theorem kernelString_firstFree : KernelString (firstFree 20) [] 0x80001000 [] where
  taken := by decide
  apart := List.not_mem_nil
  nonzero _ hb := absurd hb List.not_mem_nil
  fits := by decide
  byte i hi := by
    obtain rfl : i = 0 := Nat.le_zero.1 hi
    rfl

end Xv6
