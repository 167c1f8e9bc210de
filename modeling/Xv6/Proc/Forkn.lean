import Xv6.Proc.SyscallRules

/-!
# What `forkn` delivers

`forkn` returns -2 when it has created its processes, and `sys_forkn` stores
the array of their ids when `forkn` has returned 0.
-/

namespace Xv6

open Conc

/-- The memory of a process holds an array of ids. -/
def ArrayHolds (s : Kernel) (p : Slot) (addr : U64) (pids : List I32) : Prop :=
  ∃ pagetable, (s.proc p).priv.pagetable = some pagetable ∧
    copyin pagetable addr (4 * pids.length) s.mem = .ok (some (pids.flatMap intBytes), s.mem)

/-- What the four bytes at an address of the memory of a process hold. -/
def wordAt (g : System) (p : Slot) (addr : U64) : Option (List Byte) :=
  match (g.mem.proc p).priv.pagetable with
  | none => none
  | some pagetable =>
    match copyin pagetable addr 4 g.mem.mem with
    | .ok (bytes, _) => bytes
    | .error _ => none

theorem wordAt_of_arrayHolds {g : System} {p : Slot} {addr : U64} {pid : I32}
    (h : ArrayHolds g.mem p addr [pid]) : wordAt g p addr = some (intBytes pid) := by
  obtain ⟨pagetable, hpt, hcopy⟩ := h
  unfold wordAt
  rw [hpt]
  simp only [List.length_singleton, Nat.mul_one] at hcopy
  simp [hcopy]

/-- `initproc` calls `forkn(1, 256)`. -/
def initForkns : List (Cpu × Input) :=
  steps 0 24 ++ calls 0 (.forkn 1 256) ++ steps 0 100

set_option maxRecDepth 100000 in
def initForknsSeen : Sight Machine.always 60
    (fun g => (noteAt g 0, g.mem.current 0, (g.mem.proc 1).parent, wordAt g 0 256))
    (some (.forknEnds 256 (-2) [2] false), some 0, some 0, some [0, 0, 0, 0]) :=
  .after initForkns (by decide +kernel)

end Xv6
