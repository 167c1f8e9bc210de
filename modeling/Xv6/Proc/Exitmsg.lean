import Xv6.Proc.Status
import Xv6.Vm.Strings

/-!
# Exit messages

`sys_exitmsg` reads the string into 32 bytes, `exit_msg` stores it in
`p->exit_msg`, and calls `exit`, which stores its own message there.
-/

namespace Xv6

open Conc

/-! ## Messages of 32 bytes -/

theorem cstring_append_zero {text : List Byte} (h : ∀ b ∈ text, b ≠ 0) (rest : List Byte) :
    cstring (text ++ 0 :: rest) = text := by
  unfold cstring
  rw [List.takeWhile_append_of_pos (by simpa using h), List.takeWhile_cons_of_neg (by simp),
    List.append_nil]

theorem cstring_nonzero (text : List Byte) : ∀ b ∈ cstring text, b ≠ 0 := by
  intro b hb
  have hall := List.all_takeWhile (p := fun b : Byte => decide (b ≠ 0)) (l := text)
  simpa using List.all_eq_true.1 hall b hb

/-- A message is cut to 31 bytes and padded. -/
theorem exitMsgOf_eq (text : List Byte) : exitMsgOf text =
    (cstring text).take 31 ++ 0 :: List.replicate (31 - (cstring text).length) 0 := by
  unfold exitMsgOf strncpy
  generalize cstring text = t
  apply List.ext_getElem
  · simp
    omega
  · intro i h₁ h₂
    simp only [List.length_set, List.length_take, List.length_append, List.length_replicate] at h₁
    rw [List.getElem_set, List.getElem_take, List.getElem_append, List.getElem_append]
    by_cases hi : i = 31
    · subst hi
      have hlen : (t.take 31).length ≤ 31 := List.length_take_le _ _
      rw [if_pos rfl, dif_neg (by omega), List.getElem_cons]
      simp
    · rw [if_neg (Ne.symm hi)]
      by_cases ht : i < t.length
      · rw [dif_pos ht, dif_pos (by rw [List.length_take]; omega), List.getElem_take]
      · rw [dif_neg ht, dif_neg (by rw [List.length_take]; omega), List.getElem_cons,
          List.getElem_replicate]
        split
        · rfl
        · rw [List.getElem_replicate]

/-- The string that a message holds. -/
theorem cstring_exitMsgOf (text : List Byte) :
    cstring (exitMsgOf text) = (cstring text).take 31 := by
  rw [exitMsgOf_eq]
  exact cstring_append_zero (fun b hb => cstring_nonzero text b (List.mem_of_mem_take hb)) _

theorem exitMsgOf_eq_iff (text text' : List Byte) :
    exitMsgOf text = exitMsgOf text' ↔ (cstring text).take 31 = (cstring text').take 31 := by
  constructor
  · intro h
    rw [← cstring_exitMsgOf, ← cstring_exitMsgOf, h]
  · intro h
    have hlen := congrArg List.length h
    rw [List.length_take, List.length_take] at hlen
    rw [exitMsgOf_eq, exitMsgOf_eq, h,
      show 31 - (cstring text).length = 31 - (cstring text').length by omega]

/-! ## What becomes of the string -/

/-- What `exit_msg` stores. -/
def goodbye : List Byte := literal "Goodbye World xv6"

/-- The child calls `exitmsg` with the empty string at address 256, and its
parent waits for it. -/
def emptyMessage : List (Cpu × Input) :=
  initForks ++ steps 1 30 ++ calls 1 (.exitmsg 256) ++ steps 1 695 ++ calls 0 (.wait 0 64) ++
    steps 0 34

set_option maxRecDepth 100000 in
def emptyMessageSeen : Sight Machine.always 60
    (noteAt · 0) (some (.messageStored (some .msg) (some []) (exitMsgOf goodbye))) :=
  .after emptyMessage (by decide +kernel)

end Xv6
