import Xv6.Grep.Code
import Xv6.Text.Items

/-!
# What a pattern means

A pattern of grep is a sequence of items, and `match` finds out whether a text
has a part that is in its language.
-/

namespace Xv6.Grep

open Shell (ch)
open Text

/-- A string of C has no NUL before its end. -/
structure CString where
  bytes : List Byte
  nul_free : 0 ∉ bytes

/-- The characters that `c` stands for, as `.` stands for any one. -/
def stands (c : Byte) : Byte → Bool := fun x => c = ch '.' || c = x

/-- The items of a pattern from left to right, and whether its last character
is a `$` that stands for the end of the text.  A character before a `*` is
starred, whatever it is. -/
def parse : List Byte → List (Item Byte) × Bool
  | [] => ([], false)
  | [c] => if c = ch '$' then ([], true) else ([.one (stands c)], false)
  | c :: d :: re =>
    if d = ch '*' then ((.star (stands c) :: (parse re).1), (parse re).2)
    else ((.one (stands c) :: (parse (d :: re)).1), (parse (d :: re)).2)

/-- The text begins with a match. -/
def BeginsWith (re text : List Byte) : Prop := Begins (parse re).1 (parse re).2 text

/-- Some part of the text is in the language of the pattern.  A `^` in front
asks for a part that begins the text. -/
def Has (text re : List Byte) : Prop :=
  if re.head? = some (ch '^') then
    Occurs true (parse re.tail).1 (parse re.tail).2 text
  else Occurs false (parse re).1 (parse re).2 text

variable {re text : List Byte} {c d : Byte}

theorem ne_zero_of_not_mem (h : 0 ∉ c :: text) : c ≠ 0 :=
  fun hc => h (hc ▸ List.mem_cons_self)

theorem tail_nul_free (h : 0 ∉ c :: text) : 0 ∉ text :=
  fun hmem => h (List.mem_cons_of_mem _ hmem)

theorem peek_zero (h : 0 ∉ text) : peek text 0 = 0 ↔ text = [] := by
  cases text with
  | nil => simp [peek]
  | cons c s => simpa [peek] using ne_zero_of_not_mem h

theorem matchhere_nil : matchhere [] text = true := by
  rw [matchhere]
  simp [peek]

theorem matchhere_star (hc : c ≠ 0) : matchhere (c :: ch '*' :: re) text = matchstar c re text := by
  have hc' : ¬ c = 0#8 := hc
  rw [matchhere]
  simp [peek, hc']

theorem matchhere_end (htext : 0 ∉ text) :
    matchhere [ch '$'] text = true ↔ text = [] := by
  rw [matchhere, ← peek_zero htext]
  simp [peek, ch]

/-- A character that is neither starred nor the last `$` is one character of
the text. -/
theorem matchhere_one (hre : 0 ∉ c :: re) (hstar : peek re 0 ≠ ch '*')
    (hend : ¬ (c = ch '$' ∧ re = [])) :
    matchhere (c :: re) text =
      if peek text 0 ≠ 0 ∧ (c = ch '.' ∨ c = peek text 0) then matchhere re (text.drop 1)
      else false := by
  rw [← peek_zero (tail_nul_free hre)] at hend
  rw [matchhere, dif_neg (show peek (c :: re) 0 ≠ 0 from ne_zero_of_not_mem hre),
    dif_neg (show peek (c :: re) 1 ≠ ch '*' from hstar),
    if_neg (show ¬ (peek (c :: re) 0 = ch '$' ∧ peek (c :: re) 1 = 0) from hend)]
  rfl

theorem matchhere_one_nil (hre : 0 ∉ c :: re) (hstar : peek re 0 ≠ ch '*')
    (hend : ¬ (c = ch '$' ∧ re = [])) : matchhere (c :: re) [] = false := by
  rw [matchhere_one hre hstar hend]
  simp [peek]

theorem matchhere_one_cons (hre : 0 ∉ c :: re) (hstar : peek re 0 ≠ ch '*')
    (hend : ¬ (c = ch '$' ∧ re = [])) (hd : d ≠ 0) :
    matchhere (c :: re) (d :: text) = (stands c d && matchhere re text) := by
  have hd' : ¬ d = 0#8 := hd
  rw [matchhere_one hre hstar hend]
  by_cases h : c = ch '.' ∨ c = d
  · have hs : stands c d = true := by simpa [stands] using h
    simp [peek, hs, h, hd']
  · have hs : stands c d = false := by simpa [stands] using h
    simp [peek, hs, h]

variable {items : List (Item Byte)} {atEnd : Bool}

/-- The star tries every number of characters, the least one first. -/
theorem matchstar_iff
    (hre : ∀ text : List Byte, 0 ∉ text → (matchhere re text = true ↔ Begins items atEnd text))
    (htext : 0 ∉ text) :
    matchstar c re text = true ↔ Begins (.star (stands c) :: items) atEnd text := by
  induction text with
  | nil =>
    rw [matchstar, begins_star_nil, ← hre [] htext]
    simp [peek]
  | cons d text ih =>
    have hd : ¬ d = 0#8 := ne_zero_of_not_mem htext
    have hs : d = c ∨ c = ch '.' ↔ stands c d = true := by
      grind [stands]
    rw [matchstar, begins_star_cons, ← ih (tail_nul_free htext), ← hre (d :: text) htext, ← hs]
    by_cases hm : matchhere re (d :: text) = true
    · simp [hm]
    · by_cases h : d = c ∨ c = ch '.'
      · simp [hm, h, peek, hd]
      · simp [hm, h, peek]

theorem matchhere_iff (hre : 0 ∉ re) (htext : 0 ∉ text) :
    matchhere re text = true ↔ BeginsWith re text := by
  unfold BeginsWith
  fun_induction parse re generalizing text with
  | case1 => simp [matchhere_nil, begins_nil]
  | case2 => rw [matchhere_end htext, begins_nil]; simp
  | case3 c hend =>
    have hone : ¬ (c = ch '$' ∧ ([] : List Byte) = []) := by simpa using hend
    cases text with
    | nil => simp [matchhere_one_nil hre (by simp [peek, ch]) hone, not_begins_one_nil]
    | cons d text =>
      rw [matchhere_one_cons hre (by simp [peek, ch]) hone (ne_zero_of_not_mem htext),
        begins_one_cons]
      simp [matchhere_nil, begins_nil]
  | case4 c re ih =>
    have hre' : 0 ∉ re := tail_nul_free (tail_nul_free hre)
    rw [matchhere_star (ne_zero_of_not_mem hre)]
    exact matchstar_iff (fun text h => ih hre' h) htext
  | case5 c d re hstar ih =>
    have hone : ¬ (c = ch '$' ∧ d :: re = []) := by simp
    cases text with
    | nil => simp [matchhere_one_nil hre (by simpa [peek] using hstar) hone, not_begins_one_nil]
    | cons x text =>
      rw [matchhere_one_cons hre (by simpa [peek] using hstar) hone (ne_zero_of_not_mem htext),
        begins_one_cons, ← ih (tail_nul_free hre) (tail_nul_free htext)]
      simp

theorem matchLoop_iff (hre : 0 ∉ re) (htext : 0 ∉ text) :
    matchLoop re text = true ↔ Occurs false (parse re).1 (parse re).2 text := by
  induction text with
  | nil =>
    have hbegin : matchhere re [] = true ↔ Begins (parse re).1 (parse re).2 [] :=
      matchhere_iff hre htext
    rw [matchLoop, occurs_nil, ← hbegin]
    simp [peek]
  | cons c text ih =>
    have hc : ¬ c = 0#8 := ne_zero_of_not_mem htext
    have hbegin : matchhere re (c :: text) = true ↔ Begins (parse re).1 (parse re).2 (c :: text) :=
      matchhere_iff hre htext
    rw [matchLoop, occurs_cons, ← ih (tail_nul_free htext), ← hbegin]
    by_cases hm : matchhere re (c :: text) = true
    · simp [hm]
    · simp [hm, peek, hc]

/-- `match` is right about every pattern and every text. -/
theorem match_iff (re text : CString) :
    matchre re.bytes text.bytes = true ↔ Has text.bytes re.bytes := by
  cases re with | mk re hre =>
  unfold matchre Has
  cases re with
  | nil =>
    simpa [peek, ch] using matchLoop_iff hre text.nul_free
  | cons c re =>
    simp only [peek, List.getD_cons_zero, List.head?_cons, Option.some.injEq, List.tail_cons,
      List.drop_succ_cons, List.drop_zero]
    split
    · rw [occurs_atStart, matchhere_iff (tail_nul_free hre) text.nul_free]
      rfl
    · exact matchLoop_iff hre text.nul_free

end Xv6.Grep
