import Xv6.Grep.Pattern

/-!
# The lines that grep writes

The buffer has room for a line of 1022 characters and its newline.  The loop
ends at the first line that is longer, as if the input ended there, and it does
not look at a last line without a newline.  The lines before that are searched
one after the other, wherever the reads cut them.
-/

namespace Xv6.Grep

open Shell (ch)

/-- The lines of a text, each with its newline if it has one. -/
def lines : List Byte → List (List Byte)
  | [] => []
  | c :: s =>
    if c = ch '\n' then [c] :: lines s
    else
      match lines s with
      | [] => [[c]]
      | l :: ls => (c :: l) :: ls

/-- What the pattern is compared with. -/
def content (l : List Byte) : List Byte := l.takeWhile (· ≠ ch '\n')

/-- The pattern matches the line. -/
def selects (pattern l : List Byte) : Bool := matchre pattern (content l)

/-- The line ends with its newline, and it fits into the buffer. -/
def fits (l : List Byte) : Bool := ch '\n' ∈ l ∧ l.length < BUFSIZE

/-- The matching lines of the input are written, each once, whole and in order,
wherever the reads cut the input. -/
def WritesMatches (pattern input : List Byte) : Prop :=
  ∀ cut, grep pattern cut input = (lines input).filter (selects pattern)

/-- A newline at the end, and no other one. -/
def IsLine (l : List Byte) : Prop := ∃ a, ch '\n' ∉ a ∧ l = a ++ [ch '\n']

variable {pattern s t p l : List Byte} {ls : List (List Byte)} {q : Nat}

/-! ## Lines -/

/-- The lines of a text make up the text. -/
theorem flatten_lines (s : List Byte) : (lines s).flatten = s := by
  induction s with
  | nil => rfl
  | cons c s ih =>
    rw [lines]
    split
    · simp [ih]
    · cases hs : lines s with
      | nil => simp_all
      | cons l ls => simp_all

theorem lines_of_not_mem (h : ch '\n' ∉ s) (hs : s ≠ []) : lines s = [s] := by
  induction s with
  | nil => exact absurd rfl hs
  | cons c s ih =>
    simp only [List.mem_cons, not_or] at h
    rw [lines, if_neg fun hc => h.1 hc.symm]
    cases s with
    | nil => rfl
    | cons d s => rw [ih h.2 (by simp)]

theorem lines_isLine_append (h : IsLine l) (t : List Byte) : lines (l ++ t) = l :: lines t := by
  rcases h with ⟨a, ha, rfl⟩
  induction a with
  | nil => simp [lines]
  | cons c a ih =>
    simp only [List.mem_cons, not_or] at ha
    rw [List.cons_append, List.cons_append, lines, if_neg fun hc => ha.1 hc.symm, ih ha.2]

theorem lines_flatten_append (h : ∀ l ∈ ls, IsLine l) (t : List Byte) :
    lines (ls.flatten ++ t) = ls ++ lines t := by
  induction ls with
  | nil => rfl
  | cons l ls ih =>
    rw [List.flatten_cons, List.append_assoc, lines_isLine_append (h l (by simp)),
      ih fun l hl => h l (by simp [hl])]
    rfl

/-- The first line begins with what is in front of the first newline. -/
theorem lines_prefix (h : ch '\n' ∉ s) (hs : s ≠ []) (t : List Byte) :
    ∃ b ls, lines (s ++ t) = (s ++ b) :: ls := by
  induction s with
  | nil => exact absurd rfl hs
  | cons c s ih =>
    simp only [List.mem_cons, not_or] at h
    rw [List.cons_append, lines, if_neg fun hc => h.1 hc.symm]
    cases s with
    | nil =>
      rw [List.nil_append]
      cases lines t with
      | nil => exact ⟨[], [], rfl⟩
      | cons l ls => exact ⟨l, ls, rfl⟩
    | cons d s =>
      obtain ⟨b, ls, heq⟩ := ih h.2 (by simp)
      exact ⟨b, ls, by rw [heq]; rfl⟩

theorem content_isLine {a : List Byte} (h : ch '\n' ∉ a) (b : List Byte) :
    content (a ++ ch '\n' :: b) = a := by
  induction a with
  | nil => simp [content]
  | cons c a ih =>
    simp only [List.mem_cons, not_or] at h
    have hc : c ≠ ch '\n' := fun hc => h.1 hc.symm
    rw [content, List.cons_append, List.takeWhile_cons_of_pos (by simpa using hc)]
    exact congrArg (c :: ·) (ih h.2)

/-! ## One buffer -/

/-- Where the next newline is. -/
theorem strchr_spec (h : 0 ∉ s) :
    (strchr s (ch '\n') = none ∧ ch '\n' ∉ s) ∨
      ∃ a b, s = a ++ ch '\n' :: b ∧ ch '\n' ∉ a ∧ strchr s (ch '\n') = some a.length := by
  induction s with
  | nil => exact .inl ⟨rfl, by simp⟩
  | cons c s ih =>
    rw [strchr, if_neg (ne_zero_of_not_mem h)]
    by_cases hc : c = ch '\n'
    · exact .inr ⟨[], s, by rw [hc]; rfl, by simp, if_pos hc⟩
    · rw [if_neg hc]
      rcases ih (tail_nul_free h) with ⟨hnone, hmem⟩ | ⟨a, b, rfl, ha, hsome⟩
      · exact .inl ⟨by rw [hnone]; rfl, by simp [hmem, Ne.symm hc]⟩
      · exact .inr ⟨c :: a, b, rfl, by simp [ha, Ne.symm hc], by rw [hsome]; rfl⟩

theorem grepLines_none (h : 0 ∉ s) (hmem : ch '\n' ∉ s) : grepLines pattern s = ([], s) := by
  have hnone : strchr s (ch '\n') = none := by
    rcases strchr_spec h with ⟨hnone, -⟩ | ⟨a, b, rfl, -, -⟩
    · exact hnone
    · simp at hmem
  rw [grepLines]
  split
  · rfl
  · simp_all

theorem strchr_line {a b : List Byte} (h : 0 ∉ a ++ ch '\n' :: b) (ha : ch '\n' ∉ a) :
    strchr (a ++ ch '\n' :: b) (ch '\n') = some a.length := by
  induction a with
  | nil => rfl
  | cons c a ih =>
    simp only [List.mem_cons, not_or] at ha
    rw [List.cons_append, strchr, if_neg (ne_zero_of_not_mem h), if_neg fun hc => ha.1 hc.symm,
      ih (tail_nul_free h) ha.2]
    rfl

/-- A line is written if the pattern matches it. -/
theorem grepLines_line {a b : List Byte} (h : 0 ∉ a ++ ch '\n' :: b) (ha : ch '\n' ∉ a) :
    grepLines pattern (a ++ ch '\n' :: b) =
      ([a ++ [ch '\n']].filter (selects pattern) ++ (grepLines pattern b).1,
        (grepLines pattern b).2) := by
  have hq := strchr_line h ha
  rw [grepLines]
  split
  · simp_all
  · next q hq' =>
    obtain rfl : a.length = q := Option.some.inj (hq.symm.trans hq')
    have htake : (a ++ ch '\n' :: b).take (a.length + 1) = a ++ [ch '\n'] := by
      simp [List.take_append]
    have hdrop : (a ++ ch '\n' :: b).drop (a.length + 1) = b := by
      simp [List.drop_append]
    have hsel : selects pattern (a ++ [ch '\n']) = matchre pattern a := by
      rw [selects, content_isLine ha]
    rw [List.take_left, htake, hdrop]
    by_cases hm : matchre pattern a = true <;> simp [hsel, hm]

/-- The lines of the buffer are searched, and what is behind them stays. -/
theorem grepLines_spec (pattern : List Byte) {s : List Byte} (h : 0 ∉ s) :
    ∃ (ls : List (List Byte)) (p : List Byte), s = ls.flatten ++ p ∧ (∀ l ∈ ls, IsLine l) ∧
      ch '\n' ∉ p ∧ grepLines pattern s = (ls.filter (selects pattern), p) := by
  induction hn : s.length using Nat.strong_induction_on generalizing s with
  | _ n ih =>
    rcases strchr_spec h with ⟨-, hmem⟩ | ⟨a, b, rfl, ha, -⟩
    · exact ⟨[], s, rfl, by simp, hmem, grepLines_none h hmem⟩
    · have hb : 0 ∉ b := fun hb => h (List.mem_append_right _ (List.mem_cons_of_mem _ hb))
      obtain ⟨ls, p, rfl, hls, hp, heq⟩ := ih b.length (by simp at hn; omega) hb rfl
      refine ⟨(a ++ [ch '\n']) :: ls, p, by simp, ?_, hp, ?_⟩
      · rintro l hl
        rcases List.mem_cons.1 hl with rfl | hl
        · exact ⟨a, ha, rfl⟩
        · exact hls l hl
      · rw [grepLines_line h ha, heq, ← List.filter_append]
        rfl

/-! ## The loop -/

theorem IsLine.fits (h : IsLine l) (hlen : l.length < BUFSIZE) : Grep.fits l = true := by
  rcases h with ⟨a, ha, rfl⟩
  simpa [Grep.fits] using hlen

/-- The first line does not fit if the buffer is full before it ends, or if the
input ends first. -/
theorem takeWhile_fits_stop {buf input : List Byte} (hbuf : ch '\n' ∉ buf)
    (hend : input = [] ∨ buf.length + 1 = BUFSIZE) :
    (lines (buf ++ input)).takeWhile fits = [] := by
  by_cases hne : buf = []
  · subst hne
    rcases hend with rfl | hfull
    · rfl
    · simp at hfull
  obtain ⟨b, ls, heq⟩ := lines_prefix hbuf hne input
  have hnot : fits (buf ++ b) = false := by
    rcases hend with rfl | hfull
    · rw [List.append_nil, lines_of_not_mem hbuf hne] at heq
      obtain ⟨rfl, -⟩ : b = [] ∧ ls = [] := by simpa using heq
      simp [fits, hbuf]
    · by_cases hmem : ch '\n' ∈ b
      · have := List.length_pos_of_mem hmem
        simp [fits]
        omega
      · simp [fits, hbuf, hmem]
  rw [heq, List.takeWhile_cons_of_neg (by simp [hnot])]

theorem read_eq (want n : Nat) (input : List Byte) :
    (read want n input).1 ++ (read want n input).2 = input ∧
      (read want n input).1.length ≤ n ∧
      ((read want n input).1 = [] → input = [] ∨ n = 0) := by
  refine ⟨by simp [read], by simp [read], fun h => ?_⟩
  have hlen : (read want n input).1.length = 0 := by rw [h]; rfl
  rw [← List.length_eq_zero_iff]
  simp only [read, List.splitAt_eq, List.length_take] at hlen
  omega

/-- What is written from a turn of the loop on: the reads and the buffer do not
show in it. -/
theorem grepLoop_eq (pattern : List Byte) (cut : Nat → Nat) {k : Nat} {buf input : List Byte}
    (h : 0 ∉ buf ++ input) (hbuf : ch '\n' ∉ buf) (hlen : buf.length < BUFSIZE) :
    grepLoop pattern cut k buf input =
      ((lines (buf ++ input)).takeWhile fits).filter (selects pattern) := by
  induction hn : input.length using Nat.strong_induction_on generalizing k buf input with
  | _ n ih =>
    obtain ⟨hread, hroom, hstop⟩ := read_eq (cut k) (BUFSIZE - buf.length - 1) input
    have hcount := read_length (cut k) (BUFSIZE - buf.length - 1) input
    rw [grepLoop]
    generalize read (cut k) (BUFSIZE - buf.length - 1) input = r at *
    by_cases hpos : 0 < r.1.length
    · rw [← hread, ← List.append_assoc] at h ⊢
      obtain ⟨ls, p, heq, hls, hp, hrun⟩ :=
        grepLines_spec pattern fun hmem => h (List.mem_append_left _ hmem)
      have hfull : buf.length + r.1.length = ls.flatten.length + p.length := by
        simpa using congrArg List.length heq
      have hfits : ∀ l ∈ ls, fits l = true := fun l hl => (hls l hl).fits (by
        have := (List.sublist_flatten_of_mem hl).length_le
        omega)
      rw [heq, List.append_assoc] at h
      simp only [hpos, dif_pos, hrun]
      rw [ih r.2.length (by omega) (fun hmem => h (List.mem_append_right _ hmem)) hp (by omega) rfl,
        heq, List.append_assoc, lines_flatten_append hls, List.takeWhile_append_of_pos hfits,
        List.filter_append]
    · have hnil : r.1 = [] := List.length_eq_zero_iff.1 (by omega)
      rw [dif_neg hpos, takeWhile_fits_stop hbuf]
      · rfl
      · rcases hstop hnil with hnone | hfull
        · exact .inl hnone
        · exact .inr (by omega)

/-- The matching lines before the first one that is cut off. -/
theorem grep_eq (pattern : List Byte) (cut : Nat → Nat) (input : CString) :
    grep pattern cut input.bytes =
      ((lines input.bytes).takeWhile fits).filter (selects pattern) :=
  grepLoop_eq pattern cut input.nul_free (by simp) (by decide)

/-- Exactly the inputs of which no matching line is lost are searched right: a
line is lost if it, or one before it, has more than 1022 characters, and also
if it has no newline. -/
theorem grep_writesMatches_iff (pattern input : CString) :
    WritesMatches pattern.bytes input.bytes ↔
      ∀ l ∈ (lines input.bytes).dropWhile fits, selects pattern.bytes l = false := by
  have hsplit : (lines input.bytes).filter (selects pattern.bytes) =
      ((lines input.bytes).takeWhile fits).filter (selects pattern.bytes) ++
        ((lines input.bytes).dropWhile fits).filter (selects pattern.bytes) := by
    rw [← List.filter_append, List.takeWhile_append_dropWhile]
  have hcut : WritesMatches pattern.bytes input.bytes ↔
      ((lines input.bytes).dropWhile fits).filter (selects pattern.bytes) = [] := by
    simp only [WritesMatches, grep_eq, hsplit, forall_const]
    exact List.self_eq_append_right
  rw [hcut, List.filter_eq_nil_iff]
  simp

theorem selects_x : selects [ch 'x'] [ch 'x'] = true := by
  have hone : matchhere [ch 'x'] [ch 'x'] = true := by
    rw [matchhere_one_cons (by decide) (by decide) (by decide) (by decide), matchhere_nil]
    rfl
  show matchLoop [ch 'x'] [ch 'x'] = true
  rw [matchLoop, if_pos hone]

/-- The pattern `x` is not found in the input `x` without a newline. -/
theorem not_writesMatches_unterminated : ¬ WritesMatches [ch 'x'] [ch 'x'] := by
  intro h
  have hlost : grep [ch 'x'] (fun _ => 1) [ch 'x'] = [] :=
    grep_eq [ch 'x'] (fun _ => 1) ⟨[ch 'x'], by decide⟩
  have hall : (lines [ch 'x']).filter (selects [ch 'x']) = [[ch 'x']] :=
    List.filter_cons_of_pos selects_x
  rw [h, hall] at hlost
  cases hlost

end Xv6.Grep
