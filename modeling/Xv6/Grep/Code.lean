import Xv6.Shell.Code

/-!
# The program grep

The matcher and the search of `user/grep.c`.  A string is the list of its
characters, and its end stands for the NUL, so a pointer into a string is what
is left of it there.
-/

namespace Xv6.Grep

open Shell (ch)

/-- `s[i]` -/
def peek (s : List Byte) (i : Nat) : Byte := s.getD i 0

theorem lt_length_of_peek {s : List Byte} {i : Nat} (h : peek s i ≠ 0) : i < s.length := by
  apply Nat.lt_of_not_le
  intro hle
  exact h (by simp [peek, hle])

mutual

/-- Search for `re` at the beginning of `text`. -/
def matchhere (re text : List Byte) : Bool :=
  if _h : peek re 0 = 0 then true
  else if _h' : peek re 1 = ch '*' then matchstar (peek re 0) (re.drop 2) text
  else if peek re 0 = ch '$' ∧ peek re 1 = 0 then peek text 0 = 0
  else if peek text 0 ≠ 0 ∧ (peek re 0 = ch '.' ∨ peek re 0 = peek text 0) then
    matchhere (re.drop 1) (text.drop 1)
  else false
termination_by (re.length, 0)
decreasing_by
  · have := lt_length_of_peek (s := re) (i := 1) (by rw [_h']; decide)
    apply Prod.Lex.left
    simp only [List.length_drop]
    omega
  · have := lt_length_of_peek _h
    apply Prod.Lex.left
    simp only [List.length_drop]
    omega

/-- Search for `c*re` at the beginning of `text`. -/
def matchstar (c : Byte) (re text : List Byte) : Bool :=
  if matchhere re text then true
  else if _h : peek text 0 ≠ 0 ∧ (peek text 0 = c ∨ c = ch '.') then
    matchstar c re (text.drop 1)
  else false
termination_by (re.length + 1, text.length)
decreasing_by
  · apply Prod.Lex.left
    omega
  · have := lt_length_of_peek _h.1
    apply Prod.Lex.right
    simp only [List.length_drop]
    omega

end

/-- The loop of `match`, which looks at the empty string too. -/
def matchLoop (re text : List Byte) : Bool :=
  if matchhere re text then true
  else if _h : peek text 0 ≠ 0 then matchLoop re (text.drop 1)
  else false
termination_by text.length
decreasing_by
  have := lt_length_of_peek _h
  simp only [List.length_drop]
  omega

/-- The function `match`. -/
def matchre (re text : List Byte) : Bool :=
  if peek re 0 = ch '^' then matchhere (re.drop 1) text else matchLoop re text

/-- Where `c` is in the string. -/
def strchr : List Byte → Byte → Option Nat
  | [], _ => none
  | x :: s, c => if x = 0 then none else if x = c then some 0 else (strchr s c).map (· + 1)

theorem strchr_lt {s : List Byte} {c : Byte} {q : Nat} (h : strchr s c = some q) :
    q < s.length := by
  induction s generalizing q with
  | nil => simp [strchr] at h
  | cons x s ih =>
    simp only [strchr] at h
    split at h
    · cases h
    · split at h
      · cases h; simp
      · obtain ⟨n, hn, rfl⟩ := Option.map_eq_some_iff.1 h
        simpa using ih hn

/-- The loop over the lines of the buffer from `p` on: what it writes, and
where it leaves `p`. -/
def grepLines (pattern p : List Byte) : List (List Byte) × List Byte :=
  match h : strchr p (ch '\n') with
  | none => ([], p)
  | some q =>
    let r := grepLines pattern (p.drop (q + 1))
    -- the NUL at `*q` is a newline again before the line is written
    if matchre pattern (p.take q) then (p.take (q + 1) :: r.1, r.2) else r
termination_by p.length
decreasing_by
  have := strchr_lt h
  simp only [List.length_drop]
  omega

/-- The size of `buf`. -/
abbrev BUFSIZE : Nat := 1024

/-- What a `read` of at most `n` bytes gets, and what is left of the input.  It
gets at least one byte if it can. -/
def read (want n : Nat) (input : List Byte) : List Byte × List Byte :=
  input.splitAt (min n (max 1 want))

theorem read_length (want n : Nat) (input : List Byte) :
    (read want n input).1.length + (read want n input).2.length = input.length := by
  simp only [read, List.splitAt_eq, List.length_take, List.length_drop]
  omega

/-- The loop of `grep`, with the `m` bytes of the buffer that it has read.  The reads get as many bytes
as `cut` says, from the one with number `k` on. -/
def grepLoop (pattern : List Byte) (cut : Nat → Nat) (k : Nat) (buf input : List Byte) :
    List (List Byte) :=
  let r := read (cut k) (BUFSIZE - buf.length - 1) input
  if _h : 0 < r.1.length then
    let w := grepLines pattern (buf ++ r.1)
    -- the rest of the last line moves to the front of the buffer
    w.1 ++ grepLoop pattern cut (k + 1) w.2 r.2
  else []
termination_by input.length
decreasing_by
  have : r.1.length + r.2.length = input.length := read_length ..
  show r.2.length < input.length
  omega

/-- What `grep` writes, one list for each `write`. -/
def grep (pattern : List Byte) (cut : Nat → Nat) (input : List Byte) : List (List Byte) :=
  grepLoop pattern cut 0 [] input

end Xv6.Grep
