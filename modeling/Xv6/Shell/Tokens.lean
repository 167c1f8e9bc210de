import Mathlib.Data.List.Nodup
import Mathlib.Data.List.TakeWhile
import Xv6.Shell.Grammar

/-!
# What the scanner reads

The tokens of a text, and `gettoken` and `peek` at a place in the command line
that has some of them in front.
-/

namespace Xv6.Shell

/-! ## The tokens of a text -/

/-- What `gettoken` returns for a token. -/
def Tok.code : Tok → Byte
  | .word _ => ch 'a'
  | .lt => ch '<'
  | .gt => ch '>'
  | .gtgt => ch '+'
  | .bar => ch '|'
  | .amp => ch '&'
  | .semi => ch ';'
  | .lpar => ch '('
  | .rpar => ch ')'

/-- The character that `peek` sees of a token that is not a word. -/
def Tok.lead : Tok → Option Char
  | .word _ => none
  | .lt => some '<'
  | .gt | .gtgt => some '>'
  | .bar => some '|'
  | .amp => some '&'
  | .semi => some ';'
  | .lpar => some '('
  | .rpar => some ')'

/-- The next token is one of these. -/
def starts (ts : List Tok) (toks : List Char) : Bool :=
  (ts.head?.bind Tok.lead).any toks.contains

theorem isWord_plain {c : Byte} (hc : isWord c = true) :
    strchr whitespace c = false ∧ strchr symbols c = false := by
  simpa [isWord] using hc

theorem isWord_switch {c : Byte} (hc : isWord c = true) :
    strchr (['|', '(', ')', ';', '&', '<'].map ch) c = false ∧ c ≠ ch '>' := by
  obtain ⟨-, hsym⟩ := isWord_plain hc
  simp only [strchr, symbols, List.contains_eq_mem, decide_eq_false_iff_not] at hsym ⊢
  simp only [List.map_cons, List.map_nil, List.mem_cons, List.not_mem_nil, or_false,
    not_or] at hsym ⊢
  tauto

/-- A token starts with a character that is not a blank. -/
theorem Tok.EndsBefore.text_eq {t : Tok} {s : List Byte} (ht : t.EndsBefore s) :
    ∃ c cs, t.text = c :: cs ∧ strchr whitespace c = false := by
  cases t with
  | word w =>
    obtain ⟨hne, hw, -⟩ := ht
    obtain ⟨c, cs, rfl⟩ := List.exists_cons_of_ne_nil hne
    exact ⟨c, cs, rfl, (isWord_plain (hw c (List.mem_cons_self ..))).1⟩
  | lt | gt | gtgt | bar | amp | semi | lpar | rpar => exact ⟨_, _, rfl, by decide⟩

theorem Lex.dropWhile {s : List Byte} {ts : List Tok} (h : Lex s ts) :
    Lex (s.dropWhile (strchr whitespace)) ts := by
  induction h with
  | nil => exact .nil
  | blank hc _ ih => rwa [List.dropWhile_cons_of_pos hc]
  | @token t s ts ht h ih =>
    obtain ⟨c, cs, heq, hc⟩ := ht.text_eq
    have hstay : (t.text ++ s).dropWhile (strchr whitespace) = t.text ++ s := by
      rw [heq, List.cons_append, List.dropWhile_cons_of_neg (by simp [hc])]
    rw [hstay]
    exact .token ht h

/-- There are not more tokens than characters. -/
theorem Lex.length_le {s : List Byte} {ts : List Tok} (h : Lex s ts) :
    ts.length ≤ s.length := by
  induction h with
  | nil => exact Nat.le_refl _
  | blank _ _ ih => exact ih.trans (Nat.le_succ _)
  | token ht _ ih =>
    obtain ⟨c, cs, heq, -⟩ := ht.text_eq
    rw [heq, List.length_append, List.length_cons, List.length_cons]
    omega

theorem strchr_map {c : Char} {toks : List Char}
    (htoks : toks ⊆ ['<', '|', '>', '&', ';', '(', ')'])
    (hc : c ∈ ['<', '|', '>', '&', ';', '(', ')']) :
    strchr (toks.map ch) (ch c) = toks.contains c := by
  have hnodup : (['<', '|', '>', '&', ';', '(', ')'].map ch).Nodup := by decide
  rw [Bool.eq_iff_iff, strchr, List.contains_iff_mem, List.contains_iff_mem, List.mem_map]
  constructor
  · rintro ⟨a, ha, heq⟩
    rwa [← List.inj_on_of_nodup_map hnodup (htoks ha) hc heq]
  · exact fun hmem => ⟨c, hmem, rfl⟩

/-- The first character of a token tells whether it is one of these. -/
theorem Tok.EndsBefore.peeks {t : Tok} {s : List Byte} (ht : t.EndsBefore s) (toks : List Char)
    (htoks : toks ⊆ ['<', '|', '>', '&', ';', '(', ')']) :
    ∃ c cs, t.text = c :: cs ∧ strchr (toks.map ch) c = t.lead.any toks.contains := by
  cases t with
  | word w =>
    obtain ⟨hne, hw, -⟩ := ht
    obtain ⟨c, cs, rfl⟩ := List.exists_cons_of_ne_nil hne
    refine ⟨c, cs, rfl, ?_⟩
    have hsym := (isWord_plain (hw c (List.mem_cons_self ..))).2
    simp only [strchr, List.contains_eq_mem, decide_eq_false_iff_not, symbols,
      List.mem_map] at hsym
    simp only [strchr, List.contains_eq_mem, Tok.lead, Option.any_none, decide_eq_false_iff_not,
      List.mem_map]
    exact fun hmem => hsym (hmem.imp fun a ha => ⟨htoks ha.1, ha.2⟩)
  | lt | gt | gtgt | bar | amp | semi | lpar | rpar =>
    exact ⟨_, _, rfl, strchr_map htoks (by decide)⟩

/-- Text without a blank in front is empty, or it starts with a token. -/
theorem Lex.cases_on {s : List Byte} {ts : List Tok} (h : Lex s ts)
    (hs : ∀ c ∈ s.head?, strchr whitespace c = false) :
    (s = [] ∧ ts = []) ∨
      ∃ t s' ts', s = t.text ++ s' ∧ ts = t :: ts' ∧ t.EndsBefore s' ∧ Lex s' ts' := by
  cases h with
  | nil => exact .inl ⟨rfl, rfl⟩
  | blank hc _ =>
    rw [hs _ rfl] at hc
    cases hc
  | @token t s ts ht h => exact .inr ⟨t, s, ts, rfl, rfl, ht, h⟩

/-- Every text is a sequence of tokens. -/
theorem exists_lex (s : List Byte) : ∃ ts, Lex s ts := by
  induction hn : s.length using Nat.strong_induction_on generalizing s with
  | _ n ih =>
    have hrest : ∀ s' : List Byte, s'.length < s.length → ∃ ts, Lex s' ts :=
      fun s' hlt => ih _ (hn ▸ hlt) s' rfl
    rcases s with _ | ⟨c, s⟩
    · exact ⟨[], .nil⟩
    obtain ⟨ts, hts⟩ := hrest s (Nat.lt_succ_self _)
    by_cases hws : strchr whitespace c = true
    · exact ⟨ts, .blank hws hts⟩
    by_cases hw : isWord c = true
    · -- a word, up to the next character that is in none
      obtain ⟨us, hus⟩ := hrest (s.dropWhile isWord)
        (Nat.lt_succ_of_le (List.length_dropWhile_le ..))
      have hsplit : c :: s = c :: s.takeWhile isWord ++ s.dropWhile isWord := by
        rw [List.cons_append, List.takeWhile_append_dropWhile]
      rw [hsplit]
      refine ⟨.word (c :: s.takeWhile isWord) :: us,
        .token (t := .word _) ⟨List.cons_ne_nil _ _, fun d hd => ?_, fun d hd => ?_⟩ hus⟩
      · rcases List.mem_cons.1 hd with rfl | hd
        · exact hw
        · exact List.mem_takeWhile_imp hd
      · have hnot := List.head?_dropWhile_not isWord s
        rw [Option.mem_def.1 hd] at hnot
        simpa using hnot
    have hsym : strchr symbols c = true := by
      simp only [isWord, Bool.and_eq_true, Bool.not_eq_true', not_and, Bool.not_eq_false] at hw
      exact hw (Bool.eq_false_iff.2 hws)
    simp only [strchr, symbols, List.contains_eq_mem, decide_eq_true_eq, List.map_cons,
      List.map_nil, List.mem_cons, List.not_mem_nil, or_false] at hsym
    rcases hsym with rfl | rfl | rfl | rfl | rfl | rfl | rfl
    · exact ⟨_, .token (t := .lt) trivial hts⟩
    · exact ⟨_, .token (t := .bar) trivial hts⟩
    · by_cases hgt : s.head? = some (ch '>')
      · rcases s with _ | ⟨d, s⟩
        · cases hgt
        obtain rfl : d = ch '>' := Option.some.inj hgt
        obtain ⟨us, hus⟩ := hrest s (by rw [List.length_cons, List.length_cons]; omega)
        exact ⟨_, .token (t := .gtgt) trivial hus⟩
      · exact ⟨_, .token (t := .gt) hgt hts⟩
    · exact ⟨_, .token (t := .amp) trivial hts⟩
    · exact ⟨_, .token (t := .semi) trivial hts⟩
    · exact ⟨_, .token (t := .lpar) trivial hts⟩
    · exact ⟨_, .token (t := .rpar) trivial hts⟩

/-! ## Places in the command line -/

/-- The tokens from a place on. -/
structure At (line : List Byte) (i : Nat) (ts : List Tok) : Prop where
  le : i ≤ line.length
  lex : Lex (line.drop i) ts

/-- The text of a word in the command line. -/
def Span (line : List Byte) (q eq : Nat) (w : Word) : Prop :=
  ∃ s, line.drop q = w ++ s ∧ eq = q + w.length ∧ (Tok.word w).EndsBefore s

variable {line s : List Byte} {i : Nat} {ts : List Tok} {t : Tok} {c : Byte}

theorem read_cons (hd : line.drop i = c :: s) :
    read (line ++ [0]) i = .ok c ∧ line.drop (i + 1) = s ∧ i + 1 ≤ line.length := by
  have hlt : i < line.length := by
    by_contra hle
    rw [List.drop_eq_nil_of_le (Nat.le_of_not_lt hle)] at hd
    cases hd
  rw [List.drop_eq_getElem_cons hlt] at hd
  injection hd with hc hs
  refine ⟨?_, hs, hlt⟩
  rw [read, List.getElem?_append_left hlt, List.getElem?_eq_getElem hlt, hc]

theorem read_end : read (line ++ [0]) line.length = .ok 0 := by
  rw [read, List.getElem?_append_right (Nat.le_refl _), Nat.sub_self]
  rfl

/-- `skip` stops behind the longest run. -/
theorem skip_eq (p : Byte → Bool) (n i : Nat) (h : i + n = line.length) :
    skip (line ++ [0]) p n i = .ok (i + ((line.drop i).takeWhile p).length) := by
  induction n generalizing i with
  | zero =>
    rw [List.drop_eq_nil_of_le (by omega)]
    rfl
  | succ n ih =>
    have hd := List.drop_eq_getElem_cons (show i < line.length by omega)
    rw [skip, (read_cons hd).1, hd, List.takeWhile_cons, Except.bind]
    by_cases hp : p (line)[i] = true
    · rw [if_pos hp, if_pos hp, ih (i + 1) (by omega), List.length_cons, Nat.add_assoc,
        Nat.add_comm 1]
    · rw [if_neg hp, if_neg hp]
      rfl

theorem drop_run (p : Byte → Bool) (h : i ≤ line.length) :
    line.drop (i + ((line.drop i).takeWhile p).length) = (line.drop i).dropWhile p ∧
      i + ((line.drop i).takeWhile p).length ≤ line.length := by
  have hsplit := List.takeWhile_append_dropWhile (p := p) (l := line.drop i)
  have hlen := congrArg List.length hsplit
  rw [List.length_append, List.length_drop] at hlen
  refine ⟨?_, by omega⟩
  rw [← List.drop_drop]
  nth_rewrite 2 [← hsplit]
  exact List.drop_left ..

/-- Behind the blanks, the line ends or a token begins. -/
theorem At.skipSpace (h : At line i ts) :
    ∃ j : Nat, skipSpace (line ++ [0]) line.length i = .ok j ∧ i ≤ j ∧ At line j ts ∧
      ∀ c ∈ (line.drop j).head?, strchr whitespace c = false := by
  obtain ⟨hdrop, hle⟩ := drop_run (strchr whitespace) h.le
  have hle' := h.le
  refine ⟨_, skip_eq _ _ i (by omega), Nat.le_add_right .., ⟨hle, ?_⟩, fun c hc => ?_⟩
  · rw [hdrop]
    exact h.lex.dropWhile
  · rw [hdrop] at hc
    have hnot := List.head?_dropWhile_not (strchr whitespace) (line.drop i)
    rw [Option.mem_def.1 hc] at hnot
    simpa using hnot

/-! ## The scanner -/

theorem token_word {w : Word} (h0 : 0 ∉ line) (hi : i ≤ line.length)
    (hd : line.drop i = w ++ s) (ht : (Tok.word w).EndsBefore s) :
    token (line ++ [0]) line.length i = .ok (ch 'a', i + w.length) := by
  obtain ⟨hne, hw, hs⟩ := ht
  have hrun : (w ++ s).takeWhile isWord = w := by
    rw [List.takeWhile_append_of_pos hw]
    rcases s with _ | ⟨d, s⟩
    · simp
    · rw [List.takeWhile_cons_of_neg (by rw [hs d rfl]; exact Bool.false_ne_true),
        List.append_nil]
  obtain ⟨c, cs, rfl⟩ := List.exists_cons_of_ne_nil hne
  have hc : isWord c = true := hw c (List.mem_cons_self ..)
  have hc0 : c ≠ 0 := by
    rintro rfl
    have hmem : (0 : Byte) ∈ line.drop i := by
      rw [hd]
      exact List.mem_cons_self ..
    exact h0 (List.mem_of_mem_drop hmem)
  have hskip := skip_eq isWord (line.length - i) i (Nat.add_sub_cancel' hi)
  rw [hd, hrun] at hskip
  rw [List.cons_append] at hd
  simp only [token, (read_cons hd).1, bind, Except.bind, pure, Except.pure, if_neg hc0,
    (isWord_switch hc).1, if_neg (isWord_switch hc).2, Bool.false_eq_true, if_false]
  change (skip (line ++ [0]) isWord (line.length - i) i).bind _ = _
  rw [hskip]
  rfl

/-- The switch reads the token in front. -/
theorem token_eq (h0 : 0 ∉ line) (hi : i ≤ line.length) (hd : line.drop i = t.text ++ s)
    (ht : t.EndsBefore s) :
    token (line ++ [0]) line.length i = .ok (t.code, i + t.text.length) := by
  have hswitch : ∀ c : Byte, c ≠ 0 → line.drop i = c :: s →
      strchr (['|', '(', ')', ';', '&', '<'].map ch) c = true →
      token (line ++ [0]) line.length i = .ok (c, i + 1) := by
    intro c hc hd hmem
    simp only [token, (read_cons hd).1, bind, Except.bind, pure, Except.pure, if_neg hc, if_pos hmem]
  have hgt : ∀ s', line.drop i = ch '>' :: s' →
      token (line ++ [0]) line.length i =
        (read (line ++ [0]) (i + 1)).bind fun c =>
          if c = ch '>' then .ok (ch '+', i + 2) else .ok (ch '>', i + 1) := by
    intro s' hd
    simp only [token, (read_cons hd).1, bind, Except.bind, pure, Except.pure]
    rw [if_neg (by decide), if_neg (by decide), if_pos trivial]
  cases t with
  | word w => exact token_word h0 hi hd ht
  | lt | bar | amp | semi | lpar | rpar => exact hswitch _ (by decide) hd (by decide)
  | gtgt =>
    have hd' : line.drop i = ch '>' :: ch '>' :: s := hd
    rw [hgt _ hd', (read_cons (read_cons hd').2.1).1]
    rfl
  | gt =>
    have hd' : line.drop i = ch '>' :: s := hd
    obtain ⟨-, htail, hle⟩ := read_cons hd'
    rw [hgt _ hd']
    rcases s with _ | ⟨d, s⟩
    · have hlen := List.drop_eq_nil_iff.1 htail
      have hend : read (line ++ [0]) (i + 1) = .ok 0 := by
        rw [show i + 1 = line.length by omega, read_end]
      rw [hend]
      rfl
    · have hne : d ≠ ch '>' := fun heq => ht (congrArg some heq)
      rw [(read_cons htail).1, Except.bind, if_neg hne]
      rfl

theorem token_end : token (line ++ [0]) line.length line.length = .ok (0, line.length) := by
  simp only [token, read_end, bind, Except.bind, pure, Except.pure, if_true]

/-- A text is behind its tokens. -/
theorem drop_text {u : List Byte} (hd : line.drop i = u ++ s) (hi : i ≤ line.length) :
    line.drop (i + u.length) = s ∧ i + u.length ≤ line.length := by
  have hlen := congrArg List.length hd
  rw [List.length_append, List.length_drop] at hlen
  refine ⟨?_, by omega⟩
  rw [← List.drop_drop, hd]
  exact List.drop_left ..

/-- `gettoken` takes the token in front. -/
theorem At.gettoken (h0 : 0 ∉ line) (h : At line i (t :: ts)) :
    ∃ k, gettoken (line ++ [0]) line.length i = .ok k ∧ k.ret = t.code ∧ i < k.ps ∧
      At line k.ps ts ∧ ∀ w, t = .word w → Span line k.q k.eq w := by
  obtain ⟨j, hskip, hij, hj, hhead⟩ := h.skipSpace
  obtain ⟨-, hnil⟩ | ⟨t', s, ts', hd, heq, ht, hs⟩ := hj.lex.cases_on hhead
  · cases hnil
  obtain ⟨rfl, rfl⟩ := List.cons.inj heq
  obtain ⟨hrest, hle⟩ := drop_text hd hj.le
  have hbehind : At line (j + t.text.length) ts := ⟨hle, by rw [hrest]; exact hs⟩
  obtain ⟨j', hskip', hjj', hj', -⟩ := hbehind.skipSpace
  have hpos : 0 < t.text.length := by
    obtain ⟨c, cs, hc, -⟩ := ht.text_eq
    rw [hc]
    exact Nat.succ_pos _
  refine ⟨⟨t.code, j, j + t.text.length, j'⟩, ?_, rfl, ?_, hj', ?_⟩
  · simp only [Shell.gettoken, hskip, token_eq h0 hj.le hd ht, hskip', bind, Except.bind, pure,
      Except.pure]
  · change i < j'
    omega
  · rintro w rfl
    exact ⟨s, hd, rfl, ht⟩

theorem At.gettoken_nil (h : At line i []) :
    ∃ k, Shell.gettoken (line ++ [0]) line.length i = .ok k ∧ k.ret = 0 ∧ i ≤ k.ps ∧
      At line k.ps [] := by
  obtain ⟨j, hskip, hij, hj, hhead⟩ := h.skipSpace
  obtain ⟨hd, -⟩ | ⟨t, s, ts, -, heq, -⟩ := hj.lex.cases_on hhead
  · have hle := hj.le
    have hge := List.drop_eq_nil_iff.1 hd
    obtain rfl : j = line.length := by omega
    refine ⟨⟨0, line.length, line.length, line.length⟩, ?_, rfl, hij, hj⟩
    simp only [Shell.gettoken, hskip, token_end, bind, Except.bind, pure, Except.pure]
    rw [Shell.skipSpace, Nat.sub_self]
    rfl
  · cases heq

/-- `peek` sees whether the token in front is one of these. -/
theorem At.peek (h0 : 0 ∉ line) (h : At line i ts) (toks : List Char)
    (htoks : toks ⊆ ['<', '|', '>', '&', ';', '(', ')']) :
    ∃ j : Nat, peek (line ++ [0]) line.length i toks = .ok (starts ts toks, j) ∧ i ≤ j ∧
      At line j ts ∧ (j = line.length ↔ ts = []) := by
  obtain ⟨j, hskip, hij, hj, hhead⟩ := h.skipSpace
  obtain ⟨hd, rfl⟩ | ⟨t, s, ts', hd, rfl, ht, hs⟩ := hj.lex.cases_on hhead
  · have hle := hj.le
    have hge := List.drop_eq_nil_iff.1 hd
    obtain rfl : j = line.length := by omega
    refine ⟨line.length, ?_, hij, hj, iff_of_true rfl rfl⟩
    simp only [Shell.peek, hskip, read_end, bind, Except.bind, pure, Except.pure]
    rfl
  · have hlt : j ≠ line.length := by
      rintro rfl
      obtain ⟨c, cs, hc, -⟩ := ht.text_eq
      rw [List.drop_length, hc] at hd
      cases hd
    refine ⟨j, ?_, hij, hj, iff_of_false hlt (List.cons_ne_nil _ _)⟩
    obtain ⟨c, cs, htext, hread⟩ := ht.peeks toks htoks
    have hc : c ∈ line := by
      refine List.mem_of_mem_drop (i := j) ?_
      rw [hd, htext]
      exact List.mem_cons_self ..
    have hc0 : c ≠ 0 := by
      rintro rfl
      exact h0 hc
    rw [htext, List.cons_append] at hd
    simp only [Shell.peek, hskip, (read_cons hd).1, bind, Except.bind, pure, Except.pure]
    rw [hread, decide_eq_true hc0, Bool.true_and]
    rfl

end Xv6.Shell
