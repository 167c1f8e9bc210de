import Xv6.Shell.Lines

/-!
# The shell parses its grammar

`nulterminate` writes NULs into the line that the tokens were read from.  They
go where a word ends, so none is written into a word, and the words are strings
when all of them are written.
-/

namespace Xv6.Shell

variable {line mem : List Byte} {q eq : Nat} {w : Word} {t : Tree} {c : Cmd}

/-! ## The strings in memory -/

/-- The line, with NULs where no word is. -/
structure Cut (line mem : List Byte) : Prop where
  length : mem.length = line.length + 1
  words : ∀ (p : Nat) c, (line)[p]? = some c → isWord c = true → mem[p]? = some c
  last : mem[line.length]? = some 0

/-- NULs are not overwritten. -/
def Keeps (mem mem' : List Byte) : Prop := ∀ p : Nat, mem[p]? = some 0 → mem'[p]? = some 0

theorem Keeps.trans {mem mem' mem'' : List Byte} (h : Keeps mem mem') (h' : Keeps mem' mem'') :
    Keeps mem mem'' := fun p hp => h' p (h p hp)

theorem cut_line (line : List Byte) : Cut line (line ++ [0]) where
  length := by rw [List.length_append, List.length_singleton]
  words p c hp _ := by
    obtain ⟨hlt, -⟩ := List.getElem?_eq_some_iff.1 hp
    rwa [List.getElem?_append_left hlt]
  last := by rw [List.getElem?_append_right (Nat.le_refl _), Nat.sub_self]; rfl

theorem Span.le (h : Span line q eq w) : eq ≤ line.length := by
  obtain ⟨s, hd, rfl, hne, -⟩ := h
  have hlen := congrArg List.length hd
  rw [List.length_drop, List.length_append] at hlen
  have hpos := List.length_pos_of_ne_nil hne
  omega

/-- The character where a word ends is in no word. -/
theorem Span.getElem?_end (h : Span line q eq w) {c : Byte} (hc : (line)[eq]? = some c) :
    isWord c = false := by
  obtain ⟨s, hd, rfl, -, -, hs⟩ := h
  refine hs c ?_
  rw [← List.getElem?_drop, hd, List.getElem?_append_right (Nat.le_refl _), Nat.sub_self] at hc
  rwa [Option.mem_def, List.head?_eq_getElem?]

/-- A word is terminated. -/
theorem Cut.write_end (h : Cut line mem) (hw : Span line q eq w) :
    ∃ mem', write mem eq 0 = .ok mem' ∧ Cut line mem' ∧ Keeps mem mem' ∧
      mem'[eq]? = some 0 := by
  have hlt : eq < mem.length := by
    rw [h.length]
    exact Nat.lt_succ_of_le hw.le
  have hkeeps : Keeps mem (mem.set eq 0) := by
    intro p hp
    by_cases heq : eq = p
    · rw [heq, List.getElem?_set_self (heq ▸ hlt)]
    · rwa [List.getElem?_set_ne heq]
  refine ⟨mem.set eq 0, if_pos hlt, ⟨?_, fun p c hp hc => ?_, hkeeps _ h.last⟩, hkeeps,
    List.getElem?_set_self hlt⟩
  · rw [List.length_set, h.length]
  · have hne : eq ≠ p := by
      rintro rfl
      rw [hw.getElem?_end hp] at hc
      cases hc
    rw [List.getElem?_set_ne hne]
    exact h.words p c hp hc

theorem cstring_eq (h0 : ∀ c ∈ w, c ≠ 0) (hw : ∀ k, k < w.length → mem[q + k]? = w[k]?)
    (hend : mem[q + w.length]? = some 0) : cstring mem q = w := by
  have hq : mem.drop q = w ++ 0 :: mem.drop (q + w.length + 1) := by
    obtain ⟨hlt, hget⟩ := List.getElem?_eq_some_iff.1 hend
    rw [← hget, ← List.drop_eq_getElem_cons hlt]
    refine List.ext_getElem? fun k => ?_
    rw [List.getElem?_drop]
    by_cases hk : k < w.length
    · rw [List.getElem?_append_left hk, hw k hk]
    · rw [List.getElem?_append_right (Nat.le_of_not_lt hk), List.getElem?_drop]
      congr 1
      omega
  rw [cstring, hq, List.takeWhile_append_of_pos fun c hc => decide_eq_true (h0 c hc),
    List.takeWhile_cons_of_neg (by simp), List.append_nil]

/-- A word that is terminated is a string. -/
theorem Cut.cstring (h0 : 0 ∉ line) (h : Cut line mem) (hw : Span line q eq w)
    (hend : mem[eq]? = some 0) : Shell.cstring mem q = w := by
  obtain ⟨s, hd, rfl, -, hword, -⟩ := hw
  have hget : ∀ k, k < w.length → (line)[q + k]? = w[k]? := by
    intro k hk
    rw [← List.getElem?_drop, hd, List.getElem?_append_left hk]
  refine cstring_eq (fun c hc => ?_) (fun k hk => ?_) hend
  · rintro rfl
    refine h0 (List.mem_of_mem_drop (i := q) ?_)
    rw [hd]
    exact List.mem_append_left _ hc
  · have hsome := List.getElem?_eq_getElem hk
    rw [hsome]
    exact h.words _ _ ((hget k hk).trans hsome) (hword _ (List.getElem_mem hk))

/-! ## `nulterminate` -/

theorem slots_eq {ps : List Pos} (h : ps.length < MAXARGS) :
    slots ps = ps.map some ++ none :: List.replicate (MAXARGS - ps.length - 1) none := by
  obtain ⟨k, hk⟩ := Nat.exists_eq_add_of_lt h
  rw [slots, show MAXARGS - ps.length = k + 1 by omega, List.replicate_succ, Nat.add_sub_cancel]

theorem takeWhile_slots (ps : List Pos) (qs : List (Option Pos)) :
    (ps.map some ++ none :: qs).takeWhile (·.isSome) = ps.map some := by
  induction ps with
  | nil => rfl
  | cons p ps ih => rw [List.map_cons, List.cons_append, List.takeWhile_cons_of_pos rfl, ih]

/-- The arguments are terminated up to the first NULL. -/
theorem terminateArgs_eq {spans : List (Pos × Pos)} {ws : List Word}
    (hspans : List.Forall₂ (fun p w => Span line p.1 p.2 w) spans ws) (h : Cut line mem)
    (qs es : List (Option Pos)) :
    ∃ mem', terminateArgs ((spans.map Prod.fst).map some ++ none :: qs)
        ((spans.map Prod.snd).map some ++ es) mem = .ok mem' ∧ Cut line mem' ∧ Keeps mem mem' ∧
      ∀ p ∈ spans, mem'[p.2]? = some 0 := by
  induction hspans generalizing mem with
  | nil => exact ⟨mem, rfl, h, fun _ hp => hp, fun _ hp => absurd hp List.not_mem_nil⟩
  | cons hw _ ih =>
    obtain ⟨mem₁, hwrite, h₁, hkeeps₁, hend⟩ := h.write_end hw
    obtain ⟨mem₂, hargs, h₂, hkeeps₂, hends⟩ := ih h₁
    refine ⟨mem₂, ?_, h₂, hkeeps₁.trans hkeeps₂, fun p hp => ?_⟩
    · simp only [List.map_cons, List.cons_append, terminateArgs, hwrite, Except.bind]
      exact hargs
    · rcases List.mem_cons.1 hp with rfl | hp
      · exact hkeeps₂ _ hend
      · exact hends p hp

/-- The strings of the arguments. -/
theorem map_cstring (h0 : 0 ∉ line) (h : Cut line mem) {spans : List (Pos × Pos)}
    {ws : List Word} (hspans : List.Forall₂ (fun p w => Span line p.1 p.2 w) spans ws)
    (hends : ∀ p ∈ spans, mem[p.2]? = some 0) :
    (spans.map Prod.fst).map (cstring mem) = ws := by
  induction hspans with
  | nil => rfl
  | cons hw _ ih =>
    rw [List.map_cons, List.map_cons, h.cstring h0 hw (hends _ (List.mem_cons_self ..)),
      ih fun p hp => hends p (List.mem_cons_of_mem _ hp)]

/-- All the words of a command are terminated: in any memory that keeps these
NULs, its strings are the words. -/
theorem Shows.nulterminate (h0 : 0 ∉ line) (hc : Shows line c t) (h : Cut line mem) :
    ∃ mem', nulterminate c mem = .ok mem' ∧ Cut line mem' ∧ Keeps mem mem' ∧
      ∀ m, Cut line m → Keeps mem' m → c.tree m = t := by
  induction hc generalizing mem with
  | exec spans hargv heargv hspans hlt =>
    have hlen : spans.length < MAXARGS := by rwa [hspans.length_eq]
    have hlen' : (spans.map Prod.fst).length < MAXARGS := by rwa [List.length_map]
    obtain ⟨mem', hargs, h', hkeeps, hends⟩ := terminateArgs_eq hspans h
      (List.replicate (MAXARGS - (spans.map Prod.fst).length - 1) none)
      (List.replicate (MAXARGS - (spans.map Prod.snd).length) none)
    rw [← slots_eq hlen', ← slots, ← hargv, ← heargv] at hargs
    refine ⟨mem', hargs, h', hkeeps, fun m hm hkeeps' => ?_⟩
    rw [Cmd.tree, hargv, slots_eq hlen', takeWhile_slots, List.filterMap_map]
    have hsome : (fun p => Option.map (cstring m) p) ∘ some = some ∘ cstring m := rfl
    rw [hsome, List.filterMap_eq_map,
      map_cstring h0 hm hspans fun p hp => hkeeps' _ (hends p hp)]
  | redir mode fd _ hfile ih =>
    obtain ⟨mem₁, hcmd, h₁, hkeeps₁, htree⟩ := ih h
    obtain ⟨mem₂, hwrite, h₂, hkeeps₂, hend⟩ := h₁.write_end hfile
    refine ⟨mem₂, ?_, h₂, hkeeps₁.trans hkeeps₂, fun m hm hkeeps => ?_⟩
    · simp only [Shell.nulterminate, hcmd, Except.bind]
      exact hwrite
    · rw [Cmd.tree, htree m hm (hkeeps₂.trans hkeeps), hm.cstring h0 hfile (hkeeps _ hend)]
  | pipe _ _ ihl ihr | list _ _ ihl ihr =>
    obtain ⟨mem₁, hleft, h₁, hkeeps₁, htree₁⟩ := ihl h
    obtain ⟨mem₂, hright, h₂, hkeeps₂, htree₂⟩ := ihr h₁
    refine ⟨mem₂, ?_, h₂, hkeeps₁.trans hkeeps₂, fun m hm hkeeps => ?_⟩
    · simp only [Shell.nulterminate, hleft, Except.bind]
      exact hright
    · rw [Cmd.tree, htree₁ m hm (hkeeps₂.trans hkeeps), htree₂ m hm hkeeps]
  | back _ ih =>
    obtain ⟨mem', hcmd, h', hkeeps, htree⟩ := ih h
    exact ⟨mem', hcmd, h', hkeeps, fun m hm hk => by rw [Cmd.tree, htree m hm hk]⟩

/-! ## `parsecmd` -/

theorem strlen_line (h0 : 0 ∉ line) : strlen (line ++ [0]) = .ok line.length := by
  have hnone : line.findIdx? (fun c => decide (c = 0)) = none := by
    rw [List.findIdx?_eq_none_iff]
    rintro c hc
    refine decide_eq_false ?_
    rintro rfl
    exact h0 hc
  rw [strlen, List.findIdx?_append, hnone]
  simp

theorem at_start {ts : List Tok} (h : Lex line ts) : At line 0 ts :=
  ⟨Nat.zero_le _, h⟩

/-- What `parsecmd` makes of what `parseline` reads. -/
theorem parsecmd_eq (h0 : 0 ∉ line) {ts : List Tok}
    (h : Yields line (parseline (line ++ [0]) line.length (4 * line.length + 4) 0) t ts) :
    (ts = [] → ∃ c mem, parsecmd (line ++ [0]) = .ok (c, mem) ∧ c.tree mem = t) ∧
      (ts ≠ [] → parsecmd (line ++ [0]) = panic "syntax") := by
  obtain ⟨c, j, hline, hc, hj⟩ := h
  obtain ⟨j', hpeek, -, -, hend⟩ := hj.peek h0 [] (by decide)
  have hstep : parsecmd (line ++ [0]) =
      if j' ≠ line.length then panic "syntax"
      else (nulterminate c (line ++ [0])).bind fun mem => .ok (c, mem) := by
    simp only [parsecmd, strlen_line h0, hline, hpeek, bind, Except.bind, pure, Except.pure]
  rw [hstep]
  refine ⟨fun hts => ?_, fun hts => if_pos fun heq => hts (hend.1 heq)⟩
  obtain ⟨mem, hmem, hcut, -, htree⟩ := hc.nulterminate h0 (cut_line line)
  refine ⟨c, mem, ?_, htree mem hcut fun _ hp => hp⟩
  rw [if_neg (not_not.2 (hend.2 hts)), hmem]
  rfl

/-- The cursor is in the line after every token, and it does not go back. -/
theorem cursor_le (h0 : 0 ∉ line) {ps : Nat} (hps : ps ≤ line.length) :
    (∃ k, gettoken (line ++ [0]) line.length ps = .ok k ∧ ps ≤ k.ps ∧ k.ps ≤ line.length) ∧
      ∀ toks, ∃ r, peek (line ++ [0]) line.length ps toks = .ok r ∧ ps ≤ r.2 ∧
        r.2 ≤ line.length := by
  obtain ⟨ts, hts⟩ := exists_lex (line.drop ps)
  have hat : At line ps ts := ⟨hps, hts⟩
  refine ⟨?_, fun toks => ?_⟩
  · rcases ts with _ | ⟨t, ts⟩
    · obtain ⟨k, hk, -, hle, hat'⟩ := hat.gettoken_nil
      exact ⟨k, hk, hle, hat'.le⟩
    · obtain ⟨k, hk, -, hlt, hat', -⟩ := hat.gettoken h0
      exact ⟨k, hk, Nat.le_of_lt hlt, hat'.le⟩
  · obtain ⟨j, hskip, hle, hj, -⟩ := hat.skipSpace
    have hlt : j < (line ++ [(0 : Byte)]).length := by
      rw [List.length_append, List.length_singleton]
      exact Nat.lt_succ_of_le hj.le
    obtain ⟨c, hread⟩ : ∃ c, read (line ++ [0]) j = .ok c := by
      rw [read, List.getElem?_eq_getElem hlt]
      exact ⟨_, rfl⟩
    refine ⟨(c ≠ 0 && strchr (toks.map ch) c, j), ?_, hle, hj.le⟩
    simp only [peek, hskip, hread, bind, Except.bind, pure, Except.pure]

/-- A line of the grammar is accepted. -/
theorem parsecmd_ok (h0 : 0 ∉ line) (h : Line line t) :
    ∃ cmd mem, parsecmd (line ++ [0]) = .ok (cmd, mem) ∧ cmd.tree mem = t := by
  obtain ⟨ts, hlex, hts⟩ := h
  have hlen := hlex.length_le
  have hyields :
      Yields line (parseline (line ++ [0]) line.length (4 * line.length + 4) 0) t [] := by
    refine hts.parse h0 (.inl rfl) (at_start ?_) ?_
    · rwa [List.append_nil]
    · rw [List.append_nil, Symbol.turns]
      omega
  exact (parsecmd_eq h0 hyields).1 rfl

/-- The parser accepts the lines of the grammar, and returns their trees with
their words as strings; it panics at every other line.  No index or address is
out of bounds. -/
theorem parsecmd_line (line : List Byte) (h0 : 0 ∉ line) :
    (∀ t, Line line t →
      ∃ cmd mem, parsecmd (line ++ [0]) = .ok (cmd, mem) ∧ cmd.tree mem = t) ∧
    ((∀ t, ¬ Line line t) → ∃ msg, parsecmd (line ++ [0]) = .error (.panic msg)) ∧
    ∀ ps ≤ line.length,
      (∃ k, gettoken (line ++ [0]) line.length ps = .ok k ∧ ps ≤ k.ps ∧ k.ps ≤ line.length) ∧
      ∀ toks, ∃ r, peek (line ++ [0]) line.length ps toks = .ok r ∧ ps ≤ r.2 ∧
        r.2 ≤ line.length := by
  refine ⟨fun t ht => parsecmd_ok h0 ht, fun hno => ?_, fun ps hps => cursor_le h0 hps⟩
  · obtain ⟨ts, hlex⟩ := exists_lex line
    have hlen := hlex.length_le
    have hreads := parse_reads h0 .line (at_start hlex) (n := 4 * line.length + 4) (by
      rw [Symbol.turns]
      omega)
    obtain ⟨msg, hpanic⟩ | ⟨us, vs, t, rfl, hus, hyields⟩ := hreads
    · refine ⟨msg, ?_⟩
      rw [Symbol.parse] at hpanic
      simp only [parsecmd, strlen_line h0, hpanic, bind, Except.bind]
    · refine ⟨_, (parsecmd_eq h0 hyields).2 ?_⟩
      rintro rfl
      rw [List.append_nil] at hlex
      exact hno t ⟨us, hlex, hus⟩

/-- `ls>f`: the file name is a string although the line had no room behind
`ls`. -/
theorem parsecmd_redirects :
    (0 : Byte) ∉ ['l', 's', '>', 'f'].map ch ∧
      ∃ cmd mem, parsecmd (['l', 's', '>', 'f'].map ch ++ [0]) = .ok (cmd, mem) ∧
        cmd.tree mem =
          .redir (.exec [[ch 'l', ch 's']]) [ch 'f'] (O_WRONLY ||| O_CREATE ||| O_TRUNC) 1 := by
  refine ⟨by decide, (parsecmd_line _ (by decide)).1 _
    ⟨[.word [ch 'l', ch 's'], .gt, .word [ch 'f']], ?_, ?_⟩⟩
  · refine .token (t := .word [ch 'l', ch 's']) (s := [ch '>', ch 'f'])
      ⟨by decide, List.all_eq_true.1 (by decide), by rintro c ⟨⟩; decide⟩ (.token (t := .gt) (s := [ch 'f'])
        (show [ch 'f'].head? ≠ some (ch '>') by decide) ?_)
    exact .token (t := .word [ch 'f']) (s := [])
      ⟨by decide, List.all_eq_true.1 (by decide), by rintro c ⟨⟩⟩ .nil
  · exact .line 0 (.single (.simple [] [⟨[ch 'l', ch 's'], [⟨.write, [ch 'f']⟩]⟩] (by decide)))

end Xv6.Shell
