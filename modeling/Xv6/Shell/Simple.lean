import Xv6.Shell.Tokens

/-!
# Redirections and arguments

What the loops of `parseredirs` and `parseexec` read, one turn at a time.
-/

namespace Xv6.Shell

/-! ## Commands of a line -/

/-- An array of `MAXARGS` pointers with these in front. -/
def slots (ps : List Pos) : List (Option Pos) :=
  ps.map some ++ List.replicate (MAXARGS - ps.length) none

/-- The command has the shape of the tree, and its pointers are around the
words of the tree. -/
inductive Shows (line : List Byte) : Cmd → Tree → Prop
  | exec {argv eargv : List (Option Pos)} {ws : List Word} (spans : List (Pos × Pos))
      (hargv : argv = slots (spans.map Prod.fst)) (heargv : eargv = slots (spans.map Prod.snd))
      (hspans : List.Forall₂ (fun p w => Span line p.1 p.2 w) spans ws)
      (hlt : ws.length < MAXARGS) : Shows line (.exec argv eargv) (.exec ws)
  | redir {cmd : Cmd} {t : Tree} {file efile : Pos} {w : Word} (mode fd : Nat)
      (hcmd : Shows line cmd t) (hfile : Span line file efile w) :
      Shows line (.redir cmd file efile mode fd) (.redir t w mode fd)
  | pipe {left right : Cmd} {t u : Tree} (hleft : Shows line left t)
      (hright : Shows line right u) : Shows line (.pipe left right) (.pipe t u)
  | list {left right : Cmd} {t u : Tree} (hleft : Shows line left t)
      (hright : Shows line right u) : Shows line (.list left right) (.list t u)
  | back {cmd : Cmd} {t : Tree} (hcmd : Shows line cmd t) : Shows line (.back cmd) (.back t)

/-- The parser returns a command for this tree, and these tokens are left. -/
def Yields (line : List Byte) (r : Parse (Cmd × Pos)) (t : Tree) (ts : List Tok) : Prop :=
  ∃ c j, r = .ok (c, j) ∧ Shows line c t ∧ At line j ts

/-- The parser panics, or it has read tokens that are a phrase. -/
def Reads (line : List Byte) (P : List Tok → Tree → Prop) (ts : List Tok)
    (r : Parse (Cmd × Pos)) : Prop :=
  (∃ msg, r = .error (.panic msg)) ∨
    ∃ us vs t, ts = us ++ vs ∧ P us t ∧ Yields line r t vs

variable {line : List Byte} {i n : Nat} {ts us : List Tok} {t : Tree} {c : Cmd} {w : Word}
  {ws : List Word} {rs : List Redir} {q eq : Pos}

theorem slots_set (ps : List Pos) (h : ps.length < MAXARGS) (q : Pos) :
    (slots ps).set ps.length (some q) = slots (ps ++ [q]) := by
  obtain ⟨k, hk⟩ := Nat.exists_eq_add_of_lt h
  have hfree : MAXARGS - ps.length = k + 1 := by omega
  have hfree' : MAXARGS - (ps ++ [q]).length = k := by
    rw [List.length_append, List.length_singleton]
    omega
  rw [slots, slots, hfree, hfree', List.set_append, if_neg (by simp), List.length_map,
    Nat.sub_self]
  simp [List.replicate_succ]

theorem slots_set_none (ps : List Pos) (h : ps.length < MAXARGS) :
    (slots ps).set ps.length none = slots ps := by
  obtain ⟨k, hk⟩ := Nat.exists_eq_add_of_lt h
  have hfree : MAXARGS - ps.length = k + 1 := by omega
  rw [slots, hfree, List.set_append, if_neg (by simp), List.length_map, Nat.sub_self]
  simp [List.replicate_succ]

theorem slots_length {ps : List Pos} (h : ps.length ≤ MAXARGS) :
    (slots ps).length = MAXARGS := by
  rw [slots, List.length_append, List.length_map, List.length_replicate]
  omega

theorem shows_execcmd : Shows line execcmd (.exec []) :=
  .exec [] rfl rfl .nil (by decide)

/-- A redirection is around the command that it is for. -/
theorem Shows.apply_inv {r : Redir} (h : Shows line c (r.apply t)) :
    ∃ c' file efile mode fd, c = .redir c' file efile mode fd ∧ Shows line c' t ∧
      ∀ c'' t', Shows line c'' t' → Shows line (.redir c'' file efile mode fd) (r.apply t') := by
  obtain ⟨mode, file⟩ := r
  cases mode with
  | read | write | append =>
    cases h with
    | redir mode fd hcmd hfile => exact ⟨_, _, _, _, _, rfl, hcmd, fun _ _ h => .redir _ _ h hfile⟩

theorem Shows.redir_tok {r : Redir} (h : Shows line c t) (hfile : Span line q eq r.file) :
    Shows line (Shell.redir c r.mode.tok.code q eq) (r.apply t) := by
  obtain ⟨mode, file⟩ := r
  cases mode with
  | read | write | append => exact .redir _ _ h hfile

/-- The command that the redirections are around. -/
theorem Shows.core (h : Shows line c (rs.foldl Redir.apply (.exec ws))) :
    ∃ e wrap, Shows line e (.exec ws) ∧ c = wrap e ∧
      (∀ argc q eq, setArg argc q eq c = (setArg argc q eq e).map wrap) ∧
      ∀ e' ws', Shows line e' (.exec ws') →
        Shows line (wrap e') (rs.foldl Redir.apply (.exec ws')) := by
  induction rs using List.reverseRecOn generalizing c with
  | nil => exact ⟨c, id, h, rfl, fun _ _ _ => (Except.map_id ▸ rfl), fun _ _ h => h⟩
  | append_singleton rs r ih =>
    rw [List.foldl_append] at h
    obtain ⟨c', file, efile, mode, fd, rfl, hc', hagain⟩ := Shows.apply_inv h
    obtain ⟨e, wrap, he, rfl, hset, hwrap⟩ := ih hc'
    refine ⟨e, fun e => .redir (wrap e) file efile mode fd, he, rfl, fun argc q eq => ?_,
      fun e' ws' he' => ?_⟩
    · rw [setArg, hset]
      cases setArg argc q eq e with
      | ok _ | error _ => rfl
    · rw [List.foldl_append]
      exact hagain _ _ (hwrap e' ws' he')

/-- The next argument is stored. -/
theorem Shows.setArg (h : Shows line c (rs.foldl Redir.apply (.exec ws)))
    (hlt : ws.length + 1 < MAXARGS) (hw : Span line q eq w) :
    ∃ c', setArg ws.length (some q) (some eq) c = .ok c' ∧
      Shows line c' (rs.foldl Redir.apply (.exec (ws ++ [w]))) := by
  obtain ⟨e, wrap, he, -, hset, hwrap⟩ := h.core
  cases he with
  | exec spans hargv heargv hspans _ =>
    have hlen : spans.length = ws.length := hspans.length_eq
    have hfst := slots_set (spans.map Prod.fst) (by rw [List.length_map]; omega) q
    have hsnd := slots_set (spans.map Prod.snd) (by rw [List.length_map]; omega) eq
    rw [List.length_map, hlen] at hfst hsnd
    refine ⟨_, ?_, hwrap _ _ (.exec (spans ++ [(q, eq)]) rfl rfl ?_ ?_)⟩
    · rw [hset, Shell.setArg, hargv, heargv, if_pos ?_, hfst, hsnd, List.map_append,
        List.map_append]
      · rfl
      · rw [slots_length (by rw [List.length_map]; omega),
          slots_length (by rw [List.length_map]; omega)]
        exact ⟨by omega, by omega⟩
    · exact List.rel_append hspans (.cons hw .nil)
    · rwa [List.length_append, List.length_singleton]

/-- The arrays have room for a tenth argument. -/
theorem Shows.setArg_ok (h : Shows line c (rs.foldl Redir.apply (.exec ws))) {argc : Nat}
    (hlt : argc < MAXARGS) (q eq : Option Pos) : ∃ c', Shell.setArg argc q eq c = .ok c' := by
  obtain ⟨e, wrap, he, -, hset, -⟩ := h.core
  cases he with
  | exec spans hargv heargv hspans hlen =>
    have hlen : spans.length < MAXARGS := by rwa [hspans.length_eq]
    rw [hset, Shell.setArg, hargv, heargv, if_pos ?_]
    · exact ⟨_, rfl⟩
    · rw [slots_length (by rw [List.length_map]; omega),
        slots_length (by rw [List.length_map]; omega)]
      exact ⟨hlt, hlt⟩

/-- Behind the arguments, the arrays have NULL already. -/
theorem Shows.setArg_none (h : Shows line c (rs.foldl Redir.apply (.exec ws))) :
    Shell.setArg ws.length none none c = .ok c := by
  obtain ⟨e, wrap, he, rfl, hset, -⟩ := h.core
  cases he with
  | exec spans hargv heargv hspans hlt =>
    have hlen : spans.length = ws.length := hspans.length_eq
    have hfst := slots_set_none (spans.map Prod.fst) (by rw [List.length_map]; omega)
    have hsnd := slots_set_none (spans.map Prod.snd) (by rw [List.length_map]; omega)
    rw [List.length_map, hlen] at hfst hsnd
    rw [hset, Shell.setArg, hargv, heargv, if_pos ?_, hfst, hsnd]
    · rfl
    · rw [slots_length (by rw [List.length_map]; omega),
        slots_length (by rw [List.length_map]; omega)]
      exact ⟨hlt, hlt⟩

/-! ## The next token -/

/-- Whether the next token is a word. -/
theorem At.gettoken_word (h0 : 0 ∉ line) (h : At line i ts) :
    ∃ k, Shell.gettoken (line ++ [0]) line.length i = .ok k ∧
      ((∃ w us, ts = .word w :: us ∧ k.ret = ch 'a' ∧ Span line k.q k.eq w ∧ At line k.ps us) ∨
        (ts = [] ∧ k.ret = 0 ∧ At line k.ps []) ∨
        (k.ret ≠ ch 'a' ∧ k.ret ≠ 0 ∧ ∀ w us, ts ≠ .word w :: us)) := by
  rcases ts with _ | ⟨t, us⟩
  · obtain ⟨k, hk, hret, -, hat⟩ := h.gettoken_nil
    exact ⟨k, hk, .inr (.inl ⟨rfl, hret, hat⟩)⟩
  · obtain ⟨k, hk, hret, -, hat, hspan⟩ := h.gettoken h0
    refine ⟨k, hk, ?_⟩
    cases t with
    | word w => exact .inl ⟨w, us, rfl, hret, hspan w rfl, hat⟩
    | lt | gt | gtgt | bar | amp | semi | lpar | rpar =>
      rw [hret]
      exact .inr (.inr ⟨by decide, by decide, fun _ _ heq => by cases heq⟩)

theorem starts_redir (h : starts ts ['<', '>'] = true) :
    ∃ (m : Mode) (us : List Tok), ts = m.tok :: us := by
  rcases ts with _ | ⟨t, us⟩
  · cases h
  · cases t with
    | lt => exact ⟨.read, us, rfl⟩
    | gt => exact ⟨.write, us, rfl⟩
    | gtgt => exact ⟨.append, us, rfl⟩
    | word _ | bar | amp | semi | lpar | rpar => simp [starts, Tok.lead] at h

theorem starts_mode (m : Mode) : starts (m.tok :: us) ['<', '>'] = true := by
  cases m <;> rfl

/-- When the only token with this character is in front. -/
theorem exists_of_starts {u : Tok} {c : Char} (huniq : ∀ t : Tok, t.lead = some c → t = u)
    (h : starts ts [c] = true) : ∃ us, ts = u :: us := by
  rcases ts with _ | ⟨t, us⟩
  · cases h
  · obtain ⟨d, hd, hmem⟩ := (Option.any_eq_true _ t.lead).1 h
    obtain rfl : d = c := List.mem_singleton.1 (List.contains_iff_mem.1 hmem)
    exact ⟨us, by rw [huniq t hd]⟩

/-! ## `parseredirs` -/

theorem parseredirs_stop (h0 : 0 ∉ line) (h : At line i ts) (hts : starts ts ['<', '>'] = false)
    (hc : Shows line c t) : Yields line (parseredirs (line ++ [0]) line.length (n + 1) c i) t ts := by
  obtain ⟨j, hpeek, -, hat, -⟩ := h.peek h0 ['<', '>'] (by decide)
  refine ⟨c, j, ?_, hc, hat⟩
  simp only [parseredirs, hpeek, hts, bind, Except.bind, pure, Except.pure, Bool.false_eq_true,
    if_false]

/-- One turn of the loop reads a redirection, or it panics for want of a
file. -/
theorem parseredirs_turn (h0 : 0 ∉ line) {m : Mode} (h : At line i (m.tok :: ts))
    (hc : Shows line c t) :
    (∃ w us c' j, ts = .word w :: us ∧ Shows line c' (Redir.apply t ⟨m, w⟩) ∧ At line j us ∧
      parseredirs (line ++ [0]) line.length (n + 1) c i =
        parseredirs (line ++ [0]) line.length n c' j) ∨
    ((∀ w us, ts ≠ .word w :: us) ∧
      parseredirs (line ++ [0]) line.length (n + 1) c i =
        panic "missing file for redirection") := by
  obtain ⟨j, hpeek, -, hat, -⟩ := h.peek h0 ['<', '>'] (by decide)
  obtain ⟨k, hk, hret, -, hfile, -⟩ := hat.gettoken h0
  obtain ⟨k', hk', hword⟩ := hfile.gettoken_word h0
  have hstep : parseredirs (line ++ [0]) line.length (n + 1) c i =
      if k'.ret ≠ ch 'a' then panic "missing file for redirection"
      else parseredirs (line ++ [0]) line.length n (redir c k.ret k'.q k'.eq) k'.ps := by
    simp only [parseredirs, hpeek, starts_mode, hk, hk', bind, Except.bind, if_true]
  obtain ⟨w, us, rfl, ha, hspan, hat'⟩ | ⟨rfl, h0', -⟩ | ⟨hna, -, hno⟩ := hword
  · refine .inl ⟨w, us, _, _, rfl, hc.redir_tok hspan, hat', ?_⟩
    rw [hstep, if_neg (not_not.2 ha), hret]
  · refine .inr ⟨(fun _ _ heq => by cases heq), ?_⟩
    rw [hstep, h0', if_pos (by decide)]
  · refine .inr ⟨hno, ?_⟩
    rw [hstep, if_pos hna]

theorem parseredirs_yields (h0 : 0 ∉ line) (hts : starts ts ['<', '>'] = false)
    (hn : (rs.flatMap Redir.toks ++ ts).length < n)
    (h : At line i (rs.flatMap Redir.toks ++ ts)) (hc : Shows line c t) :
    Yields line (parseredirs (line ++ [0]) line.length n c i) (rs.foldl Redir.apply t) ts := by
  induction rs generalizing n c t i with
  | nil =>
    obtain ⟨n, rfl⟩ := Nat.exists_eq_succ_of_ne_zero (Nat.ne_zero_of_lt hn)
    exact parseredirs_stop h0 h hts hc
  | cons r rs ih =>
    obtain ⟨n, rfl⟩ := Nat.exists_eq_succ_of_ne_zero (Nat.ne_zero_of_lt hn)
    obtain ⟨w, us, c', j, heq, hc', hj, hstep⟩ | ⟨hno, -⟩ := parseredirs_turn (n := n) h0 h hc
    · obtain ⟨rfl, rfl⟩ : r.file = w ∧ rs.flatMap Redir.toks ++ ts = us := by
        injection heq with hw hus
        exact ⟨Tok.word.inj hw, hus⟩
      have hlen : (rs.flatMap Redir.toks ++ ts).length + 2 < n + 1 := hn
      rw [hstep]
      exact ih (by omega) hj hc'
    · exact absurd rfl (hno r.file (rs.flatMap Redir.toks ++ ts))

theorem parseredirs_reads (h0 : 0 ∉ line) (hn : ts.length < n) (h : At line i ts)
    (hc : Shows line c t) :
    Reads line (fun us u => ∃ rs : List Redir, us = rs.flatMap Redir.toks ∧ u = rs.foldl Redir.apply t) ts
      (parseredirs (line ++ [0]) line.length n c i) := by
  induction n generalizing ts c t i with
  | zero => exact absurd hn (Nat.not_lt_zero _)
  | succ n ih =>
    by_cases hts : starts ts ['<', '>'] = true
    · obtain ⟨m, us, rfl⟩ := starts_redir hts
      obtain ⟨w, us, c', j, rfl, hc', hj, hstep⟩ | ⟨-, hpanic⟩ := parseredirs_turn (n := n) h0 h hc
      · rw [hstep]
        simp only [List.length_cons] at hn
        rcases ih (by omega) hj hc' with hpanic | ⟨us, vs, u, rfl, ⟨rs, rfl, rfl⟩, hyields⟩
        · exact .inl hpanic
        · exact .inr ⟨_, vs, _, rfl, ⟨⟨m, w⟩ :: rs, rfl, rfl⟩, hyields⟩
      · exact .inl ⟨_, hpanic⟩
    · exact .inr ⟨[], ts, t, rfl, ⟨[], rfl, rfl⟩,
        parseredirs_stop h0 h (Bool.eq_false_iff.2 hts) hc⟩

/-! ## `parseexec` without a block -/

/-- What is behind a command: the line ends, or a symbol that is in none. -/
def Ends (ts : List Tok) : Prop := ts = [] ∨ starts ts ['|', ')', '&', ';'] = true

theorem Ends.not_redir (h : Ends ts) : starts ts ['<', '>'] = false := by
  rcases h with rfl | h
  · rfl
  · by_contra hredir
    obtain ⟨m, us, rfl⟩ := starts_redir (Bool.not_eq_false _ ▸ hredir)
    cases m <;> simp [starts, Mode.tok, Tok.lead] at h

theorem At.length_lt (h : At line i ts) : ts.length < line.length + 1 := by
  have hle := h.lex.length_le
  rw [List.length_drop] at hle
  omega

theorem parseargs_stop (h0 : 0 ∉ line) (h : At line i ts) (hts : Ends ts) (argc : Nat) :
    ∃ j, parseargs (line ++ [0]) line.length (n + 1) argc c i = .ok (argc, c, j) ∧
      At line j ts := by
  obtain ⟨j, hpeek, -, hat, -⟩ := h.peek h0 ['|', ')', '&', ';'] (by decide)
  rcases hts with rfl | hts
  · obtain ⟨k, hk, hret, -, hat⟩ := hat.gettoken_nil
    refine ⟨k.ps, ?_, hat⟩
    simp only [parseargs, hpeek, hk, hret, bind, Except.bind, pure, Except.pure, if_true]
    rfl
  · refine ⟨j, ?_, hat⟩
    simp only [parseargs, hpeek, hts, bind, Except.bind, pure, Except.pure, if_true]

/-- One turn of the loop reads a word, and there is not one too many. -/
theorem parseargs_word (h0 : 0 ∉ line) (h : At line i (.word w :: ts))
    (hc : Shows line c (rs.foldl Redir.apply (.exec ws))) (hws : ws.length < MAXARGS) :
    (ws.length + 1 < MAXARGS ∧ ∃ c' j,
      Shows line c' (rs.foldl Redir.apply (.exec (ws ++ [w]))) ∧ At line j ts ∧
      parseargs (line ++ [0]) line.length (n + 1) ws.length c i =
        (parseredirs (line ++ [0]) line.length (line.length + 1) c' j).bind fun r =>
          parseargs (line ++ [0]) line.length n (ws ++ [w]).length r.1 r.2) ∨
    (MAXARGS ≤ ws.length + 1 ∧
      parseargs (line ++ [0]) line.length (n + 1) ws.length c i = panic "too many args") := by
  obtain ⟨j, hpeek, -, hat, -⟩ := h.peek h0 ['|', ')', '&', ';'] (by decide)
  obtain ⟨k, hk, hret, -, hat', hspan⟩ := hat.gettoken h0
  have hstep : parseargs (line ++ [0]) line.length (n + 1) ws.length c i =
      (setArg ws.length (some k.q) (some k.eq) c).bind fun c' =>
        if ws.length + 1 ≥ MAXARGS then panic "too many args"
        else (parseredirs (line ++ [0]) line.length (line.length + 1) c' k.ps).bind fun r =>
          parseargs (line ++ [0]) line.length n (ws.length + 1) r.1 r.2 := by
    simp only [parseargs, hpeek, hk, hret, bind, Except.bind]
    rfl
  rw [hstep, List.length_append, List.length_singleton]
  by_cases hroom : ws.length + 1 < MAXARGS
  · obtain ⟨c', hset, hc'⟩ := hc.setArg hroom (hspan w rfl)
    refine .inl ⟨hroom, c', k.ps, hc', hat', ?_⟩
    rw [hset, Except.bind, if_neg (by omega)]
  · obtain ⟨c', hset⟩ := hc.setArg_ok hws (some k.q) (some k.eq)
    refine .inr ⟨by omega, ?_⟩
    rw [hset, Except.bind, if_pos (by omega)]

theorem parseargs_panic (h0 : 0 ∉ line) (h : At line i ts) (hts : ¬ Ends ts)
    (hword : ∀ w us, ts ≠ .word w :: us) (argc : Nat) :
    parseargs (line ++ [0]) line.length (n + 1) argc c i = panic "syntax" := by
  obtain ⟨j, hpeek, -, hat, -⟩ := h.peek h0 ['|', ')', '&', ';'] (by decide)
  obtain ⟨k, hk, ⟨w, us, rfl, -⟩ | ⟨rfl, -⟩ | ⟨hna, hn0, -⟩⟩ := hat.gettoken_word h0
  · exact absurd rfl (hword w us)
  · exact absurd (.inl rfl) hts
  · have hno : starts ts ['|', ')', '&', ';'] = false :=
      Bool.eq_false_iff.2 fun hs => hts (.inr hs)
    simp only [parseargs, hpeek, hno, hk, bind, Except.bind, Bool.false_eq_true, if_false,
      if_neg hn0, if_pos hna]

/-- Arguments are followed by a word, or by what follows all of them. -/
theorem not_redir_args (hts : Ends ts) (args : List Arg) :
    starts (args.flatMap Arg.toks ++ ts) ['<', '>'] = false := by
  rcases args with _ | ⟨a, args⟩
  · exact hts.not_redir
  · rfl

/-- The tree when some arguments are read and more are to come. -/
theorem simple_append (rs : List Redir) (args : List Arg) (ws : List Word) (a : Arg) :
    (rs ++ a.redirs ++ args.flatMap Arg.redirs).foldl Redir.apply
        (.exec (ws ++ [a.word] ++ args.map Arg.word)) =
      (rs ++ (a :: args).flatMap Arg.redirs).foldl Redir.apply
        (.exec (ws ++ (a :: args).map Arg.word)) := by
  simp

theorem parseargs_yields (h0 : 0 ∉ line) (hts : Ends ts) {args : List Arg}
    (hn : (args.flatMap Arg.toks ++ ts).length < n) (h : At line i (args.flatMap Arg.toks ++ ts))
    (hc : Shows line c (rs.foldl Redir.apply (.exec ws)))
    (hlt : (ws ++ args.map Arg.word).length < MAXARGS) :
    ∃ c' j, parseargs (line ++ [0]) line.length n ws.length c i =
        .ok ((ws ++ args.map Arg.word).length, c', j) ∧
      Shows line c' ((rs ++ args.flatMap Arg.redirs).foldl Redir.apply
        (.exec (ws ++ args.map Arg.word))) ∧ At line j ts := by
  induction args generalizing n c i rs ws with
  | nil =>
    obtain ⟨n, rfl⟩ := Nat.exists_eq_succ_of_ne_zero (Nat.ne_zero_of_lt hn)
    obtain ⟨j, heq, hj⟩ := parseargs_stop (n := n) (c := c) h0 h hts ws.length
    refine ⟨c, j, ?_, ?_, hj⟩
    · rw [heq, List.map_nil, List.append_nil]
    · rwa [List.flatMap_nil, List.append_nil, List.map_nil, List.append_nil]
  | cons a args ih =>
    obtain ⟨n, rfl⟩ := Nat.exists_eq_succ_of_ne_zero (Nat.ne_zero_of_lt hn)
    rw [List.flatMap_cons, Arg.toks, List.cons_append, List.cons_append] at h
    rw [List.length_append, List.length_map, List.length_cons] at hlt
    obtain ⟨-, c', j, hc', hj, heq⟩ | ⟨hfull, -⟩ := parseargs_word (n := n) h0 h hc (by omega)
    · have hlen := hj.length_lt
      rw [List.append_assoc] at hj hlen
      obtain ⟨c'', j', hredirs, hc'', hj'⟩ :=
        parseredirs_yields h0 (not_redir_args hts args) hlen hj hc'
      rw [← List.foldl_append] at hc''
      have hlt' : (ws ++ [a.word] ++ args.map Arg.word).length < MAXARGS := by
        simp only [List.length_append, List.length_map, List.length_singleton]
        omega
      have hn' : (args.flatMap Arg.toks ++ ts).length < n := by
        simp only [List.flatMap_cons, List.length_append, Arg.toks, List.length_cons] at hn ⊢
        omega
      obtain ⟨c₃, j₃, hrest, hc₃, hj₃⟩ := ih hn' hj' hc'' hlt'
      refine ⟨c₃, j₃, ?_, ?_, hj₃⟩
      · rw [heq, hredirs, Except.bind, hrest, List.append_assoc]
        rfl
      · rwa [← simple_append]
    · omega

theorem parseargs_reads (h0 : 0 ∉ line) (hn : ts.length < n) (h : At line i ts)
    (hc : Shows line c (rs.foldl Redir.apply (.exec ws))) (hws : ws.length < MAXARGS) :
    (∃ msg, parseargs (line ++ [0]) line.length n ws.length c i = .error (.panic msg)) ∨
      ∃ (args : List Arg) (vs : List Tok) (c' : Cmd) (j : Pos), ts = args.flatMap Arg.toks ++ vs ∧
        (ws ++ args.map Arg.word).length < MAXARGS ∧
        parseargs (line ++ [0]) line.length n ws.length c i =
          .ok ((ws ++ args.map Arg.word).length, c', j) ∧
        Shows line c' ((rs ++ args.flatMap Arg.redirs).foldl Redir.apply
          (.exec (ws ++ args.map Arg.word))) ∧ At line j vs := by
  induction n generalizing ts c i rs ws with
  | zero => exact absurd hn (Nat.not_lt_zero _)
  | succ n ih =>
    by_cases hts : Ends ts
    · obtain ⟨j, heq, hj⟩ := parseargs_stop (n := n) (c := c) h0 h hts ws.length
      refine .inr ⟨[], ts, c, j, rfl, ?_⟩
      rw [List.map_nil, List.append_nil, List.flatMap_nil, List.append_nil]
      exact ⟨hws, heq, hc, hj⟩
    by_cases hword : ∃ w us, ts = .word w :: us
    · obtain ⟨w, us, rfl⟩ := hword
      obtain ⟨hroom, c', j, hc', hj, heq⟩ | ⟨-, heq⟩ := parseargs_word (n := n) h0 h hc hws
      · rw [heq]
        rcases parseredirs_reads h0 hj.length_lt hj hc' with
          ⟨msg, hpanic⟩ | ⟨_, vs, _, rfl, ⟨redirs, rfl, rfl⟩, c'', j', hredirs, hc'', hj'⟩
        · rw [hpanic]
          exact .inl ⟨msg, rfl⟩
        rw [← List.foldl_append] at hc''
        rw [List.length_cons, List.length_append] at hn
        rw [hredirs, Except.bind]
        rcases ih (by omega) hj' hc'' (by rwa [List.length_append, List.length_singleton]) with
          hpanic | ⟨args, vs, c₃, j₃, rfl, hlt, hrest, hc₃, hj₃⟩
        · exact .inl hpanic
        refine .inr ⟨⟨w, redirs⟩ :: args, vs, c₃, j₃, ?_, ?_, ?_, ?_, hj₃⟩
        · rw [List.flatMap_cons, Arg.toks, List.cons_append, List.cons_append, List.append_assoc]
        · rwa [List.append_assoc] at hlt
        · rw [hrest, List.append_assoc]
          rfl
        · rwa [← simple_append]
      · exact .inl ⟨_, heq⟩
    · refine .inl ⟨_, parseargs_panic h0 h hts (fun w us heq => hword ⟨w, us, heq⟩) ws.length⟩

/-- `parsesimple` when the loop is done: the arrays end with NULL. -/
theorem parsesimple_eq {c₁ c₂ : Cmd} {j₁ j₂ : Nat}
    (hredirs : parseredirs (line ++ [0]) line.length (line.length + 1) execcmd i = .ok (c₁, j₁))
    (hargs : parseargs (line ++ [0]) line.length (line.length + 1) 0 c₁ j₁ =
      .ok (ws.length, c₂, j₂))
    (hc : Shows line c₂ (rs.foldl Redir.apply (.exec ws))) :
    parsesimple (line ++ [0]) line.length i = .ok (c₂, j₂) := by
  simp only [parsesimple, hredirs, hargs, hc.setArg_none, bind, Except.bind, pure, Except.pure]

theorem parsesimple_yields (h0 : 0 ∉ line) (hts : Ends ts) {args : List Arg}
    (hlt : args.length < MAXARGS)
    (h : At line i (rs.flatMap Redir.toks ++ args.flatMap Arg.toks ++ ts)) :
    Yields line (parsesimple (line ++ [0]) line.length i) (Shell.simple rs args) ts := by
  have hlen := h.length_lt
  rw [List.append_assoc] at h hlen
  obtain ⟨c₁, j₁, hredirs, hc₁, hj₁⟩ :=
    parseredirs_yields h0 (not_redir_args hts args) hlen h shows_execcmd
  obtain ⟨c₂, j₂, hargs, hc₂, hj₂⟩ := parseargs_yields h0 hts hj₁.length_lt hj₁ hc₁
    (by rwa [List.nil_append, List.length_map])
  exact ⟨c₂, j₂, parsesimple_eq hredirs hargs hc₂, hc₂, hj₂⟩

theorem parsesimple_reads (h0 : 0 ∉ line) (h : At line i ts) :
    Reads line (Derives .exec) ts (parsesimple (line ++ [0]) line.length i) := by
  rcases parseredirs_reads h0 h.length_lt h shows_execcmd with
    ⟨msg, hpanic⟩ | ⟨_, vs, _, rfl, ⟨rs, rfl, rfl⟩, c₁, j₁, hredirs, hc₁, hj₁⟩
  · refine .inl ⟨msg, ?_⟩
    simp only [parsesimple, hpanic, bind, Except.bind]
  rcases parseargs_reads h0 hj₁.length_lt hj₁ hc₁ (by decide) with
    ⟨msg, hpanic⟩ | ⟨args, vs, c₂, j₂, rfl, hlt, hargs, hc₂, hj₂⟩
  · rw [List.length_nil] at hpanic
    refine .inl ⟨msg, ?_⟩
    simp only [parsesimple, hredirs, hpanic, bind, Except.bind]
  · rw [List.nil_append, List.length_map] at hlt
    exact .inr ⟨_, vs, _, (List.append_assoc ..).symm, .simple rs args hlt, c₂, j₂,
      parsesimple_eq hredirs hargs hc₂, hc₂, hj₂⟩

end Xv6.Shell
