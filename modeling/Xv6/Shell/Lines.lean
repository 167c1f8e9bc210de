import Xv6.Shell.Simple

/-!
# Lines, pipes and blocks

The parsers that call each other.  What a parser returns is a phrase of its
symbol, and a phrase is read when something that may follow it is behind it.
-/

namespace Xv6.Shell

variable {line : List Byte} {i n k : Nat} {ts us vs : List Tok} {t : Tree} {c : Cmd}

/-! ## One turn of each parser -/

theorem Yields.map {r : Parse (Cmd × Pos)} {u : Tree} {f : Cmd → Cmd}
    (h : Yields line r t ts) (hf : ∀ c, Shows line c t → Shows line (f c) u) :
    Yields line (r.map fun r => (f r.1, r.2)) u ts := by
  obtain ⟨c, j, rfl, hc, hj⟩ := h
  exact ⟨f c, j, rfl, hf c hc, hj⟩

theorem parseback_yields (h0 : 0 ∉ line) (hts : starts ts ['&'] = false) (hn : k < n)
    (h : At line i (List.replicate k .amp ++ ts)) (hc : Shows line c t) :
    Yields line (parseback (line ++ [0]) line.length n c i) (t.backs k) ts := by
  induction k generalizing n c t i with
  | zero =>
    obtain ⟨n, rfl⟩ := Nat.exists_eq_succ_of_ne_zero (Nat.ne_zero_of_lt hn)
    obtain ⟨j, hpeek, -, hat, -⟩ := h.peek h0 ['&'] (by decide)
    refine ⟨c, j, ?_, hc, hat⟩
    rw [List.replicate_zero, List.nil_append] at hpeek
    simp only [parseback, hpeek, hts, bind, Except.bind, pure, Except.pure, Bool.false_eq_true,
      if_false]
  | succ k ih =>
    obtain ⟨n, rfl⟩ := Nat.exists_eq_succ_of_ne_zero (Nat.ne_zero_of_lt hn)
    obtain ⟨j, hpeek, -, hat, -⟩ := h.peek h0 ['&'] (by decide)
    obtain ⟨r, hr, -, -, hrest, -⟩ := hat.gettoken h0
    have hstep : parseback (line ++ [0]) line.length (n + 1) c i =
        parseback (line ++ [0]) line.length n (.back c) r.ps := by
      rw [List.replicate_succ, List.cons_append] at hpeek
      simp only [parseback, hpeek, hr, bind, Except.bind]
      rfl
    rw [hstep]
    exact ih (Nat.lt_of_succ_lt_succ hn) hrest (.back hc)

/-- All the `&` behind a pipe. -/
theorem exists_amps (ts : List Tok) :
    ∃ k us, ts = List.replicate k .amp ++ us ∧ starts us ['&'] = false := by
  induction ts with
  | nil => exact ⟨0, [], rfl, rfl⟩
  | cons t ts ih =>
    by_cases ht : t = .amp
    · obtain ⟨k, us, rfl, hus⟩ := ih
      exact ⟨k + 1, us, by rw [ht]; rfl, hus⟩
    · refine ⟨0, t :: ts, rfl, ?_⟩
      cases t with
      | amp => exact absurd rfl ht
      | word _ | lt | gt | gtgt | bar | semi | lpar | rpar => rfl

theorem parseline_turn (h0 : 0 ∉ line) (hts : starts ts ['&'] = false)
    (h : Yields line (parsepipe (line ++ [0]) line.length n i) t (List.replicate k .amp ++ ts)) :
    (starts ts [';'] = false ∧
      Yields line (parseline (line ++ [0]) line.length (n + 1) i) (t.backs k) ts) ∨
    ∃ us j c, ts = .semi :: us ∧ At line j us ∧ Shows line c (t.backs k) ∧
      parseline (line ++ [0]) line.length (n + 1) i =
        (parseline (line ++ [0]) line.length n j).map fun r => (.list c r.1, r.2) := by
  obtain ⟨c, j, hpipe, hc, hj⟩ := h
  have hk : k < line.length + 1 := by
    have hlen := hj.length_lt
    rw [List.length_append, List.length_replicate] at hlen
    omega
  obtain ⟨c', j', hback, hc', hj'⟩ := parseback_yields h0 hts hk hj hc
  obtain ⟨j'', hpeek, -, hat, -⟩ := hj'.peek h0 [';'] (by decide)
  by_cases hsemi : starts ts [';'] = true
  · obtain ⟨us, rfl⟩ := exists_of_starts (u := .semi) (by rintro ⟨⟩ <;> simp [Tok.lead]) hsemi
    obtain ⟨r, hr, -, -, hrest, -⟩ := hat.gettoken h0
    refine .inr ⟨us, r.ps, c', rfl, hrest, hc', ?_⟩
    simp only [parseline, hpipe, hback, hpeek, hsemi, hr, bind, Except.bind, pure, Except.pure,
      if_true]
    cases parseline (line ++ [0]) line.length n r.ps with
    | ok _ | error _ => rfl
  · refine .inl ⟨Bool.eq_false_iff.2 hsemi, c', j'', ?_, hc', hat⟩
    simp only [parseline, hpipe, hback, hpeek, Bool.eq_false_iff.2 hsemi, bind, Except.bind, pure,
      Except.pure, Bool.false_eq_true, if_false]

theorem parsepipe_turn (h0 : 0 ∉ line)
    (h : Yields line (parseexec (line ++ [0]) line.length n i) t ts) :
    (starts ts ['|'] = false ∧
      Yields line (parsepipe (line ++ [0]) line.length (n + 1) i) t ts) ∨
    ∃ us j c, ts = .bar :: us ∧ At line j us ∧ Shows line c t ∧
      parsepipe (line ++ [0]) line.length (n + 1) i =
        (parsepipe (line ++ [0]) line.length n j).map fun r => (.pipe c r.1, r.2) := by
  obtain ⟨c, j, hexec, hc, hj⟩ := h
  obtain ⟨j', hpeek, -, hat, -⟩ := hj.peek h0 ['|'] (by decide)
  by_cases hbar : starts ts ['|'] = true
  · obtain ⟨us, rfl⟩ := exists_of_starts (u := .bar) (by rintro ⟨⟩ <;> simp [Tok.lead]) hbar
    obtain ⟨r, hr, -, -, hrest, -⟩ := hat.gettoken h0
    refine .inr ⟨us, r.ps, c, rfl, hrest, hc, ?_⟩
    simp only [parsepipe, hexec, hpeek, hbar, hr, bind, Except.bind, pure, Except.pure, if_true]
    cases parsepipe (line ++ [0]) line.length n r.ps with
    | ok _ | error _ => rfl
  · refine .inl ⟨Bool.eq_false_iff.2 hbar, c, j', ?_, hc, hat⟩
    simp only [parsepipe, hexec, hpeek, Bool.eq_false_iff.2 hbar, bind, Except.bind, pure,
      Except.pure, Bool.false_eq_true, if_false]

theorem parseexec_block (h0 : 0 ∉ line) (h : At line i (.lpar :: ts)) :
    ∃ j, At line j (.lpar :: ts) ∧ parseexec (line ++ [0]) line.length (n + 1) i =
      parseblock (line ++ [0]) line.length n j := by
  obtain ⟨j, hpeek, -, hat, -⟩ := h.peek h0 ['('] (by decide)
  refine ⟨j, hat, ?_⟩
  simp only [parseexec, hpeek, bind, Except.bind]
  rfl

theorem parseexec_simple (h0 : 0 ∉ line) (h : At line i ts) (hts : starts ts ['('] = false) :
    ∃ j, At line j ts ∧ parseexec (line ++ [0]) line.length (n + 1) i =
      parsesimple (line ++ [0]) line.length j := by
  obtain ⟨j, hpeek, -, hat, -⟩ := h.peek h0 ['('] (by decide)
  refine ⟨j, hat, ?_⟩
  simp only [parseexec, hpeek, hts, bind, Except.bind, Bool.false_eq_true, if_false]

theorem parseblock_turn (h0 : 0 ∉ line) (h : At line i (.lpar :: ts)) :
    ∃ j, At line j ts ∧
      (∀ e, parseline (line ++ [0]) line.length n j = .error e →
        parseblock (line ++ [0]) line.length (n + 1) i = .error e) ∧
      ∀ t us, Yields line (parseline (line ++ [0]) line.length n j) t us →
        (∃ vs c j', us = .rpar :: vs ∧ Shows line c t ∧ At line j' vs ∧
          parseblock (line ++ [0]) line.length (n + 1) i =
            parseredirs (line ++ [0]) line.length (line.length + 1) c j') ∨
        ((∀ vs, us ≠ .rpar :: vs) ∧
          parseblock (line ++ [0]) line.length (n + 1) i = panic "syntax - missing )") := by
  obtain ⟨j, hpeek, -, hat, -⟩ := h.peek h0 ['('] (by decide)
  obtain ⟨r, hr, -, -, hrest, -⟩ := hat.gettoken h0
  have hopen : starts (.lpar :: ts) ['('] = true := rfl
  refine ⟨r.ps, hrest, fun e he => ?_, fun t us hyields => ?_⟩
  · simp only [parseblock, hpeek, hopen, hr, he, bind, Except.bind, if_true]
  obtain ⟨c, j', hline, hc, hj'⟩ := hyields
  obtain ⟨j'', hpeek', -, hat', -⟩ := hj'.peek h0 [')'] (by decide)
  by_cases hclose : starts us [')'] = true
  · obtain ⟨vs, rfl⟩ := exists_of_starts (u := .rpar) (by rintro ⟨⟩ <;> simp [Tok.lead]) hclose
    obtain ⟨r', hr', -, -, hrest', -⟩ := hat'.gettoken h0
    refine .inl ⟨vs, c, r'.ps, rfl, hc, hrest', ?_⟩
    simp only [parseblock, hpeek, hopen, hr, hline, hpeek', hclose, hr', bind, Except.bind,
      if_true]
  · refine .inr ⟨?_, ?_⟩
    · rintro vs rfl
      exact hclose rfl
    · simp only [parseblock, hpeek, hopen, hr, hline, hpeek', Bool.eq_false_iff.2 hclose, bind,
        Except.bind, if_true, Bool.false_eq_true, if_false]

/-! ## The parser of a symbol -/

def Symbol.parse (mem : List Byte) (es : Pos) : Symbol → Nat → Pos → Parse (Cmd × Pos)
  | .line => parseline mem es
  | .pipe => parsepipe mem es
  | .exec => parseexec mem es

/-- How many turns the parser makes before it has read a token. -/
def Symbol.turns : Symbol → Nat
  | .line => 4
  | .pipe => 3
  | .exec => 2

/-- The symbols that can be behind a phrase. -/
def Symbol.follow : Symbol → List Char
  | .exec => ['|', ')', '&', ';']
  | .pipe => [')', '&', ';']
  | .line => [')']

def Symbol.EndsBefore (X : Symbol) (ts : List Tok) : Prop := ts = [] ∨ starts ts X.follow = true

theorem parseline_reads (h0 : 0 ∉ line)
    (hpipe : Reads line (Derives .pipe) ts (parsepipe (line ++ [0]) line.length n i))
    (hline : ∀ us j, At line j us → us.length < ts.length →
      Reads line (Derives .line) us (parseline (line ++ [0]) line.length n j)) :
    Reads line (Derives .line) ts (parseline (line ++ [0]) line.length (n + 1) i) := by
  obtain ⟨msg, hpanic⟩ | ⟨us, vs, t, rfl, hus, hyields⟩ := hpipe
  · refine .inl ⟨msg, ?_⟩
    simp only [parseline, hpanic, bind, Except.bind]
  obtain ⟨k, vs, rfl, hvs⟩ := exists_amps vs
  rcases parseline_turn h0 hvs hyields with ⟨-, hend⟩ | ⟨vs, j, c, rfl, hj, hc, heq⟩
  · exact .inr ⟨us ++ List.replicate k .amp, vs, _, (List.append_assoc ..).symm, .line k hus, hend⟩
  rw [heq]
  obtain ⟨msg, hpanic⟩ | ⟨us', vs, u, rfl, hus', hyields'⟩ := hline vs j hj (by
    simp only [List.length_append, List.length_cons]
    omega)
  · rw [hpanic]
    exact .inl ⟨msg, rfl⟩
  · exact .inr ⟨us ++ List.replicate k .amp ++ .semi :: us', vs, _, by simp, .list k hus hus',
      hyields'.map fun _ hu => .list hc hu⟩

theorem parsepipe_reads (h0 : 0 ∉ line)
    (hexec : Reads line (Derives .exec) ts (parseexec (line ++ [0]) line.length n i))
    (hpipe : ∀ us j, At line j us → us.length < ts.length →
      Reads line (Derives .pipe) us (parsepipe (line ++ [0]) line.length n j)) :
    Reads line (Derives .pipe) ts (parsepipe (line ++ [0]) line.length (n + 1) i) := by
  obtain ⟨msg, hpanic⟩ | ⟨us, vs, t, rfl, hus, hyields⟩ := hexec
  · refine .inl ⟨msg, ?_⟩
    simp only [parsepipe, hpanic, bind, Except.bind]
  rcases parsepipe_turn h0 hyields with ⟨-, hend⟩ | ⟨vs, j, c, rfl, hj, hc, heq⟩
  · exact .inr ⟨us, vs, t, rfl, .single hus, hend⟩
  rw [heq]
  obtain ⟨msg, hpanic⟩ | ⟨us', vs, u, rfl, hus', hyields'⟩ := hpipe vs j hj (by
    simp only [List.length_append, List.length_cons]
    omega)
  · rw [hpanic]
    exact .inl ⟨msg, rfl⟩
  · exact .inr ⟨us ++ .bar :: us', vs, _, by simp, .pipe hus hus',
      hyields'.map fun _ hu => .pipe hc hu⟩

theorem parseblock_reads (h0 : 0 ∉ line) (h : At line i (.lpar :: ts))
    (hline : ∀ j, At line j ts →
      Reads line (Derives .line) ts (parseline (line ++ [0]) line.length n j)) :
    Reads line (Derives .exec) (.lpar :: ts)
      (parseblock (line ++ [0]) line.length (n + 1) i) := by
  obtain ⟨j, hj, herror, hok⟩ := parseblock_turn (n := n) h0 h
  obtain ⟨msg, hpanic⟩ | ⟨us, vs, t, rfl, hus, hyields⟩ := hline j hj
  · exact .inl ⟨msg, herror _ hpanic⟩
  obtain ⟨vs, c, j', rfl, hc, hj', heq⟩ | ⟨-, heq⟩ := hok t vs hyields
  · rw [heq]
    rcases parseredirs_reads h0 hj'.length_lt hj' hc with
      hpanic | ⟨_, vs, _, rfl, ⟨rs, rfl, rfl⟩, hyields'⟩
    · exact .inl hpanic
    · exact .inr ⟨.lpar :: us ++ .rpar :: rs.flatMap Redir.toks, vs, _, by simp,
        .block hus rs, hyields'⟩
  · exact .inl ⟨_, heq⟩

theorem lead_lpar (t : Tok) (h : t.lead = some '(') : t = .lpar := by
  cases t <;> simp [Tok.lead] at h
  rfl

/-- What is read is a phrase. -/
theorem parse_reads (h0 : 0 ∉ line) (X : Symbol) (h : At line i ts)
    (hn : 4 * ts.length + X.turns ≤ n) :
    Reads line (Derives X) ts (X.parse (line ++ [0]) line.length n i) := by
  induction n using Nat.strong_induction_on generalizing X ts i with
  | _ n ih =>
    have hrest : ∀ (Y : Symbol) (m : Nat) (us : List Tok) (j : Nat), m < n → At line j us →
        4 * us.length + Y.turns ≤ m →
        Reads line (Derives Y) us (Y.parse (line ++ [0]) line.length m j) :=
      fun Y m us j hlt hj hm => ih m hlt Y hj hm
    cases X with
    | line =>
      simp only [Symbol.turns] at hn
      obtain ⟨n, rfl⟩ := Nat.exists_eq_succ_of_ne_zero (show n ≠ 0 by omega)
      refine parseline_reads h0 (hrest .pipe n ts i n.lt_succ_self h ?_) fun us j hj hlt =>
        hrest .line n us j n.lt_succ_self hj ?_
      · simp only [Symbol.turns]
        omega
      · simp only [Symbol.turns]
        omega
    | pipe =>
      simp only [Symbol.turns] at hn
      obtain ⟨n, rfl⟩ := Nat.exists_eq_succ_of_ne_zero (show n ≠ 0 by omega)
      refine parsepipe_reads h0 (hrest .exec n ts i n.lt_succ_self h ?_) fun us j hj hlt =>
        hrest .pipe n us j n.lt_succ_self hj ?_
      · simp only [Symbol.turns]
        omega
      · simp only [Symbol.turns]
        omega
    | exec =>
      simp only [Symbol.turns] at hn
      obtain ⟨n, rfl⟩ := Nat.exists_eq_add_of_le hn
      by_cases hopen : starts ts ['('] = true
      · obtain ⟨us, rfl⟩ := exists_of_starts lead_lpar hopen
        rw [List.length_cons] at hrest ⊢
        rw [show 4 * (us.length + 1) + 2 + n = 4 * us.length + 4 + n + 1 + 1 by omega] at hrest ⊢
        obtain ⟨j, hj, heq⟩ := parseexec_block (n := 4 * us.length + 4 + n + 1) h0 h
        rw [Symbol.parse, heq]
        refine parseblock_reads h0 hj fun j' hj' => hrest .line _ us j' (by omega) hj' ?_
        simp only [Symbol.turns]
        omega
      · rw [show 4 * ts.length + 2 + n = 4 * ts.length + 1 + n + 1 by omega]
        obtain ⟨j, hj, heq⟩ := parseexec_simple (n := 4 * ts.length + 1 + n) h0 h
          (Bool.eq_false_iff.2 hopen)
        rw [Symbol.parse, heq]
        exact parsesimple_reads h0 hj

/-! ## A phrase is read -/

theorem Symbol.EndsBefore.not_starts {X : Symbol} (h : X.EndsBefore ts) {d : Char}
    (hd : d ∉ X.follow) : starts ts [d] = false := by
  rcases h with rfl | h
  · rfl
  · rcases ts with _ | ⟨t, ts⟩
    · rfl
    · obtain ⟨e, he, hmem⟩ := (Option.any_eq_true _ t.lead).1 h
      have hne : e ≠ d := by
        rintro rfl
        exact hd (List.contains_iff_mem.1 hmem)
      simp [starts, he, hne]

theorem Symbol.EndsBefore.mono {X Y : Symbol} (h : X.EndsBefore ts)
    (hsub : X.follow ⊆ Y.follow) : Y.EndsBefore ts := by
  rcases h with rfl | h
  · exact .inl rfl
  · obtain ⟨t, ht, hmem⟩ := (Option.any_eq_true _ _).1 h
    refine .inr ((Option.any_eq_true _ _).2 ⟨t, ht, ?_⟩)
    exact List.contains_iff_mem.2 (hsub (List.contains_iff_mem.1 hmem))

theorem ends_amps (k : Nat) (h : Symbol.pipe.EndsBefore ts) :
    Symbol.pipe.EndsBefore (List.replicate k .amp ++ ts) := by
  cases k with
  | zero => exact h
  | succ k => exact .inr rfl

theorem not_block_simple (rs : List Redir) (args : List Arg) (hts : Symbol.exec.EndsBefore ts) :
    starts (rs.flatMap Redir.toks ++ args.flatMap Arg.toks ++ ts) ['('] = false := by
  rcases rs with _ | ⟨r, rs⟩
  · rcases args with _ | ⟨a, args⟩
    · exact hts.not_starts (by decide)
    · rfl
  · obtain ⟨mode, file⟩ := r
    cases mode with
    | read | write | append => rfl

/-- A phrase is read when something that may follow it is behind it. -/
theorem Derives.parse (h0 : 0 ∉ line) {X : Symbol} (hus : Derives X us t)
    (hts : X.EndsBefore ts) (h : At line i (us ++ ts))
    (hn : 4 * (us ++ ts).length + X.turns ≤ n) :
    Yields line (X.parse (line ++ [0]) line.length n i) t ts := by
  induction hus generalizing ts i n with
  | @line us t k hp ih =>
    obtain ⟨n, rfl⟩ := Nat.exists_eq_succ_of_ne_zero (Nat.ne_zero_of_lt hn)
    rw [List.append_assoc] at h hn
    have hpipe := ih (n := n) (ends_amps k (hts.mono (by decide))) h (Nat.le_of_succ_le_succ hn)
    rcases parseline_turn h0 (hts.not_starts (by decide)) hpipe with ⟨-, hend⟩ | ⟨us, _, _, rfl, -⟩
    · exact hend
    · have hno : starts (Tok.semi :: us) [';'] = false := hts.not_starts (by decide)
      cases hno
  | @list us vs t u k hp hl ihp ihl =>
    obtain ⟨n, rfl⟩ := Nat.exists_eq_succ_of_ne_zero (Nat.ne_zero_of_lt hn)
    rw [List.append_assoc, List.append_assoc] at h hn
    have hpipe := ihp (n := n) (ends_amps k (.inr rfl)) h (Nat.le_of_succ_le_succ hn)
    rcases parseline_turn h0 rfl hpipe with ⟨hno, -⟩ | ⟨us', j, c, heq, hj, hc, hparse⟩
    · cases hno
    · obtain rfl : vs ++ ts = us' := (List.cons.inj heq).2
      have hlen : (vs ++ ts).length + 1 ≤
          (us ++ (List.replicate k Tok.amp ++ (Tok.semi :: vs ++ ts))).length := by
        simp only [List.length_append, List.length_cons, List.cons_append]
        omega
      simp only [Symbol.turns] at hn
      have hline := ihl (n := n) hts hj (by simp only [Symbol.turns]; omega)
      rw [Symbol.parse, hparse]
      exact hline.map fun _ hu => .list hc hu
  | @single us t he ih =>
    obtain ⟨n, rfl⟩ := Nat.exists_eq_succ_of_ne_zero (Nat.ne_zero_of_lt hn)
    have hexec := ih (n := n) (hts.mono (by decide)) h (Nat.le_of_succ_le_succ hn)
    rcases parsepipe_turn h0 hexec with ⟨-, hend⟩ | ⟨us, _, _, rfl, -⟩
    · exact hend
    · have hno : starts (Tok.bar :: us) ['|'] = false := hts.not_starts (by decide)
      cases hno
  | @pipe us vs t u he hp ihe ihp =>
    obtain ⟨n, rfl⟩ := Nat.exists_eq_succ_of_ne_zero (Nat.ne_zero_of_lt hn)
    rw [List.append_assoc] at h hn
    have hexec := ihe (n := n) (.inr rfl) h (Nat.le_of_succ_le_succ hn)
    rcases parsepipe_turn h0 hexec with ⟨hno, -⟩ | ⟨us', j, c, heq, hj, hc, hparse⟩
    · cases hno
    · obtain rfl : vs ++ ts = us' := (List.cons.inj heq).2
      have hlen : (vs ++ ts).length + 1 ≤ (us ++ (Tok.bar :: vs ++ ts)).length := by
        simp only [List.length_append, List.length_cons, List.cons_append]
        omega
      simp only [Symbol.turns] at hn
      have hpipe := ihp (n := n) hts hj (by simp only [Symbol.turns]; omega)
      rw [Symbol.parse, hparse]
      exact hpipe.map fun _ hu => .pipe hc hu
  | @block us t hl rs ih =>
    simp only [List.cons_append, List.append_assoc] at h hn
    simp only [List.length_cons, Symbol.turns] at hn
    obtain ⟨n, rfl⟩ := Nat.exists_eq_add_of_le (show 2 ≤ n by omega)
    rw [Nat.add_comm 2] at hn ⊢
    obtain ⟨j, hj, hexec⟩ := parseexec_block (n := n + 1) h0 h
    obtain ⟨j', hj', -, hok⟩ := parseblock_turn (n := n) h0 hj
    have hline := ih (n := n) (.inr rfl) hj' (by simp only [Symbol.turns]; omega)
    obtain ⟨vs, c, j₃, heq, hc, hj₃, hblock⟩ | ⟨hno, -⟩ := hok _ _ hline
    · obtain rfl : rs.flatMap Redir.toks ++ ts = vs := (List.cons.inj heq).2
      rw [Symbol.parse, hexec, hblock]
      exact parseredirs_yields h0 (Ends.not_redir hts) hj₃.length_lt hj₃ hc
    · exact absurd rfl (hno _)
  | simple rs args hlt =>
    obtain ⟨n, rfl⟩ := Nat.exists_eq_succ_of_ne_zero (Nat.ne_zero_of_lt hn)
    obtain ⟨j, hj, hexec⟩ := parseexec_simple (n := n) h0 h (not_block_simple rs args hts)
    rw [Symbol.parse, hexec]
    exact parsesimple_yields h0 hts hlt hj

end Xv6.Shell
