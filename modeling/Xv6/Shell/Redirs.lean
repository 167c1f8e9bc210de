import Xv6.Shell.Parsecmd
import Xv6.Shell.Runcmd

/-!
# The order of redirections

The parser puts each redirection around the ones before it, and the interpreter
starts outside.  So the last redirection that is written is the first one to be
opened.
-/

namespace Xv6.Shell

open Function (update)

/-- The commands of a phrase: what is redirected, and the redirections in the
order in which they are written. -/
inductive Command : Symbol → List Tok → Tree → Tree → List Redir → Prop
  | simple (rs : List Redir) (args : List Arg) (h : args.length < MAXARGS) :
      Command .exec (rs.flatMap Redir.toks ++ args.flatMap Arg.toks) (Shell.simple rs args)
        (.exec (args.map Arg.word)) (rs ++ args.flatMap Arg.redirs)
  | block {ts : List Tok} {t : Tree} (hl : Derives .line ts t) (rs : List Redir) :
      Command .exec (.lpar :: ts ++ .rpar :: rs.flatMap Redir.toks) (rs.foldl Redir.apply t) t rs
  | inBlock {ts : List Tok} {t core : Tree} {qs : List Redir} (h : Command .line ts t core qs)
      (rs : List Redir) :
      Command .exec (.lpar :: ts ++ .rpar :: rs.flatMap Redir.toks) (rs.foldl Redir.apply t) core qs
  | single {ts : List Tok} {t core : Tree} {qs : List Redir} (h : Command .exec ts t core qs) :
      Command .pipe ts t core qs
  | left {ts us : List Tok} {t u core : Tree} {qs : List Redir} (h : Command .exec ts t core qs)
      (hp : Derives .pipe us u) : Command .pipe (ts ++ .bar :: us) (.pipe t u) core qs
  | right {ts us : List Tok} {t u core : Tree} {qs : List Redir} (he : Derives .exec ts t)
      (h : Command .pipe us u core qs) : Command .pipe (ts ++ .bar :: us) (.pipe t u) core qs
  | line {ts : List Tok} {t core : Tree} {qs : List Redir} (n : Nat)
      (h : Command .pipe ts t core qs) :
      Command .line (ts ++ List.replicate n .amp) (t.backs n) core qs
  | first {ts us : List Tok} {t u core : Tree} {qs : List Redir} (n : Nat)
      (h : Command .pipe ts t core qs) (hl : Derives .line us u) :
      Command .line (ts ++ List.replicate n .amp ++ .semi :: us) (.list (t.backs n) u) core qs
  | rest {ts us : List Tok} {t u core : Tree} {qs : List Redir} (n : Nat)
      (hp : Derives .pipe ts t) (h : Command .line us u core qs) :
      Command .line (ts ++ List.replicate n .amp ++ .semi :: us) (.list (t.backs n) u) core qs

/-- The commands in a command, itself included. -/
def Cmd.parts : Cmd → List Cmd
  | .exec argv eargv => [.exec argv eargv]
  | .redir cmd file efile mode fd => .redir cmd file efile mode fd :: cmd.parts
  | .pipe left right => .pipe left right :: (left.parts ++ right.parts)
  | .list left right => .list left right :: (left.parts ++ right.parts)
  | .back cmd => .back cmd :: cmd.parts

def Tree.parts : Tree → List Tree
  | .exec argv => [.exec argv]
  | .redir cmd file mode fd => .redir cmd file mode fd :: cmd.parts
  | .pipe left right => .pipe left right :: (left.parts ++ right.parts)
  | .list left right => .list left right :: (left.parts ++ right.parts)
  | .back cmd => .back cmd :: cmd.parts

/-- What the redirection opens. -/
def Redir.fileMode (r : Redir) : Word × Nat :=
  match r.mode with
  | .read => (r.file, O_RDONLY)
  | .write => (r.file, O_WRONLY ||| O_CREATE ||| O_TRUNC)
  | .append => (r.file, O_WRONLY ||| O_CREATE)

/-- The descriptor that is redirected. -/
def Redir.fd (r : Redir) : Nat :=
  match r.mode with
  | .read => 0
  | .write | .append => 1

def Redir.desc (r : Redir) : Desc := .opened r.fileMode.1 r.fileMode.2

/-- The last redirection for a descriptor. -/
def lastFor (rs : List Redir) (fd : Nat) : Option Redir :=
  (rs.filter fun r => r.fd = fd).getLast?

/-- A process that runs the command opens the files in the order in which the
redirections are written.  Then it runs what is redirected, and for each
descriptor the last redirection is in force.  All the files can be opened, and
the shell has made sure that the descriptors are open before. -/
def InOrder (mem : List Byte) (c : Cmd) (core : Tree) (rs : List Redir) : Prop :=
  ∀ fds : Fds, (∀ fd < 2, fds fd ≠ none) →
    ∃ c' fds', c'.tree mem = core ∧
      Process.after (2 * rs.length) ⟨runcmd mem c, fds, []⟩ =
        some ⟨runcmd mem c', fds', rs.map Redir.fileMode⟩ ∧
      ∀ fd < 2, fds' fd = ((lastFor rs fd).map Redir.desc).or (fds fd)

variable {mem : List Byte} {c : Cmd} {t u core : Tree} {ts : List Tok} {rs qs : List Redir}
  {X : Symbol}

/-! ## Parts of a command -/

theorem Tree.mem_parts_self (t : Tree) : t ∈ t.parts := by
  cases t <;> simp [Tree.parts]

theorem Tree.parts_tree (mem : List Byte) (c : Cmd) :
    (c.tree mem).parts = c.parts.map (Cmd.tree mem) := by
  induction c <;> simp_all [Tree.parts, Cmd.parts, Cmd.tree]

theorem Tree.mem_parts_backs (h : u ∈ t.parts) (n : Nat) : u ∈ (t.backs n).parts := by
  induction n generalizing t with
  | zero => exact h
  | succ n ih => exact ih (by simp [Tree.parts, h])

theorem Tree.mem_parts_apply (h : u ∈ t.parts) (r : Redir) : u ∈ (r.apply t).parts := by
  cases r with | mk mode file =>
  cases mode <;> simp [Redir.apply, Tree.parts, h]

theorem Tree.mem_parts_redirs (h : u ∈ t.parts) (rs : List Redir) :
    u ∈ (rs.foldl Redir.apply t).parts := by
  induction rs generalizing t with
  | nil => exact h
  | cons r rs ih => exact ih (mem_parts_apply h r)

theorem Command.derives (h : Command X ts t core rs) : Derives X ts t := by
  induction h with
  | simple rs args h => exact .simple rs args h
  | block hl rs => exact .block hl rs
  | inBlock _ rs ih => exact .block ih rs
  | single _ ih => exact .single ih
  | left _ hp ih => exact .pipe ih hp
  | right he _ ih => exact .pipe he ih
  | line n _ ih => exact .line n ih
  | first n _ hl ih => exact .list n ih hl
  | rest n hp _ ih => exact .list n hp ih

/-- The redirections of a command are around it in the tree. -/
theorem Command.mem_parts (h : Command X ts t core rs) : rs.foldl Redir.apply core ∈ t.parts := by
  induction h with
  | simple rs args h => exact Tree.mem_parts_self _
  | block hl rs => exact Tree.mem_parts_self _
  | inBlock _ rs ih => exact Tree.mem_parts_redirs ih rs
  | single _ ih => exact ih
  | left _ _ ih | right _ _ ih => simp [Tree.parts, ih]
  | line n _ ih => exact Tree.mem_parts_backs ih n
  | first n _ _ ih => simp [Tree.parts, Tree.mem_parts_backs ih n]
  | rest n _ _ ih => simp [Tree.parts, ih]

/-! ## Redirections in force -/

theorem Redir.fileMode_injective : Function.Injective Redir.fileMode := by
  rintro ⟨m, f⟩ ⟨m', f'⟩ h
  cases m <;> cases m' <;> simp_all [Redir.fileMode, O_RDONLY, O_WRONLY, O_CREATE, O_TRUNC]

theorem Redir.fd_lt (r : Redir) : r.fd < 2 := by
  cases r with | mk mode file =>
  cases mode <;> simp [Redir.fd]

/-- The descriptors after a redirection. -/
def put (fds : Fds) (r : Redir) : Fds := update fds r.fd (some r.desc)

theorem put_open {fds : Fds} (h : ∀ fd < 2, fds fd ≠ none) (r : Redir) :
    ∀ fd < 2, put fds r fd ≠ none := by
  intro fd hfd
  by_cases heq : fd = r.fd
  · simp [put, heq]
  · simpa [put, heq] using h fd hfd

theorem lastFor_concat (rs : List Redir) (r : Redir) (fd : Nat) :
    lastFor (rs ++ [r]) fd = if r.fd = fd then some r else lastFor rs fd := by
  by_cases h : r.fd = fd <;> simp [lastFor, h]

theorem foldl_put (fds : Fds) (rs : List Redir) (fd : Nat) :
    rs.foldl put fds fd = ((lastFor rs fd).map Redir.desc).or (fds fd) := by
  induction rs using List.reverseRecOn with
  | nil => rfl
  | append_singleton rs r ih =>
    rw [List.foldl_append, lastFor_concat]
    by_cases h : r.fd = fd
    · subst h
      simp [put]
    · simp [put, h, ih, Ne.symm h]

/-- The descriptor that has been closed is the one that is opened again. -/
theorem fdalloc_closed {fds : Fds} {fd : Nat} (h : ∀ fd < 2, fds fd ≠ none) (hfd : fd < 2) :
    fdalloc (update fds fd none) = some fd := by
  have hrange : List.range NOFILE = 0 :: 1 :: (List.range 14).map (· + 2) := rfl
  have h0 := h 0 (by omega)
  obtain rfl | rfl : fd = 0 ∨ fd = 1 := by omega
  · simp [fdalloc, hrange]
  · simp [fdalloc, hrange, h0]

theorem exists_redir {r : Redir} (hc : c.tree mem = r.apply t) :
    ∃ c' file efile, c = .redir c' file efile r.fileMode.2 r.fd ∧ c'.tree mem = t ∧
      cstring mem file = r.fileMode.1 := by
  cases r with | mk mode name =>
  cases c <;> cases mode <;> simp_all [Cmd.tree, Redir.apply, Redir.fileMode, Redir.fd]

/-- A redirection takes two system calls. -/
theorem after_redir {fds : Fds} (opened : List (Word × Nat)) {r : Redir} (n : Nat)
    (h : ∀ fd < 2, fds fd ≠ none) (hc : c.tree mem = r.apply t) :
    ∃ c', c'.tree mem = t ∧
      Process.after (2 * (n + 1)) ⟨runcmd mem c, fds, opened⟩ =
        Process.after (2 * n) ⟨runcmd mem c', put fds r, opened ++ [r.fileMode]⟩ := by
  obtain ⟨c', file, efile, rfl, hc', hfile⟩ := exists_redir hc
  have hfree := fdalloc_closed h r.fd_lt
  have hopen : ¬ ((r.fd : Int) < 0) := by omega
  refine ⟨c', hc', ?_⟩
  rw [Nat.mul_succ, runcmd]
  simp [Process.after, Process.step, Conc.Prog.perform, Conc.Prog.bind, hfile, hfree, hopen, put,
    Redir.desc]

theorem after_redirs {fds : Fds} (opened : List (Word × Nat)) (h : ∀ fd < 2, fds fd ≠ none)
    (hc : c.tree mem = rs.foldl Redir.apply core) :
    ∃ c', c'.tree mem = core ∧
      Process.after (2 * rs.length) ⟨runcmd mem c, fds, opened⟩ =
        some ⟨runcmd mem c', rs.reverse.foldl put fds, opened ++ rs.reverse.map Redir.fileMode⟩ := by
  induction rs using List.reverseRecOn generalizing c fds opened with
  | nil => exact ⟨c, hc, by simp [Process.after]⟩
  | append_singleton rs r ih =>
    rw [List.foldl_append] at hc
    obtain ⟨c₁, hc₁, hstep⟩ := after_redir opened rs.length h hc
    obtain ⟨c', hc', hrun⟩ := ih (opened ++ [r.fileMode]) (put_open h r) hc₁
    refine ⟨c', hc', ?_⟩
    rw [List.length_append, List.length_singleton, hstep, hrun]
    simp

/-- The files are opened in the order in which they are written if that is also
the opposite order. -/
theorem inOrder_iff (hc : c.tree mem = rs.foldl Redir.apply core) :
    InOrder mem c core rs ↔ rs.reverse = rs := by
  constructor
  · intro h
    have hopen : ∀ fd < 2, (fun fd => some (.inherited fd) : Fds) fd ≠ none := by simp
    obtain ⟨c₁, fds', -, hrun, -⟩ := h _ hopen
    obtain ⟨c₂, -, hrun'⟩ := after_redirs [] hopen hc
    rw [hrun] at hrun'
    have hopened := congrArg Process.opened (Option.some.inj hrun')
    exact (List.map_injective_iff.2 Redir.fileMode_injective hopened).symm
  · intro hrs fds hopen
    obtain ⟨c', hc', hrun⟩ := after_redirs [] hopen hc
    rw [hrs] at hrun
    exact ⟨c', _, hc', hrun, fun fd _ => foldl_put fds rs fd⟩

/-- The command that the parser returns for a command of the line. -/
theorem exists_part (line : List Byte) (h0 : 0 ∉ line) (hlex : Lex line ts)
    (h : Command .line ts t core rs) :
    ∃ cmd mem, parsecmd (line ++ [0]) = .ok (cmd, mem) ∧
      ∃ c ∈ cmd.parts, c.tree mem = rs.foldl Redir.apply core := by
  obtain ⟨cmd, mem, hparse, rfl⟩ := parsecmd_ok h0 ⟨ts, hlex, h.derives⟩
  have hmem := h.mem_parts
  rw [Tree.parts_tree] at hmem
  exact ⟨cmd, mem, hparse, List.mem_map.1 hmem⟩

/-- For every command of every line: the redirections take effect in the order
in which they are written exactly if their list is the same backwards. -/
theorem redirections_in_order (line : List Byte) (h0 : 0 ∉ line) (hlex : Lex line ts)
    (h : Command .line ts t core rs) :
    ∃ cmd mem, parsecmd (line ++ [0]) = .ok (cmd, mem) ∧
      ∃ c ∈ cmd.parts, c.tree mem = rs.foldl Redir.apply core ∧
        (InOrder mem c core rs ↔ rs.reverse = rs) := by
  obtain ⟨cmd, mem, hparse, c, hc, htree⟩ := exists_part line h0 hlex h
  exact ⟨cmd, mem, hparse, c, hc, htree, inOrder_iff htree⟩

theorem lex_word {w s : List Byte} {ts : List Tok} (hw : w ≠ [] ∧ w.all isWord = true)
    (hs : ∀ c ∈ s.head?, isWord c = false) (h : Lex s ts) : Lex (w ++ s) (.word w :: ts) :=
  .token (t := .word w) ⟨hw.1, List.all_eq_true.1 hw.2, hs⟩ h

/-- `>f` -/
theorem lex_write {f : Byte} {s : List Byte} {ts : List Tok} (hf : isWord f = true)
    (hs : ∀ c ∈ s.head?, isWord c = false) (h : Lex s ts) :
    Lex (ch '>' :: f :: s) (.gt :: .word [f] :: ts) := by
  have hne : (f :: s).head? ≠ some (ch '>') := by
    rintro heq
    obtain rfl : f = ch '>' := by simpa using heq
    revert hf
    decide
  exact .token (t := .gt) hne (lex_word (w := [f]) ⟨by simp, by simpa using hf⟩ hs h)

/-- `ls>a` has only one redirection. -/
theorem redirections_in_order_single :
    ∃ cmd mem, parsecmd (['l', 's', '>', 'a'].map ch ++ [0]) = .ok (cmd, mem) ∧
      ∃ c ∈ cmd.parts, c.tree mem = Redir.apply (.exec [[ch 'l', ch 's']]) ⟨.write, [ch 'a']⟩ ∧
        (InOrder mem c (.exec [[ch 'l', ch 's']]) [⟨.write, [ch 'a']⟩] ↔
          [(⟨.write, [ch 'a']⟩ : Redir)].reverse = [⟨.write, [ch 'a']⟩]) :=
  redirections_in_order (['l', 's', '>', 'a'].map ch) (by decide)
    (lex_word (w := [ch 'l', ch 's']) (by decide) (by decide)
      (lex_write (by decide) (by decide) .nil))
    (.line 0 (.single (.simple [] [⟨[ch 'l', ch 's'], [⟨.write, [ch 'a']⟩]⟩] (by decide))))

/-- In `ls>a>b` the file `b` is opened first, and `ls` writes to `a`. -/
theorem not_inOrder_two :
    ∃ cmd mem, parsecmd (['l', 's', '>', 'a', '>', 'b'].map ch ++ [0]) = .ok (cmd, mem) ∧
      ∃ c ∈ cmd.parts,
        c.tree mem =
          [⟨.write, [ch 'a']⟩, ⟨.write, [ch 'b']⟩].foldl Redir.apply (.exec [[ch 'l', ch 's']]) ∧
        ¬ InOrder mem c (.exec [[ch 'l', ch 's']])
          [⟨.write, [ch 'a']⟩, ⟨.write, [ch 'b']⟩] := by
  obtain ⟨cmd, mem, hparse, c, hc, htree⟩ :=
    exists_part (['l', 's', '>', 'a', '>', 'b'].map ch) (by decide)
      (lex_word (w := [ch 'l', ch 's']) (by decide) (by decide)
        (lex_write (by decide) (by decide) (lex_write (by decide) (by decide) .nil)))
      (.line 0 (.single (.simple []
        [⟨[ch 'l', ch 's'], [⟨.write, [ch 'a']⟩, ⟨.write, [ch 'b']⟩]⟩] (by decide))))
  refine ⟨cmd, mem, hparse, c, hc, htree, fun h => ?_⟩
  have hrev := (inOrder_iff htree).1 h
  simp [ch] at hrev

end Xv6.Shell
