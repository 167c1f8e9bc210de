import Xv6.Proc.State

/-!
# The parser of the shell

The parser in `user/sh.c`.  A pointer into the command line is an offset, and
the command line is the memory that can be read and written: it ends with its
NUL.  Allocation succeeds, so a command is a tree.
-/

namespace Xv6.Shell

/-- A character of the program. -/
def ch (c : Char) : Byte := BitVec.ofNat 8 c.toNat

abbrev Pos := Nat

abbrev MAXARGS : Nat := 10

def O_RDONLY : Nat := 0x000
def O_WRONLY : Nat := 0x001
def O_CREATE : Nat := 0x200
def O_TRUNC : Nat := 0x400

/-- A parsed command.  The arrays `argv` and `eargv` have `MAXARGS` pointers,
and `none` is NULL. -/
inductive Cmd
  | exec (argv eargv : List (Option Pos))
  | redir (cmd : Cmd) (file efile : Pos) (mode fd : Nat)
  | pipe (left right : Cmd)
  | list (left right : Cmd)
  | back (cmd : Cmd)

/-- Why the parser does not return: it panics, it uses an address or an index
that is out of bounds, or it has made more turns than the model allows. -/
inductive Stop
  | panic (msg : String)
  | bounds
  | fuel
  deriving DecidableEq

abbrev Parse := Except Stop

def panic {α : Type} (msg : String) : Parse α := .error (.panic msg)

def read (mem : List Byte) (s : Pos) : Parse Byte :=
  match mem[s]? with
  | some c => .ok c
  | none => .error .bounds

def write (mem : List Byte) (s : Pos) (c : Byte) : Parse (List Byte) :=
  if s < mem.length then .ok (mem.set s c) else .error .bounds

def strlen (mem : List Byte) : Parse Nat :=
  match mem.findIdx? (· = 0) with
  | some n => .ok n
  | none => .error .bounds

/-- Space, tab, carriage return, newline and vertical tab. -/
def whitespace : List Byte := [32, 9, 13, 10, 11]

def symbols : List Byte := ['<', '|', '>', '&', ';', '(', ')'].map ch

/-- No string of the parser has a NUL before its end. -/
def strchr (s : List Byte) (c : Byte) : Bool := s.contains c

section parser

variable (mem : List Byte) (es : Pos)

/-- `while(s < es && p(*s)) s++;` where `n` is `es - s`. -/
def skip (p : Byte → Bool) : Nat → Pos → Parse Pos
  | 0, s => .ok s
  | n + 1, s =>
    (read mem s).bind fun c => if p c then skip p n (s + 1) else .ok s

def skipSpace (s : Pos) : Parse Pos := skip mem (strchr whitespace) (es - s) s

/-- The switch of `gettoken`: the token, and where it ends. -/
def token (s : Pos) : Parse (Byte × Pos) := do
  let c ← read mem s
  if c = 0 then
    return (0, s)
  else if strchr (['|', '(', ')', ';', '&', '<'].map ch) c then
    return (c, s + 1)
  else if c = ch '>' then
    if (← read mem (s + 1)) = ch '>' then
      return (ch '+', s + 2)
    else
      return (c, s + 1)
  else
    let s ← skip mem (fun c => !strchr whitespace c && !strchr symbols c) (es - s) s
    return (ch 'a', s)

structure Token where
  ret : Byte
  q : Pos
  eq : Pos
  ps : Pos

def gettoken (ps : Pos) : Parse Token := do
  let s ← skipSpace mem es ps
  let t ← token mem es s
  let ps ← skipSpace mem es t.2
  return ⟨t.1, s, t.2, ps⟩

def peek (ps : Pos) (toks : List Char) : Parse (Bool × Pos) := do
  let s ← skipSpace mem es ps
  let c ← read mem s
  return (c ≠ 0 && strchr (toks.map ch) c, s)

def execcmd : Cmd := .exec (List.replicate MAXARGS none) (List.replicate MAXARGS none)

def redir (cmd : Cmd) (tok : Byte) (q eq : Pos) : Cmd :=
  if tok = ch '<' then
    .redir cmd q eq O_RDONLY 0
  else if tok = ch '>' then
    .redir cmd q eq (O_WRONLY ||| O_CREATE ||| O_TRUNC) 1
  else if tok = ch '+' then -- >>
    .redir cmd q eq (O_WRONLY ||| O_CREATE) 1
  else
    cmd

def parseredirs : Nat → Cmd → Pos → Parse (Cmd × Pos)
  | 0, _, _ => .error .fuel
  | n + 1, cmd, ps => do
    let r ← peek mem es ps ['<', '>']
    if r.1 then
      let t ← gettoken mem es r.2
      let w ← gettoken mem es t.ps
      if w.ret ≠ ch 'a' then
        panic "missing file for redirection"
      else
        parseredirs n (redir cmd t.ret w.q w.eq) w.ps
    else
      return (cmd, r.2)

/-- `cmd->argv[argc] = q; cmd->eargv[argc] = eq;` where `cmd` is the command
that the redirections are around. -/
def setArg (argc : Nat) (q eq : Option Pos) : Cmd → Parse Cmd
  | .exec argv eargv =>
    if argc < argv.length ∧ argc < eargv.length then
      .ok (.exec (argv.set argc q) (eargv.set argc eq))
    else
      .error .bounds
  | .redir cmd file efile mode fd =>
    (setArg argc q eq cmd).map fun cmd => .redir cmd file efile mode fd
  | cmd => .ok cmd

/-- The loop of `parseexec`. -/
def parseargs : Nat → Nat → Cmd → Pos → Parse (Nat × Cmd × Pos)
  | 0, _, _, _ => .error .fuel
  | n + 1, argc, ret, ps => do
    let r ← peek mem es ps ['|', ')', '&', ';']
    if r.1 then
      return (argc, ret, r.2)
    else
      let t ← gettoken mem es r.2
      if t.ret = 0 then
        return (argc, ret, t.ps)
      else if t.ret ≠ ch 'a' then
        panic "syntax"
      else
        let ret ← setArg argc (some t.q) (some t.eq) ret
        if argc + 1 ≥ MAXARGS then
          panic "too many args"
        else
          let r ← parseredirs mem es (es + 1) ret t.ps
          parseargs n (argc + 1) r.1 r.2

/-- `parseexec`, when there is no block. -/
def parsesimple (ps : Pos) : Parse (Cmd × Pos) := do
  let r ← parseredirs mem es (es + 1) execcmd ps
  let a ← parseargs mem es (es + 1) 0 r.1 r.2
  let ret ← setArg a.1 none none a.2.1
  return (ret, a.2.2)

/-- `while(peek(ps, es, "&"))` in `parseline`. -/
def parseback : Nat → Cmd → Pos → Parse (Cmd × Pos)
  | 0, _, _ => .error .fuel
  | n + 1, cmd, ps => do
    let r ← peek mem es ps ['&']
    if r.1 then
      let t ← gettoken mem es r.2
      parseback n (.back cmd) t.ps
    else
      return (cmd, r.2)

mutual

def parseline : Nat → Pos → Parse (Cmd × Pos)
  | 0, _ => .error .fuel
  | n + 1, ps => do
    let c ← parsepipe n ps
    let c ← parseback mem es (es + 1) c.1 c.2
    let r ← peek mem es c.2 [';']
    if r.1 then
      let t ← gettoken mem es r.2
      let c' ← parseline n t.ps
      return (.list c.1 c'.1, c'.2)
    else
      return (c.1, r.2)

def parsepipe : Nat → Pos → Parse (Cmd × Pos)
  | 0, _ => .error .fuel
  | n + 1, ps => do
    let c ← parseexec n ps
    let r ← peek mem es c.2 ['|']
    if r.1 then
      let t ← gettoken mem es r.2
      let c' ← parsepipe n t.ps
      return (.pipe c.1 c'.1, c'.2)
    else
      return (c.1, r.2)

def parseexec : Nat → Pos → Parse (Cmd × Pos)
  | 0, _ => .error .fuel
  | n + 1, ps => do
    let r ← peek mem es ps ['(']
    if r.1 then
      parseblock n r.2
    else
      parsesimple mem es r.2

def parseblock : Nat → Pos → Parse (Cmd × Pos)
  | 0, _ => .error .fuel
  | n + 1, ps => do
    let r ← peek mem es ps ['(']
    if r.1 then
      let t ← gettoken mem es r.2
      let c ← parseline n t.ps
      let r ← peek mem es c.2 [')']
      if r.1 then
        let t ← gettoken mem es r.2
        parseredirs mem es (es + 1) c.1 t.ps
      else
        panic "syntax - missing )"
    else
      panic "parseblock"

end

end parser

/-- `for(i=0; ecmd->argv[i]; i++) *ecmd->eargv[i] = 0;` -/
def terminateArgs : List (Option Pos) → List (Option Pos) → List Byte → Parse (List Byte)
  | none :: _, _, mem => .ok mem
  | some _ :: argv, some eq :: eargv, mem =>
    (write mem eq 0).bind fun mem => terminateArgs argv eargv mem
  | _, _, _ => .error .bounds

/-- NUL-terminate all the counted strings. -/
def nulterminate : Cmd → List Byte → Parse (List Byte)
  | .exec argv eargv, mem => terminateArgs argv eargv mem
  | .redir cmd _ efile _ _, mem => (nulterminate cmd mem).bind fun mem => write mem efile 0
  | .pipe left right, mem => (nulterminate left mem).bind fun mem => nulterminate right mem
  | .list left right, mem => (nulterminate left mem).bind fun mem => nulterminate right mem
  | .back cmd, mem => nulterminate cmd mem

/-- The command, and the memory with the command line afterwards. -/
def parsecmd (mem : List Byte) : Parse (Cmd × List Byte) := do
  let es ← strlen mem
  let c ← parseline mem es (4 * es + 4) 0
  let r ← peek mem es c.2 []
  if r.2 ≠ es then
    panic "syntax"
  else
    let mem ← nulterminate c.1 mem
    return (c.1, mem)

end Xv6.Shell
