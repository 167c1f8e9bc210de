import Xv6.Shell.Code

/-!
# The grammar of command lines

A line is a sequence of tokens, with blanks between them where needed:

    line  ::= pipe '&'* [';' line]
    pipe  ::= exec ['|' pipe]
    exec  ::= '(' line ')' redir* | redir* (word redir*)*
    redir ::= ('<' | '>' | '>>') word

There are at most nine words in an `exec`.
-/

namespace Xv6.Shell

abbrev Word := List Byte

/-- A character of a word. -/
def isWord (c : Byte) : Bool := !strchr whitespace c && !strchr symbols c

/-- A token of the grammar. -/
inductive Tok
  | word (w : Word)
  | lt
  | gt
  | gtgt
  | bar
  | amp
  | semi
  | lpar
  | rpar
  deriving DecidableEq

/-- How a token is written. -/
def Tok.text : Tok → List Byte
  | .word w => w
  | .lt => [ch '<']
  | .gt => [ch '>']
  | .gtgt => [ch '>', ch '>']
  | .bar => [ch '|']
  | .amp => [ch '&']
  | .semi => [ch ';']
  | .lpar => [ch '(']
  | .rpar => [ch ')']

/-- A token ends where it cannot go on: a word is a maximal run of its
characters, and `>` is not followed by another one. -/
def Tok.EndsBefore (s : List Byte) : Tok → Prop
  | .word w => w ≠ [] ∧ (∀ c ∈ w, isWord c = true) ∧ ∀ c ∈ s.head?, isWord c = false
  | .gt => s.head? ≠ some (ch '>')
  | _ => True

/-- The tokens of a text. -/
inductive Lex : List Byte → List Tok → Prop
  | nil : Lex [] []
  | blank {c : Byte} {s : List Byte} {ts : List Tok} (hc : strchr whitespace c = true)
      (h : Lex s ts) : Lex (c :: s) ts
  | token {t : Tok} {s : List Byte} {ts : List Tok} (ht : t.EndsBefore s) (h : Lex s ts) :
      Lex (t.text ++ s) (t :: ts)

/-- What a command line stands for. -/
inductive Tree
  | exec (argv : List Word)
  | redir (cmd : Tree) (file : Word) (mode fd : Nat)
  | pipe (left right : Tree)
  | list (left right : Tree)
  | back (cmd : Tree)
  deriving DecidableEq

/-- A redirection: reading, writing or appending. -/
inductive Mode
  | read
  | write
  | append

structure Redir where
  mode : Mode
  file : Word

def Mode.tok : Mode → Tok
  | .read => .lt
  | .write => .gt
  | .append => .gtgt

def Redir.toks (r : Redir) : List Tok := [r.mode.tok, .word r.file]

def Redir.apply (t : Tree) (r : Redir) : Tree :=
  match r.mode with
  | .read => .redir t r.file O_RDONLY 0
  | .write => .redir t r.file (O_WRONLY ||| O_CREATE ||| O_TRUNC) 1
  | .append => .redir t r.file (O_WRONLY ||| O_CREATE) 1

/-- A word and the redirections behind it. -/
structure Arg where
  word : Word
  redirs : List Redir

def Arg.toks (a : Arg) : List Tok := .word a.word :: a.redirs.flatMap Redir.toks

/-- The redirections of a command are applied from left to right. -/
def simple (rs : List Redir) (args : List Arg) : Tree :=
  (rs ++ args.flatMap Arg.redirs).foldl Redir.apply (.exec (args.map Arg.word))

def Tree.backs (t : Tree) : Nat → Tree
  | 0 => t
  | n + 1 => (Tree.back t).backs n

inductive Symbol
  | line
  | pipe
  | exec

/-- The derivations of the grammar, with the trees that they stand for. -/
inductive Derives : Symbol → List Tok → Tree → Prop
  | line {ts : List Tok} {t : Tree} (n : Nat) (hp : Derives .pipe ts t) :
      Derives .line (ts ++ List.replicate n .amp) (t.backs n)
  | list {ts us : List Tok} {t u : Tree} (n : Nat) (hp : Derives .pipe ts t)
      (hl : Derives .line us u) :
      Derives .line (ts ++ List.replicate n .amp ++ .semi :: us) (.list (t.backs n) u)
  | single {ts : List Tok} {t : Tree} (he : Derives .exec ts t) : Derives .pipe ts t
  | pipe {ts us : List Tok} {t u : Tree} (he : Derives .exec ts t) (hp : Derives .pipe us u) :
      Derives .pipe (ts ++ .bar :: us) (.pipe t u)
  | block {ts : List Tok} {t : Tree} (hl : Derives .line ts t) (rs : List Redir) :
      Derives .exec (.lpar :: ts ++ .rpar :: rs.flatMap Redir.toks) (rs.foldl Redir.apply t)
  | simple (rs : List Redir) (args : List Arg) (h : args.length < MAXARGS) :
      Derives .exec (rs.flatMap Redir.toks ++ args.flatMap Arg.toks) (Shell.simple rs args)

/-- A line of the grammar, and its tree. -/
def Line (line : List Byte) (t : Tree) : Prop := ∃ ts, Lex line ts ∧ Derives .line ts t

/-- The string at an address. -/
def cstring (mem : List Byte) (p : Pos) : Word := (mem.drop p).takeWhile (· ≠ 0)

/-- A command with its strings in memory. -/
def Cmd.tree (mem : List Byte) : Cmd → Tree
  | .exec argv _ => .exec ((argv.takeWhile (·.isSome)).filterMap (·.map (cstring mem)))
  | .redir cmd file _ mode fd => .redir (cmd.tree mem) (cstring mem file) mode fd
  | .pipe left right => .pipe (left.tree mem) (right.tree mem)
  | .list left right => .list (left.tree mem) (right.tree mem)
  | .back cmd => .back (cmd.tree mem)

end Xv6.Shell
