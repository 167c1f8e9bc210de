import Xv6.Conc.Prog
import Xv6.Shell.Grammar

/-!
# The interpreter of the shell

`runcmd` in `user/sh.c` is a program of system calls.  It does not return, as
`exit` does not.
-/

namespace Xv6.Shell

open Conc
open Function (update)

/-- The system calls of the interpreter. -/
inductive Sys : Type → Type 1
  | close (fd : Nat) : Sys Int
  | open_ (file : Word) (mode : Nat) : Sys Int
  | dup (fd : Nat) : Sys Int
  /-- The descriptors for reading and for writing. -/
  | pipe : Sys (Option (Nat × Nat))
  | fork : Sys Int
  | wait : Sys Int
  /-- It returns only if it fails. -/
  | exec (path : Word) (argv : List Word) : Sys Unit
  | fprintf (fd : Nat) (fmt : String) (args : List Word) : Sys Unit
  | exit (status : Int) : Sys Empty

abbrev Program := Prog Sys Empty

def exit {α : Type} (status : Int) : Prog Sys α := .op (.exit status) Empty.elim

/-- `panic` of the shell. -/
def die {α : Type} (s : String) : Prog Sys α := do
  .perform (.fprintf 2 "%s\n" [s.toList.map ch])
  exit 1

/-- Fork but panic on failure. -/
def fork1 : Prog Sys Int := do
  let pid ← .perform .fork
  if pid = -1 then die "fork" else return pid

/-- The strings of `argv` up to its NULL. -/
def args (mem : List Byte) (argv : List (Option Pos)) : List Word :=
  (argv.takeWhile (·.isSome)).filterMap (·.map (cstring mem))

/-- Execute the command with its strings in `mem`. -/
def runcmd (mem : List Byte) : Cmd → Program
  | .exec argv _ =>
    match args mem argv with
    | [] => exit 1
    | path :: rest => do
      .perform (.exec path (path :: rest))
      .perform (.fprintf 2 "exec %s failed\n" [path])
      exit 0
  | .redir cmd file _ mode fd => do
    let _ ← .perform (.close fd)
    if (← .perform (.open_ (cstring mem file) mode)) < 0 then
      .perform (.fprintf 2 "open %s failed\n" [cstring mem file])
      exit 1
    else
      runcmd mem cmd
  | .list left right => do
    if (← fork1) = 0 then
      runcmd mem left
    else
      let _ ← .perform .wait
      runcmd mem right
  | .pipe left right => do
    match ← .perform .pipe with
    | none => die "pipe"
    | some (p₀, p₁) =>
      if (← fork1) = 0 then
        let _ ← .perform (.close 1)
        let _ ← .perform (.dup p₁)
        let _ ← .perform (.close p₀)
        let _ ← .perform (.close p₁)
        runcmd mem left
      else if (← fork1) = 0 then
        let _ ← .perform (.close 0)
        let _ ← .perform (.dup p₀)
        let _ ← .perform (.close p₀)
        let _ ← .perform (.close p₁)
        runcmd mem right
      else
        let _ ← .perform (.close p₀)
        let _ ← .perform (.close p₁)
        let _ ← .perform .wait
        let _ ← .perform .wait
        exit 0
  | .back cmd => do
    if (← fork1) = 0 then runcmd mem cmd else exit 0

/-! ## The process that runs a command -/

/-- What a descriptor stands for: a file of the process that started this one,
or what an `open` gave. -/
inductive Desc
  | inherited (file : Nat)
  | opened (file : Word) (mode : Nat)
  deriving DecidableEq

abbrev Fds := Nat → Option Desc

/-- The lowest descriptor that is free. -/
def fdalloc (fds : Fds) : Option Nat := (List.range NOFILE).find? fun fd => (fds fd).isNone

/-- The process, with the files that it has opened so far. -/
structure Process where
  code : Program
  fds : Fds
  opened : List (Word × Nat)

/-- The next system call, if it is one of those that redirect.  Every `open` of
a file succeeds. -/
def Process.step (p : Process) : Option Process :=
  match p.code with
  | .op (.close fd) k =>
    some ⟨k (if (p.fds fd).isSome then 0 else -1), update p.fds fd none, p.opened⟩
  | .op (.open_ file mode) k =>
    (fdalloc p.fds).map fun fd : Nat =>
      ⟨k fd, update p.fds fd (some (.opened file mode)), p.opened ++ [(file, mode)]⟩
  | _ => none

/-- The process after so many system calls. -/
def Process.after : Nat → Process → Option Process
  | 0, p => some p
  | n + 1, p => p.step.bind (Process.after n)

end Xv6.Shell
