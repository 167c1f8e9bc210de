import Xv6.Shell.Runcmd

/-!
# The processes of a command

The processes that `runcmd` in `user/sh.c` starts, with their descriptors.
They make their system calls in any order, `fork`, `pipe`, `open` and `exec`
may fail, and a program that `exec` has started ends at some time.

Pids are only compared with 0 and -1, so processes have names: the child that
`p` forks when it has forked `n` is `n :: p`.  A pipe bears the name of the
process that made it.
-/

namespace Xv6.Jobs

open Conc
open Shell (Tree Word Cmd Sys Program runcmd)
open Function (update)

abbrev Name := List Nat

/-- What a descriptor stands for: a file of the shell, what an `open` gave, or
an end of the `k`-th pipe that a process has made. -/
inductive Desc
  | inherited (file : Nat)
  | opened (file : Word) (mode : Nat)
  | pipe (p : Name) (k : Nat) (writable : Bool)
  deriving DecidableEq

abbrev Fds := Nat → Option Desc

/-- The lowest descriptor that is free. -/
def fdalloc (fds : Fds) : Option Nat := (List.range NOFILE).find? fun fd => (fds fd).isNone

/-- What belongs to a process.  `kids` are the children that it has not waited
for, and `waited` those that it, or the process that it is from, has. -/
structure Local where
  name : Name
  fds : Fds
  forks : Nat
  pipes : Nat
  kids : List Name
  waited : List Name

inductive Status
  | runs (code : Program)
  | program (path : Word) (argv : List Word)
  | zombie
  | reaped

/-- The program and its arguments. -/
def Status.job : Status → Option (Word × List Word)
  | .program path argv => some (path, argv)
  | _ => none

structure Process where
  status : Status
  own : Local

abbrev System := Name → Option Process

/-- How a system call turns out: it fails; it succeeds, with a pid if it is
`fork`; or it finds that a child is a zombie. -/
inductive Outcome
  | fail
  | ok (pid : Nat)
  | reap (q : Name) (pid : Nat)

namespace Local

def setFd (l : Local) (fd : Nat) (f : Option Desc) : Local := { l with fds := update l.fds fd f }

/-- The process, when it has forked. -/
def forked (l : Local) : Local :=
  { l with forks := l.forks + 1, kids := (l.forks :: l.name) :: l.kids }

/-- The child. -/
def child (l : Local) : Local := ⟨l.forks :: l.name, l.fds, 0, 0, [], l.waited⟩

def reap (l : Local) (q : Name) : Local :=
  { l with kids := l.kids.erase q, waited := q :: l.waited }

/-- The two descriptors of a new pipe. -/
def piped (l : Local) (p₀ p₁ : Nat) : Local :=
  { l with
    fds := update (update l.fds p₀ (some (.pipe l.name l.pipes false))) p₁
      (some (.pipe l.name l.pipes true))
    pipes := l.pipes + 1 }

/-- The descriptors that `pipe` finds. -/
def ends (l : Local) : Option (Nat × Nat) := do
  let p₀ ← fdalloc l.fds
  let p₁ ← fdalloc (update l.fds p₀ (some (.pipe l.name l.pipes false)))
  return (p₀, p₁)

end Local

/-- The system calls on the descriptors of a process, with what they return. -/
def Local.call (l : Local) (a : Outcome) : {β : Type} → Sys β → Option (β × Local)
  | _, .close fd => some (if (l.fds fd).isSome then 0 else -1, l.setFd fd none)
  | _, .open_ file mode =>
    match a, fdalloc l.fds with
    | .ok _, some fd => some (Int.ofNat fd, l.setFd fd (some (.opened file mode)))
    | _, _ => some (-1, l)
  | _, .dup fd =>
    match l.fds fd, fdalloc l.fds with
    | some f, some n => some (Int.ofNat n, l.setFd n (some f))
    | _, _ => some (-1, l)
  | _, .pipe =>
    match a, l.ends with
    | .ok _, some (p₀, p₁) => some (some (p₀, p₁), l.piped p₀ p₁)
    | _, _ => some (none, l)
  | _, .fprintf _ _ _ => some ((), l)
  | _, _ => none

def System.put (g : System) (l : Local) (s : Status) : System := update g l.name (some ⟨s, l⟩)

def Process.isZombie (x : Process) : Bool :=
  match x.status with
  | .zombie => true
  | _ => false

/-- The system call `o` of the process with `l`, which goes on with `k`. -/
def System.call (g : System) (l : Local) (a : Outcome) :
    {β : Type} → Sys β → (β → Program) → Option System
  | _, .fork, k =>
    match a with
    | .ok pid =>
      if 0 < pid then
        some ((g.put l.forked (.runs (k pid))).put l.child (.runs (k 0)))
      else
        none
    | _ => some (g.put l (.runs (k (-1))))
  | _, .wait, k =>
    match a with
    | .reap q pid =>
      match g q with
      | none => none
      | some y =>
        if q ∈ l.kids ∧ y.isZombie = true then
          some ((g.put y.own .reaped).put (l.reap q) (.runs (k pid)))
        else
          none
    | _ => if l.kids = [] then some (g.put l (.runs (k (-1)))) else none
  | _, .exec path argv, k =>
    match a with
    | .ok _ => some (g.put l (.program path argv))
    | _ => some (g.put l (.runs (k ())))
  | _, .exit _, _ => some (g.put { l with fds := fun _ => none } .zombie)
  | _, o, k => (l.call a o).map fun r => g.put r.2 (.runs (k r.1))

/-- One step of the process `p`: its next system call, or the end of its
program. -/
def System.step (g : System) (p : Name) (a : Outcome) : Option System :=
  match g p with
  | none => none
  | some x =>
    match x.status with
    | .runs (.op o k) => g.call x.own a o k
    | .program _ _ => some (g.put { x.own with fds := fun _ => none } .zombie)
    | _ => none

/-- The next system call of a process is `fork`. -/
def Process.Forks (x : Process) : Prop := ∃ k, x.status = .runs (.op .fork k)

/-- The states that the processes reach; no `fork` fails if `K` holds. -/
inductive Reach (K : Prop) (g₀ : System) : System → Prop
  | start : Reach K g₀ g₀
  | step {g g' : System} {p : Name} {a : Outcome} (h : Reach K g₀ g)
      (hfork : K → ∀ x, g p = some x → x.Forks → ∃ pid, a = .ok pid)
      (hs : g.step p a = some g') : Reach K g₀ g'

/-- One process, about to run a command. -/
def start (mem : List Byte) (cmd : Cmd) (fds : Fds) : System :=
  System.put (fun _ => none) ⟨[], fds, 0, 0, [], []⟩ (.runs (runcmd mem cmd))

/-! ## What a command asks for -/

/-- Where a process stays: in a program, or in `wait` if `job` is `none`.  The
children of `waited` have ended. -/
structure Post where
  name : Name
  job : Option (Word × List Word)
  fds : Fds
  waited : List Name

/-- The processes of a command that `p` runs when it has forked `n`. -/
def posts (p : Name) (n : Nat) (fds : Fds) (waited : List Name) : Tree → List Post
  | .exec [] => []
  | .exec (path :: args) => [⟨p, some (path, path :: args), fds, waited⟩]
  | .redir cmd file mode fd => posts p n (update fds fd (some (.opened file mode))) waited cmd
  | .list left right =>
    ⟨p, none, fds, waited⟩ :: posts (n :: p) 0 fds waited left ++
      posts p (n + 1) fds ((n :: p) :: waited) right
  | .pipe left right =>
    ⟨p, none, fds, waited⟩ ::
      posts (n :: p) 0 (update fds 1 (some (.pipe p 0 true))) waited left ++
      posts ((n + 1) :: p) 0 (update fds 0 (some (.pipe p 0 false))) waited right
  | .back cmd => posts (n :: p) 0 fds waited cmd

/-- Those that nobody waits for. -/
def backs (p : Name) (n : Nat) : Tree → List Name
  | .exec _ => []
  | .redir cmd _ _ _ => backs p n cmd
  | .list left right => backs (n :: p) 0 left ++ backs p (n + 1) right
  | .pipe left right => backs (n :: p) 0 left ++ backs ((n + 1) :: p) 0 right
  | .back cmd => (n :: p) :: backs (n :: p) 0 cmd

/-- Only the standard input and output are redirected. -/
def Standard : Tree → Prop
  | .exec _ => True
  | .redir cmd _ _ fd => fd < 2 ∧ Standard cmd
  | .list left right => Standard left ∧ Standard right
  | .pipe left right => Standard left ∧ Standard right
  | .back cmd => Standard cmd

end Xv6.Jobs
