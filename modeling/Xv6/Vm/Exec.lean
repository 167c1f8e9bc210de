import Xv6.Vm.Proc

/-!
# `exec`

`kernel/exec.c`, and `sys_exec` of `kernel/sysfile.c`.  What the process and
the kernel know about it is a state of its own, beside physical memory: the
fields of `struct proc` that `exec` sets, the references and the locks that
the process has on inodes, and the operations that it has begun in the log.
-/

namespace Xv6.Vm

/-! ## The file system -/

/-- The files that `namei` finds and `readi` reads.  `readi` never copies more
bytes than it is asked for. -/
structure FileSystem (Inode : Type) where
  lookup : List (BitVec 8) → Option Inode
  read : Inode → BitVec 32 → BitVec 32 → List (BitVec 8)
  length_read_le : ∀ ip off n, (read ip off n).length ≤ n.toNat

/-- The process that calls `exec`.  `locked` says which inodes it has locked
itself: `ilock` waits for the others. -/
structure Caller (Inode : Type) where
  image : Image
  name : List (BitVec 8)
  ops : Nat
  ref : Inode → Nat
  locked : Inode → Bool

/-- Code that runs in a process. -/
abbrev ExecM (Inode : Type) := StateT (Caller Inode) Vm

variable {Inode : Type} [DecidableEq Inode]

def beginOp : ExecM Inode Unit := modify fun p => { p with ops := p.ops + 1 }

def endOp : ExecM Inode Unit := modify fun p => { p with ops := p.ops - 1 }

/-- Look up a path; the inode has one more reference, and is not locked. -/
def namei (fs : FileSystem Inode) (path : List (BitVec 8)) : ExecM Inode (Option Inode) := do
  match fs.lookup path with
  | none => return none
  | some ip =>
    modify fun p => { p with ref := Function.update p.ref ip (p.ref ip + 1) }
    return some ip

/-- Lock the given inode.  A process that has it locked already would sleep
for ever, which is a panic here. -/
def ilock (ip : Inode) : ExecM Inode Unit := do
  if (← get).ref ip < 1 then
    Vm.panic "ilock"
  if (← get).locked ip then
    Vm.panic "ilock: sleeps for ever"
  modify fun p => { p with locked := Function.update p.locked ip true }

/-- Unlock the given inode, and drop a reference to it. -/
def iunlockput (ip : Inode) : ExecM Inode Unit := do
  if !(← get).locked ip ∨ (← get).ref ip < 1 then
    Vm.panic "iunlock"
  modify fun p => { p with
    locked := Function.update p.locked ip false
    ref := Function.update p.ref ip (p.ref ip - 1) }

/-! ## ELF files -/

/-- The number that `n` bytes at `off` make; it is little-endian. -/
def leNat (bytes : List (BitVec 8)) (off n : Nat) : Nat :=
  ((bytes.drop off).take n).foldr (fun b acc => b.toNat + 256 * acc) 0

def ELF_MAGIC : BitVec 32 := 0x464C457F

def ELF_PROG_LOAD : BitVec 32 := 1

/-- The fields of `struct elfhdr` that `exec` reads. -/
structure Elfhdr where
  magic : BitVec 32
  entry : U64
  phoff : U64
  phnum : BitVec 16

def sizeofElfhdr : BitVec 32 := 64

def Elfhdr.ofBytes (bytes : List (BitVec 8)) : Elfhdr where
  magic := .ofNat 32 (leNat bytes 0 4)
  entry := .ofNat 64 (leNat bytes 24 8)
  phoff := .ofNat 64 (leNat bytes 32 8)
  phnum := .ofNat 16 (leNat bytes 56 2)

/-- The fields of `struct proghdr` that `exec` reads. -/
structure Proghdr where
  type : BitVec 32
  flags : BitVec 32
  off : U64
  vaddr : U64
  filesz : U64
  memsz : U64

def sizeofProghdr : BitVec 32 := 56

def Proghdr.ofBytes (bytes : List (BitVec 8)) : Proghdr where
  type := .ofNat 32 (leNat bytes 0 4)
  flags := .ofNat 32 (leNat bytes 4 4)
  off := .ofNat 64 (leNat bytes 8 8)
  vaddr := .ofNat 64 (leNat bytes 16 8)
  filesz := .ofNat 64 (leNat bytes 32 8)
  memsz := .ofNat 64 (leNat bytes 40 8)

def flags2perm (flags : BitVec 32) : U64 :=
  let perm := if flags &&& 1 ≠ 0 then PTE_X else 0
  if flags &&& 2 ≠ 0 then perm ||| PTE_W else perm

/-! ## Loading the program -/

/-- The loop of `loadseg`, which runs for at most `rounds` pages.  Its counter
has 32 bits. -/
def loadsegLoop (fs : FileSystem Inode) (pagetable va : U64) (ip : Inode) (offset sz : BitVec 32) :
    Nat → BitVec 32 → Vm (Option Unit)
  | 0, _ => Vm.panic "loadseg: rounds"
  | rounds + 1, i => do
    if i < sz then
      match ← walkaddr pagetable (va + i.setWidth 64) with
      | none => Vm.panic "loadseg: address should exist"
      | some pa =>
        let n := if sz - i < 4096 then sz - i else 4096
        let bytes := fs.read ip (offset + i) n
        storeBytes pa 0 bytes
        if bytes.length ≠ n.toNat then
          return none
        loadsegLoop fs pagetable va ip offset sz rounds (i + 4096)
    else
      return some ()

/-- Load a program segment into `pagetable` at the virtual address `va`. -/
def loadseg (fs : FileSystem Inode) (pagetable va : U64) (ip : Inode) (offset sz : BitVec 32) :
    Vm (Option Unit) := loadsegLoop fs pagetable va ip offset sz (2 ^ 20 + 1) 0

/-- The loop of `exec` over the program headers, of which `n` are left; the
size of the new memory, and whether all went well. -/
def loadProgram (fs : FileSystem Inode) (pagetable : U64) (ip : Inode) :
    Nat → BitVec 32 → U64 → Vm (U64 × Option Unit)
  | 0, _, sz => return (sz, some ())
  | n + 1, off, sz => do
    let bytes := fs.read ip off sizeofProghdr
    if bytes.length ≠ sizeofProghdr.toNat then
      return (sz, none)
    let ph := Proghdr.ofBytes bytes
    if ph.type ≠ ELF_PROG_LOAD then
      loadProgram fs pagetable ip n (off + sizeofProghdr) sz
    else if ph.memsz < ph.filesz then
      return (sz, none)
    else if ph.vaddr + ph.memsz < ph.vaddr then
      return (sz, none)
    else if ph.vaddr % PGSIZE ≠ 0 then
      return (sz, none)
    else
      match ← uvmalloc pagetable sz (ph.vaddr + ph.memsz) (flags2perm ph.flags) with
      | none => return (sz, none)
      | some sz1 =>
        if sz1 = 0 then
          return (sz, none)
        match ← loadseg fs pagetable ph.vaddr ip (ph.off.setWidth 32) (ph.filesz.setWidth 32) with
        | none => return (sz1, none)
        | some () => loadProgram fs pagetable ip n (off + sizeofProghdr) sz1

/-! ## The stack -/

def MAXARG : Nat := 32

/-- The string on the kernel page `pa`. -/
def stringAt (pa : U64) : Vm (List (BitVec 8)) := do
  return (← loadBytes pa 0 4096).takeWhile (· ≠ 0)

/-- The bytes of a word in memory. -/
def wordBytes (w : U64) : List (BitVec 8) := (List.range 8).map fun k => (w >>> (8 * k)).setWidth 8

/-- Push the argument strings; `ustack` says where those lie that are pushed
already. -/
def pushStrings (pagetable stackbase : U64) :
    List U64 → U64 → List U64 → Vm (Option (U64 × List U64))
  | [], sp, ustack => return some (sp, ustack)
  | arg :: argv, sp, ustack => do
    if ustack.length ≥ MAXARG then
      return none
    let s ← stringAt arg
    let sp := sp - .ofNat 64 (s.length + 1)
    let sp := sp - sp % 16
    if sp < stackbase then
      return none
    match ← copyout pagetable sp (s ++ [0]) with
    | none => return none
    | some () => pushStrings pagetable stackbase argv sp (ustack ++ [sp])

/-- Push the argument strings and the array of their addresses; the stack
pointer, and `argc`. -/
def pushArgs (pagetable stackbase sp : U64) (argv : List U64) : Vm (Option (U64 × Nat)) := do
  match ← pushStrings pagetable stackbase argv sp [] with
  | none => return none
  | some (sp, ustack) =>
    let sp := sp - .ofNat 64 ((ustack.length + 1) * 8)
    let sp := sp - sp % 16
    if sp < stackbase then
      return none
    match ← copyout pagetable sp ((ustack ++ [0]).flatMap wordBytes) with
    | none => return none
    | some () => return some (sp, ustack.length)

/-! ## `exec` -/

/-- The part of a path after the last slash. -/
def lastElem (path : List (BitVec 8)) : List (BitVec 8) :=
  (path.reverse.takeWhile (· ≠ 0x2F)).reverse

/-- The bytes of `p->name` in front of its NUL. -/
def sizeofName : Nat := 16

/-- The end of `exec` at the label `bad`. -/
def execBad (pagetable : Option U64) (sz : U64) (ip : Option Inode) : ExecM Inode (Option Nat) := do
  match pagetable with
  | none => pure ()
  | some pagetable => procFreepagetable pagetable sz
  match ip with
  | none => pure ()
  | some ip =>
    iunlockput ip
    endOp
  return none

/-- The part of `exec` after the program is loaded. -/
def execStack (path : List (BitVec 8)) (argv : List U64) (pagetable entry sz : U64) :
    ExecM Inode (Option Nat) := do
  let oldsz := (← get).image.sz
  -- Allocate two pages at the next page boundary.
  let sz := PGROUNDUP sz
  match ← uvmalloc pagetable sz (sz + 2 * PGSIZE) PTE_W with
  | none => execBad (some pagetable) sz none
  | some sz1 =>
    if sz1 = 0 then
      execBad (some pagetable) sz none
    else
      uvmclear pagetable (sz1 - 2 * PGSIZE)
      match ← pushArgs pagetable (sz1 - PGSIZE) sz1 argv with
      | none => execBad (some pagetable) sz1 none
      | some (sp, argc) =>
        let p ← get
        storeWord p.image.trapframe trapframeA1 sp
        -- Commit to the user image.
        set { p with
          name := (lastElem path).take (sizeofName - 1)
          image := { p.image with pagetable := pagetable, sz := sz1 } }
        storeWord p.image.trapframe trapframeEpc entry
        storeWord p.image.trapframe trapframeSp sp
        procFreepagetable p.image.pagetable oldsz
        return some argc

/-- The part of `exec` in which the inode `ip` is locked. -/
def execFile (fs : FileSystem Inode) (path : List (BitVec 8)) (argv : List U64) (ip : Inode) :
    ExecM Inode (Option Nat) := do
  let bytes := fs.read ip 0 sizeofElfhdr
  if bytes.length ≠ sizeofElfhdr.toNat then
    execBad none 0 (some ip)
  else
    let elf := Elfhdr.ofBytes bytes
    if elf.magic ≠ ELF_MAGIC then
      execBad none 0 (some ip)
    else
      match ← procPagetable (← get).image.trapframe with
      | none => execBad none 0 (some ip)
      | some pagetable =>
        match ← loadProgram fs pagetable ip elf.phnum.toNat (elf.phoff.setWidth 32) 0 with
        | (sz, none) => execBad (some pagetable) sz (some ip)
        | (sz, some ()) =>
          iunlockput ip
          endOp
          execStack path argv pagetable elf.entry sz

/-- Replace the memory of the process by the program at `path`; `argc`, or
`none` for `-1`. -/
def exec (fs : FileSystem Inode) (path : List (BitVec 8)) (argv : List U64) :
    ExecM Inode (Option Nat) := do
  beginOp
  match ← namei fs path with
  | none =>
    endOp
    return none
  | some ip =>
    ilock ip
    execFile fs path argv ip

/-! ## `sys_exec` -/

def MAXPATH : Nat := 128

/-- Fetch the word at `addr` from the current process. -/
def fetchaddr (addr : U64) : ExecM Inode (Option U64) := do
  let p ← get
  if addr ≥ p.image.sz ∨ addr + 8 > p.image.sz then
    return none
  match ← copyin p.image.pagetable addr 8 with
  | none => return none
  | some bytes => return some (.ofNat 64 (leNat bytes 0 8))

/-- Fetch the arguments, each to a page of its own, of which there are `n`
more to come at most; the pages, and whether all went well. -/
def fetchArgs (uargv : U64) : Nat → List U64 → ExecM Inode (List U64 × Option Unit)
  | 0, argv => return (argv, none)
  | n + 1, argv => do
    match ← fetchaddr (uargv + 8 * .ofNat 64 argv.length) with
    | none => return (argv, none)
    | some uarg =>
      if uarg = 0 then
        return (argv, some ())
      match ← kalloc with
      | none => return (argv, none)
      | some page =>
        let (written, r) ← copyinstr (← get).image.pagetable uarg 4096
        storeBytes page 0 written
        match r with
        | none => return (argv ++ [page], none)
        | some () => fetchArgs uargv n (argv ++ [page])

def sysExec (fs : FileSystem Inode) : ExecM Inode (Option Nat) := do
  let image := (← get).image
  let uargv ← loadWord image.trapframe trapframeA1
  let (path, r) ← copyinstr image.pagetable (← loadWord image.trapframe trapframeA0) MAXPATH
  match r with
  | none => return none
  | some () =>
    match ← fetchArgs uargv MAXARG [] with
    | (argv, none) =>
      argv.forM fun page => kfree page
      return none
    | (argv, some ()) =>
      let ret ← exec fs (path.takeWhile (· ≠ 0)) argv
      argv.forM fun page => kfree page
      return ret

end Xv6.Vm
