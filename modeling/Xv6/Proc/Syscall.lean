import Xv6.Proc.Files

/-!
# System calls, traps and the whole kernel

`exit`, `kernel/sysproc.c`, the calls of `kernel/sysfile.c` that work on
descriptors, `usertrap`, and the machine that runs it all: one thread for
each processor, which is `scheduler`, and one for each slot of the process
table.
-/

namespace Xv6

open Conc

/-! ## Ending a process -/

/-- Close all open files. -/
def closeFiles (p : Slot) : Code Unit :=
  Prog.foldM (fun () fd => do
    match ← read fun s => (s.proc p).priv.ofile fd with
    | some f =>
      fileclose f
      write (.priv p fun x => { x with ofile := fun fd' => if fd' = fd then none else x.ofile fd' })
    | none => pure ()) () (List.finRange NOFILE)

/-- End the current process. -/
def exit (msg : List Byte) : Code Unit := do
  let p ← myproc
  if p = (← read fun s => s.initproc) then
    panic "init exiting"
  -- Save exit message
  write (.priv p fun x => { x with exitMsg := exitMsgOf msg })
  closeFiles p
  -- begin_op(); iput(p->cwd); end_op()
  let _ ← fsCall
  write (.priv p fun x => { x with cwd := none })
  acquire .wait
  -- Give any children to init.
  reparent p
  -- Parent might be sleeping in wait().
  match ← read fun s => (s.proc p).parent with
  | some parent => wakeup (.proc parent)
  | none => pure ()
  acquire (.proc p)
  write (.xstate p 0)
  write (.state p .zombie)
  release .wait
  -- Jump into the scheduler, never to return.
  sched
  panic "zombie exit"

def exitNum (status : I32) : Code Unit := do
  let p ← myproc
  write (.ended p (some (.status status)))
  write (.xstatus p status)
  exit (literal "exit_num")

def exitMsg (msg : List Byte) : Code Unit := do
  let p ← myproc
  write (.ended p (some .msg))
  write (.message p (some (cstring msg)))
  write (.priv p fun x => { x with exitMsg := exitMsgOf msg })
  exit (literal "Goodbye World xv6")

/-- `exit(msg)` from `usertrap`, of a process that has been killed. -/
def exitKilled (msg : String) : Code Unit := do
  let p ← myproc
  write (.ended p (some .killed))
  exit (literal msg)

/-! ## `sysproc.c` -/

/-- An `int` result as the `uint64` that goes to `a0`. -/
def intResult (r : I32) : U64 := r.signExtend 64

def sysExitmsg (msgAddr : U64) : Code U64 := do
  let p ← myproc
  let pagetable ← deref (← read fun s => (s.proc p).priv.pagetable)
  match ← vm (copyinstr pagetable msgAddr 32) with
  | (_, none) =>
    note (.exitmsgReturns none)
    return intResult (-1)
  | (msg, some ()) =>
    exitMsg msg
    note (.exitmsgReturns (some ()))
    return 0

def sysWait (statusAddr msgAddr : U64) : Code U64 := do
  let r ← wait statusAddr msgAddr
  note (.waitEnds r)
  return intResult r

/-- Grow or shrink user memory by `n` bytes. -/
def growproc (n : I32) : Code I32 := do
  let p ← myproc
  let sz ← read fun s => (s.proc p).priv.sz
  let pagetable ← deref (← read fun s => (s.proc p).priv.pagetable)
  if n.toInt > 0 then
    match ← vm (uvmalloc pagetable sz (sz + n.signExtend 64) PTE_W) with
    | none => return -1
    | some sz =>
      -- `uvmalloc` reports failure as 0
      if sz = 0 then
        return -1
      write (.priv p fun x => { x with sz := sz })
      return 0
  else if n.toInt < 0 then
    let sz ← vm (uvmdealloc pagetable sz (sz + n.signExtend 64))
    write (.priv p fun x => { x with sz := sz })
    return 0
  else
    write (.priv p fun x => { x with sz := sz })
    return 0

def sysSbrk (n : I32) : Code U64 := do
  let p ← myproc
  let addr ← read fun s => (s.proc p).priv.sz
  if (← growproc n).toInt < 0 then
    return intResult (-1)
  return addr

def sysSleep (n : I32) : Code U64 := do
  let p ← myproc
  acquire .ticks
  let ticks0 ← read fun s => s.data.ticks
  let r ← Prog.loop (fun () => do
    if ¬ (← read fun s => s.data.ticks) - ticks0 < n then
      return .inr (some ())
    if ← killed p then
      release .ticks
      return .inr none
    sleep .sysSleep .ticks .ticks
    return .inl ()) ()
  match r with
  | none => return intResult (-1)
  | some () =>
    release .ticks
    return 0

def sysForkn (n : I32) (pidsAddr : U64) : Code U64 := do
  if n.toInt < 1 ∨ n.toInt > 16 ∨ pidsAddr = 0 then
    return intResult (-1)
  let (result, pids) ← forkn n
  if result = 0 then
    let p ← myproc
    match ← copyoutTo p pidsAddr (pids.flatMap intBytes) with
    | none => return intResult (-1)
    | some () => note (.forknEnds pidsAddr result pids true)
  else
    note (.forknEnds pidsAddr result pids false)
  return intResult result

def sysWaitall (nAddr statusesAddr : U64) : Code U64 := do
  if nAddr = 0 ∨ statusesAddr = 0 then
    return intResult (-1)
  let r ← waitall nAddr statusesAddr
  note (.waitallEnds r)
  return intResult r

/-! ## Descriptors -/

/-- Fetch a descriptor and the file behind it. -/
def argfd (p : Slot) (fd : I32) : Code (Option (Fin NOFILE × FileId)) := do
  if h : fd.toNat < NOFILE then
    match ← read fun s => (s.proc p).priv.ofile ⟨fd.toNat, h⟩ with
    | some f => return some (⟨fd.toNat, h⟩, f)
    | none => return none
  else
    return none

/-- Set one descriptor. -/
def setFd (p : Slot) (fd : Fin NOFILE) (f : Option FileId) : Code Unit :=
  write (.priv p fun x => { x with ofile := fun fd' => if fd' = fd then f else x.ofile fd' })

/-- Allocate a descriptor for the given file. -/
def fdalloc (p : Slot) (f : FileId) : Code (Option (Fin NOFILE)) := do
  match ← read fun s => (List.finRange NOFILE).find? fun fd => ((s.proc p).priv.ofile fd).isNone with
  | some fd =>
    setFd p fd (some f)
    return some fd
  | none => return none

def sysDup (fd : I32) : Code U64 := do
  let p ← myproc
  match ← argfd p fd with
  | none => return intResult (-1)
  | some (_, f) =>
    match ← fdalloc p f with
    | none => return intResult (-1)
    | some fd =>
      filedup f
      return BitVec.ofNat 64 fd

def sysRead (fd : I32) (addr : U64) (n : I32) : Code U64 := do
  let p ← myproc
  match ← argfd p fd with
  | none => return intResult (-1)
  | some (_, f) => return intResult (← fileread f addr n)

def sysWrite (fd : I32) (addr : U64) (n : I32) : Code U64 := do
  let p ← myproc
  match ← argfd p fd with
  | none => return intResult (-1)
  | some (_, f) => return intResult (← filewrite f addr n)

def sysClose (fd : I32) : Code U64 := do
  let p ← myproc
  match ← argfd p fd with
  | none => return intResult (-1)
  | some (fd, f) =>
    setFd p fd none
    fileclose f
    return 0

/-- An `open` that succeeds in the file system; the outside world says
whether the file is a device. -/
def sysOpen (device : Bool) : Code U64 := do
  let p ← myproc
  if (← fsCall).toInt < 0 then
    return intResult (-1)
  match ← filealloc with
  | none => return intResult (-1)
  | some f =>
    match ← fdalloc p f with
    | none =>
      fileclose f
      return intResult (-1)
    | some fd =>
      modFile f fun x =>
        { x with
          type := if device then .device else .inode
          readable := true
          writable := true }
      return BitVec.ofNat 64 fd

def sysPipe (fdarray : U64) : Code U64 := do
  let p ← myproc
  match ← pipealloc with
  | none => return intResult (-1)
  | some (rf, wf) =>
    match ← fdalloc p rf with
    | none =>
      fileclose rf
      fileclose wf
      return intResult (-1)
    | some fd0 =>
      match ← fdalloc p wf with
      | none =>
        setFd p fd0 none
        fileclose rf
        fileclose wf
        return intResult (-1)
      | some fd1 =>
        let undo : Code U64 := do
          setFd p fd0 none
          setFd p fd1 none
          fileclose rf
          fileclose wf
          return intResult (-1)
        match ← copyoutTo p fdarray (intBytes (BitVec.ofNat 32 fd0)) with
        | none => undo
        | some () =>
          match ← copyoutTo p (fdarray + 4) (intBytes (BitVec.ofNat 32 fd1)) with
          | none => undo
          | some () => return 0

/-! ## System calls and traps -/

/-- The function that `syscalls` holds for a call. -/
def dispatch : Syscall → Code U64
  | .fork => intResult <$> fork
  | .forkn n pidsAddr => sysForkn n pidsAddr
  | .exit status => do
    exitNum status
    return 0
  | .exitNum status => do
    exitNum status
    return 0
  | .exitmsg msgAddr => sysExitmsg msgAddr
  | .wait statusAddr msgAddr => sysWait statusAddr msgAddr
  | .waitall nAddr statusesAddr => sysWaitall nAddr statusesAddr
  | .kill pid => intResult <$> kill pid
  | .sleep n => sysSleep n
  | .sbrk n => sysSbrk n
  | .pipe fdarray => sysPipe fdarray
  | .dup fd => sysDup fd
  | .read fd addr n => sysRead fd addr n
  | .write fd addr n => sysWrite fd addr n
  | .close fd => sysClose fd
  | .open device => sysOpen device
  | .other => intResult <$> fsCall

/-- Call the system call and store its return value in `a0`. -/
def syscall (call : Syscall) : Code Unit := do
  let p ← myproc
  let r ← dispatch call
  let trapframe ← deref (← read fun s => (s.proc p).priv.trapframe)
  vm (storeWord trapframe 14 r)

/-- Handle an interrupt, exception, or system call from user space. -/
def usertrap (e : UserEvent) : Code Unit := do
  let p ← myproc
  let which ← match e with
    | .syscall call => do
      if ← killed p then
        exitKilled "syscall error"
      intrOn
      syscall call
      pure 0
    | .intr d => devintr d
    | .store .. | .fault => do
      setkilled p
      pure 0
  if ← killed p then
    exitKilled "killed"
  -- give up the processor if this is a timer interrupt.
  if which = 2 then
    yield

/-- `intr_off()`, as the return to user space begins. -/
def usertrapret : Code Unit := .perform (.cpu fun x => ((), { x with intr := false }))

/-- A fork child's very first scheduling by `scheduler` will switch to
`forkret`. -/
def forkret : Code Unit := do
  let p ← myproc
  release (.proc p)
  if ← read fun s => s.data.first then
    -- File system initialization must be run in the context of a regular process.
    write (.data fun d => { d with first := false })
    let _ ← fsCall
  usertrapret

/-- User code until it traps, and the trap. -/
def userRound : Code Unit := do
  match ← input with
  | .user (.store va b) =>
    let p ← myproc
    let pagetable ← deref (← read fun s => (s.proc p).priv.pagetable)
    match ← vm (userStore pagetable va b) with
    | some () => pure ()
    | none =>
      usertrap .fault
      usertrapret
  | .user e =>
    usertrap e
    usertrapret
  | _ => pure ()

/-- The kernel thread of a process. -/
def processMain : Code Empty := do
  forkret
  Prog.forever userRound

/-! ## The machine -/

/-- The threads: `scheduler` of each processor, and each process. -/
inductive Tid
  | cpu (c : Cpu)
  | proc (p : Slot)
  deriving DecidableEq

/-- The thread that a processor runs. -/
def Kernel.running (s : Kernel) (c : Cpu) : Tid :=
  match s.current c with
  | none => .cpu c
  | some p => .proc p

/-- The machine that runs the kernel. -/
def machine : Machine Op Kernel Cpu Tid Input where
  running := Kernel.running
  exec := exec
  restarts
    | .context p => some (.proc p)
    | _ => none
  main
    | .cpu _ => scheduler
    | .proc _ => processMain

/-- The state of all threads and of what they share. -/
abbrev System := Config Op Kernel Tid

end Xv6
