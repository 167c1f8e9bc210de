import Xv6.Proc.Sched

/-!
# The process table

The part of `kernel/proc.c` that creates processes, ends them and collects
them.  Console output (`printf`) is left out.  A pointer that the source
follows without a test is an `Option` here, and following a null pointer is
the panic of `kerneltrap`.
-/

namespace Xv6

open Conc

/-! ## Helpers of the C library -/

/-- Follow a pointer. -/
def deref {α : Type} : Option α → Code α
  | some a => return a
  | none => panic "kerneltrap"

/-- The bytes of a C string in front of its NUL. -/
def cstring (t : List Byte) : List Byte := t.takeWhile (· ≠ 0)

/-- `strncpy` into an array of `n` bytes. -/
def strncpy (t : List Byte) (n : Nat) : List Byte := (cstring t ++ List.replicate n 0).take n

/-- `safestrcpy` into an array of `n` bytes that holds `old`. -/
def safestrcpy (old t : List Byte) (n : Nat) : List Byte :=
  let copied := (cstring t).take (n - 1)
  copied ++ 0 :: old.drop (copied.length + 1)

/-- `strncpy(p->exit_msg, msg, 32); p->exit_msg[31] = 0`. -/
def exitMsgOf (msg : List Byte) : List Byte := (strncpy msg 32).set 31 0

/-- The bytes of a string literal. -/
def literal (s : String) : List Byte := s.toList.map fun c => BitVec.ofNat 8 c.toNat

/-- An `int` in memory. -/
def intBytes (v : I32) : List Byte := (List.range 4).map fun k => (v >>> (8 * k)).setWidth 8

/-- The `int` that four bytes of memory hold. -/
def bytesInt (bs : List Byte) : I32 := bs.foldr (fun b v => (v <<< 8) ||| b.setWidth 32) 0

/-! ## Shared files and inodes -/

/-- Increment the reference count of a file. -/
def filedup (f : FileId) : Code Unit := do
  acquire .ftable
  if (← read fun s => (s.data.file f).ref) < 1 then
    panic "filedup"
  write (.data fun d =>
    { d with file := fun g => if g = f then { d.file g with ref := (d.file g).ref + 1 } else d.file g })
  release .ftable

/-- Increment the reference count of an inode. -/
def idup (ip : InodeId) : Code Unit := do
  acquire .itable
  write (.data fun d =>
    { d with inodeRef := fun jp => if jp = ip then d.inodeRef jp + 1 else d.inodeRef jp })
  release .itable

/-! ## Creating and freeing a slot -/

def allocpid : Code I32 := do
  acquire .pid
  let pid ← read fun s => s.nextpid
  write (.nextpid (pid + 1))
  record (.newpid · pid)
  release .pid
  return pid

/-- Free a process's page table, and the memory it refers to. -/
def procFreepagetable (pagetable sz : U64) : Vm Unit := do
  uvmunmap pagetable TRAMPOLINE 1 false
  uvmunmap pagetable TRAPFRAME 1 false
  uvmfree pagetable sz

/-- Create a user page table with no user memory, but with trampoline and
trapframe pages. -/
def procPagetable (trapframe : U64) : Vm (Option U64) := do
  match ← uvmcreate with
  | none => return none
  | some pagetable =>
    match ← mappages pagetable TRAMPOLINE PGSIZE trampolinePa (PTE_R ||| PTE_X) with
    | none =>
      uvmfree pagetable 0
      return none
    | some () =>
      match ← mappages pagetable TRAPFRAME PGSIZE trapframe (PTE_R ||| PTE_W) with
      | none =>
        uvmunmap pagetable TRAMPOLINE 1 false
        uvmfree pagetable 0
        return none
      | some () => return some pagetable

/-- Free a slot and the data hanging from it, including user pages. -/
def freeproc (p : Slot) : Code Unit := do
  note (.frees p)
  match ← read fun s => (s.proc p).priv.trapframe with
  | some trapframe => vm (kfree trapframe)
  | none => pure ()
  write (.priv p fun x => { x with trapframe := none })
  match ← read fun s => (s.proc p).priv.pagetable with
  | some pagetable =>
    let sz ← read fun s => (s.proc p).priv.sz
    vm (procFreepagetable pagetable sz)
  | none => pure ()
  write (.priv p fun x => { x with pagetable := none })
  write (.priv p fun x => { x with sz := 0 })
  write (.pid p 0)
  write (.parent p none)
  write (.priv p fun x => { x with name := x.name.set 0 0 })
  write (.chan p none)
  write (.killed p false)
  write (.xstate p 0)
  write (.state p .unused)

/-- The loop of `allocproc`: the first unused slot, with its lock held. -/
def findUnused : Code (Option Slot) :=
  Prog.findM? (fun p => do
    acquire (.proc p)
    if (← read fun s => (s.proc p).state) = .unused then
      return some p
    else
      release (.proc p)
      return none) slots

/-- Look in the process table for an unused slot.  If found, initialize
state required to run in the kernel, and return with its lock held. -/
def allocproc : Code (Option Slot) := do
  match ← findUnused with
  | none => return none
  | some p =>
    write (.creator p (← mycpuProc))
    write (.byForkn p false)
    write (.ended p none)
    write (.reaps p 0)
    let pid ← allocpid
    write (.pid p pid)
    write (.state p .used)
    match ← vm kalloc with
    | none =>
      freeproc p
      release (.proc p)
      return none
    | some trapframe =>
      write (.priv p fun x => { x with trapframe := some trapframe })
      match ← vm (procPagetable trapframe) with
      | none =>
        freeproc p
        release (.proc p)
        return none
      | some pagetable =>
        write (.priv p fun x => { x with pagetable := some pagetable })
        .perform (.context p)
        note (.allocated p)
        return some p

/-! ## Creating processes -/

/-- `*(np->trapframe) = *(p->trapframe); np->trapframe->a0 = a0`: the 36
registers at the start of the page, of which `a0` is number 14. -/
def copyTrapframe (trapframe ntrapframe a0 : U64) : Vm Unit := do
  modify fun m => m.setPage ntrapframe fun i =>
    if i.val < 36 then m.page trapframe i else m.page ntrapframe i
  storeWord ntrapframe 14 a0

/-- Give the child the open files, the current directory and the name of its
parent. -/
def dupPrivate (p np : Slot) : Code Unit := do
  Prog.foldM (fun () fd => do
    match ← read fun s => (s.proc p).priv.ofile fd with
    | some f =>
      filedup f
      write (.priv np fun x => { x with ofile := fun fd' => if fd' = fd then some f else x.ofile fd' })
    | none => pure ()) () (List.finRange NOFILE)
  let cwd ← deref (← read fun s => (s.proc p).priv.cwd)
  idup cwd
  write (.priv np fun x => { x with cwd := some cwd })
  let name ← read fun s => (s.proc p).priv.name
  write (.priv np fun x => { x with name := safestrcpy x.name name 16 })

/-- Copy the user memory of the parent to the child. -/
def copyMemory (p np : Slot) : Code (Option Unit) := do
  let pagetable ← deref (← read fun s => (s.proc p).priv.pagetable)
  let npagetable ← deref (← read fun s => (s.proc np).priv.pagetable)
  vm (uvmcopy pagetable npagetable (← read fun s => (s.proc p).priv.sz))

/-- Copy saved user registers, with `a0` as the return value of the child. -/
def copyRegisters (p np : Slot) (a0 : U64) : Code Unit := do
  let trapframe ← deref (← read fun s => (s.proc p).priv.trapframe)
  let ntrapframe ← deref (← read fun s => (s.proc np).priv.trapframe)
  vm (copyTrapframe trapframe ntrapframe a0)

/-- Create a new process, copying the parent. -/
def fork : Code I32 := do
  let p ← myproc
  match ← allocproc with
  | none => return -1
  | some np =>
    match ← copyMemory p np with
    | none =>
      freeproc np
      release (.proc np)
      return -1
    | some () =>
      let sz ← read fun s => (s.proc p).priv.sz
      write (.priv np fun x => { x with sz := sz })
      copyRegisters p np 0
      dupPrivate p np
      let pid ← read fun s => (s.proc np).pid
      release (.proc np)
      acquire .wait
      write (.parent np (some p))
      release .wait
      acquire (.proc np)
      write (.state np .runnable)
      release (.proc np)
      return pid

/-- Kill the process with the given pid. -/
def kill (pid : I32) : Code I32 := do
  record (.target · (some pid))
  note (.kills pid)
  let r ← Prog.findM? (fun p => do
    acquire (.proc p)
    if (← read fun s => (s.proc p).pid) = pid then
      write (.killed p true)
      if (← read fun s => (s.proc p).state) = .sleeping then
        -- Wake process from sleep().
        write (.state p .runnable)
        write (.dozing p false)
      release (.proc p)
      return some ()
    release (.proc p)
    return none) slots
  match r with
  | some () => return 0
  | none => return -1

/-- The loop of `forkn` from child `i` on, `k` children still to create;
`pids` are those of the children before. -/
def forknLoop (p : Slot) : Nat → Nat → List I32 → Code (I32 × List I32)
  | 0, _, pids => return (-2, pids)
  | k + 1, i, pids => do
    match ← allocproc with
    | none =>
      -- cleanup if failed to allocate
      Prog.foldM (fun () pid => do let _ ← kill pid) () pids
      return (-1, pids)
    | some np =>
      write (.byForkn np true)
      let sz ← read fun s => (s.proc p).priv.sz
      write (.priv np fun x => { x with sz := sz })
      match ← copyMemory p np with
      | none =>
        freeproc np
        release (.proc np)
        return (-1, pids)
      | some () =>
        copyRegisters p np (BitVec.ofNat 64 i)
        dupPrivate p np
        acquire .wait
        write (.parent np (some p))
        release .wait
        let pid ← read fun s => (s.proc np).pid
        write (.state np .runnable)
        release (.proc np)
        forknLoop p k (i + 1) (pids ++ [pid])

/-- Create `n` processes; the result, and the array `pids`. -/
def forkn (n : I32) : Code (I32 × List I32) := do
  let p ← myproc
  if n.toInt < 1 ∨ n.toInt > 16 then
    return (-1, [])
  forknLoop p n.toNat 0 []

/-! ## Collecting processes -/

/-- Copy `src` to the memory of the calling process. -/
def copyoutTo (p : Slot) (dstva : U64) (src : List Byte) : Code (Option Unit) := do
  let pagetable ← deref (← read fun s => (s.proc p).priv.pagetable)
  vm (copyout pagetable dstva src)

/-- `addr != 0 && copyout(...) < 0`: store a status, if there is a place for it. -/
def storeStatus (p : Slot) (addr : U64) (xstate : I32) : Code (Option Unit) :=
  if addr ≠ 0 then copyoutTo p addr (intBytes xstate) else return some ()

/-- `wait` has found the exited child `pp`: the rest of the call, which gives
up both locks. -/
def waitFound (p pp : Slot) (addr msgAddr : U64) : Code I32 := do
  let pid ← read fun s => (s.proc pp).pid
  let xstate ← read fun s => (s.proc pp).xstate
  let ended ← read fun s => (s.proc pp).ended
  let message ← read fun s => (s.proc pp).message
  note (.found pid)
  match ← storeStatus p addr xstate with
  | none =>
    release (.proc pp)
    release .wait
    return -1
  | some () =>
    let msg ← read fun s => (s.proc pp).priv.exitMsg
    match ← copyoutTo p msgAddr (cstring msg ++ [0]) with
    | none =>
      release (.proc pp)
      release .wait
      return -1
    | some () =>
      if msgAddr ≠ 0 then
        match ← copyoutTo p msgAddr msg with
        | some () => note (.messageStored ended message msg)
        | none => pure ()
      write (.reap p pp)
      freeproc pp
      release (.proc pp)
      release .wait
      if addr ≠ 0 then
        note (.waitReturns pid xstate ended)
      return pid

/-- The scan of `wait`, from some slot on: the return value, if an exited
child was found, and else whether there are children. -/
def waitScan (p : Slot) (addr msgAddr : U64) (havekids : Bool) : List Slot → Code (I32 ⊕ Bool)
  | [] => return .inr havekids
  | pp :: rest => do
    if (← read fun s => (s.proc pp).parent) = some p then
      -- make sure the child isn't still in exit() or swtch().
      acquire (.proc pp)
      if (← read fun s => (s.proc pp).state) = .zombie then
        return .inl (← waitFound p pp addr msgAddr)
      else
        release (.proc pp)
        waitScan p addr msgAddr true rest
    else
      waitScan p addr msgAddr havekids rest

/-- Wait for a child to exit and return its pid. -/
def wait (addr msgAddr : U64) : Code I32 := do
  let p ← myproc
  write (.reaped p 0)
  acquire .wait
  Prog.loop (fun () => do
    match ← waitScan p addr msgAddr false slots with
    | .inl r => return .inr r
    | .inr havekids =>
      -- No point waiting if we don't have any children.
      if !havekids then
        release .wait
        return .inr (-1)
      if ← killed p then
        release .wait
        return .inr (-1)
      sleep .wait (.proc p) .wait
      return .inl ()) ()

/-- One step of the scan of `waitall`, with whether it has found an exited
child, and what has been collected, of whom. -/
def waitallStep (p : Slot) : Bool × List Report → Slot → Code (Bool × List Report)
  | (found, collected), pp => do
    acquire (.proc pp)
    if (← read fun s => (s.proc pp).parent) = some p ∧
        (← read fun s => (s.proc pp).state) = .zombie then
      note (.collect pp collected.length)
      let status ← read fun s => (s.proc pp).xstatus
      let pid ← read fun s => (s.proc pp).pid
      let ended ← read fun s => (s.proc pp).ended
      release (.proc pp)
      write (.reap p pp)
      freeproc pp
      return (true, collected ++ [⟨pid, status, ended⟩])
    else
      release (.proc pp)
      return (found, collected)

/-- The scan of `waitall`. -/
def waitallScan (p : Slot) (collected : List Report) : Code (Bool × List Report) :=
  Prog.foldM (waitallStep p) (false, collected) slots

/-- Collect exited children until there are `*n` of them. -/
def waitall (n statuses : U64) : Code I32 := do
  let p ← myproc
  write (.reaped p 0)
  let pagetable ← deref (← read fun s => (s.proc p).priv.pagetable)
  match ← vm (copyin pagetable n 4) with
  | none => return -1
  | some bytes =>
    let expected := bytesInt bytes
    acquire .wait
    let collected ← Prog.loop (fun collected => do
      note (.scan expected collected.length)
      let (found, collected) ← waitallScan p collected
      if (collected.length : Int) ≥ expected.toInt ∨ !found then
        return .inr collected
      sleep .waitall (.proc p) .wait
      return .inl collected) []
    write (.leaving p true)
    release .wait
    -- Copy final count back into *n
    let r ← copyoutTo p n (intBytes (BitVec.ofNat 32 collected.length))
    match r with
    | none =>
      write (.leaving p false)
      return -1
    | some () =>
      note (.copyStatuses expected collected.length)
      match ← copyoutTo p statuses (collected.flatMap fun r => intBytes r.status) with
      | none =>
        write (.leaving p false)
        return -1
      | some () =>
        note (.waitallReturns expected collected)
        write (.leaving p false)
        return 0

/-- Pass `p`'s abandoned children to init. -/
def reparent (p : Slot) : Code Unit :=
  Prog.foldM (fun () pp => do
    if (← read fun s => (s.proc pp).parent) = some p then
      let initproc ← read fun s => s.initproc
      write (.parent pp (some initproc))
      wakeup (.proc initproc)) () slots

end Xv6
