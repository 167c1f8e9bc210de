import Xv6.Proc.Table

/-!
# Files, pipes and the console

`kernel/file.c`, `kernel/pipe.c` and `consoleread`, as far as they share
data with the process table.  The file system itself appears only through
`fsCall`: the locks it takes, the channels it sleeps on and those it wakes up
are chosen by the outside world.
-/

namespace Xv6

open Conc

/-! ## The file system, seen from outside -/

/-- A call into the file system; the outside world gives its result. -/
def fsCall : Code I32 :=
  Prog.loop (fun () => do
    match ← input with
    | .fs (.sleep lk chan) =>
      acquire (.fs lk)
      sleep .fs (.fs chan) (.fs lk)
      release (.fs lk)
      return .inl ()
    | .fs (.wakeup lk chan) =>
      acquire (.fs lk)
      wakeup (.fs chan)
      release (.fs lk)
      return .inl ()
    | .fs (.done r) => return .inr r
    | _ => return .inr 0) ()

/-! ## The file table -/

/-- Change one file. -/
def modFile (f : FileId) (g : File → File) : Code Unit :=
  write (.data fun d => { d with file := fun h => if h = f then g (d.file h) else d.file h })

/-- Allocate a file structure. -/
def filealloc : Code (Option FileId) := do
  acquire .ftable
  let free ← read fun s => (List.finRange NFILE).find? fun f => (s.data.file f).ref = 0
  match free with
  | some f =>
    modFile f fun x => { x with ref := 1 }
    release .ftable
    return some f
  | none =>
    release .ftable
    return none

/-- Change one pipe. -/
def modPipe (pi : PipeId) (g : Pipe → Pipe) : Code Unit :=
  write (.data fun d => { d with pipe := fun pj => if pj = pi then g (d.pipe pj) else d.pipe pj })

def pipeclose (pi : PipeId) (writable : Bool) : Code Unit := do
  acquire (.pipe pi)
  if writable then
    modPipe pi fun x => { x with writeopen := false }
    wakeup (.pipeRead pi)
  else
    modPipe pi fun x => { x with readopen := false }
    wakeup (.pipeWrite pi)
  if ← read fun s => !(s.data.pipe pi).readopen && !(s.data.pipe pi).writeopen then
    release (.pipe pi)
    vm (kfree pi)
  else
    release (.pipe pi)

/-- Close file `f`: decrement its reference count, close when it reaches 0. -/
def fileclose (f : FileId) : Code Unit := do
  acquire .ftable
  if (← read fun s => (s.data.file f).ref) < 1 then
    panic "fileclose"
  modFile f fun x => { x with ref := x.ref - 1 }
  let ff ← read fun s => s.data.file f
  if ff.ref > 0 then
    release .ftable
  else
    modFile f fun x => { x with ref := 0, type := .none }
    release .ftable
    match ff.type with
    | .pipe pi => pipeclose pi ff.writable
    | .inode | .device => let _ ← fsCall
    | .none => pure ()

/-! ## Pipes -/

/-- The new pipe in the page `pi`. -/
def Pipe.new : Pipe where
  data := fun _ => 5
  nread := 0
  nwrite := 0
  readopen := true
  writeopen := true

def pipealloc : Code (Option (FileId × FileId)) := do
  match ← filealloc with
  | none => return none
  | some f0 =>
    match ← filealloc with
    | none =>
      fileclose f0
      return none
    | some f1 =>
      match ← vm kalloc with
      | none =>
        fileclose f0
        fileclose f1
        return none
      | some pi =>
        modPipe pi fun _ => Pipe.new
        modFile f0 fun x => { x with type := .pipe pi, readable := true, writable := false }
        modFile f1 fun x => { x with type := .pipe pi, readable := false, writable := true }
        return some (f0, f1)

/-- The byte of a pipe that an index of the source means. -/
def Pipe.at (x : Pipe) (i : I32) : Byte := x.data (Fin.ofNat PIPESIZE i.toNat)

/-- `pi->data[pi->nwrite++ % PIPESIZE] = ch`. -/
def Pipe.push (x : Pipe) (ch : Byte) : Pipe :=
  { x with
    data := fun j => if j = Fin.ofNat PIPESIZE x.nwrite.toNat then ch else x.data j
    nwrite := x.nwrite + 1 }

def pipewrite (pi : PipeId) (addr : U64) (n : I32) : Code I32 := do
  let pr ← myproc
  acquire (.pipe pi)
  let r ← Prog.loop (fun i : Nat => do
    if ¬ (i : Int) < n.toInt then
      return .inr (some i)
    if !(← read fun s => (s.data.pipe pi).readopen) then
      release (.pipe pi)
      return .inr none
    if ← killed pr then
      release (.pipe pi)
      return .inr none
    let x ← read fun s => s.data.pipe pi
    if x.nwrite = x.nread + BitVec.ofNat 32 PIPESIZE then
      wakeup (.pipeRead pi)
      sleep .pipewrite (.pipeWrite pi) (.pipe pi)
      return .inl i
    else
      let pagetable ← deref (← read fun s => (s.proc pr).priv.pagetable)
      match ← vm (copyin pagetable (addr + BitVec.ofNat 64 i) 1) with
      | some [ch] =>
        modPipe pi fun x => x.push ch
        return .inl (i + 1)
      | _ => return .inr (some i)) 0
  match r with
  | none => return -1
  | some i =>
    wakeup (.pipeRead pi)
    release (.pipe pi)
    return BitVec.ofNat 32 i

def piperead (pi : PipeId) (addr : U64) (n : I32) : Code I32 := do
  let pr ← myproc
  acquire (.pipe pi)
  let ready ← Prog.loop (fun () => do
    let x ← read fun s => s.data.pipe pi
    if ¬ (x.nread = x.nwrite ∧ x.writeopen) then
      return .inr true
    if ← killed pr then
      release (.pipe pi)
      return .inr false
    sleep .piperead (.pipeRead pi) (.pipe pi)
    return .inl ()) ()
  if !ready then
    return -1
  let i ← Prog.loop (fun i : Nat => do
    if ¬ (i : Int) < n.toInt then
      return .inr i
    let x ← read fun s => s.data.pipe pi
    if x.nread = x.nwrite then
      return .inr i
    modPipe pi fun x => { x with nread := x.nread + 1 }
    match ← copyoutTo pr (addr + BitVec.ofNat 64 i) [x.at x.nread] with
    | none => return .inr i
    | some () => return .inl (i + 1)) 0
  wakeup (.pipeWrite pi)
  release (.pipe pi)
  return BitVec.ofNat 32 i

/-! ## The console -/

/-- `consoleread(1, dst, n)`. -/
def consoleread (dst : U64) (n : I32) : Code I32 := do
  let pr ← myproc
  let target := n
  acquire .cons
  let r ← Prog.loop (fun (dst, n) => do
    if ¬ n.toInt > 0 then
      return .inr (some n)
    let x ← read fun s => s.data.cons
    if x.r = x.w then
      -- wait until interrupt handler has put some input into cons.buffer.
      if ← killed pr then
        release .cons
        return .inr none
      sleep .consoleread .cons .cons
      return .inl (dst, n)
    let c := x.at x.r
    write (.data fun d => { d with cons := { d.cons with r := d.cons.r + 1 } })
    if c.setWidth 32 = C 'D' then
      if n < target then
        -- Save ^D for next time, to make sure caller gets a 0-byte result.
        write (.data fun d => { d with cons := { d.cons with r := d.cons.r - 1 } })
      return .inr (some n)
    match ← copyoutTo pr dst [c] with
    | none => return .inr (some n)
    | some () =>
      if c = 10 then
        return .inr (some (n - 1))
      return .inl (dst + 1, n - 1)) (dst, n)
  match r with
  | none => return -1
  | some n =>
    release .cons
    return target - n

/-! ## Reading and writing files -/

def fileread (f : FileId) (addr : U64) (n : I32) : Code I32 := do
  let x ← read fun s => s.data.file f
  if !x.readable then
    return -1
  match x.type with
  | .pipe pi => piperead pi addr n
  | .device => consoleread addr n
  | .inode => fsCall
  | .none => panic "fileread"

/-- Writing to the console does not touch the process table. -/
def filewrite (f : FileId) (addr : U64) (n : I32) : Code I32 := do
  let x ← read fun s => s.data.file f
  if !x.writable then
    return -1
  match x.type with
  | .pipe pi => pipewrite pi addr n
  | .device => fsCall
  | .inode => fsCall
  | .none => panic "filewrite"

end Xv6
