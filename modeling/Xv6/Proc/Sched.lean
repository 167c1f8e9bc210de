import Xv6.Proc.Op

/-!
# Spinlocks, sleeping and scheduling

`kernel/spinlock.c`, and the part of `kernel/proc.c` that gives processors to
processes.  An interrupt that arrives in the kernel is taken at the next
place where the code turns interrupts on: `releaseWith` and `wakeupWith` get
the handler as an argument, because the handler itself runs with interrupts
off.
-/

namespace Xv6

open Conc

/-! ## `push_off` and `pop_off` -/

def pushOff : Code Unit :=
  .perform <| .cpu fun x =>
    ((), { x with
      intr := false
      intena := if x.noff = 0 then x.intr else x.intena
      noff := x.noff + 1 })

/-- What `pop_off` does to its processor. -/
def CpuState.popOff (x : CpuState) : Except String Bool × CpuState :=
  if x.intr then (.error "pop_off - interruptible", x)
  else if x.noff < 1 then (.error "pop_off", x)
  else
    let on := x.noff - 1 = 0 ∧ x.intena
    (.ok (decide on), { x with noff := x.noff - 1, intr := decide on })

/-- `pop_off`; answers whether it has turned interrupts on. -/
def popOff : Code Bool := do
  match ← .perform (.cpu CpuState.popOff) with
  | .ok on => return on
  | .error msg => panic msg

/-! ## Spinlocks -/

/-- Check whether this processor is holding the lock. -/
def holding (l : Lock) : Code Bool :=
  .perform <| .read fun c s => decide (s.locked l = some c)

/-- Loops (spins) until the lock is acquired. -/
def acquire (l : Lock) : Code Unit := do
  pushOff
  if ← holding l then
    panic "acquire"
  .perform (.lock l)

/-- Release the lock.  When that turns interrupts on, `trap` takes those that
have arrived. -/
def releaseWith (trap : Code Unit) (l : Lock) : Code Unit := do
  if !(← holding l) then
    panic "release"
  .perform (.unlock l)
  if ← popOff then
    trap

/-! ## Sleeping and yielding -/

/-- The process on this processor, or `none`. -/
def mycpuProc : Code (Option Slot) := .perform <| .read fun c s => (s.cpu c).proc

/-- Note something in the history of the process on this processor. -/
def record (w : Slot → Write) : Code Unit := do
  match ← mycpuProc with
  | some p => write (w p)
  | none => pure ()

/-- `myproc()`, where the source follows the pointer. -/
def myproc : Code Slot := do
  match ← mycpuProc with
  | some p => return p
  | none => panic "myproc: no process"

/-- Switch to the scheduler.  Must hold only `p->lock` and have changed
`p->state`. -/
def sched : Code Unit := do
  let p ← myproc
  if !(← holding (.proc p)) then
    panic "sched p->lock"
  if (← .perform (.cpu fun x => (x.noff, x))) ≠ 1 then
    panic "sched locks"
  if (← read fun s => (s.proc p).state) = .running then
    panic "sched running"
  if ← .perform (.cpu fun x => (x.intr, x)) then
    panic "sched interruptible"
  let intena ← .perform (.cpu fun x => (x.intena, x))
  .perform (.swtch none)
  .perform (.cpu fun x => ((), { x with intena := intena }))

/-- Wake up all processes sleeping on `chan`. -/
def wakeupWith (trap : Code Unit) (chan : Chan) : Code Unit :=
  Prog.foldM (fun () p => do
    if (← mycpuProc) ≠ some p then
      acquire (.proc p)
      if (← read fun s => (s.proc p).state) = .sleeping ∧
          (← read fun s => (s.proc p).chan) = some chan then
        write (.state p .runnable)
        write (.dozing p false)
      releaseWith trap (.proc p)) () slots

/-- Give up the processor for one scheduling round. -/
def yieldWith (trap : Code Unit) : Code Unit := do
  let p ← myproc
  acquire (.proc p)
  write (.state p .runnable)
  sched
  releaseWith trap (.proc p)

/-! ## Interrupts -/

/-- With interrupts off, nothing is taken when a lock is released. -/
def noTrap : Code Unit := return ()

def C (x : Char) : I32 := BitVec.ofNat 32 (x.toNat - '@'.toNat)

/-- The byte of `cons.buf` that an index of the source means. -/
def Cons.at (s : Cons) (i : I32) : Byte := s.buf (Fin.ofNat INPUT_BUF_SIZE i.toNat)

/-- The body of the loop for kill line, `n` times at most: it goes back to
the last newline or to the last committed character. -/
def killLine : Nat → Cons → Cons
  | 0, s => s
  | n + 1, s =>
    if s.e ≠ s.w ∧ s.at (s.e - 1) ≠ 10 then
      killLine n { s with e := s.e - 1 }
    else s

/-- Store one character for `consoleread`. -/
def Cons.store (s : Cons) (c : I32) : Cons :=
  { s with
    buf := fun i =>
      if i = Fin.ofNat INPUT_BUF_SIZE s.e.toNat then c.setWidth 8 else s.buf i
    e := s.e + 1 }

/-- What `consoleintr` makes of the input buffer, and whether it then wakes
up `consoleread`. -/
def Cons.intr (s : Cons) (c : I32) : Cons × Bool :=
  if c = C 'P' then (s, false)
  else if c = C 'U' then (killLine (s.e - s.w).toNat s, false)
  else if c = C 'H' ∨ c = 0x7f then
    (if s.e ≠ s.w then { s with e := s.e - 1 } else s, false)
  else if c ≠ 0 ∧ s.e - s.r < BitVec.ofNat 32 INPUT_BUF_SIZE then
    let c := if c = 13 then 10 else c
    let s := s.store c
    if c = 10 ∨ c = C 'D' ∨ s.e - s.r = BitVec.ofNat 32 INPUT_BUF_SIZE then
      ({ s with w := s.e }, true)
    else (s, false)
  else (s, false)

/-- The console input interrupt handler. -/
def consoleintr (c : I32) : Code Unit := do
  acquire .cons
  let (cons, wake) ← read fun s => s.data.cons.intr c
  write (.data fun d => { d with cons := cons })
  if wake then
    wakeupWith noTrap .cons
  releaseWith noTrap .cons

def clockintr : Code Unit := do
  acquire .ticks
  write (.data fun d => { d with ticks := d.ticks + 1 })
  wakeupWith noTrap .ticks
  releaseWith noTrap .ticks

/-- `cpuid()`. -/
def cpuid : Code Cpu := .perform <| .read fun c _ => c

/-- The interrupt of one device; answers 2 for the timer and 1 for another
device.  The disk driver takes its lock and wakes up whoever waits for the
buffer. -/
def devintr : Dev → Code Nat
  | .timer => do
    if (← cpuid) = 0 then
      clockintr
    return 2
  | .uart c => do
    consoleintr c
    return 1
  | .disk k => do
    acquire (.fs k)
    wakeupWith noTrap (.fs k)
    releaseWith noTrap (.fs k)
    return 1

/-- Interrupts from kernel code, for as long as some are pending. -/
def kerneltrap : Code Unit :=
  Prog.loop (fun () => do
    match ← input with
    | .intr (some d) =>
      .perform (.cpu fun x => ((), { x with intr := false }))
      let which ← devintr d
      if which = 2 then
        match ← mycpuProc with
        | some p =>
          if (← read fun s => (s.proc p).state) = .running then
            yieldWith noTrap
        | none => pure ()
      .perform (.cpu fun x => ((), { x with intr := true }))
      return .inl ()
    | _ => return .inr ()) ()

/-- `intr_on()`. -/
def intrOn : Code Unit := do
  .perform (.cpu fun x => ((), { x with intr := true }))
  kerneltrap

def release (l : Lock) : Code Unit := releaseWith kerneltrap l

def wakeup (chan : Chan) : Code Unit := wakeupWith kerneltrap chan

def yield : Code Unit := yieldWith kerneltrap

/-! ## Sleeping -/

/-- Atomically release lock and sleep on `chan`.  `site` says who calls. -/
def sleep (site : Site) (chan : Chan) (lk : Lock) : Code Unit := do
  let p ← myproc
  acquire (.proc p)
  write (.dozing p site.forChild)
  release lk
  write (.site p site)
  write (.chan p (some chan))
  write (.state p .sleeping)
  sched
  write (.chan p none)
  release (.proc p)
  acquire lk

def setkilled (p : Slot) : Code Unit := do
  record (.target · none)
  acquire (.proc p)
  write (.killed p true)
  release (.proc p)

def killed (p : Slot) : Code Bool := do
  acquire (.proc p)
  let k ← read fun s => (s.proc p).killed
  release (.proc p)
  return k

/-! ## The scheduler -/

/-- Per-processor process scheduler. -/
def scheduler : Code Empty := do
  .perform (.cpu fun x => ((), { x with proc := none }))
  Prog.forever do
    intrOn
    Prog.foldM (fun () p => do
      acquire (.proc p)
      if (← read fun s => (s.proc p).state) = .runnable then
        write (.state p .running)
        .perform (.cpu fun x => ((), { x with proc := some p }))
        .perform (.swtch (some p))
        .perform (.cpu fun x => ((), { x with proc := none }))
      release (.proc p)) () slots

end Xv6
