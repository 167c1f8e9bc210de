import Xv6.Conc.Machine
import Xv6.Proc.State

/-!
# The UART

`kernel/uart.c` and `consolewrite`, called by any number of threads: processes
that write, handlers of its interrupt, and `printf`.  The device and the PLIC
are part of the state.  What has been written to THR is in the device until it
has transmitted it; LSR says that THR can accept another byte when the device
is idle, which also raises the interrupt, as does a byte that arrives.  The
PLIC hands out an interrupt again when the last one is complete.

`doze` releases the lock and goes to sleep in one step, because `sleep` holds
`p->lock` from before the release, and `wakeup` takes the same lock.
-/

namespace Xv6.Uart

open Conc

abbrev UART_TX_BUF_SIZE : Nat := 32

instance neZero_UART_TX_BUF_SIZE : NeZero UART_TX_BUF_SIZE := ⟨by decide⟩

/-- The transmit output buffer. -/
structure Tx where
  buf : Fin UART_TX_BUF_SIZE → Byte
  w : U64
  r : U64

/-- `uart_tx_buf[i % UART_TX_BUF_SIZE]` -/
def Tx.at (x : Tx) (i : U64) : Byte := x.buf (Fin.ofNat UART_TX_BUF_SIZE i.toNat)

/-- Store a byte and add one to `uart_tx_w`. -/
def Tx.push (x : Tx) (c : Byte) : Tx where
  buf j := if j = Fin.ofNat UART_TX_BUF_SIZE x.w.toNat then c else x.buf j
  w := x.w + 1
  r := x.r

/-- A byte written to THR, and whether it comes from the buffer. -/
structure Sent where
  c : Byte
  buffered : Bool

/-- A call of `consolewrite` with the bytes that it has copied in, and those
that it has put in the buffer. -/
structure Writing where
  n : I32
  copied : List Byte
  put : List Byte

/-- A call that has returned. -/
structure Ended (P : Type) extends Writing where
  p : P
  r : I32

variable (P : Type)

/-- `asleep` are the threads that sleep on `&uart_tx_r`, and `serving` is the
one that has claimed the interrupt.  The fields from `accepted` on are
history: the bytes put in the buffer and by whom, those taken out of it, those
that have arrived, those read from RHR and those given to `consoleintr`,
whether the handler has yet to see that nothing has arrived and to look at the
buffer, and the calls. -/
structure State where
  tx : Tx
  lock : Option P
  asleep : P → Bool
  panicked : Bool
  sending : List Sent
  line : List Sent
  rx : List Byte
  irq : Bool
  serving : Option P
  accepted : List (P × Byte)
  popped : List Byte
  arrived : List Byte
  got : List Byte
  handed : List Byte
  draining : Bool
  due : Bool
  turn : P → Writing
  ended : List (Ended P)

/-- What a thread may be asked to do.  The last ones are what the device and
the rest of the kernel do. -/
inductive Call
  | write (src : U64) (n : I32)
  | intr
  | sync (c : Byte)
  | kill (p : P)
  | transmit
  | arrive (c : Byte)
  | panic

/-- The answers of the outside world: the next call, what is at an address,
and what `consoleintr` echoes. -/
inductive Input
  | call (c : Call P)
  | byte (ch : Option Byte)
  | echo (cs : List Byte)
  | none

inductive Op : Type → Type 1
  | acquire : Op Unit
  | release : Op Unit
  /-- `release` at the end of `uartintr`. -/
  | releaseServed : Op Unit
  | doze : Op Unit
  | awake : Op Unit
  | wakeup : Op Unit
  | kill (p : P) : Op Unit
  | panicked : Op Bool
  | read {β : Type} (f : Tx → β) : Op β
  | push (c : Byte) : Op Unit
  /-- `uart_tx_buf[uart_tx_r % UART_TX_BUF_SIZE]`, and `uart_tx_r += 1`. -/
  | pop : Op Byte
  /-- `ReadReg(LSR) & LSR_TX_IDLE`. -/
  | idle : Op Bool
  /-- `WriteReg(THR, c)`. -/
  | thr (c : Byte) (buffered : Bool) : Op Unit
  /-- `ReadReg(LSR) & 0x01`. -/
  | ready : Op Bool
  /-- `ReadReg(RHR)`. -/
  | rhr : Op Byte
  | consoleintr (c : Byte) : Op (List Byte)
  | claim : Op Bool
  | complete : Op Unit
  | copyin (src : U64) : Op (Option Byte)
  /-- `consolewrite` returns. -/
  | finish (i : I32) : Op Unit
  | transmit : Op Unit
  | arrive (c : Byte) : Op Unit
  | panic : Op Unit
  | next : Op (Option (Call P))

abbrev Code := Prog (Op P)

variable {P} [DecidableEq P]

open Function (update) in
/-- One operation of thread `p`. -/
def exec {β : Type} (p : P) (i : Input P) (s : State P) : Op P β → Option (β × State P)
  | .acquire => if s.lock = none then some ((), { s with lock := some p }) else none
  | .release => some ((), { s with lock := none })
  | .releaseServed => some ((), { s with lock := none, due := false })
  | .doze => some ((), { s with lock := none, asleep := update s.asleep p true })
  | .awake => if s.asleep p = false then some ((), s) else none
  | .wakeup => some ((), { s with asleep := fun _ => false })
  | .kill q => some ((), { s with asleep := update s.asleep q false })
  | .panicked => some (s.panicked, s)
  | .read f => some (f s.tx, s)
  | .push c => some ((), { s with
      tx := s.tx.push c
      accepted := s.accepted ++ [(p, c)]
      turn := update s.turn p { s.turn p with put := (s.turn p).put ++ [c] } })
  | .pop => some (s.tx.at s.tx.r, { s with
      tx := { s.tx with r := s.tx.r + 1 }
      popped := s.popped ++ [s.tx.at s.tx.r] })
  | .idle => some (s.sending.isEmpty, s)
  | .thr c buffered => some ((), { s with sending := s.sending ++ [⟨c, buffered⟩] })
  | .ready => some (!s.rx.isEmpty, { s with
      draining := s.draining && !(decide (s.serving = some p) && s.rx.isEmpty) })
  | .rhr => some (s.rx.headD 0, { s with rx := s.rx.tail, got := s.got ++ s.rx.take 1 })
  | .consoleintr c =>
    match i with
    | .echo cs => some (cs, { s with handed := s.handed ++ [c] })
    | _ => some ([], { s with handed := s.handed ++ [c] })
  | .claim =>
    if s.irq = true ∧ s.serving = none then
      some (true, { s with irq := false, serving := some p, draining := true, due := true })
    else
      some (false, s)
  | .complete => some ((), { s with serving := none })
  | .copyin _ =>
    match i with
    | .byte (some c) => some (some c, { s with
        turn := update s.turn p { s.turn p with copied := (s.turn p).copied ++ [c] } })
    | _ => some (none, s)
  | .finish r => some ((), { s with
      ended := s.ended ++ [⟨s.turn p, p, r⟩]
      turn := update s.turn p ⟨0, [], []⟩ })
  | .transmit =>
    match s.sending with
    | [] => some ((), s)
    | b :: rest => some ((), { s with
        sending := rest, line := s.line ++ [b], irq := s.irq || rest.isEmpty })
  | .arrive c => some ((), { s with
      rx := s.rx ++ [c], arrived := s.arrived ++ [c], irq := true })
  | .panic => some ((), { s with panicked := true })
  | .next =>
    match i with
    | .call (.write src n) =>
      some (some (.write src n), { s with turn := update s.turn p ⟨n, [], []⟩ })
    | .call c => some (some c, s)
    | _ => some (none, s)

/-! ## The code -/

def acquire : Code P Unit := .perform .acquire

def release : Code P Unit := .perform .release

def wakeup : Code P Unit := .perform .wakeup

def read {β : Type} (f : Tx → β) : Code P β := .perform (.read f)

/-- `for(;;) ;` -/
def hang {α : Type} : Code P α := (Prog.forever (.ret ())).bind Empty.elim

/-- `sleep(&uart_tx_r, &uart_tx_lock)`. -/
def sleep : Code P Unit := do
  .perform .doze
  .perform .awake
  acquire

def uartstart : Code P Unit := Prog.loop (fun () => do
  if ← read fun x => decide (x.w = x.r) then
    -- transmit buffer is empty.
    return .inr ()
  if !(← .perform .idle) then
    -- the UART transmit holding register is full.
    return .inr ()
  let c ← .perform .pop
  -- maybe uartputc() is waiting for space in the buffer.
  wakeup
  .perform (.thr c true)
  return .inl ()) ()

def uartputc (c : Byte) : Code P Unit := do
  acquire
  if ← .perform .panicked then
    hang
  else
    Prog.loop (fun () => do
      if ← read fun x => decide (x.w = x.r + BitVec.ofNat 64 UART_TX_BUF_SIZE) then
        -- buffer is full.
        sleep
        return .inl ()
      else
        return .inr ()) ()
    .perform (.push c)
    uartstart
    release

def uartputc_sync (c : Byte) : Code P Unit := do
  if ← .perform .panicked then
    hang
  else
    -- wait for Transmit Holding Empty to be set in LSR.
    Prog.loop (fun () => do
      if ← .perform .idle then
        return .inr ()
      else
        return .inl ()) ()
    .perform (.thr c false)

/-- `none` is -1. -/
def uartgetc : Code P (Option Byte) := do
  if ← .perform .ready then
    let c ← .perform .rhr
    return some c
  else
    return none

/-- `consoleintr`, with what it echoes. -/
def consoleintr (c : Byte) : Code P Unit := do
  let cs ← .perform (.consoleintr c)
  Prog.foldM (fun () c => uartputc_sync c) () cs

def uartintr : Code P Unit := do
  -- read and process incoming characters.
  Prog.loop (fun () => do
    match ← uartgetc with
    | none => return .inr ()
    | some c =>
      consoleintr c
      return .inl ()) ()
  -- send buffered characters.
  acquire
  uartstart
  .perform .releaseServed

/-- `devintr` for the interrupt of the UART. -/
def devintr : Code P Unit := do
  if ← .perform .claim then
    uartintr
    .perform .complete
  else
    return ()

def consolewrite (src : U64) (n : I32) : Code P I32 := do
  let i ← Prog.loop (fun i : Nat => do
    if ¬ (i : Int) < n.toInt then
      return .inr i
    else
      match ← .perform (.copyin (src + BitVec.ofNat 64 i)) with
      | none => return .inr i
      | some c =>
        uartputc c
        return .inl (i + 1)) 0
  .perform (.finish (BitVec.ofNat 32 i))
  return BitVec.ofNat 32 i

/-- A thread makes one call after the other. -/
def main : Code P Empty := Prog.forever do
  match ← .perform .next with
  | none => return ()
  | some (.write src n) => let _ ← consolewrite src n
  | some .intr => devintr
  | some (.sync c) => uartputc_sync c
  | some (.kill q) => .perform (.kill q)
  | some .transmit => .perform .transmit
  | some (.arrive c) => .perform (.arrive c)
  | some .panic => .perform .panic

def machine (P : Type) [DecidableEq P] : Machine (Op P) (State P) P P (Input P) where
  running _ p := p
  exec := exec
  restarts _ := none
  main _ := main

/-- After `uartinit`. -/
def State.new : State P where
  tx := ⟨fun _ => 0, 0, 0⟩
  lock := none
  asleep _ := false
  panicked := false
  sending := []
  line := []
  rx := []
  irq := false
  serving := none
  accepted := []
  popped := []
  arrived := []
  got := []
  handed := []
  draining := false
  due := false
  turn _ := ⟨0, [], []⟩
  ended := []

/-- The threads at the beginning. -/
def start : Config (Op P) (State P) P := ⟨.new, fun _ => main⟩

end Xv6.Uart
