import Xv6.Proc.State
import Xv6.Conc.Machine
import Mathlib.Data.Fintype.Basic

/-!
# The virtio disk driver

`kernel/virtio_disk.c`, the processes that call it, the interrupt handlers and
the device.  The device works at any time.  The driver works under
`disk.vdisk_lock`; what it does to memory that the lock guards, between two
looks at what the device has done, is one operation.

The device is what the driver assumes of it: it fetches the chains that are
posted, and completes each of them once, in any order, with status 0.
-/

namespace Xv6.Virtio

open Conc

abbrev U16 := BitVec 16

abbrev NUM : Nat := 8

def VRING_DESC_F_NEXT : U16 := 1

def VRING_DESC_F_WRITE : U16 := 2

def VIRTIO_BLK_T_IN : I32 := 0

def VIRTIO_BLK_T_OUT : I32 := 1

abbrev BSIZE : Nat := 1024

/-- Why the kernel stops: a panic, or an index outside of an array. -/
inductive Fault
  | panic (msg : String)
  | range
  deriving DecidableEq

section data

variable (B : Type)

/-- The memory that descriptors point to: `disk.ops[i]`, `b->data` and
`disk.info[i].status`. -/
inductive Addr
  | null
  | op (i : Fin NUM)
  | data (b : B)
  | status (i : Fin NUM)
  deriving DecidableEq

/-- `struct virtq_desc`. -/
structure VirtqDesc where
  addr : Addr B
  len : I32
  flags : U16
  next : U16
  deriving DecidableEq

/-- `struct virtio_blk_req`. -/
structure VirtioBlkReq where
  type : I32
  reserved : I32
  sector : U64
  deriving DecidableEq

/-- An element of `disk.info`. -/
structure Info where
  b : Option B
  status : Byte

/-- `struct disk`, with the rings that it points to, and the field `disk` of
the buffers. -/
structure Disk where
  desc : Fin NUM → VirtqDesc B
  availIdx : U16
  availRing : Fin NUM → U16
  usedIdx : U16
  usedRing : Fin NUM → I32
  free : Fin NUM → Bool
  used_idx : U16
  info : Fin NUM → Info B
  ops : Fin NUM → VirtioBlkReq
  bdisk : B → Bool

/-- What the device has read of a chain. -/
structure Seen where
  header : Option VirtioBlkReq
  chain : List (VirtqDesc B)

/-- A request of a process, from the time it is posted until the process has
seen that it is done. -/
structure Request where
  b : B
  write : Bool
  sector : U64
  i0 : Fin NUM
  i1 : Fin NUM
  i2 : Fin NUM

end data

/-- The channels that processes sleep on: `&disk.free[0]`, and a buffer. -/
inductive Chan (B : Type)
  | free
  | buf (b : B)
  deriving DecidableEq

/-- The processes, the interrupt handlers and the device. -/
inductive Thread (P C : Type)
  | proc (p : P)
  | intr (c : C)
  | device
  deriving DecidableEq

/-- The state of the driver and of the device.  A buffer has a holder, the
process that has its lock.  The last two fields are history: the requests in
flight, and whether the device has completed them. -/
structure State (P B C : Type) where
  disk : Disk B
  vdisk_lock : Option (Thread P C)
  asleep : P → Option (Chan B)
  holder : B → Option P
  blockno : B → I32
  /-- How far the device has looked in the ring of available chains. -/
  fetched : U16
  /-- The chains that the device works on. -/
  pending : List (U16 × Seen B)
  requests : P → Option (Request B)
  done : P → Bool

variable {P B C : Type}

/-- Element `i` of an array of `NUM` elements. -/
def index (i : Nat) : Except Fault (Fin NUM) :=
  if h : i < NUM then .ok ⟨i, h⟩ else .error .range

/-- The element of a ring that an index means. -/
def slot (i : U16) : Fin NUM := Fin.ofNat NUM i.toNat

def VirtqDesc.zero : VirtqDesc B := ⟨.null, 0, 0, 0⟩

/-! ## Descriptors -/

section descriptors

variable [DecidableEq B]

/-- `wakeup` under the lock of the driver. -/
def State.wakeup (s : State P B C) (chan : Chan B) : State P B C :=
  { s with asleep := fun p => if s.asleep p = some chan then none else s.asleep p }

/-- Find a free descriptor, and mark it non-free. -/
def alloc_desc (s : State P B C) : Option (Fin NUM) × State P B C :=
  match (List.finRange NUM).find? s.disk.free with
  | some i => (some i, { s with disk.free := Function.update s.disk.free i false })
  | none => (none, s)

/-- Mark a descriptor as free. -/
def free_desc (i : Nat) (s : State P B C) : Except Fault (State P B C) :=
  if h : i < NUM then
    if s.disk.free ⟨i, h⟩ then
      .error (.panic "free_desc 2")
    else
      .ok (State.wakeup { s with
        disk.desc := Function.update s.disk.desc ⟨i, h⟩ .zero
        disk.free := Function.update s.disk.free ⟨i, h⟩ true } .free)
  else
    .error (.panic "free_desc 1")

/-- Free a chain of descriptors.  After `n = NUM` turns there is none left to
free. -/
def free_chain : (n : Nat) → (i : Nat) → State P B C → Except Fault (State P B C)
  | 0, i, s => free_desc i s
  | n + 1, i, s => do
    let j ← index i
    let flag := (s.disk.desc j).flags
    let nxt := (s.disk.desc j).next
    let s ← free_desc i s
    if flag &&& VRING_DESC_F_NEXT ≠ 0 then
      free_chain n nxt.toNat s
    else
      return s

/-- Allocate three descriptors. -/
def alloc3_desc (s : State P B C) :
    Except Fault (Option (Fin NUM × Fin NUM × Fin NUM) × State P B C) := do
  match alloc_desc s with
  | (none, s) => return (none, s)
  | (some i0, s) =>
    match alloc_desc s with
    | (none, s) =>
      let s ← free_desc i0 s
      return (none, s)
    | (some i1, s) =>
      match alloc_desc s with
      | (none, s) =>
        let s ← free_desc i0 s
        let s ← free_desc i1 s
        return (none, s)
      | (some i2, s) => return (some (i0, i1, i2), s)

end descriptors

/-! ## Requests -/

/-- `b->blockno * (BSIZE / 512)`, in 32 bits. -/
def sectorOf (blockno : I32) : U64 := (blockno * BitVec.ofNat 32 (BSIZE / 512)).setWidth 64

def Request.header (r : Request B) : VirtioBlkReq where
  type := if r.write then VIRTIO_BLK_T_OUT else VIRTIO_BLK_T_IN
  reserved := 0
  sector := r.sector

def u16 (i : Fin NUM) : U16 := BitVec.ofNat 16 i

/-- The descriptor of the header. -/
def Request.desc0 (r : Request B) : VirtqDesc B :=
  ⟨.op r.i0, 16, VRING_DESC_F_NEXT, u16 r.i1⟩

/-- The descriptor of the data: the device reads or writes `b->data`. -/
def Request.desc1 (r : Request B) : VirtqDesc B :=
  ⟨.data r.b, BitVec.ofNat 32 BSIZE,
    (if r.write then 0 else VRING_DESC_F_WRITE) ||| VRING_DESC_F_NEXT, u16 r.i2⟩

/-- The descriptor of the status, which the device writes. -/
def Request.desc2 (r : Request B) : VirtqDesc B := ⟨.status r.i0, 1, VRING_DESC_F_WRITE, 0⟩

section requests

variable [DecidableEq P] [DecidableEq B]

/-- Format the three descriptors of the request. -/
def format (r : Request B) (s : State P B C) : State P B C :=
  { s with
    disk.ops := Function.update s.disk.ops r.i0 r.header
    disk.desc := Function.update (Function.update (Function.update s.disk.desc
      r.i0 r.desc0) r.i1 r.desc1) r.i2 r.desc2
    disk.info := Function.update s.disk.info r.i0 ⟨some r.b, 0xff⟩
    disk.bdisk := Function.update s.disk.bdisk r.b true }

/-- Tell the device about the chain, and go on record. -/
def post (p : P) (r : Request B) (s : State P B C) : State P B C :=
  { s with
    disk.availRing := fun j => if j = slot s.disk.availIdx then u16 r.i0 else s.disk.availRing j
    disk.availIdx := s.disk.availIdx + 1
    requests := Function.update s.requests p (some r)
    done := Function.update s.done p false }

/-- What `virtio_disk_rw` does with its three descriptors. -/
def submit (p : P) (b : B) (write : Bool) (idx : Fin NUM × Fin NUM × Fin NUM)
    (s : State P B C) : State P B C :=
  let r := ⟨b, write, sectorOf (s.blockno b), idx.1, idx.2.1, idx.2.2⟩
  post p r (format r s)

/-- The end of `virtio_disk_rw`. -/
def finish (p : P) (i0 : Fin NUM) (s : State P B C) : Except Fault (State P B C) :=
  free_chain NUM i0 { s with
    disk.info := Function.update s.disk.info i0 { s.disk.info i0 with b := none }
    requests := Function.update s.requests p none }

/-- One turn of the loop of `virtio_disk_intr`. -/
def virtio_disk_intr_turn (s : State P B C) : Except Fault (Bool × State P B C) := do
  if s.disk.used_idx = s.disk.usedIdx then
    return (false, s)
  let id ← index (s.disk.usedRing (slot s.disk.used_idx)).toNat
  if (s.disk.info id).status ≠ 0 then
    throw (.panic "virtio_disk_intr status")
  match (s.disk.info id).b with
  | none => throw .range
  | some b =>
    return (true, State.wakeup { s with
      disk.bdisk := Function.update s.disk.bdisk b false
      disk.used_idx := s.disk.used_idx + 1 } (.buf b))

end requests

/-! ## The device -/

/-- The chain that starts at `i`, of `n` descriptors at most. -/
def Disk.chain (d : Disk B) : (n : Nat) → (i : U16) → List (VirtqDesc B)
  | 0, _ => []
  | n + 1, i =>
    if h : i.toNat < NUM then
      let x := d.desc ⟨i.toNat, h⟩
      if x.flags &&& VRING_DESC_F_NEXT ≠ 0 then x :: d.chain n x.next else [x]
    else
      []

/-- What the device finds when it follows the chain at `head`. -/
def Disk.look (d : Disk B) (head : U16) : Seen B :=
  let chain := d.chain NUM head
  match chain with
  | ⟨.op i, _, _, _⟩ :: _ => ⟨some (d.ops i), chain⟩
  | _ => ⟨none, chain⟩

/-- The device fetches the next posted chain. -/
def fetch (s : State P B C) : Option (State P B C) :=
  if s.fetched = s.disk.availIdx then
    none
  else
    let head := s.disk.availRing (slot s.fetched)
    some { s with
      fetched := s.fetched + 1
      pending := s.pending ++ [(head, s.disk.look head)] }

/-- The device stores the status where the chain says. -/
def Disk.storeStatus (d : Disk B) (chain : List (VirtqDesc B)) : Disk B :=
  match chain.getLast? with
  | some ⟨.status i, _, _, _⟩ =>
    { d with info := fun j => if j = i then { d.info i with status := 0 } else d.info j }
  | _ => d

/-- The device completes chain `k` of those it works on. -/
def complete (k : Nat) (s : State P B C) : Option (State P B C) :=
  match s.pending[k]? with
  | none => none
  | some (head, seen) =>
    let d := s.disk.storeStatus seen.chain
    some { s with
      disk := { d with
        usedRing := fun j =>
          if j = slot s.disk.usedIdx then head.setWidth 32 else s.disk.usedRing j
        usedIdx := s.disk.usedIdx + 1 }
      pending := s.pending.eraseIdx k
      done := fun p => s.done p || (s.requests p).any fun r => u16 r.i0 == head }

/-! ## Operations -/

/-- What the caller of the driver does next: take a buffer, which stands for
block `blockno` from then on, give one back, or use one. -/
inductive Call (B : Type)
  | take (b : B) (blockno : I32)
  | drop (b : B)
  | rw (b : B) (write : Bool)

/-- The answers of the outside world: the next call, and what the device does. -/
inductive Input (B : Type)
  | call (c : Call B)
  | fetch
  | complete (k : Nat)

variable (B) in
inductive Op : Type → Type 1
  | acquire : Op Unit
  | release : Op Unit
  | doze (chan : Chan B) : Op Unit
  | awake : Op Unit
  | alloc3 : Op (Option (Fin NUM × Fin NUM × Fin NUM))
  | submit (b : B) (write : Bool) (idx : Fin NUM × Fin NUM × Fin NUM) : Op Unit
  | busy (b : B) : Op Bool
  | finish (i0 : Fin NUM) : Op Unit
  | turn : Op Bool
  | device : Op Unit
  | next : Op (Call B)

abbrev Code (B : Type) := Prog (Op B)

variable [DecidableEq P] [DecidableEq B]

/-- A process takes or gives back the lock of a buffer, or calls the driver
for one that it has. -/
def begin (p : P) (c : Call B) (s : State P B C) : Option (State P B C) :=
  match c with
  | .take b blockno =>
    if s.holder b = none then
      some { s with
        holder := Function.update s.holder b (some p)
        blockno := Function.update s.blockno b blockno }
    else
      none
  | .drop b =>
    if s.holder b = some p then some { s with holder := Function.update s.holder b none } else none
  | .rw b _ => if s.holder b = some p then some s else none

/-- A result of the driver's code, without its faults. -/
def ok {α : Type} : Except Fault α → Option α
  | .ok a => some a
  | .error _ => none

/-- One operation of thread `t`. -/
def exec {β : Type} (t : Thread P C) (i : Input B) (s : State P B C) :
    Op B β → Option (β × State P B C)
  | .acquire => if s.vdisk_lock = none then some ((), { s with vdisk_lock := some t }) else none
  | .release => some ((), { s with vdisk_lock := none })
  | .doze chan =>
    match t with
    | .proc p =>
      some ((), { s with
        vdisk_lock := none
        asleep := Function.update s.asleep p (some chan) })
    | _ => none
  | .awake =>
    match t with
    | .proc p => if s.asleep p = none then some ((), s) else none
    | _ => none
  | .alloc3 => ok (alloc3_desc s)
  | .submit b write idx =>
    match t with
    | .proc p => some ((), submit p b write idx s)
    | _ => none
  | .busy b => some (s.disk.bdisk b, s)
  | .finish i0 =>
    match t with
    | .proc p => (ok (finish p i0 s)).map ((), ·)
    | _ => none
  | .turn => ok (virtio_disk_intr_turn s)
  | .device =>
    match i with
    | .fetch => (fetch s).map ((), ·)
    | .complete k => (complete k s).map ((), ·)
    | .call _ => none
  | .next =>
    match t, i with
    | .proc p, .call c => (begin p c s).map (c, ·)
    | _, _ => none

/-! ## The code -/

/-- `sleep(chan, &disk.vdisk_lock)`. -/
def sleep (chan : Chan B) : Code B Unit := do
  .perform (.doze chan)
  .perform .awake
  .perform .acquire

def virtio_disk_rw (b : B) (write : Bool) : Code B Unit := do
  .perform .acquire
  let idx ← Prog.loop (fun () => do
    match ← .perform .alloc3 with
    | some idx => return .inr idx
    | none =>
      sleep .free
      return .inl ()) ()
  .perform (.submit b write idx)
  Prog.loop (fun () => do
    if ← .perform (.busy b) then
      sleep (.buf b)
      return .inl ()
    else
      return .inr ()) ()
  .perform (.finish idx.1)
  .perform .release

def virtio_disk_intr : Code B Unit := do
  .perform .acquire
  Prog.loop (fun () => do
    if ← .perform .turn then
      return .inl ()
    else
      return .inr ()) ()
  .perform .release

/-- A process uses buffers; a handler runs whenever there is an interrupt. -/
def main (B : Type) : Thread P C → Code B Empty
  | .proc _ => Prog.forever do
    match ← .perform .next with
    | .rw b write => virtio_disk_rw b write
    | _ => return ()
  | .intr _ => Prog.forever virtio_disk_intr
  | .device => Prog.forever (.perform .device)

variable [DecidableEq C]

def machine (P B C : Type) [DecidableEq P] [DecidableEq B] [DecidableEq C] :
    Machine (Op B) (State P B C) (Thread P C) (Thread P C) (Input B) where
  running _ t := t
  exec := exec
  restarts _ := none
  main := main B

/-- The driver after `virtio_disk_init`: all descriptors are unused, and the
rings, which `memset` has cleared, are empty. -/
def State.init (P B C : Type) : State P B C where
  disk := {
    desc := fun _ => .zero
    availIdx := 0
    availRing := fun _ => 0
    usedIdx := 0
    usedRing := fun _ => 0
    free := fun _ => true
    used_idx := 0
    info := fun _ => ⟨none, 0⟩
    ops := fun _ => ⟨0, 0, 0⟩
    bdisk := fun _ => false }
  vdisk_lock := none
  asleep _ := none
  holder _ := none
  blockno _ := 0
  fetched := 0
  pending := []
  requests _ := none
  done _ := false

def start (P B C : Type) : Config (Op B) (State P B C) (Thread P C) :=
  ⟨.init P B C, main B⟩

end Xv6.Virtio
