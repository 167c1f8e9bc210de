import Xv6.Uart.Code
import Xv6.Conc.Guarantee
import Xv6.Ring.Fifo

/-!
# What the operations on the UART do

The ring holds the bytes that have been put in and not yet taken out.  While
the lock is free, who sleeps waits for room; and where there is a byte in the
ring, the device is busy, its interrupt is pending, or the handler has yet to
look at the ring.
-/

namespace Xv6.Uart

open Conc Conc.Logic

variable {P : Type} {K : Prop} {t u : P}

/-! ## The state -/

theorem fits_UART_TX_BUF_SIZE : Ring.Fits UART_TX_BUF_SIZE 64 := ⟨by decide, by decide⟩

def Full (x : Tx) : Prop := x.w = x.r + BitVec.ofNat 64 UART_TX_BUF_SIZE

instance : DecidablePred Full := fun x =>
  inferInstanceAs (Decidable (x.w = x.r + BitVec.ofNat 64 UART_TX_BUF_SIZE))

/-- The bytes that come from the buffer. -/
def buffered (l : List Sent) : List Byte := (l.filter (·.buffered)).map (·.c)

/-- The bytes from the buffer that have been written to THR. -/
def State.out (s : State P) : List Byte := buffered (s.line ++ s.sending)

/-- The device is busy, or its interrupt is pending. -/
def State.Raised (s : State P) : Prop := s.sending ≠ [] ∨ s.irq = true

/-- The handler will look at the buffer. -/
def State.Awaited (s : State P) : Prop := s.Raised ∨ s.due = true

/-- The bytes that `q` has put in the buffer. -/
def State.by [DecidableEq P] (s : State P) (q : P) : List Byte :=
  (s.accepted.filter (·.1 = q)).map (·.2)

/-- The bytes of the calls of `q` that have returned. -/
def State.past [DecidableEq P] (s : State P) (q : P) : List Byte :=
  (s.ended.filter (·.p = q)).flatMap (·.put)

/-- The call has put in what it has copied, and returns how much that is. -/
structure Ended.Right (d : Ended P) : Prop where
  put : d.put = d.copied
  r : d.r.toInt = d.put.length
  le : d.r.toInt ≤ max 0 d.n.toInt

/-- The ring holds what has been put in and not taken out. -/
def Fifo (s : State P) : Prop :=
  ∃ contents, Ring.Holds s.tx.buf s.tx.r s.tx.w contents ∧
    s.accepted.map (·.2) = s.popped ++ contents

structure Inv [DecidableEq P] (s : State P) : Prop where
  fifo : Fifo s
  out : s.lock = none → s.popped = s.out
  sleepers : s.lock = none → ∀ q, s.asleep q = true → Full s.tx
  awaited : s.lock = none → s.tx.w ≠ s.tx.r → s.Awaited
  rx : s.arrived = s.got ++ s.rx
  input : s.rx ≠ [] → s.irq = true ∨ s.draining = true
  idle : s.serving = none → s.draining = false ∧ s.due = false ∧ s.handed = s.got
  calls : ∀ q, s.by q = s.past q ++ (s.turn q).put
  ended : ∀ d ∈ s.ended, d.Right

/-! ## What others may do -/

/-- Some have been woken up, and nobody has gone to sleep. -/
def Woken (a a' : P → Bool) : Prop := ∀ q, a' q = true → a q = true

/-- What a thread that has the lock sees of the steps of others. -/
structure Aside (K : Prop) (s s' : State P) : Prop where
  lock : s'.lock = s.lock
  tx : s'.tx = s.tx
  popped : s'.popped = s.popped
  out : s'.out = s.out
  woken : Woken s.asleep s'.asleep
  awaited : s.Awaited → s'.Awaited
  idle : K → s.sending = [] → s'.sending = []

/-- What the handler sees of the steps of others. -/
structure Beside (s s' : State P) : Prop where
  serving : s'.serving = s.serving
  got : s'.got = s.got
  handed : s'.handed = s.handed
  draining : s'.draining = s.draining
  due : s'.due = s.due
  rx : s.rx ≠ [] → s'.rx ≠ []
  irq : s.irq = true → s'.irq = true
  raised : s.Raised → s'.Raised

/-- What `u` sees of the steps of others. -/
structure Others (K : Prop) (u : P) (s s' : State P) : Prop where
  turn : s'.turn u = s.turn u
  aside : s.lock = some u → Aside K s s'
  beside : s.serving = some u → Beside s s'

theorem Aside.refl (s : State P) : Aside K s s :=
  ⟨rfl, rfl, rfl, rfl, fun _ h => h, fun h => h, fun _ h => h⟩

theorem Beside.refl (s : State P) : Beside s s :=
  ⟨rfl, rfl, rfl, rfl, rfl, fun h => h, fun h => h, fun h => h⟩

theorem Others.refl (s : State P) : Others K u s s :=
  ⟨rfl, fun _ => .refl s, fun _ => .refl s⟩

/-- Others keep it. -/
def Stays (K : Prop) (t : P) (φ : State P → Prop) : Prop :=
  ∀ s s', Others K t s s' → φ s → φ s'

/-! ## The bytes -/

theorem Fifo.pop {s s' : State P} (hf : Fifo s) (hsome : s.tx.w ≠ s.tx.r)
    (htx : s'.tx = { s.tx with r := s.tx.r + 1 }) (hacc : s'.accepted = s.accepted)
    (hpopped : s'.popped = s.popped ++ [s.tx.at s.tx.r]) : Fifo s' := by
  obtain ⟨contents, hholds, heq⟩ := hf
  cases contents with
  | nil => exact absurd (hholds.eq_iff.2 rfl).symm hsome
  | cons a rest =>
    obtain ⟨hcell, hrest⟩ := hholds.pop fits_UART_TX_BUF_SIZE
    have hat : s.tx.at s.tx.r = a := hcell
    refine ⟨rest, ?_, ?_⟩
    · rw [htx]
      exact hrest
    · rw [hacc, hpopped, heq, hat, List.append_assoc, List.singleton_append]

theorem Fifo.push {s s' : State P} {c : Byte} (hf : Fifo s) (hroom : ¬ Full s.tx)
    (htx : s'.tx = s.tx.push c) (hacc : s'.accepted = s.accepted ++ [(t, c)])
    (hpopped : s'.popped = s.popped) : Fifo s' := by
  obtain ⟨contents, hholds, heq⟩ := hf
  have hlt : contents.length < UART_TX_BUF_SIZE := by
    have hne : contents.length ≠ UART_TX_BUF_SIZE := fun hlen =>
      hroom ((hholds.full_iff fits_UART_TX_BUF_SIZE).2 hlen)
    exact Nat.lt_of_le_of_ne hholds.le hne
  refine ⟨contents ++ [c], ?_, ?_⟩
  · rw [htx]
    exact hholds.push fits_UART_TX_BUF_SIZE hlt c
  · rw [hacc, hpopped, List.map_append, heq, List.append_assoc]
    rfl

theorem buffered_append (l l' : List Sent) : buffered (l ++ l') = buffered l ++ buffered l' := by
  unfold buffered
  rw [List.filter_append, List.map_append]

theorem out_send (l l' : List Sent) (c : Byte) (b : Bool) :
    buffered (l ++ (l' ++ [⟨c, b⟩])) = buffered (l ++ l') ++ if b then [c] else [] := by
  rw [← List.append_assoc, buffered_append (l ++ l')]
  cases b <;> rfl

/-! ## Who has the lock -/

/-- The handler, behind its first loop. -/
structure Serves (t : P) (s : State P) : Prop where
  serving : s.serving = some t
  draining : s.draining = false
  handed : s.handed = s.got

/-- `t` has the lock in a call that has come to `x`; it is the handler if `h`.
It has taken `rest` out of the buffer and not written it to THR. -/
structure Locked (t : P) (x : Writing) (h : Bool) (rest : List Byte)
    (φ : Tx → (P → Bool) → Prop) (s : State P) : Prop where
  lock : s.lock = some t
  turn : s.turn t = x
  serves : h = true → Serves t s
  popped : s.popped = s.out ++ rest
  tx : φ s.tx s.asleep

/-- A statement that stays when threads wake up. -/
def Down (φ : Tx → (P → Bool) → Prop) : Prop := ∀ x a a', Woken a a' → φ x a → φ x a'

variable {x : Writing} {h : Bool} {rest : List Byte} {φ : Tx → (P → Bool) → Prop}

theorem Serves.stays {s s' : State P} (hs : Serves t s) (ho : Others K t s s') : Serves t s' := by
  have hb := ho.beside hs.serving
  exact ⟨hb.serving.trans hs.serving, hb.draining.trans hs.draining, by
    rw [hb.handed, hb.got, hs.handed]⟩

theorem Locked.stays (hφ : Down φ) : Stays K t (Locked t x h rest φ) := by
  intro s s' ho hs
  have ha := ho.aside hs.lock
  refine ⟨ha.lock.trans hs.lock, ho.turn.trans hs.turn, fun hh => (hs.serves hh).stays ho, ?_, ?_⟩
  · rw [ha.popped, ha.out, hs.popped]
  · rw [ha.tx]
    exact hφ _ _ _ ha.woken hs.tx

/-- Outside the lock. -/
structure Outside (t : P) (x : Writing) (h : Bool) (s : State P) : Prop where
  turn : s.turn t = x
  serves : h = true → Serves t s

theorem Outside.stays : Stays K t (Outside t x h) := fun _ _ ho hs =>
  ⟨ho.turn.trans hs.turn, fun hh => (hs.serves hh).stays ho⟩

/-- What the thread with the lock knows about the interrupt: the handler must not wait for
itself. -/
def Due (h : Bool) (s : State P) : Prop := s.Raised ∨ (h = false ∧ s.due = true)

/-- At the end of `uartstart`. -/
def Started (t : P) (x : Writing) (h : Bool) (φ : Tx → (P → Bool) → Prop) (s : State P) : Prop :=
  Locked t x h [] φ s ∧ (s.tx.w ≠ s.tx.r → Due h s)

theorem Started.stays (hφ : Down φ) : Stays K t (Started t x h φ) := by
  intro s s' ho ⟨hs, hdue⟩
  have ha := ho.aside hs.lock
  refine ⟨Locked.stays hφ s s' ho hs, fun hne => ?_⟩
  rw [ha.tx] at hne
  cases h with
  | true =>
    have hb := ho.beside (hs.serves rfl).serving
    rcases hdue hne with hraised | ⟨hh, -⟩
    · exact .inl (hb.raised hraised)
    · cases hh
  | false =>
    have haw : s.Awaited := (hdue hne).imp_right And.right
    exact (ha.awaited haw).imp_right fun hd => ⟨rfl, hd⟩

/-- With the lock, and with THR empty under the condition on the run. -/
def Empty (K : Prop) (t : P) (x : Writing) (h : Bool) (rest : List Byte)
    (φ : Tx → (P → Bool) → Prop) (s : State P) : Prop :=
  Locked t x h rest φ s ∧ (K → s.sending = [])

theorem Empty.stays (hφ : Down φ) : Stays K t (Empty K t x h rest φ) := fun s s' ho hs =>
  ⟨Locked.stays hφ s s' ho hs.1, fun hK => (ho.aside hs.1.lock).idle hK (hs.2 hK)⟩

/-- Who sleeps waits for room. -/
def Sleepy (x : Tx) (a : P → Bool) : Prop := ∀ q, a q = true → Full x

def Nobody (_ : Tx) (a : P → Bool) : Prop := ∀ q, a q = false

theorem Nobody.sleepy {x : Tx} {a : P → Bool} (hn : Nobody x a) : Sleepy x a := fun q hq => by
  rw [hn q] at hq
  cases hq

theorem down_sleepy : Down (Sleepy (P := P)) := fun _ _ _ hw hs q hq => hs q (hw q hq)

theorem down_nobody : Down (Nobody (P := P)) := fun _ _ a' hw hs q => by
  cases hq : a' q with
  | false => rfl
  | true => rw [← hs q, hw q hq]

theorem Down.tx {φ : Tx → (P → Bool) → Prop} (hφ : Down φ) (ψ : Tx → Prop) :
    Down fun x a => φ x a ∧ ψ x := fun x a a' hw hs => ⟨hφ x a a' hw hs.1, hs.2⟩

theorem Due.awaited {s : State P} (hd : Due h s) : s.Awaited := hd.imp_right And.right

/-- The handler has looked at the buffer. -/
structure Served (t : P) (x : Writing) (s : State P) : Prop where
  turn : s.turn t = x
  serves : Serves t s
  due : s.due = false

theorem Served.stays : Stays K t (Served t x) := fun _ _ ho hs =>
  ⟨ho.turn.trans hs.turn, hs.serves.stays ho, (ho.beside hs.serves.serving).due.trans hs.due⟩

/-- Nobody else sees what the thread with the lock does. -/
theorem others_of_lock {s s' : State P} (hlock : s.lock = some t) (hu : u ≠ t)
    (hturn : s'.turn u = s.turn u) (hb : s.serving = some u → Beside s s') : Others K u s s' :=
  ⟨hturn, fun hl => absurd (Option.some.inj (hl.symm.trans hlock)) hu, hb⟩

/-! ## The logic -/

/-- The condition on a run for which THR is only written when it is empty:
nothing is written to it but from the buffer. -/
def NoSync : Machine.OpPred (Op P) (State P) P := fun _ _ o _ =>
  match o with
  | .thr _ b => b = true
  | _ => True

/-- THR is only written when it is empty. -/
def WritesEmpty : Machine.OpPred (Op P) (State P) P := fun _ _ o s =>
  match o with
  | .thr _ _ => s.sending = []
  | _ => True

variable [DecidableEq P]

/-- What a thread may do. -/
structure Guar (K : Prop) (t : P) (s s' : State P) : Prop where
  inv : Inv s → Inv s'
  others : ∀ u, u ≠ t → Others K u s s'

abbrev logic (P : Type) [DecidableEq P] (K : Prop) : Logic (machine P) :=
  ofGuarantee (machine P) Inv (fun β p o s => K → NoSync β p o s)
    (fun β p o s => K → WritesEmpty β p o s) (Guar K) fun _ _ _ hinv hg => hg.inv hinv

theorem Stays.stable {φ : State P → Prop} (h : Stays K t φ) : (logic P K).Stable t φ :=
  stable_of_guarantee (fun _ _ => rfl) fun _ s s' hu _ hg hs =>
    h s s' (hg.others t (Ne.symm hu)) hs

/-- One operation that does not write THR. -/
theorem act {β : Type} {o : Op P β} {φ : State P → Prop} {Q : β → State P → Prop}
    (hφ : Stays K t φ) (hsafe : ∀ s, WritesEmpty β t o s)
    (hstep : ∀ s i b s', φ s → Inv s → exec t i s o = some (b, s') →
      Inv s' ∧ (∀ u, u ≠ t → Others K u s s') ∧ Q b s') :
    (logic P K).Triple t φ (.perform o) Q := by
  refine Triple.act (fun _ _ => rfl) hφ.stable (fun s _ _ _ _ => hsafe s)
    fun s i b s' hs hinv _ hx => ?_
  obtain ⟨hinv', hothers, hq⟩ := hstep s i b s' hs hinv hx
  exact ⟨⟨fun _ => hinv', hothers⟩, hq⟩

/-- An operation that changes nothing. -/
theorem look {β : Type} {o : Op P β} {φ : State P → Prop} {Q : β → State P → Prop}
    (hφ : Stays K t φ) (hsafe : ∀ s, WritesEmpty β t o s)
    (hstep : ∀ s i b s', φ s → exec t i s o = some (b, s') → s' = s ∧ Q b s) :
    (logic P K).Triple t φ (.perform o) Q := by
  refine act hφ hsafe fun s i b s' hs hinv hx => ?_
  obtain ⟨rfl, hq⟩ := hstep s i b s' hs hx
  exact ⟨hinv, fun _ _ => .refl _, hq⟩

/-! ## Operations of the thread with the lock -/

/-- The invariant while `t` has the lock. -/
theorem Inv.of_lock {s s' : State P} (hinv : Inv s) (hlock : s'.lock = some t) (hfifo : Fifo s')
    (hrx : s'.arrived = s.arrived ∧ s'.got = s.got ∧ s'.rx = s.rx)
    (hinput : s'.irq = s.irq ∧ s'.draining = s.draining)
    (hidle : s'.serving = s.serving ∧ s'.due = s.due ∧ s'.handed = s.handed)
    (hcalls : ∀ q, s'.by q = s'.past q ++ (s'.turn q).put) (hended : s'.ended = s.ended) :
    Inv s' := by
  have hno : s'.lock ≠ none := by
    rw [hlock]
    exact Option.some_ne_none t
  refine ⟨hfifo, fun hf => absurd hf hno, fun hf => absurd hf hno, fun hf => absurd hf hno,
    ?_, ?_, ?_, hcalls, ?_⟩
  · rw [hrx.1, hrx.2.1, hrx.2.2]
    exact hinv.rx
  · rw [hrx.2.2, hinput.1, hinput.2]
    exact hinv.input
  · rw [hidle.1, hidle.2.1, hidle.2.2, hinput.2, hrx.2.1]
    exact hinv.idle
  · rw [hended]
    exact hinv.ended

theorem read_rule {β : Type} (hφ : Down φ) (f : Tx → β) :
    (logic P K).Triple t (Locked t x h rest φ) (read f) fun b =>
      Locked t x h rest fun y a => φ y a ∧ b = f y := by
  refine look (Locked.stays hφ) (fun _ => trivial) fun s i b s' hs hx => ?_
  obtain ⟨rfl, rfl⟩ := Prod.mk.inj (Option.some.inj hx)
  exact ⟨rfl, hs.lock, hs.turn, hs.serves, hs.popped, hs.tx, rfl⟩

theorem Started.read {β : Type} (hφ : Down φ) (f : Tx → β) :
    (logic P K).Triple t (Started t x h φ) (read f) fun b =>
      Started t x h fun y a => φ y a ∧ b = f y := by
  refine look (Started.stays hφ) (fun _ => trivial) fun s i b s' hs hx => ?_
  obtain ⟨rfl, rfl⟩ := Prod.mk.inj (Option.some.inj hx)
  exact ⟨rfl, ⟨hs.1.lock, hs.1.turn, hs.1.serves, hs.1.popped, hs.1.tx, rfl⟩, hs.2⟩

/-- The test of LSR: THR is empty, or the device will raise its interrupt. -/
theorem idle_rule (hφ : Down φ) :
    (logic P K).Triple t (Locked t x h [] φ) (.perform .idle) fun b s =>
      (b = true → Empty K t x h [] φ s) ∧ (b = false → Started t x h φ s) := by
  refine look (Locked.stays hφ) (fun _ => trivial) fun s i b s' hs hx => ?_
  obtain ⟨rfl, rfl⟩ := Prod.mk.inj (Option.some.inj hx)
  refine ⟨rfl, fun hb => ⟨hs, fun _ => List.isEmpty_iff.1 hb⟩, fun hb => ⟨hs, fun _ => ?_⟩⟩
  refine .inl (.inl fun hnil => ?_)
  rw [hnil] at hb
  cases hb

/-- A byte comes out of the buffer. -/
theorem pop_rule (hφ : Down φ) (hsome : ∀ y a, φ y a → y.w ≠ y.r) :
    (logic P K).Triple t (Empty K t x h [] φ) (.perform .pop) fun c =>
      Empty K t x h [c] fun _ _ => True := by
  refine act (Empty.stays hφ) (fun _ => trivial) fun s i b s' hs hinv hx => ?_
  obtain ⟨rfl, rfl⟩ := Prod.mk.inj (Option.some.inj hx)
  obtain ⟨hs, hempty⟩ := hs
  have hfifo : Fifo { s with
      tx := { s.tx with r := s.tx.r + 1 }, popped := s.popped ++ [s.tx.at s.tx.r] } :=
    hinv.fifo.pop (hsome _ _ hs.tx) rfl rfl rfl
  refine ⟨hinv.of_lock hs.lock hfifo ⟨rfl, rfl, rfl⟩ ⟨rfl, rfl⟩ ⟨rfl, rfl, rfl⟩ hinv.calls rfl,
    fun u hu => others_of_lock hs.lock hu rfl fun _ => ⟨rfl, rfl, rfl, rfl, rfl, id, id, id⟩,
    ⟨hs.lock, hs.turn, ?_, ?_, trivial⟩, hempty⟩
  · exact fun hh => ⟨(hs.serves hh).1, (hs.serves hh).2, (hs.serves hh).3⟩
  · show s.popped ++ _ = s.out ++ _
    rw [hs.popped, List.append_nil]

/-- All who sleep wake up. -/
theorem wakeup_rule (hφ : Down φ) :
    (logic P K).Triple t (Empty K t x h rest φ) wakeup fun _ => Empty K t x h rest Nobody := by
  refine act (Empty.stays hφ) (fun _ => trivial) fun s i b s' hs hinv hx => ?_
  obtain rfl := (Prod.mk.inj (Option.some.inj hx)).2
  obtain ⟨hs, hempty⟩ := hs
  refine ⟨hinv.of_lock hs.lock hinv.fifo ⟨rfl, rfl, rfl⟩ ⟨rfl, rfl⟩ ⟨rfl, rfl, rfl⟩ hinv.calls rfl,
    fun u hu => others_of_lock hs.lock hu rfl fun _ => ⟨rfl, rfl, rfl, rfl, rfl, id, id, id⟩,
    ⟨hs.lock, hs.turn, ?_, hs.popped, fun _ => rfl⟩, hempty⟩
  exact fun hh => ⟨(hs.serves hh).1, (hs.serves hh).2, (hs.serves hh).3⟩

/-- The byte is written to THR. -/
theorem thr_rule {c : Byte} :
    (logic P K).Triple t (Empty K t x h [c] Nobody) (.perform (.thr c true)) fun _ =>
      Locked t x h [] Nobody := by
  refine Triple.act (fun _ _ => rfl) (Empty.stays down_nobody).stable
    (fun s hs _ _ hK => hs.2 hK) fun s i b s' hs hinv _ hx => ?_
  obtain rfl := (Prod.mk.inj (Option.some.inj hx)).2
  obtain ⟨hs, -⟩ := hs
  have hraised : s.sending ++ [⟨c, true⟩] ≠ [] := List.append_ne_nil_of_right_ne_nil _ (by simp)
  refine ⟨⟨fun _ => hinv.of_lock hs.lock hinv.fifo ⟨rfl, rfl, rfl⟩ ⟨rfl, rfl⟩ ⟨rfl, rfl, rfl⟩
    hinv.calls rfl, fun u hu => others_of_lock hs.lock hu rfl fun _ =>
      ⟨rfl, rfl, rfl, rfl, rfl, id, id, fun _ => .inl hraised⟩⟩, hs.lock, hs.turn, ?_, ?_, hs.tx⟩
  · exact fun hh => ⟨(hs.serves hh).1, (hs.serves hh).2, (hs.serves hh).3⟩
  · show s.popped = buffered (s.line ++ (s.sending ++ [⟨c, true⟩])) ++ []
    rw [out_send, List.append_nil]
    exact hs.popped

theorem by_push {s s' : State P} {c : Byte} (hacc : s'.accepted = s.accepted ++ [(t, c)]) (q : P) :
    s'.by q = s.by q ++ if t = q then [c] else [] := by
  unfold State.by
  rw [hacc, List.filter_append, List.map_append]
  by_cases hq : t = q <;> simp [hq]

/-- A byte goes into the buffer. -/
theorem push_rule {c : Byte} :
    (logic P K).Triple t (Locked t x h [] fun y a => Sleepy y a ∧ ¬ Full y) (.perform (.push c))
      fun _ => Locked t { x with put := x.put ++ [c] } h [] Nobody := by
  refine act (Locked.stays (down_sleepy.tx _)) (fun _ => trivial) fun s i b s' hs hinv hx => ?_
  obtain rfl := (Prod.mk.inj (Option.some.inj hx)).2
  have hfifo : Fifo { s with tx := s.tx.push c, accepted := s.accepted ++ [(t, c)] } :=
    hinv.fifo.push hs.tx.2 rfl rfl rfl
  have hother : ∀ q, q ≠ t → Function.update s.turn t { s.turn t with
      put := (s.turn t).put ++ [c] } q = s.turn q := fun q hq => Function.update_of_ne hq ..
  refine ⟨hinv.of_lock hs.lock hfifo ⟨rfl, rfl, rfl⟩ ⟨rfl, rfl⟩ ⟨rfl, rfl, rfl⟩ (fun q => ?_) rfl,
    fun u hu => others_of_lock hs.lock hu (hother u hu) fun _ =>
      ⟨rfl, rfl, rfl, rfl, rfl, id, id, id⟩, hs.lock, ?_, ?_, hs.popped, fun q => ?_⟩
  · rw [by_push (s := s) rfl q, hinv.calls q]
    by_cases hq : t = q
    · subst hq
      rw [if_pos rfl, List.append_assoc]
      show _ = s.past t ++ (Function.update s.turn t _ t).put
      rw [Function.update_self]
    · rw [if_neg hq, List.append_nil]
      show _ = s.past q ++ (Function.update s.turn t _ q).put
      rw [hother q (Ne.symm hq)]
  · show Function.update s.turn t _ t = _
    rw [Function.update_self, hs.turn]
  · exact fun hh => ⟨(hs.serves hh).1, (hs.serves hh).2, (hs.serves hh).3⟩
  · cases hq : s.asleep q with
    | false => rfl
    | true => exact absurd (hs.tx.1 q hq) hs.tx.2

/-! ## Taking the lock and giving it back -/

theorem acquire_rule :
    (logic P K).Triple t (Outside t x h) acquire fun _ s =>
      Locked t x h [] Sleepy s ∧ (s.tx.w ≠ s.tx.r → s.Awaited) := by
  refine act Outside.stays (fun _ => trivial) fun s i b s' hs hinv hx => ?_
  have hx : (if s.lock = none then some ((), { s with lock := some t }) else none) =
    some (b, s') := hx
  by_cases hlock : s.lock = none
  · rw [if_pos hlock] at hx
    obtain rfl := (Prod.mk.inj (Option.some.inj hx)).2
    refine ⟨hinv.of_lock rfl hinv.fifo ⟨rfl, rfl, rfl⟩ ⟨rfl, rfl⟩ ⟨rfl, rfl, rfl⟩ hinv.calls rfl,
      fun u hu => ⟨rfl, fun hl => ?_, fun _ => ⟨rfl, rfl, rfl, rfl, rfl, id, id, id⟩⟩,
      ⟨rfl, hs.turn, ?_, ?_, hinv.sleepers hlock⟩, hinv.awaited hlock⟩
    · rw [hlock] at hl
      cases hl
    · exact fun hh => ⟨(hs.serves hh).1, (hs.serves hh).2, (hs.serves hh).3⟩
    · show s.popped = s.out ++ []
      rw [List.append_nil, hinv.out hlock]
  · rw [if_neg hlock] at hx
    cases hx

/-- The invariant when the lock is given back. -/
theorem Inv.free {s s' : State P} (hinv : Inv s) (hs : Started t x h Sleepy s)
    (htx : s'.tx = s.tx) (hhist : s'.accepted = s.accepted ∧ s'.popped = s.popped)
    (hout : s'.out = s.out) (hsleepy : Sleepy s'.tx s'.asleep)
    (hawaited : s.tx.w ≠ s.tx.r → s'.Awaited)
    (hrx : s'.arrived = s.arrived ∧ s'.got = s.got ∧ s'.rx = s.rx)
    (hinput : s'.irq = s.irq ∧ s'.draining = s.draining)
    (hidle : s'.serving = none → s'.draining = false ∧ s'.due = false ∧ s'.handed = s'.got)
    (hcalls : ∀ q, s'.by q = s'.past q ++ (s'.turn q).put) (hended : s'.ended = s.ended) :
    Inv s' := by
  refine ⟨?_, fun _ => ?_, fun _ => hsleepy, fun _ hne => hawaited (htx ▸ hne), ?_, ?_, hidle,
    hcalls, ?_⟩
  · obtain ⟨contents, hholds, heq⟩ := hinv.fifo
    exact ⟨contents, by rw [htx]; exact hholds, by rw [hhist.1, hhist.2, heq]⟩
  · rw [hhist.2, hout, hs.1.popped, List.append_nil]
  · rw [hrx.1, hrx.2.1, hrx.2.2]
    exact hinv.rx
  · rw [hrx.2.2, hinput.1, hinput.2]
    exact hinv.input
  · rw [hended]
    exact hinv.ended

theorem release_rule :
    (logic P K).Triple t (Started t x false Sleepy) release fun _ => Outside t x false := by
  refine act (Started.stays down_sleepy) (fun _ => trivial) fun s i b s' hs hinv hx => ?_
  obtain rfl := (Prod.mk.inj (Option.some.inj hx)).2
  refine ⟨hinv.free hs rfl ⟨rfl, rfl⟩ rfl hs.1.tx (fun hne => (hs.2 hne).awaited)
    ⟨rfl, rfl, rfl⟩ ⟨rfl, rfl⟩ hinv.idle hinv.calls rfl,
    fun u hu => others_of_lock hs.1.lock hu rfl fun _ => ⟨rfl, rfl, rfl, rfl, rfl, id, id, id⟩,
    hs.1.turn, fun hh => Bool.noConfusion hh⟩

theorem releaseServed_rule :
    (logic P K).Triple t (Started t x true Sleepy) (.perform .releaseServed) fun _ =>
      Served t x := by
  refine act (Started.stays down_sleepy) (fun _ => trivial) fun s i b s' hs hinv hx => ?_
  obtain rfl := (Prod.mk.inj (Option.some.inj hx)).2
  have hserves := hs.1.serves rfl
  have hraised : s.tx.w ≠ s.tx.r → s.Raised := fun hne =>
    (hs.2 hne).resolve_right fun hd => Bool.noConfusion hd.1
  refine ⟨hinv.free hs rfl ⟨rfl, rfl⟩ rfl hs.1.tx (fun hne => .inl (hraised hne))
    ⟨rfl, rfl, rfl⟩ ⟨rfl, rfl⟩ (fun hnone => ?_) hinv.calls rfl,
    fun u hu => others_of_lock hs.1.lock hu rfl fun hsv => ?_,
    hs.1.turn, ⟨hserves.1, hserves.2, hserves.3⟩, rfl⟩
  · have hnone : s.serving = none := hnone
    rw [hserves.serving] at hnone
    cases hnone
  · exact absurd (Option.some.inj (hsv.symm.trans hserves.serving)) hu

/-- `sleep` gives the lock up and takes it again. -/
theorem sleep_rule :
    (logic P K).Triple t (Started t x false fun y a => Sleepy y a ∧ Full y) sleep fun _ s =>
      Locked t x false [] Sleepy s ∧ (s.tx.w ≠ s.tx.r → s.Awaited) := by
  refine Triple.bind (R := fun _ => Outside t x false) ?_ fun _ =>
    Triple.bind (R := fun _ => Outside t x false) ?_ fun _ => acquire_rule
  · refine act (Started.stays (down_sleepy.tx _)) (fun _ => trivial) fun s i b s' hs hinv hx => ?_
    obtain rfl := (Prod.mk.inj (Option.some.inj hx)).2
    obtain ⟨⟨hlock, hturn, hserves, hpopped, hsleepy, hfull⟩, hdue⟩ := hs
    have hstarted : Started t x false Sleepy s := ⟨⟨hlock, hturn, hserves, hpopped, hsleepy⟩, hdue⟩
    refine ⟨hinv.free hstarted rfl ⟨rfl, rfl⟩ rfl (fun _ _ => hfull)
      (fun hne => (hdue hne).awaited) ⟨rfl, rfl, rfl⟩ ⟨rfl, rfl⟩ hinv.idle hinv.calls rfl,
      fun u hu => others_of_lock hlock hu rfl fun _ => ⟨rfl, rfl, rfl, rfl, rfl, id, id, id⟩,
      hturn, fun hh => Bool.noConfusion hh⟩
  · refine look Outside.stays (fun _ => trivial) fun s i b s' hs hx => ?_
    have hx : (if s.asleep t = false then some ((), s) else none) = some (b, s') := hx
    by_cases hwake : s.asleep t = false
    · rw [if_pos hwake] at hx
      exact ⟨(Prod.mk.inj (Option.some.inj hx)).2.symm, hs⟩
    · rw [if_neg hwake] at hx
      cases hx

end Xv6.Uart
