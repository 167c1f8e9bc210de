import Xv6.Uart.Rules

/-!
# Bytes in order, and nobody left asleep

`consolewrite`, the handler and the device keep the invariant.
-/

namespace Xv6.Uart

open Conc Conc.Logic

variable {P : Type} [DecidableEq P] {K : Prop} {t u : P} {x : Writing} {h : Bool}

/-! ## Sending -/

/-- `uartstart` ends with an empty buffer or a busy device. -/
theorem uartstart_rule :
    (logic P K).Triple t (Locked t x h [] Sleepy) uartstart fun _ => Started t x h Sleepy := by
  refine Triple.loop (fun _ => Locked t x h [] Sleepy) (fun _ => (Locked.stays down_sleepy).stable)
    fun _ => ?_
  refine (read_rule down_sleepy _).bind fun empty => ?_
  refine Triple.ite (fun hempty s hs => ?_) fun hempty => ?_
  · obtain ⟨hlock, hturn, hserves, hpopped, hsleepy, htest⟩ := hs
    refine ⟨⟨hlock, hturn, hserves, hpopped, hsleepy⟩, fun hne => ?_⟩
    rw [htest] at hempty
    exact absurd (of_decide_eq_true hempty) hne
  · refine ((idle_rule (down_sleepy.tx _))).bind fun idle => ?_
    cases idle with
    | false =>
      refine Triple.ite (fun _ s hs => ?_) fun hne => absurd rfl hne
      obtain ⟨⟨hlock, hturn, hserves, hpopped, hsleepy, -⟩, hdue⟩ := hs.2 rfl
      exact ⟨⟨hlock, hturn, hserves, hpopped, hsleepy⟩, hdue⟩
    | true =>
      refine Triple.ite (fun hne => Bool.noConfusion hne) fun _ => ?_
      have hsome : ∀ (y : Tx) (a : P → Bool), Sleepy y a ∧ empty = decide (y.w = y.r) →
          y.w ≠ y.r := fun y a hs heq => hempty (hs.2.trans (decide_eq_true heq))
      refine Triple.bind ((pop_rule (down_sleepy.tx _) hsome).pre fun s hs => hs.1 rfl) fun c => ?_
      refine (wakeup_rule fun _ _ _ _ _ => trivial).bind fun _ => ?_
      exact thr_rule.bind fun _ s hs =>
        ⟨hs.lock, hs.turn, hs.serves, hs.popped, hs.tx.sleepy⟩

theorem hang_rule {α : Type} {φ : State P → Prop} (hφ : Stays K t φ) (Q : α → State P → Prop) :
    (logic P K).Triple t φ hang Q :=
  Triple.bind (Triple.forever (Q := fun _ _ => False) hφ.stable fun _ hs => hs) fun e => e.elim

theorem panicked_rule {φ : State P → Prop} (hφ : Stays K t φ) :
    (logic P K).Triple t φ (.perform .panicked) fun _ => φ := by
  refine look hφ (fun _ => trivial) fun s i b s' hs hx => ?_
  exact ⟨(Prod.mk.inj (Option.some.inj hx)).2.symm, hs⟩

omit [DecidableEq P] in
/-- The lock is taken in `uartputc` or given back in `sleep`. -/
theorem started_of_locked {s : State P}
    (hs : Locked t x false [] Sleepy s ∧ (s.tx.w ≠ s.tx.r → s.Awaited)) :
    Started t x false Sleepy s :=
  ⟨hs.1, fun hne => (hs.2 hne).imp_right fun hd => ⟨rfl, hd⟩⟩

/-- The byte is in the buffer when `uartputc` returns. -/
theorem uartputc_rule (c : Byte) :
    (logic P K).Triple t (Outside t x false) (uartputc c) fun _ =>
      Outside t { x with put := x.put ++ [c] } false := by
  refine Triple.bind (acquire_rule.post fun _ _ => started_of_locked) fun _ => ?_
  refine (panicked_rule (Started.stays down_sleepy)).bind fun dead => ?_
  refine Triple.ite (fun _ => hang_rule (Started.stays down_sleepy) _) fun _ => ?_
  refine Triple.bind (R := fun _ => Locked t x false [] fun y a => Sleepy y a ∧ ¬ Full y) ?_
    fun _ => push_rule.bind fun _ => Triple.bind (uartstart_rule.pre fun s hs =>
      ⟨hs.lock, hs.turn, hs.serves, hs.popped, hs.tx.sleepy⟩) fun _ => release_rule
  refine Triple.loop (fun _ => Started t x false Sleepy)
    (fun _ => (Started.stays down_sleepy).stable) fun _ => ?_
  refine (Started.read down_sleepy _).bind fun full => ?_
  refine Triple.ite (fun hfull => ?_) fun hfull s hs => ?_
  · refine Triple.bind (sleep_rule.pre fun s hs => ?_) fun _ _ hs => started_of_locked hs
    obtain ⟨⟨hlock, hturn, hserves, hpopped, hsleepy, htest⟩, hdue⟩ := hs
    exact ⟨⟨hlock, hturn, hserves, hpopped, hsleepy, of_decide_eq_true (htest ▸ hfull)⟩, hdue⟩
  · obtain ⟨⟨hlock, hturn, hserves, hpopped, hsleepy, htest⟩, -⟩ := hs
    exact ⟨hlock, hturn, hserves, hpopped, hsleepy, fun hf => hfull (htest ▸ decide_eq_true hf)⟩

/-- Writes to THR from elsewhere are not in runs in which it is only written
when it is empty. -/
theorem thr_sync_rule {φ : State P → Prop} (hφ : Stays K t φ) (c : Byte)
    (hkeep : ∀ s, φ s → φ { s with sending := s.sending ++ [⟨c, false⟩] }) :
    (logic P K).Triple t φ (.perform (.thr c false)) fun _ => φ := by
  refine Triple.act (fun _ _ => rfl) hφ.stable (fun s _ _ ha hK => Bool.noConfusion (ha hK))
    fun s i b s' hs hinv ha hx => ?_
  obtain rfl := (Prod.mk.inj (Option.some.inj hx)).2
  have hraised : s.sending ++ [⟨c, false⟩] ≠ [] := List.append_ne_nil_of_right_ne_nil _ (by simp)
  have hout : buffered (s.line ++ (s.sending ++ [⟨c, false⟩])) = s.out := by
    rw [out_send]
    exact List.append_nil _
  refine ⟨⟨fun _ => ⟨hinv.fifo, fun hf => (hinv.out hf).trans hout.symm, hinv.sleepers,
    fun _ _ => .inl (.inl hraised), hinv.rx, hinv.input, hinv.idle, hinv.calls, hinv.ended⟩,
    fun u _ => ⟨rfl, fun _ => ⟨rfl, rfl, rfl, hout, fun _ hq => hq, fun _ => .inl (.inl hraised),
      fun hK => Bool.noConfusion (ha hK)⟩,
      fun _ => ⟨rfl, rfl, rfl, rfl, rfl, id, id, fun _ => .inl hraised⟩⟩⟩, hkeep s hs⟩

theorem uartputc_sync_rule {φ : State P → Prop} (hφ : Stays K t φ) (c : Byte)
    (hkeep : ∀ s, φ s → φ { s with sending := s.sending ++ [⟨c, false⟩] }) :
    (logic P K).Triple t φ (uartputc_sync c) fun _ => φ := by
  refine (panicked_rule hφ).bind fun dead => ?_
  refine Triple.ite (fun _ => hang_rule hφ _) fun _ => ?_
  refine Triple.bind (R := fun _ => φ) ?_ fun _ => thr_sync_rule hφ c hkeep
  refine Triple.loop (fun _ => φ) (fun _ => hφ.stable) fun _ => ?_
  refine Triple.bind (R := fun _ => φ) ?_ fun idle =>
    Triple.ite (fun _ _ hs => hs) fun _ _ hs => hs
  refine look hφ (fun _ => trivial) fun s i b s' hs hx => ?_
  exact ⟨(Prod.mk.inj (Option.some.inj hx)).2.symm, hs⟩

/-! ## The handler -/

/-- The handler has claimed the interrupt, and `rest` is what it has read from
RHR and not given to `consoleintr`. -/
structure Claimed (t : P) (x : Writing) (rest : List Byte) (s : State P) : Prop where
  turn : s.turn t = x
  serving : s.serving = some t
  got : s.got = s.handed ++ rest

omit [DecidableEq P] in
theorem Claimed.stays {rest : List Byte} : Stays K t (Claimed t x rest) := by
  intro s s' ho hs
  have hb := ho.beside hs.serving
  exact ⟨ho.turn.trans hs.turn, hb.serving.trans hs.serving, by rw [hb.got, hb.handed, hs.got]⟩

/-- Something has arrived. -/
def Arrived (t : P) (x : Writing) (s : State P) : Prop := Claimed t x [] s ∧ s.rx ≠ []

omit [DecidableEq P] in
theorem Arrived.stays : Stays K t (Arrived t x) := fun s s' ho hs =>
  ⟨Claimed.stays s s' ho hs.1, (ho.beside hs.1.serving).rx hs.2⟩

omit [DecidableEq P] in
/-- Nobody else sees what the handler does with its part of the state. -/
theorem others_of_serving {s s' : State P} (hserving : s.serving = some t) (hu : u ≠ t)
    (hturn : s'.turn u = s.turn u) (ha : s.lock = some u → Aside K s s') : Others K u s s' :=
  ⟨hturn, ha, fun hs => absurd (Option.some.inj (hs.symm.trans hserving)) hu⟩

theorem claim_rule :
    (logic P K).Triple t (Outside t x false) (.perform .claim) fun b s =>
      (b = true → Claimed t x [] s) ∧ (b = false → s.turn t = x) := by
  refine act Outside.stays (fun _ => trivial) fun s i b s' hs hinv hx => ?_
  have hx : (if s.irq = true ∧ s.serving = none then
      some (true, { s with irq := false, serving := some t, draining := true, due := true })
    else some (false, s)) = some (b, s') := hx
  by_cases hclaim : s.irq = true ∧ s.serving = none
  · rw [if_pos hclaim] at hx
    obtain ⟨rfl, rfl⟩ := Prod.mk.inj (Option.some.inj hx)
    obtain ⟨-, -, hhanded⟩ := hinv.idle hclaim.2
    refine ⟨⟨hinv.fifo, hinv.out, hinv.sleepers, fun _ _ => .inr rfl, hinv.rx, fun _ => .inr rfl,
      fun hnone => ?_, hinv.calls, hinv.ended⟩, fun u _ => ⟨rfl, fun _ => ?_, fun hsv => ?_⟩,
      fun _ => ⟨hs.turn, rfl, ?_⟩, fun hb => Bool.noConfusion hb⟩
    · cases hnone
    · exact ⟨rfl, rfl, rfl, rfl, fun _ hq => hq, fun _ => .inr rfl, fun _ he => he⟩
    · rw [hclaim.2] at hsv
      cases hsv
    · show s.got = s.handed ++ []
      rw [List.append_nil, hhanded]
  · rw [if_neg hclaim] at hx
    obtain ⟨rfl, rfl⟩ := Prod.mk.inj (Option.some.inj hx)
    exact ⟨hinv, fun _ _ => .refl _, fun hb => Bool.noConfusion hb, fun _ => hs.turn⟩

theorem complete_rule :
    (logic P K).Triple t (Served t x) (.perform .complete) fun _ => Outside t x false := by
  refine act Served.stays (fun _ => trivial) fun s i b s' hs hinv hx => ?_
  obtain rfl := (Prod.mk.inj (Option.some.inj hx)).2
  refine ⟨⟨hinv.fifo, hinv.out, hinv.sleepers, hinv.awaited, hinv.rx, hinv.input,
    fun _ => ⟨hs.serves.draining, hs.due, hs.serves.handed⟩, hinv.calls, hinv.ended⟩,
    fun u hu => others_of_serving hs.serves.serving hu rfl fun _ =>
      ⟨rfl, rfl, rfl, rfl, fun _ hq => hq, id, fun _ he => he⟩,
    hs.turn, fun hh => Bool.noConfusion hh⟩

/-- The test of LSR: either there is a byte to read, or the next one that
arrives raises the interrupt. -/
theorem ready_rule :
    (logic P K).Triple t (Claimed t x []) (.perform .ready) fun b s =>
      (b = true → Arrived t x s) ∧ (b = false → Outside t x true s) := by
  refine act Claimed.stays (fun _ => trivial) fun s i b s' hs hinv hx => ?_
  obtain ⟨rfl, rfl⟩ := Prod.mk.inj (Option.some.inj hx)
  have hdrain : (s.draining && !(decide (s.serving = some t) && s.rx.isEmpty)) =
      (s.draining && !s.rx.isEmpty) := by
    rw [decide_eq_true hs.serving, Bool.true_and]
  refine ⟨⟨hinv.fifo, hinv.out, hinv.sleepers, hinv.awaited, hinv.rx, fun hne => ?_,
    fun hnone => ?_, hinv.calls, hinv.ended⟩, fun u hu => others_of_serving hs.serving hu rfl fun _ =>
      ⟨rfl, rfl, rfl, rfl, fun _ hq => hq, id, fun _ he => he⟩,
    fun hb => ⟨⟨hs.1, hs.2, hs.3⟩, fun hnil => ?_⟩, fun hb => ?_⟩
  · refine (hinv.input hne).imp_right fun hd => ?_
    show (s.draining && _) = true
    have hsome : s.rx.isEmpty = false := by
      cases hrx : s.rx with
      | nil => exact absurd hrx hne
      | cons => rfl
    rw [hdrain, hd, hsome]
    rfl
  · rw [hs.serving] at hnone
    cases hnone
  · have hnil : s.rx = [] := hnil
    rw [hnil] at hb
    cases hb
  · refine ⟨hs.turn, fun _ => ⟨hs.serving, ?_, ?_⟩⟩
    · show (s.draining && _) = false
      have hnone : s.rx.isEmpty = true := by
        cases hrx : s.rx.isEmpty with
        | true => rfl
        | false =>
          rw [hrx] at hb
          cases hb
      rw [hdrain, hnone]
      exact Bool.and_false _
    · exact (hs.got.trans (List.append_nil _)).symm

theorem rhr_rule :
    (logic P K).Triple t (Arrived t x) (.perform .rhr) fun c => Claimed t x [c] := by
  refine act Arrived.stays (fun _ => trivial) fun s i b s' hs hinv hx => ?_
  obtain ⟨rfl, rfl⟩ := Prod.mk.inj (Option.some.inj hx)
  obtain ⟨hs, hne⟩ := hs
  obtain ⟨c, rest, hrx⟩ := List.exists_cons_of_ne_nil hne
  refine ⟨⟨hinv.fifo, hinv.out, hinv.sleepers, hinv.awaited, ?_, fun _ => hinv.input hne,
    fun hnone => ?_, hinv.calls, hinv.ended⟩, fun u hu => others_of_serving hs.serving hu rfl
      fun _ => ⟨rfl, rfl, rfl, rfl, fun _ hq => hq, id, fun _ he => he⟩, hs.turn, hs.serving, ?_⟩
  · show s.arrived = s.got ++ s.rx.take 1 ++ s.rx.tail
    rw [hinv.rx, hrx, List.append_assoc]
    rfl
  · rw [hs.serving] at hnone
    cases hnone
  · show s.got ++ s.rx.take 1 = s.handed ++ [s.rx.headD 0]
    rw [hs.got, hrx, List.append_nil]
    rfl

theorem consoleintr_rule (c : Byte) :
    (logic P K).Triple t (Claimed t x [c]) (consoleintr c) fun _ => Claimed t x [] := by
  refine Triple.bind (R := fun _ => Claimed t x []) ?_ fun cs => ?_
  · refine act Claimed.stays (fun _ => trivial) fun s i b s' hs hinv hx => ?_
    have hsame : s' = { s with handed := s.handed ++ [c] } := by
      cases i <;> exact (Prod.mk.inj (Option.some.inj hx)).2.symm
    subst hsame
    refine ⟨⟨hinv.fifo, hinv.out, hinv.sleepers, hinv.awaited, hinv.rx, hinv.input,
      fun hnone => ?_, hinv.calls, hinv.ended⟩, fun u hu => others_of_serving hs.serving hu rfl
        fun _ => ⟨rfl, rfl, rfl, rfl, fun _ hq => hq, id, fun _ he => he⟩, hs.turn, hs.serving, ?_⟩
    · rw [hs.serving] at hnone
      cases hnone
    · show s.got = s.handed ++ [c] ++ []
      rw [hs.got, List.append_nil]
  · refine Triple.foldM (fun _ _ => Claimed t x []) fun c _ _ => ?_
    exact uartputc_sync_rule Claimed.stays c fun s hs => ⟨hs.turn, hs.serving, hs.got⟩

theorem uartintr_rule :
    (logic P K).Triple t (Claimed t x []) uartintr fun _ => Served t x := by
  refine Triple.bind (R := fun _ => Outside t x true) ?_ fun _ => ?_
  · refine Triple.loop (fun _ => Claimed t x []) (fun _ => Claimed.stays.stable) fun _ => ?_
    refine Triple.bind (R := fun r s => (∀ c, r = some c → Claimed t x [c] s) ∧
      (r = none → Outside t x true s)) ?_ fun r => ?_
    · refine ready_rule.bind fun ready => Triple.ite (fun hready => ?_) fun hready s hs => ?_
      · refine Triple.bind (rhr_rule.pre fun s hs => hs.1 hready) fun c s hs => ?_
        exact ⟨fun d hd => Option.some.inj hd ▸ hs,
          fun hnone => absurd hnone (Option.some_ne_none c)⟩
      · exact ⟨fun c hc => absurd hc.symm (Option.some_ne_none c),
          fun _ => hs.2 (Bool.eq_false_iff.2 hready)⟩
    · cases r with
      | none => exact fun s hs => hs.2 rfl
      | some c =>
        exact Triple.bind ((consoleintr_rule c).pre fun s hs => hs.1 c rfl) fun _ _ hs => hs
  · refine Triple.bind (acquire_rule.post fun _ s hs => hs.1) fun _ => ?_
    exact uartstart_rule.bind fun _ => releaseServed_rule

theorem devintr_rule :
    (logic P K).Triple t (Outside t x false) devintr fun _ => Outside t x false := by
  refine claim_rule.bind fun claimed => Triple.ite (fun hc => ?_) fun hc s hs => ?_
  · exact Triple.bind (uartintr_rule.pre fun s hs => hs.1 hc) fun _ => complete_rule
  · exact ⟨hs.2 (Bool.eq_false_iff.2 hc), fun hh => Bool.noConfusion hh⟩

/-! ## The device and the other threads -/

/-- A step of `t` outside the lock that can only wake threads up, raise the
interrupt and change what is known of its own call. -/
structure Outer (t : P) (s s' : State P) : Prop where
  tx : s'.tx = s.tx
  lock : s'.lock = s.lock
  accepted : s'.accepted = s.accepted
  popped : s'.popped = s.popped
  out : s'.out = s.out
  woken : Woken s.asleep s'.asleep
  handler : s'.serving = s.serving ∧ s'.draining = s.draining ∧ s'.due = s.due
  handed : s'.got = s.got ∧ s'.handed = s.handed
  sending : s.sending = [] → s'.sending = []
  irq : s.irq = true → s'.irq = true
  raised : s.Raised → s'.Raised
  arrived : s.arrived = s.got ++ s.rx → s'.arrived = s.got ++ s'.rx
  rx : s.rx ≠ [] → s'.rx ≠ []
  news : s'.rx = s.rx ∨ s'.irq = true
  turn : ∀ u, u ≠ t → s'.turn u = s.turn u
  calls : ∀ q, s.by q = s.past q ++ (s.turn q).put → s'.by q = s'.past q ++ (s'.turn q).put
  ended : ∀ d ∈ s'.ended, d ∈ s.ended ∨ d.Right

theorem Outer.inv {s s' : State P} (ho : Outer t s s') (hinv : Inv s) : Inv s' := by
  obtain ⟨hserving, hdraining, hdue⟩ := ho.handler
  refine ⟨?_, fun hfree => ?_, fun hfree q hq => ?_, fun hfree hne => ?_, ?_, fun hne => ?_,
    fun hnone => ?_, fun q => ho.calls q (hinv.calls q), fun d hd => ?_⟩
  · obtain ⟨contents, hholds, heq⟩ := hinv.fifo
    exact ⟨contents, by rw [ho.tx]; exact hholds, by rw [ho.accepted, ho.popped, heq]⟩
  · rw [ho.popped, ho.out]
    exact hinv.out (ho.lock ▸ hfree)
  · rw [ho.tx]
    exact hinv.sleepers (ho.lock ▸ hfree) q (ho.woken q hq)
  · rw [ho.tx] at hne
    exact (hinv.awaited (ho.lock ▸ hfree) hne).imp ho.raised fun hd => hdue.trans hd
  · rw [ho.handed.1]
    exact ho.arrived hinv.rx
  · rcases ho.news with hsame | hnew
    · rw [hsame] at hne
      exact (hinv.input hne).imp ho.irq fun hd => hdraining.trans hd
    · exact .inl hnew
  · rw [hdraining, hdue, ho.handed.1, ho.handed.2]
    exact hinv.idle (hserving ▸ hnone)
  · exact (ho.ended d hd).elim (hinv.ended d) id

theorem Outer.others {s s' : State P} (ho : Outer t s s') (hu : u ≠ t) : Others K u s s' := by
  obtain ⟨hserving, hdraining, hdue⟩ := ho.handler
  refine ⟨ho.turn u hu, fun _ => ⟨ho.lock, ho.tx, ho.popped, ho.out, ho.woken, fun ha => ?_,
    fun _ => ho.sending⟩, fun _ => ⟨hserving, ho.handed.1, ho.handed.2, hdraining, hdue, ho.rx,
    ho.irq, ho.raised⟩⟩
  exact ha.imp ho.raised fun hd => hdue.trans hd

theorem outer_act {β : Type} {o : Op P β} {φ : State P → Prop} {Q : β → State P → Prop}
    (hφ : Stays K t φ) (hsafe : ∀ s, WritesEmpty β t o s)
    (hstep : ∀ s i b s', φ s → exec t i s o = some (b, s') → Outer t s s' ∧ Q b s') :
    (logic P K).Triple t φ (.perform o) Q := by
  refine act hφ hsafe fun s i b s' hs hinv hx => ?_
  obtain ⟨ho, hq⟩ := hstep s i b s' hs hx
  exact ⟨ho.inv hinv, fun u hu => ho.others hu, hq⟩

theorem kill_rule (q : P) :
    (logic P K).Triple t (Outside t x h) (.perform (.kill q)) fun _ => Outside t x h := by
  refine outer_act Outside.stays (fun _ => trivial) fun s i b s' hs hx => ?_
  obtain rfl := (Prod.mk.inj (Option.some.inj hx)).2
  refine ⟨⟨rfl, rfl, rfl, rfl, rfl, fun r hr => ?_, ⟨rfl, rfl, rfl⟩, ⟨rfl, rfl⟩, id, id, id, id, id,
    .inl rfl, fun _ _ => rfl, fun _ => id, fun _ => .inl⟩, hs.turn, fun hh => ?_⟩
  · have hr : Function.update s.asleep q false r = true := hr
    by_cases hrq : r = q
    · rw [hrq, Function.update_self] at hr
      cases hr
    · rw [Function.update_of_ne hrq] at hr
      exact hr
  · exact ⟨(hs.serves hh).1, (hs.serves hh).2, (hs.serves hh).3⟩

/-- A byte goes out on the line; the last one raises the interrupt. -/
theorem transmit_rule :
    (logic P K).Triple t (Outside t x h) (.perform .transmit) fun _ => Outside t x h := by
  refine outer_act Outside.stays (fun _ => trivial) fun s i b s' hs hx => ?_
  unfold exec at hx
  cases hsending : s.sending with
  | nil =>
    rw [hsending] at hx
    obtain rfl := (Prod.mk.inj (Option.some.inj hx)).2
    exact ⟨⟨rfl, rfl, rfl, rfl, rfl, fun _ => id, ⟨rfl, rfl, rfl⟩, ⟨rfl, rfl⟩, id, id, id, id, id,
      .inl rfl, fun _ _ => rfl, fun _ => id, fun _ => .inl⟩, hs⟩
  | cons first rest =>
    rw [hsending] at hx
    obtain rfl := (Prod.mk.inj (Option.some.inj hx)).2
    refine ⟨⟨rfl, rfl, rfl, rfl, ?_, fun _ => id, ⟨rfl, rfl, rfl⟩, ⟨rfl, rfl⟩, fun hnil => ?_,
      fun hirq => ?_, fun _ => ?_, id, id, .inl rfl, fun _ _ => rfl, fun _ => id, fun _ => .inl⟩,
      hs.turn, fun hh => ⟨(hs.serves hh).1, (hs.serves hh).2, (hs.serves hh).3⟩⟩
    · show buffered (s.line ++ [first] ++ rest) = buffered (s.line ++ s.sending)
      rw [hsending, List.append_assoc, List.singleton_append]
    · rw [hsending] at hnil
      cases hnil
    · show (s.irq || rest.isEmpty) = true
      rw [hirq, Bool.true_or]
    · cases rest with
      | nil => exact .inr (Bool.or_true _)
      | cons => exact .inl (List.cons_ne_nil _ _)

theorem arrive_rule (c : Byte) :
    (logic P K).Triple t (Outside t x h) (.perform (.arrive c)) fun _ => Outside t x h := by
  refine outer_act Outside.stays (fun _ => trivial) fun s i b s' hs hx => ?_
  obtain rfl := (Prod.mk.inj (Option.some.inj hx)).2
  refine ⟨⟨rfl, rfl, rfl, rfl, rfl, fun _ => id, ⟨rfl, rfl, rfl⟩, ⟨rfl, rfl⟩, id, fun _ => rfl,
    fun _ => .inr rfl, fun harr => ?_, fun _ => ?_, .inr rfl, fun _ _ => rfl, fun _ => id,
    fun _ => .inl⟩, hs.turn, fun hh => ⟨(hs.serves hh).1, (hs.serves hh).2, (hs.serves hh).3⟩⟩
  · show s.arrived ++ [c] = s.got ++ (s.rx ++ [c])
    rw [harr, List.append_assoc]
  · exact List.append_ne_nil_of_right_ne_nil _ (by simp)

theorem panic_rule :
    (logic P K).Triple t (Outside t x h) (.perform .panic) fun _ => Outside t x h := by
  refine outer_act Outside.stays (fun _ => trivial) fun s i b s' hs hx => ?_
  obtain rfl := (Prod.mk.inj (Option.some.inj hx)).2
  exact ⟨⟨rfl, rfl, rfl, rfl, rfl, fun _ => id, ⟨rfl, rfl, rfl⟩, ⟨rfl, rfl⟩, id, id, id, id, id,
    .inl rfl, fun _ _ => rfl, fun _ => id, fun _ => .inl⟩, hs.turn,
    fun hh => ⟨(hs.serves hh).1, (hs.serves hh).2, (hs.serves hh).3⟩⟩

/-! ## Calls of `consolewrite` -/

/-- Only what is known of the call of `t` changes. -/
theorem Outer.turned {s s' : State P} {y : Writing} {e : List (Ended P)}
    (hs' : s' = { s with turn := Function.update s.turn t y, ended := e })
    (hcall : ∀ q, s.by q = s.past q ++ (s.turn q).put →
      s'.by q = s'.past q ++ (Function.update s.turn t y q).put)
    (hended : ∀ d ∈ e, d ∈ s.ended ∨ d.Right) : Outer t s s' := by
  subst hs'
  exact ⟨rfl, rfl, rfl, rfl, rfl, fun _ => id, ⟨rfl, rfl, rfl⟩, ⟨rfl, rfl⟩, id, id, id, id, id,
    .inl rfl, fun _ hu => Function.update_of_ne hu .., hcall, hended⟩

theorem copyin_rule (src : U64) :
    (logic P K).Triple t (Outside t x false) (.perform (.copyin src)) fun r s =>
      (∀ c, r = some c → Outside t { x with copied := x.copied ++ [c] } false s) ∧
      (r = none → Outside t x false s) := by
  refine outer_act Outside.stays (fun _ => trivial) fun s i b s' hs hx => ?_
  have hsame : some (none, s) = some (b, s') → Outer t s s' ∧
      (∀ c, b = some c → Outside t { x with copied := x.copied ++ [c] } false s') ∧
      (b = none → Outside t x false s') := by
    intro hx
    obtain ⟨rfl, rfl⟩ := Prod.mk.inj (Option.some.inj hx)
    refine ⟨.turned (y := s.turn t) (e := s.ended) ?_ (fun q hq => ?_) fun _ => .inl,
      fun c hc => absurd hc.symm (Option.some_ne_none c), fun _ => hs⟩
    · rw [Function.update_eq_self]
    · rw [Function.update_eq_self]
      exact hq
  match i with
  | .byte (some c) =>
    obtain ⟨rfl, rfl⟩ := Prod.mk.inj (Option.some.inj hx)
    refine ⟨.turned rfl (fun q hq => ?_) fun _ => .inl, fun d hd => ?_,
      fun hnone => absurd hnone (Option.some_ne_none c)⟩
    · refine hq.trans ?_
      by_cases hqt : q = t
      · rw [hqt, Function.update_self]
        rfl
      · rw [Function.update_of_ne hqt]
        rfl
    · obtain rfl := Option.some.inj hd
      refine ⟨?_, fun hh => Bool.noConfusion hh⟩
      show Function.update s.turn t _ t = _
      rw [Function.update_self, hs.turn]
  | .byte none | .call _ | .echo _ | .none => exact hsame hx

theorem past_finish {s s' : State P} {d : Ended P}
    (hended : s'.ended = s.ended ++ [d]) (q : P) :
    s'.past q = s.past q ++ if d.p = q then d.put else [] := by
  unfold State.past
  rw [hended, List.filter_append, List.flatMap_append]
  by_cases hq : d.p = q <;> simp [hq]

/-- The call returns. -/
theorem finish_rule {r : I32} (hright : Ended.Right ⟨x, t, r⟩) :
    (logic P K).Triple t (Outside t x false) (.perform (.finish r)) fun _ =>
      Outside t ⟨0, [], []⟩ false := by
  refine outer_act Outside.stays (fun _ => trivial) fun s i b s' hs hx => ?_
  have hs' := (Prod.mk.inj (Option.some.inj hx)).2.symm
  have hended : s'.ended = s.ended ++ [⟨s.turn t, t, r⟩] := congrArg State.ended hs'
  have hturn : s'.turn t = ⟨0, [], []⟩ := by
    rw [hs']
    exact Function.update_self ..
  refine ⟨.turned hs' (fun q hq => ?_) fun d hd => ?_, hturn, fun hh => Bool.noConfusion hh⟩
  · have hby : s'.by q = s.by q := by
      rw [hs']
      rfl
    rw [hby, hq, past_finish hended q]
    by_cases hqt : t = q
    · subst hqt
      rw [if_pos rfl, Function.update_self, List.append_nil]
    · rw [if_neg hqt, Function.update_of_ne (Ne.symm hqt), List.append_nil]
  · refine (List.mem_append.1 hd).imp_right fun hnew => ?_
    rw [List.mem_singleton.1 hnew, hs.turn]
    exact hright

/-- A new call begins. -/
theorem next_rule (hx : x.put = []) :
    (logic P K).Triple t (Outside t x false) (.perform .next) fun r s =>
      (∀ src n, r = some (.write src n) → Outside t ⟨n, [], []⟩ false s) ∧
      ((∀ src n, r ≠ some (.write src n)) → Outside t x false s) := by
  refine outer_act Outside.stays (fun _ => trivial) fun s i b s' hs he => ?_
  have hsame : ∀ c : Option (Call P), (∀ src n, c ≠ some (.write src n)) →
      some (c, s) = some (b, s') → Outer t s s' ∧
      (∀ src n, b = some (.write src n) → Outside t ⟨n, [], []⟩ false s') ∧
      ((∀ src n, b ≠ some (.write src n)) → Outside t x false s') := by
    intro c hc he
    obtain ⟨rfl, rfl⟩ := Prod.mk.inj (Option.some.inj he)
    refine ⟨.turned (y := s.turn t) (e := s.ended) ?_ (fun q hq => ?_) fun _ => .inl,
      fun src n hw => absurd hw (hc src n), fun _ => hs⟩
    · rw [Function.update_eq_self]
    · rw [Function.update_eq_self]
      exact hq
  match i with
  | .call (.write src n) =>
    obtain ⟨rfl, rfl⟩ := Prod.mk.inj (Option.some.inj he)
    refine ⟨.turned rfl (fun q hq => ?_) fun _ => .inl, fun src' n' hw => ?_,
      fun hno => absurd rfl (hno src n)⟩
    · refine hq.trans ?_
      by_cases hqt : q = t
      · rw [hqt, Function.update_self, hs.turn, hx]
        rfl
      · rw [Function.update_of_ne hqt]
        rfl
    · cases hw
      exact ⟨Function.update_self .., fun hh => Bool.noConfusion hh⟩
  | .call .intr | .call (.sync _) | .call (.kill _) | .call .transmit | .call (.arrive _)
  | .call .panic | .byte _ | .echo _ | .none =>
    refine hsame _ (fun _ _ => ?_) he
    exact nofun

/-- `consolewrite` when it has put in `i` bytes. -/
def Writes (t : P) (n : I32) (i : Nat) (s : State P) : Prop :=
  ∃ put : List Byte, put.length = i ∧ (i : Int) ≤ max 0 n.toInt ∧ Outside t ⟨n, put, put⟩ false s

theorem consolewrite_rule (src : U64) (n : I32) :
    (logic P K).Triple t (Outside t ⟨n, [], []⟩ false) (consolewrite src n) fun _ =>
      Outside t ⟨0, [], []⟩ false := by
  refine Triple.bind (R := fun i => Writes t n i) ?_ fun i => ?_
  · refine (Triple.loop (b := 0) (fun i => Writes t n i) (fun i s s' he => ?_) fun i => ?_).pre
      fun s hs => ⟨[], rfl, Int.le_max_left .., hs⟩
    · rintro ⟨put, hlen, hle, hs⟩
      exact ⟨put, hlen, hle, Outside.stays.stable s s' he hs⟩
    · refine Triple.ite (fun _ s hs => hs) fun hi s hs => ?_
      obtain ⟨put, hlen, hle, hs⟩ := hs
      refine Triple.bind (copyin_rule (x := ⟨n, put, put⟩) _) (fun r => ?_) s hs
      cases r with
      | none => exact fun s hs => ⟨put, hlen, hle, hs.2 rfl⟩
      | some c =>
        refine Triple.bind ((uartputc_rule c).pre fun s hs => hs.1 c rfl) fun _ s hs => ?_
        refine ⟨put ++ [c], ?_, ?_, hs⟩
        · rw [List.length_append, hlen]
          rfl
        · have hlt : (i : Int) < n.toInt := Decidable.not_not.1 hi
          omega
  · rintro s ⟨put, hlen, hle, hs⟩
    have hto : (BitVec.ofNat 32 i).toInt = i := by
      have hlt : n.toInt < 2 ^ 31 := BitVec.toInt_lt
      rw [BitVec.toInt_eq_toNat_bmod, BitVec.toNat_ofNat, Int.bmod_def]
      omega
    have hright : Ended.Right ⟨⟨n, put, put⟩, t, BitVec.ofNat 32 i⟩ :=
      ⟨rfl, hto.trans (congrArg Nat.cast hlen.symm), hto.trans_le hle⟩
    refine (finish_rule hright).bind (fun _ => ?_) s hs
    exact Triple.ret _ fun _ => Outside t ⟨0, [], []⟩ false

/-! ## Every run -/

/-- Between two calls. -/
def Between (t : P) (s : State P) : Prop := ∃ x : Writing, x.put = [] ∧ Outside t x false s

omit [DecidableEq P] in
theorem Between.stays : Stays K t (Between t) := by
  rintro s s' ho ⟨x, hx, hs⟩
  exact ⟨x, hx, Outside.stays s s' ho hs⟩

theorem main_rule (t : P) : (logic P K).Triple t (Between t) main fun _ _ => False := by
  refine Triple.forever Between.stays.stable fun s ⟨x, hx, hs⟩ => ?_
  refine Triple.bind (next_rule hx) (fun r => ?_) s hs
  have hback : ∀ {m : Code P Unit} (_ : (logic P K).Triple t (Outside t x false) m
      fun _ => Outside t x false) (_ : ∀ src n, r ≠ some (.write src n)),
      (logic P K).Triple t (fun s =>
        (∀ src n, r = some (.write src n) → Outside t ⟨n, [], []⟩ false s) ∧
        ((∀ src n, r ≠ some (.write src n)) → Outside t x false s)) m fun _ => Between t :=
    fun hm hno => hm.conseq (fun s hs => hs.2 hno) fun _ s hs => ⟨x, hx, hs⟩
  match r with
  | none => exact hback (fun _ hs => hs) nofun
  | some (.write src n) =>
    refine Triple.bind ((consolewrite_rule src n).pre fun s hs => hs.1 src n rfl) fun _ s hs => ?_
    exact ⟨_, rfl, hs⟩
  | some .intr => exact hback devintr_rule nofun
  | some (.sync c) =>
    refine hback (uartputc_sync_rule Outside.stays c fun s hs => ⟨hs.turn, fun hh => ?_⟩)
      nofun
    cases hh
  | some (.kill q) => exact hback (kill_rule q) nofun
  | some .transmit => exact hback transmit_rule nofun
  | some (.arrive c) =>
    exact hback (arrive_rule c) nofun
  | some .panic => exact hback panic_rule nofun

theorem inv_new : Inv (State.new (P := P)) where
  fifo := ⟨[], Ring.Holds.empty _ _, rfl⟩
  out _ := rfl
  sleepers _ _ hq := Bool.noConfusion hq
  awaited _ hne := absurd rfl hne
  rx := rfl
  input hne := absurd rfl hne
  idle _ := ⟨rfl, rfl, rfl⟩
  calls _ := rfl
  ended _ hd := nomatch hd

/-- In every run; where nothing but the buffer is written to THR, it is only
written when it is empty. -/
theorem inv_of_run {A : Machine.OpPred (Op P) (State P) P} (hA : ∀ β p o s, A β p o s → K →
    NoSync β p o s) {g : Config (Op P) (State P) P} (hg : (machine P).Reach A start g) :
    Inv g.mem ∧ ∀ (β : Type) (p : P) (o : Op P β), (machine P).Next g p o →
      (K → NoSync β p o g.mem) → K → WritesEmpty β p o g.mem :=
  Logic.inv_of_reach (fun ha hK => hA _ _ _ _ ha hK) (fun _ => rfl) inv_new
    (fun t => wp_mono (fun _ _ h => h.elim)
      (main_rule t _ ⟨⟨0, [], []⟩, rfl, rfl, Bool.noConfusion⟩)) hg

theorem inv_of_reachable {g : Config (Op P) (State P) P}
    (hg : (machine P).Reach Machine.always start g) : Inv g.mem :=
  (inv_of_run (K := False) (fun _ _ _ _ _ hK => hK.elim) hg).1

/-- No byte is lost, changed, sent twice or sent before one that was put in
the buffer earlier, and a call of `consolewrite` puts in its bytes in order,
as many as it says. -/
theorem bytes_in_order (g : Config (Op P) (State P) P)
    (hg : (machine P).Reach Machine.always start g) :
    (∃ contents, Ring.Holds g.mem.tx.buf g.mem.tx.r g.mem.tx.w contents ∧
      contents.length ≤ UART_TX_BUF_SIZE ∧
      g.mem.accepted.map (·.2) = g.mem.popped ++ contents) ∧
    (g.mem.lock = none → g.mem.popped = g.mem.out) ∧
    (∀ q, g.mem.by q = g.mem.past q ++ (g.mem.turn q).put) ∧
    ∀ d ∈ g.mem.ended, d.Right := by
  have hinv := inv_of_reachable hg
  obtain ⟨contents, hholds, heq⟩ := hinv.fifo
  exact ⟨⟨contents, hholds, hholds.le, heq⟩, hinv.out, hinv.calls, hinv.ended⟩

/-- Steps of a thread with nothing to answer. -/
def quiet (p : Bool) (k : Nat) : List (Bool × Input Bool) := List.replicate k (p, .none)

def calls (p : Bool) (c : Call Bool) (k : Nat) : List (Bool × Input Bool) :=
  (p, .none) :: (p, .call c) :: quiet p k

/-- A thread writes two bytes, the first of which goes to the device at once. -/
def twoBytes : List (Bool × Input Bool) :=
  calls true (.write 0 2) 1 ++ (true, .byte (some 104)) :: quiet true 15 ++
    (true, .byte (some 105)) :: quiet true 12

theorem bytes_in_order_twoBytes : ∃ g : Config (Op Bool) (State Bool) Bool,
    (machine Bool).Reach Machine.always start g ∧ g.mem.popped = [104] ∧
      g.mem.accepted = [(true, 104), (true, 105)] ∧ g.mem.out = [104] ∧
      ∀ d ∈ g.mem.ended, d.Right := by
  have hview : ((machine Bool).run Machine.always twoBytes start).map
      (fun g => (g.mem.lock, g.mem.popped, g.mem.accepted, g.mem.ended.map (·.r))) =
      some (none, [104], [(true, 104), (true, 105)], [2]) := by decide
  obtain ⟨g, hrun, hg⟩ := Option.map_eq_some_iff.1 hview
  have hreach := Machine.reach_of_run _ _ .start hrun
  obtain ⟨-, hout, -, hended⟩ := bytes_in_order g hreach
  have hpopped : g.mem.popped = [104] := congrArg (fun v => v.2.1) hg
  refine ⟨g, hreach, hpopped, congrArg (fun v => v.2.2.1) hg, ?_, hended⟩
  rw [← hout (congrArg Prod.fst hg), hpopped]

/-- While the lock is free, who sleeps waits for room in a full buffer, and
somebody will look at a buffer that holds a byte, or at RHR.  When the device
is idle and no interrupt is pending, everything is on the line, everything
that arrived has been given to `consoleintr`, and nobody sleeps. -/
theorem nobody_left_asleep (g : Config (Op P) (State P) P)
    (hg : (machine P).Reach Machine.always start g) :
    (g.mem.lock = none → (∀ q, g.mem.asleep q = true → Full g.mem.tx) ∧
      (g.mem.tx.w ≠ g.mem.tx.r → g.mem.sending ≠ [] ∨ g.mem.irq = true ∨
        g.mem.serving ≠ none ∧ g.mem.due = true)) ∧
    (g.mem.arrived = g.mem.got ++ g.mem.rx ∧ (g.mem.rx ≠ [] → g.mem.irq = true ∨
      g.mem.serving ≠ none ∧ g.mem.draining = true)) ∧
    (g.mem.lock = none → g.mem.sending = [] → g.mem.irq = false → g.mem.serving = none →
      g.mem.accepted.map (·.2) = buffered g.mem.line ∧ g.mem.handed = g.mem.arrived ∧
      ∀ q, g.mem.asleep q = false) := by
  have hinv := inv_of_reachable hg
  have hdue : g.mem.due = true → g.mem.serving ≠ none ∧ g.mem.due = true := fun hd =>
    ⟨fun hnone => Bool.noConfusion (hd.symm.trans (hinv.idle hnone).2.1), hd⟩
  have hdrain : g.mem.draining = true → g.mem.serving ≠ none ∧ g.mem.draining = true := fun hd =>
    ⟨fun hnone => Bool.noConfusion (hd.symm.trans (hinv.idle hnone).1), hd⟩
  have hawaited := fun hfree hne => ((hinv.awaited hfree hne).imp_right hdue)
  refine ⟨fun hfree => ⟨hinv.sleepers hfree, fun hne => or_assoc.1 (hawaited hfree hne)⟩,
    ⟨hinv.rx, fun hne => (hinv.input hne).imp_right hdrain⟩,
    fun hfree hsending hirq hserving => ?_⟩
  have hempty : g.mem.tx.w = g.mem.tx.r := by
    by_contra hne
    rcases hawaited hfree hne with (hs | hi) | ⟨hs, -⟩
    · exact hs hsending
    · rw [hirq] at hi
      cases hi
    · exact hs hserving
  obtain ⟨contents, hholds, heq⟩ := hinv.fifo
  have hnil : contents = [] := hholds.eq_iff.1 hempty.symm
  have hrx : g.mem.rx = [] := by
    by_contra hne
    rcases (hinv.input hne).imp_right hdrain with hi | ⟨hs, -⟩
    · rw [hirq] at hi
      cases hi
    · exact hs hserving
  refine ⟨?_, ?_, fun q => ?_⟩
  · rw [heq, hnil, List.append_nil, hinv.out hfree, State.out, hsending, List.append_nil]
  · rw [hinv.rx, hrx, List.append_nil]
    exact (hinv.idle hserving).2.2
  · cases hq : g.mem.asleep q with
    | false => rfl
    | true =>
      have hfull : Full g.mem.tx := hinv.sleepers hfree q hq
      have hlen := (hholds.full_iff fits_UART_TX_BUF_SIZE).1 hfull
      rw [hnil] at hlen
      cases hlen

/-- Then somebody types, and the handler runs twice. -/
def typed : List (Bool × Input Bool) :=
  twoBytes ++ calls false (.arrive 99) 1 ++ calls false .transmit 1 ++ calls false .intr 4 ++
    (false, .echo []) :: quiet false 13 ++ calls false .transmit 1 ++ calls false .intr 9

theorem nobody_left_asleep_typed : ∃ g : Config (Op Bool) (State Bool) Bool,
    (machine Bool).Reach Machine.always start g ∧ g.mem.accepted = [(true, 104), (true, 105)] ∧
      g.mem.arrived = [99] ∧ g.mem.accepted.map (·.2) = buffered g.mem.line ∧
      g.mem.handed = g.mem.arrived ∧ ∀ q, g.mem.asleep q = false := by
  have hview : ((machine Bool).run Machine.always typed start).map
      (fun g => ((g.mem.lock, g.mem.sending.isEmpty, g.mem.irq, g.mem.serving), g.mem.accepted,
        g.mem.arrived)) =
      some ((none, true, false, none), [(true, 104), (true, 105)], [99]) := by decide
  obtain ⟨g, hrun, hg⟩ := Option.map_eq_some_iff.1 hview
  have hreach := Machine.reach_of_run _ _ .start hrun
  obtain ⟨hidle, hrest⟩ := Prod.mk.inj hg
  obtain ⟨hlock, hsending, hirq, hserving⟩ := by simpa only [Prod.mk.injEq] using hidle
  exact ⟨g, hreach, congrArg Prod.fst hrest, congrArg Prod.snd hrest,
    (nobody_left_asleep g hreach).2.2 hlock (List.isEmpty_iff.1 hsending) hirq hserving⟩

/-- A byte is written to THR while one is in it only if some byte is written
without the buffer. -/
theorem thr_empty (g : Config (Op P) (State P) P) (hg : (machine P).Reach NoSync start g)
    (p : P) (c : Byte) (hnext : (machine P).Next g p (.thr c true)) : g.mem.sending = [] :=
  (inv_of_run (K := True) (fun _ _ _ _ ha _ => ha) hg).2 Unit p (.thr c true) hnext
    (fun _ => rfl) trivial

instance {P β : Type} (p : P) (o : Op P β) (s : State P) : Decidable (NoSync β p o s) := by
  cases o <;> dsimp only [NoSync] <;> infer_instance

/-- The byte that the next operation writes to THR. -/
def sends : (Σ β, Op Bool β) → Option (Byte × Bool)
  | ⟨_, .thr c b⟩ => some (c, b)
  | _ => none

theorem next_of_sends {g : Config (Op Bool) (State Bool) Bool} {p : Bool} {c : Byte} {b : Bool}
    (h : ((machine Bool).next? g p).bind sends = some (c, b)) :
    (machine Bool).Next g p (.thr c b) := by
  obtain ⟨⟨β, o⟩, hnext, hsends⟩ := Option.bind_eq_some_iff.1 h
  cases o with
  | thr c' b' =>
    cases hsends
    exact (machine Bool).next?_eq_some.1 hnext
  | _ => cases hsends

theorem thr_empty_twoBytes : ∃ g : Config (Op Bool) (State Bool) Bool,
    (machine Bool).Reach NoSync start g ∧ (machine Bool).Next g true (.thr 104 true) ∧
      g.mem.sending = [] := by
  have hview : ((machine Bool).run NoSync (twoBytes.take 14) start).map
      (fun g => ((machine Bool).next? g true).bind sends) = some (some (104, true)) := by decide
  obtain ⟨g, hrun, hg⟩ := Option.map_eq_some_iff.1 hview
  have hreach := Machine.reach_of_run _ _ .start hrun
  exact ⟨g, hreach, next_of_sends hg, thr_empty g hreach true 104 (next_of_sends hg)⟩

end Xv6.Uart
