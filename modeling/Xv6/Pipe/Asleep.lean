import Xv6.Pipe.Rules
import Mathlib.Data.Fintype.Basic

/-!
# Bytes in order, and nobody left asleep

`piperead`, `pipewrite` and `pipeclose` keep the two invariants of a pipe.  A
process that puts bytes in owes the readers a wakeup, which it may send late
but not forget: it does forget it where it finds itself killed.
-/

namespace Xv6.Pipes

open Conc Conc.Logic

variable {P : Type} {K : Prop} {t : P}

/-! ## Statements that stay when processes wake up -/

theorem Down.and {φ ψ : Pipe → (P → Option Chan) → Bool → Prop} (h : Down φ) (h' : Down ψ) :
    Down fun x a f => φ x a f ∧ ψ x a f :=
  fun x a a' f hw hs => ⟨h x a a' f hw hs.1, h' x a a' f hw hs.2⟩

theorem Down.imp {φ : Pipe → (P → Option Chan) → Bool → Prop} {ψ : Pipe → Bool → Prop}
    (h : Down φ) : Down fun x a f => ψ x f → φ x a f :=
  fun x a a' f hw hs hψ => h x a a' f hw (hs hψ)

theorem Down.pipe (ψ : Pipe → Bool → Prop) : Down fun x (_ : P → Option Chan) f => ψ x f :=
  fun _ _ _ _ _ hs => hs

theorem down_nobody (chan : Chan) :
    Down fun _ (a : P → Option Chan) _ => Nobody chan a := fun _ _ _ _ hw hs => hs.woken hw

theorem down_readersWait : Down fun x (a : P → Option Chan) _ => ReadersWait x a :=
  fun _ _ _ _ hw hs => hs.woken hw

theorem down_writersWait : Down fun x (a : P → Option Chan) _ => WritersWait x a :=
  fun _ _ _ _ hw hs => hs.woken hw

/-! ## Writing -/

/-- What holds in the loop of `pipewrite`: readers may sleep over a byte only
while the wakeup for it is still owed. -/
def Writing (K : Prop) (x : Pipe) (a : P → Option Chan) (f : Bool) : Prop :=
  (K → WritersWait x a ∧ (f = false → ReadersWait x a)) ∧ (f = true → x.readopen = true)

theorem down_writing : Down (Writing (P := P) K) :=
  (Down.imp (down_writersWait.and down_readersWait.imp)).and (Down.pipe _)

theorem Writing.of_quiet {x : Pipe} {a : P → Option Chan} {f : Bool} (h : K → Quiet x a)
    (hf : f = false) : Writing K x a f := by
  refine ⟨fun hK => ⟨(h hK).2, fun _ => (h hK).1⟩, fun htrue => ?_⟩
  rw [hf] at htrue
  cases htrue

/-- The wakeup has been sent. -/
theorem Writing.sent {x : Pipe} {a : P → Option Chan} {f : Bool} (h : Writing K x a f) :
    K → WritersWait x a := fun hK => (h.1 hK).1

/-- Where there is room nobody waits for it. -/
theorem WritersWait.push {x : Pipe} {a : P → Option Chan} (h : WritersWait x a)
    (hroom : ¬ Full x) (ch : Byte) : WritersWait (x.push ch) a :=
  Nobody.writersWait fun q hq => hroom (h q hq).1

theorem Writing.push {x : Pipe} {a : P → Option Chan} {f : Bool} (h : Writing K x a f)
    (hopen : x.readopen = true) (hroom : ¬ Full x) (ch : Byte) : Writing K (x.push ch) a true :=
  ⟨fun hK => ⟨(h.sent hK).push hroom ch, fun hf => Bool.noConfusion hf⟩, fun _ => hopen⟩

/-- A writer that leaves without a wakeup owes none. -/
theorem Writing.quiet {x : Pipe} {a : P → Option Chan} {f : Bool} (h : Writing K x a f)
    (howe : K → f = true → Nobody .nread a) (hK : K) : Quiet x a := by
  refine ⟨?_, h.sent hK⟩
  cases f with
  | false => exact (h.1 hK).2 rfl
  | true => exact (howe hK rfl).readersWait

theorem quiet_of_nobody {x : Pipe} {a : P → Option Chan} (h : WritersWait x a)
    (h' : Nobody .nread a) : Quiet x a := ⟨h'.readersWait, h⟩

variable [DecidableEq P]

theorem quiet_doze_write {x : Pipe} {a : P → Option Chan} (h : WritersWait x a)
    (h' : Nobody .nread a) (hreason : Full x ∧ x.readopen = true) :
    Quiet x (Function.update a t (some .nwrite)) :=
  ⟨h'.readersWait.doze_write, h.doze hreason .nwrite⟩

/-- All that `pipewrite` does after its loop. -/
theorem finish_write_rule (i : Nat) : (logic P K).Triple t (Held t (Writing K))
    ((wakeup .nread).bind fun _ => release.bind fun _ => .ret (BitVec.ofNat 32 i))
    fun (_ : I32) _ => True := by
  have hdown : Down fun x (a : P → Option Chan) (_ : Bool) => K → WritersWait x a :=
    down_writersWait.imp
  refine Triple.bind ((wakeup_rule hdown (fun _ _ _ h => h) .nread).pre fun s hs =>
    ⟨hs.1, hs.2.sent⟩) fun _ => ?_
  refine (release_rule (hdown.and (down_nobody .nread)) fun x a f h hK => ?_).bind fun _ _ h => h
  exact quiet_of_nobody (h.1 hK) h.2

theorem pipewrite_rule (addr : U64) (n : I32) :
    (logic P K).Triple t (fun _ => True) (pipewrite addr n) fun _ _ => True := by
  refine Triple.bind (acquire_rule.post fun _ s hs =>
    (⟨hs.1, .of_quiet hs.2.1 hs.2.2⟩ : Held t (Writing K) s)) fun _ => ?_
  refine Triple.bind (R := fun r s => ∀ i, r = some i → Held t (Writing K) s)
    (Triple.loop (fun _ => Held t (Writing K)) (fun _ => held_stable down_writing) fun i => ?_)
    fun r => ?_
  · refine Triple.ite (fun _ s hs j _ => hs) fun _ => ?_
    have hopened : Down fun x (a : P → Option Chan) f => Writing K x a f ∧ true = x.readopen :=
      down_writing.and (Down.pipe _)
    refine (read_rule down_writing _).bind fun isopen => ?_
    cases isopen with
    | false =>
      refine Triple.ite (fun _ => ?_) fun h => absurd rfl h
      -- the readers have all gone, so the writer has put nothing in
      refine (release_rule (down_writing.and (Down.pipe _)) fun x a f h hK => ?_).bind
        fun _ _ _ j hj => absurd hj.symm (Option.some_ne_none j)
      refine h.1.quiet (fun _ hf => ?_) hK
      have hclosed := h.2.trans (h.1.2 hf)
      cases hclosed
    | true =>
      refine Triple.ite (fun h => Bool.noConfusion h) fun _ => ?_
      refine (killed_rule hopened).bind fun dead => ?_
      have hkilled : Down fun x (a : P → Option Chan) f =>
          (Writing K x a f ∧ true = x.readopen) ∧ (K → dead = true → f = true → Nobody .nread a) :=
        hopened.and fun x a a' f hw h hK hd hf => (h hK hd hf).woken hw
      refine Triple.ite (fun hdead => ?_) fun _ => ?_
      · refine (release_rule hkilled fun x a f h hK => ?_).bind
          fun _ _ _ j hj => absurd hj.symm (Option.some_ne_none j)
        exact h.1.1.quiet (fun hK => h.2 hK hdead) hK
      · refine (read_rule hkilled _).bind fun isfull => ?_
        refine Triple.ite (fun hfull => ?_) fun hfull => ?_
        · -- all the readers are woken before the writer sleeps
          have hdown : Down fun x (a : P → Option Chan) (_ : Bool) =>
              (K → WritersWait x a) ∧ Full x ∧ x.readopen = true :=
            down_writersWait.imp.and (Down.pipe _)
          refine Triple.bind ((wakeup_rule hdown (fun _ _ _ h => h) .nread).pre fun s hs =>
            ⟨hs.1, hs.2.1.1.1.sent, of_decide_eq_true (hs.2.2.symm.trans hfull),
              hs.2.1.1.2.symm⟩) fun _ => ?_
          refine Triple.bind ((sleep_rule (hdown.and (down_nobody .nread))
            fun x a f h hK => ?_).post fun _ s hs =>
              (⟨hs.1, .of_quiet hs.2.1 hs.2.2⟩ : Held t (Writing K) s)) fun _ s hs => hs
          exact quiet_doze_write (h.1.1 hK) h.2 h.1.2
        · have hroom : Down fun x (a : P → Option Chan) f =>
              (Writing K x a f ∧ true = x.readopen) ∧ ¬ Full x := hopened.and (Down.pipe _)
          refine Triple.bind ((copyin_rule hroom).pre fun s hs =>
            ⟨hs.1, hs.2.1.1, fun h => hfull (hs.2.2.trans (decide_eq_true h))⟩) fun ch => ?_
          cases ch with
          | none => exact fun s hs j _ => ⟨hs.1, hs.2.1.1⟩
          | some ch =>
            refine (push_rule hroom (fun _ _ _ h => h.2) fun x a f h => ?_).bind fun _ s hs => hs
            exact h.1.1.push h.1.2.symm h.2 ch
  · cases r with
    | none => exact fun _ _ => trivial
    | some i => exact (finish_write_rule i).pre fun s hs => hs i rfl

/-! ## Reading -/

omit [DecidableEq P] in
theorem down_quiet : Down fun x (a : P → Option Chan) f => (K → Quiet x a) ∧ f = false :=
  Down.and (fun _ _ _ _ hw h hK => (h hK).woken hw) (Down.pipe _)

omit [DecidableEq P] in
/-- A reader that has stopped waiting leaves nobody waiting. -/
theorem Quiet.nobody {x : Pipe} {a : P → Option Chan} (h : Quiet x a)
    (hready : ¬ (decide (x.nread = x.nwrite) && x.writeopen) = true) : Nobody .nread a := by
  intro q hq
  obtain ⟨hempty, hopen⟩ := h.1 q hq
  exact hready (Bool.and_eq_true_iff.2 ⟨decide_eq_true hempty, hopen⟩)

theorem Quiet.doze_read {x : Pipe} {a : P → Option Chan} (h : Quiet x a)
    (hwait : (decide (x.nread = x.nwrite) && x.writeopen) = true) :
    Quiet x (Function.update a t (some .nread)) := by
  obtain ⟨hempty, hopen⟩ := Bool.and_eq_true_iff.1 hwait
  exact ⟨h.1.doze ⟨of_decide_eq_true hempty, hopen⟩ .nread, h.2.doze_read⟩

omit [DecidableEq P] in
theorem down_nobody_nread : Down fun _ (a : P → Option Chan) _ => K → Nobody .nread a :=
  (down_nobody .nread).imp

/-- The loop that takes the bytes out. -/
theorem take_rule (addr : U64) (n : I32) :
    (logic P K).Triple t (Held t fun _ a _ => K → Nobody .nread a)
      (Prog.loop (fun i : Nat => do
        if ¬ (i : Int) < n.toInt then
          return .inr i
        if ← read fun x => decide (x.nread = x.nwrite) then
          return .inr i
        let ch ← Prog.perform .pop
        match ← Prog.perform (.copyout (addr + BitVec.ofNat 64 i) ch) with
        | none => return .inr i
        | some () => return .inl (i + 1)) 0)
      fun _ => Held t fun _ a _ => K → Nobody .nread a := by
  refine Triple.loop (fun _ => Held t fun _ a _ => K → Nobody .nread a)
    (fun _ => held_stable down_nobody_nread) fun i => ?_
  refine Triple.ite (fun _ s hs => hs) fun _ => ?_
  refine (read_rule down_nobody_nread _).bind fun isempty => ?_
  refine Triple.ite (fun _ s hs => ⟨hs.1, hs.2.1⟩) fun hsome => ?_
  have hdown := (down_nobody_nread (P := P) (K := K)).and
    (Down.pipe fun x _ => x.nread ≠ x.nwrite)
  refine Triple.bind ((pop_rule (ψ := fun _ a _ => K → Nobody .nread a) hdown
    (fun _ _ _ h => h.2) fun x a f h => h.1).pre fun s hs =>
      ⟨hs.1, hs.2.1, fun h => hsome (hs.2.2.trans (decide_eq_true h))⟩) fun ch => ?_
  refine (copyout_rule down_nobody_nread).bind fun r => ?_
  cases r with
  | none => exact fun s hs => hs
  | some _ => exact fun s hs => hs

theorem piperead_rule (addr : U64) (n : I32) :
    (logic P K).Triple t (fun _ => True) (piperead addr n) fun _ _ => True := by
  refine Triple.bind acquire_rule fun _ => ?_
  refine Triple.bind
    (R := fun ready s => ready = true → Held t (fun _ a _ => K → Nobody .nread a) s)
    (Triple.loop (fun _ => Held t fun x a f => (K → Quiet x a) ∧ f = false)
      (fun _ => held_stable down_quiet) fun _ => ?_) fun ready => ?_
  · refine (read_rule down_quiet _).bind fun waits => ?_
    refine Triple.ite (fun hready s hs _ => ⟨hs.1, fun hK => ?_⟩) fun hwait => ?_
    · refine (hs.2.1.1 hK).nobody fun h => ?_
      rw [hs.2.2, h] at hready
      cases hready
    · have hdown := (down_quiet (P := P) (K := K)).and
        (Down.pipe fun x _ => waits = (decide (x.nread = x.nwrite) && x.writeopen))
      refine (killed_rule hdown).bind fun dead => ?_
      have hkilled : Down fun x (a : P → Option Chan) f =>
          (((K → Quiet x a) ∧ f = false) ∧
              waits = (decide (x.nread = x.nwrite) && x.writeopen)) ∧
            (K → dead = true → f = true → Nobody .nread a) :=
        hdown.and fun x a a' f hw h hK hd hf => (h hK hd hf).woken hw
      refine Triple.ite (fun _ => ?_) fun _ => ?_
      · refine (release_rule hkilled fun x a f h hK => h.1.1.1 hK).bind fun _ _ _ h => ?_
        cases h
      · refine Triple.bind (sleep_rule hkilled fun x a f h hK => ?_) fun _ s hs => hs
        refine (h.1.1.1 hK).doze_read ?_
        rw [← h.1.2]
        cases waits with
        | false => exact absurd rfl hwait
        | true => rfl
  · refine Triple.ite (fun _ _ _ => trivial) fun hready => ?_
    have hready : ready = true := by
      cases ready with
      | false => exact absurd rfl hready
      | true => rfl
    refine Triple.bind ((take_rule addr n).pre fun s hs => hs hready) fun i => ?_
    refine (wakeup_rule down_nobody_nread (fun _ _ _ h => h) .nwrite).bind fun _ => ?_
    refine (release_rule (down_nobody_nread.and (down_nobody .nwrite)) fun x a f h hK => ?_).bind
      fun _ _ h => h
    exact ⟨(h.1 hK).readersWait, h.2.writersWait⟩

/-! ## Closing -/

omit [DecidableEq P] in
/-- Closing the end for writing changes nothing for the writers. -/
theorem WritersWait.close_write {x : Pipe} {a : P → Option Chan} (h : WritersWait x a) :
    WritersWait (Pipe.closed x true) a := fun q hq => h q hq

omit [DecidableEq P] in
theorem ReadersWait.close_read {x : Pipe} {a : P → Option Chan} (h : ReadersWait x a) :
    ReadersWait (Pipe.closed x false) a := fun q hq => h q hq

theorem pipeclose_rule (writable : Bool) :
    (logic P K).Triple t (fun _ => True) (pipeclose writable) fun _ _ => True := by
  refine Triple.bind acquire_rule fun _ => ?_
  cases writable with
  | true =>
    have hdown := (down_writersWait (P := P)).imp (ψ := fun _ _ => K)
    refine Triple.bind (close_rule (ψ := fun x a _ => K → WritersWait x a) down_quiet
      fun x a f h hK => (h.1 hK).2.close_write) fun _ => ?_
    refine (wakeup_rule hdown (fun _ _ _ h => h) .nread).bind fun _ => ?_
    exact release_rule (hdown.and (down_nobody .nread)) fun x a f h hK =>
      ⟨h.2.readersWait, h.1 hK⟩
  | false =>
    have hdown := (down_readersWait (P := P)).imp (ψ := fun _ _ => K)
    refine Triple.bind (close_rule (ψ := fun x a _ => K → ReadersWait x a) down_quiet
      fun x a f h hK => (h.1 hK).1.close_read) fun _ => ?_
    refine (wakeup_rule hdown (fun _ _ _ h => h) .nwrite).bind fun _ => ?_
    exact release_rule (hdown.and (down_nobody .nwrite)) fun x a f h hK =>
      ⟨h.1 hK, h.2.writersWait⟩

/-! ## Every run -/

theorem main_rule : (logic P K).Triple t (fun _ => True) main fun _ _ => False := by
  refine Triple.forever true_stable (next_rule.bind fun call => ?_)
  cases call with
  | none => exact fun _ h => h
  | some call =>
    cases call with
    | write addr n => exact (pipewrite_rule addr n).bind fun _ _ h => h
    | read addr n => exact (piperead_rule addr n).bind fun _ _ h => h
    | close writable => exact pipeclose_rule writable
    | kill q => exact kill_rule q

omit [DecidableEq P] in
theorem inv_start (K : Prop) (killed : P → Bool) : Inv K (State.new killed) := by
  refine ⟨⟨[], Ring.Holds.empty _ _, rfl⟩, fun _ _ => ⟨fun q hq => ?_, fun q hq => ?_⟩⟩
  · cases hq
  · cases hq

/-- The invariants hold in every state that a run reaches. -/
theorem inv_reach {A : Machine.OpPred (Op P) (State P) P}
    (hA : ∀ (β : Type) (p : P) (o : Op P β) (s : State P), A β p o s →
      K → NoKillBeforeWakeup β p o s)
    {killed : P → Bool} {g : Config (Op P) (State P) P}
    (hg : (machine P).Reach A (start killed) g) : Inv K g.mem :=
  (Logic.inv_of_reach (fun h => hA _ _ _ _ h) (fun _ => rfl) (inv_start K killed)
    (fun _ => wp_mono (fun _ _ h => h.elim) (main_rule _ trivial)) hg).1

/-- Every state of a pipe: what has been taken out is a prefix of what has
been put in, and the ring holds the rest. -/
theorem pipe_fifo (killed : P → Bool) (g : Config (Op P) (State P) P)
    (hg : (machine P).Reach Machine.always (start killed) g) :
    g.mem.taken <+: g.mem.put ∧
      (g.mem.pipe.nwrite - g.mem.pipe.nread).toNat ≤ PIPESIZE ∧
      g.mem.put.length = g.mem.taken.length + (g.mem.pipe.nwrite - g.mem.pipe.nread).toNat ∧
      ∀ j < (g.mem.pipe.nwrite - g.mem.pipe.nread).toNat,
        g.mem.put[g.mem.taken.length + j]? =
          some (g.mem.pipe.at (g.mem.pipe.nread + BitVec.ofNat 32 j)) := by
  have hinv := inv_reach (K := False) (fun _ _ _ _ _ h => h.elim) hg
  obtain ⟨⟨contents, hholds, hput⟩, -⟩ := hinv
  rw [← hholds.length]
  refine ⟨⟨contents, hput.symm⟩, hholds.le, ?_, fun j hj => ?_⟩
  · rw [hput, List.length_append]
  · rw [hput, List.getElem?_append_right (by omega), Nat.add_sub_cancel_left,
      List.getElem?_eq_getElem hj]
    exact congrArg some (hholds.get j hj).symm

/-- Process 0 sleeps on the empty pipe.  Process 1 puts a byte in, and before
it looks again process 2 has killed it. -/
def leftAsleep : List (Fin 3 × Input (Fin 3)) :=
  let reader := (0, .none)
  let writer := (1, .none)
  [reader, (0, .call (.read 0 1)), reader, reader, reader, reader, reader,
    writer, (1, .call (.write 0 2)), writer, writer, writer, writer, writer,
    (1, .byte (some 7)), writer, writer, writer,
    (2, .none), (2, .call (.kill 1)), (2, .none),
    writer, writer]

theorem run_leftAsleep :
    ((machine (Fin 3)).run Machine.always leftAsleep (start fun _ => false)).map
      (fun g => ((g.mem.lock, g.mem.asleep 0), g.mem.put, g.mem.pipe.nread, g.mem.pipe.nwrite)) =
        some ((none, some .nread), [7], 0, 1) := by decide

theorem pipe_fifo_leftAsleep : ∃ g : Config (Op (Fin 3)) (State (Fin 3)) (Fin 3),
    g.mem.put = [7] ∧ g.mem.taken <+: g.mem.put := by
  obtain ⟨g, hrun, hg⟩ := Option.map_eq_some_iff.1 run_leftAsleep
  have hput := (Prod.mk.inj (Prod.mk.inj hg).2).1
  exact ⟨g, hput, (pipe_fifo _ g (Machine.reach_of_run _ _ .start hrun)).1⟩

/-- In a run that meets the condition nobody is left asleep. -/
theorem pipe_awake (killed : P → Bool) (g : Config (Op P) (State P) P)
    (hg : (machine P).Reach NoKillBeforeWakeup (start killed) g) (hfree : g.mem.lock = none) :
    Quiet g.mem.pipe g.mem.asleep :=
  (inv_reach (K := True) (fun _ _ _ _ h _ => h) hg).2 trivial hfree

instance [Fintype P] {β : Type} (p : P) (o : Op P β) (s : State P) :
    Decidable (NoKillBeforeWakeup β p o s) :=
  match o with
  | .killed => inferInstanceAs
      (Decidable (s.killed p = true → s.fresh p = true → ∀ q, s.asleep q ≠ some .nread))
  | .acquire | .release | .doze _ | .awake | .wakeup _ | .kill _ | .read _ | .push _ | .pop
  | .close _ | .copyin _ | .copyout _ _ | .next => .isTrue trivial

/-- While process 0 sleeps on the empty pipe the lock is free. -/
theorem pipe_awake_doze : ∃ g : Config (Op (Fin 3)) (State (Fin 3)) (Fin 3),
    g.mem.asleep 0 = some .nread ∧ Quiet g.mem.pipe g.mem.asleep := by
  have hview : ((machine (Fin 3)).run NoKillBeforeWakeup (leftAsleep.take 7)
      (start fun _ => false)).map (fun g => (g.mem.lock, g.mem.asleep 0)) =
        some (none, some .nread) := by decide
  obtain ⟨g, hrun, hg⟩ := Option.map_eq_some_iff.1 hview
  obtain ⟨hlock, hasleep⟩ := Prod.mk.inj hg
  exact ⟨g, hasleep, pipe_awake _ g (Machine.reach_of_run _ _ .start hrun) hlock⟩

/-- A writer that finds itself killed leaves the reader of its byte asleep. -/
theorem reader_left_asleep : ¬ ∀ g : Config (Op (Fin 3)) (State (Fin 3)) (Fin 3),
    (machine (Fin 3)).Reach Machine.always (start fun _ => false) g →
      g.mem.lock = none → Quiet g.mem.pipe g.mem.asleep := by
  intro h
  obtain ⟨g, hrun, hg⟩ := Option.map_eq_some_iff.1 run_leftAsleep
  obtain ⟨hlock, hasleep⟩ := Prod.mk.inj (Prod.mk.inj hg).1
  obtain ⟨hnread, hnwrite⟩ := Prod.mk.inj (Prod.mk.inj (Prod.mk.inj hg).2).2
  have hempty := ((h g (Machine.reach_of_run _ _ .start hrun) hlock).1 0 hasleep).1
  rw [hnread, hnwrite] at hempty
  cases hempty

end Xv6.Pipes
