import Xv6.Pipe.Code
import Xv6.Conc.Guarantee
import Xv6.Ring.Fifo

/-!
# What the operations on a pipe do

One invariant says that the ring holds what has been put in and not yet taken
out.  Another, under the condition `K` on the run, says who may sleep while
the lock of the pipe is free.
-/

namespace Xv6.Pipes

open Conc Conc.Logic

variable {P : Type} {K : Prop} {t : P}

/-! ## The ring -/

theorem fits_PIPESIZE : Ring.Fits PIPESIZE 32 := ⟨by decide, by decide⟩

/-- The ring holds what has been put in and not taken out. -/
def Fifo (s : State P) : Prop :=
  ∃ contents, Ring.Holds s.pipe.data s.pipe.nread s.pipe.nwrite contents ∧
    s.put = s.taken ++ contents

def Full (x : Pipe) : Prop := x.nwrite = x.nread + BitVec.ofNat 32 PIPESIZE

instance : DecidablePred Full := fun x =>
  inferInstanceAs (Decidable (x.nwrite = x.nread + BitVec.ofNat 32 PIPESIZE))

theorem Fifo.push {s s' : State P} {ch : Byte} (h : Fifo s) (hroom : ¬ Full s.pipe)
    (hpipe : s'.pipe = s.pipe.push ch) (hput : s'.put = s.put ++ [ch])
    (htaken : s'.taken = s.taken) : Fifo s' := by
  obtain ⟨contents, hholds, heq⟩ := h
  have hlt : contents.length < PIPESIZE := by
    have hne : contents.length ≠ PIPESIZE := fun hlen =>
      hroom ((hholds.full_iff fits_PIPESIZE).2 hlen)
    exact Nat.lt_of_le_of_ne hholds.le hne
  refine ⟨contents ++ [ch], ?_, ?_⟩
  · rw [hpipe]
    exact hholds.push fits_PIPESIZE hlt ch
  · rw [hput, htaken, heq, List.append_assoc]

theorem Fifo.pop {s s' : State P} (h : Fifo s) (hsome : s.pipe.nread ≠ s.pipe.nwrite)
    (hpipe : s'.pipe = { s.pipe with nread := s.pipe.nread + 1 }) (hput : s'.put = s.put)
    (htaken : s'.taken = s.taken ++ [s.pipe.at s.pipe.nread]) : Fifo s' := by
  obtain ⟨contents, hholds, heq⟩ := h
  cases contents with
  | nil => exact absurd (hholds.eq_iff.2 rfl) hsome
  | cons a rest =>
    obtain ⟨hcell, hrest⟩ := hholds.pop fits_PIPESIZE
    have hat : s.pipe.at s.pipe.nread = a := hcell
    refine ⟨rest, ?_, ?_⟩
    · rw [hpipe]
      exact hrest
    · rw [hput, htaken, heq, hat, List.append_assoc, List.singleton_append]

theorem Fifo.congr {s s' : State P} (h : Fifo s) (hdata : s'.pipe.data = s.pipe.data)
    (hnread : s'.pipe.nread = s.pipe.nread) (hnwrite : s'.pipe.nwrite = s.pipe.nwrite)
    (hput : s'.put = s.put) (htaken : s'.taken = s.taken) : Fifo s' := by
  obtain ⟨contents, hholds, heq⟩ := h
  exact ⟨contents, by rw [hdata, hnread, hnwrite]; exact hholds, by rw [hput, htaken, heq]⟩

/-! ## Who may sleep -/

/-- Nobody sleeps on `chan`. -/
def Nobody (chan : Chan) (a : P → Option Chan) : Prop := ∀ q, a q ≠ some chan

/-- Who sleeps in `piperead` waits for a byte. -/
def ReadersWait (x : Pipe) (a : P → Option Chan) : Prop :=
  ∀ q, a q = some .nread → x.nread = x.nwrite ∧ x.writeopen = true

/-- Who sleeps in `pipewrite` waits for room. -/
def WritersWait (x : Pipe) (a : P → Option Chan) : Prop :=
  ∀ q, a q = some .nwrite → Full x ∧ x.readopen = true

def Quiet (x : Pipe) (a : P → Option Chan) : Prop := ReadersWait x a ∧ WritersWait x a

/-- Some have been woken up, and nobody has gone to sleep. -/
def Woken (a a' : P → Option Chan) : Prop := ∀ q c, a' q = some c → a q = some c

theorem Nobody.readersWait {x : Pipe} {a : P → Option Chan} (h : Nobody .nread a) :
    ReadersWait x a := fun q hq => absurd hq (h q)

theorem Nobody.writersWait {x : Pipe} {a : P → Option Chan} (h : Nobody .nwrite a) :
    WritersWait x a := fun q hq => absurd hq (h q)

theorem Nobody.woken {chan : Chan} {a a' : P → Option Chan} (h : Nobody chan a)
    (hw : Woken a a') : Nobody chan a' := fun q hq => h q (hw q chan hq)

theorem ReadersWait.woken {x : Pipe} {a a' : P → Option Chan} (h : ReadersWait x a)
    (hw : Woken a a') : ReadersWait x a' := fun q hq => h q (hw q _ hq)

theorem WritersWait.woken {x : Pipe} {a a' : P → Option Chan} (h : WritersWait x a)
    (hw : Woken a a') : WritersWait x a' := fun q hq => h q (hw q _ hq)

theorem Quiet.woken {x : Pipe} {a a' : P → Option Chan} (h : Quiet x a) (hw : Woken a a') :
    Quiet x a' := ⟨h.1.woken hw, h.2.woken hw⟩

section doze

variable [DecidableEq P]

/-- One more process sleeps, for a reason. -/
theorem ReadersWait.doze {x : Pipe} {a : P → Option Chan} (h : ReadersWait x a)
    (hreason : x.nread = x.nwrite ∧ x.writeopen = true) (c : Chan) :
    ReadersWait x (Function.update a t (some c)) := by
  intro q hq
  by_cases heq : q = t
  · exact hreason
  · rw [Function.update_of_ne heq] at hq
    exact h q hq

theorem ReadersWait.doze_write {x : Pipe} {a : P → Option Chan} (h : ReadersWait x a) :
    ReadersWait x (Function.update a t (some .nwrite)) := by
  intro q hq
  by_cases heq : q = t
  · rw [heq, Function.update_self] at hq
    cases hq
  · rw [Function.update_of_ne heq] at hq
    exact h q hq

theorem WritersWait.doze {x : Pipe} {a : P → Option Chan} (h : WritersWait x a)
    (hreason : Full x ∧ x.readopen = true) (c : Chan) :
    WritersWait x (Function.update a t (some c)) := by
  intro q hq
  by_cases heq : q = t
  · exact hreason
  · rw [Function.update_of_ne heq] at hq
    exact h q hq

theorem WritersWait.doze_read {x : Pipe} {a : P → Option Chan} (h : WritersWait x a) :
    WritersWait x (Function.update a t (some .nread)) := by
  intro q hq
  by_cases heq : q = t
  · rw [heq, Function.update_self] at hq
    cases hq
  · rw [Function.update_of_ne heq] at hq
    exact h q hq

end doze

/-! ## The logic -/

/-- The condition on a run: no process finds itself killed after it has put a
byte in the ring that a sleeping reader has not been woken for. -/
def NoKillBeforeWakeup : Machine.OpPred (Op P) (State P) P := fun _ p o s =>
  match o with
  | .killed => s.killed p = true → s.fresh p = true → Nobody .nread s.asleep
  | _ => True

def Inv (K : Prop) (s : State P) : Prop := Fifo s ∧ (K → s.lock = none → Quiet s.pipe s.asleep)

/-- What a process may do: the invariant stays, and a process that holds the
lock sees no change but that some wake up. -/
structure Guar (K : Prop) (t : P) (s s' : State P) : Prop where
  inv : Inv K s → Inv K s'
  others : ∀ u, u ≠ t → s.lock = some u →
    s'.lock = some u ∧ s'.pipe = s.pipe ∧ s'.fresh u = s.fresh u ∧ Woken s.asleep s'.asleep

variable [DecidableEq P]

abbrev logic (P : Type) [DecidableEq P] (K : Prop) : Logic (machine P) :=
  ofGuarantee (machine P) (Inv K) (fun β p o s => K → NoKillBeforeWakeup β p o s)
    (fun _ _ _ _ => True) (Guar K) fun _ _ _ hinv hg => hg.inv hinv

/-- What holds while `t` has the lock. -/
def Held (t : P) (φ : Pipe → (P → Option Chan) → Bool → Prop) (s : State P) : Prop :=
  s.lock = some t ∧ φ s.pipe s.asleep (s.fresh t)

/-- A statement that stays when processes wake up. -/
def Down (φ : Pipe → (P → Option Chan) → Bool → Prop) : Prop :=
  ∀ x a a' f, Woken a a' → φ x a f → φ x a' f

theorem held_stable {φ : Pipe → (P → Option Chan) → Bool → Prop} (hφ : Down φ) :
    (logic P K).Stable t (Held t φ) := by
  refine stable_of_guarantee (fun _ _ => rfl) fun u s s' hu _ hg ⟨hlock, hs⟩ => ?_
  obtain ⟨hlock', hpipe, hfresh, hwoken⟩ := hg.others t (Ne.symm hu) hlock
  refine ⟨hlock', ?_⟩
  rw [hpipe, hfresh]
  exact hφ _ _ _ _ hwoken hs

theorem true_stable : (logic P K).Stable t fun _ => True := fun _ _ _ _ => trivial

/-- An operation of the process that has the lock. -/
theorem held_act {β : Type} {φ : Pipe → (P → Option Chan) → Bool → Prop} {o : Op P β}
    {Q : β → State P → Prop} (hφ : Down φ)
    (hstep : ∀ s i b s', Held t φ s → Fifo s → (K → NoKillBeforeWakeup β t o s) →
      exec t i s o = some (b, s') →
      Fifo s' ∧ (K → s'.lock = none → Quiet s'.pipe s'.asleep) ∧ Q b s') :
    (logic P K).Triple t (Held t φ) (.perform o) Q := by
  refine Triple.act (fun _ _ => rfl) (held_stable hφ) (fun _ _ _ _ => trivial)
    fun s i b s' hs hinv ha hx => ?_
  obtain ⟨hfifo, hquiet, hq⟩ := hstep s i b s' hs hinv.1 ha hx
  refine ⟨⟨fun _ => ⟨hfifo, hquiet⟩, fun u hu hlock => ?_⟩, hq⟩
  rw [hs.1] at hlock
  exact absurd (Option.some.inj hlock).symm hu

/-! ## The operations -/

/-- The lock is taken. -/
theorem acquire_rule : (logic P K).Triple t (fun _ => True) acquire fun _ =>
    Held t fun x a f => (K → Quiet x a) ∧ f = false := by
  refine Triple.act (fun _ _ => rfl) true_stable (fun _ _ _ _ => trivial)
    fun s i b s' _ hinv _ hx => ?_
  have hx : exec t i s .acquire = some (b, s') := hx
  unfold exec at hx
  cases hlock : s.lock with
  | some u =>
    rw [hlock] at hx
    cases hx
  | none =>
    rw [hlock] at hx
    obtain rfl := (Prod.mk.inj (Option.some.inj hx)).2
    refine ⟨⟨fun _ => ⟨hinv.1.congr rfl rfl rfl rfl rfl, fun _ h => by cases h⟩, fun u _ h => ?_⟩,
      rfl, fun hK => hinv.2 hK hlock, Function.update_self ..⟩
    rw [hlock] at h
    cases h

theorem release_rule {φ : Pipe → (P → Option Chan) → Bool → Prop} (hφ : Down φ)
    (hquiet : ∀ x a f, φ x a f → K → Quiet x a) :
    (logic P K).Triple t (Held t φ) release fun _ _ => True := by
  refine held_act hφ fun s i b s' hs hfifo _ hx => ?_
  obtain rfl := (Prod.mk.inj (Option.some.inj hx)).2
  exact ⟨hfifo.congr rfl rfl rfl rfl rfl, fun hK _ => hquiet _ _ _ hs.2 hK, trivial⟩

theorem awake_rule : (logic P K).Triple t (fun _ => True) (.perform .awake) fun _ _ => True := by
  refine Triple.act (fun _ _ => rfl) true_stable (fun _ _ _ _ => trivial)
    fun s i b s' _ hinv _ hx => ?_
  have hsame : s' = s := by
    have hx : (if s.asleep t = none then some ((), s) else none) = some (b, s') := hx
    by_cases hwake : s.asleep t = none
    · rw [if_pos hwake] at hx
      exact (Prod.mk.inj (Option.some.inj hx)).2.symm
    · rw [if_neg hwake] at hx
      cases hx
  rw [hsame]
  exact ⟨⟨fun h => h, fun u _ h => ⟨h, rfl, rfl, fun _ _ hq => hq⟩⟩, trivial⟩

/-- `sleep` gives the lock up and takes it again. -/
theorem sleep_rule {φ : Pipe → (P → Option Chan) → Bool → Prop} {chan : Chan} (hφ : Down φ)
    (hquiet : ∀ x a f, φ x a f → K → Quiet x (Function.update a t (some chan))) :
    (logic P K).Triple t (Held t φ) (sleep chan) fun _ =>
      Held t fun x a f => (K → Quiet x a) ∧ f = false := by
  refine Triple.bind (held_act hφ (Q := fun _ _ => True) fun s i b s' hs hfifo _ hx => ?_)
    fun _ => awake_rule.bind fun _ => acquire_rule
  obtain rfl := (Prod.mk.inj (Option.some.inj hx)).2
  exact ⟨hfifo.congr rfl rfl rfl rfl rfl, fun hK _ => hquiet _ _ _ hs.2 hK, trivial⟩

omit [DecidableEq P] in
theorem woken_wakeup (a : P → Option Chan) (chan : Chan) :
    Woken a fun q => if a q = some chan then none else a q := by
  intro q c hq
  have hq : (if a q = some chan then none else a q) = some c := hq
  by_cases hread : a q = some chan
  · rw [if_pos hread] at hq
    cases hq
  · rw [if_neg hread] at hq
    exact hq

omit [DecidableEq P] in
theorem nobody_wakeup (a : P → Option Chan) (chan : Chan) :
    Nobody chan fun q => if a q = some chan then none else a q := by
  intro q hq
  have hq : (if a q = some chan then none else a q) = some chan := hq
  by_cases hread : a q = some chan
  · rw [if_pos hread] at hq
    cases hq
  · rw [if_neg hread] at hq
    exact hread hq

/-- An operation of the process that has the lock and keeps it. -/
theorem keep_act {β : Type} {φ : Pipe → (P → Option Chan) → Bool → Prop} {o : Op P β}
    {Q : β → Pipe → (P → Option Chan) → Bool → Prop} (hφ : Down φ)
    (hstep : ∀ s i b s', Held t φ s → Fifo s → (K → NoKillBeforeWakeup β t o s) →
      exec t i s o = some (b, s') →
      Fifo s' ∧ s'.lock = s.lock ∧ Q b s'.pipe s'.asleep (s'.fresh t)) :
    (logic P K).Triple t (Held t φ) (.perform o) fun b => Held t (Q b) := by
  refine held_act hφ fun s i b s' hs hfifo ha hx => ?_
  obtain ⟨hfifo', hlock, hq⟩ := hstep s i b s' hs hfifo ha hx
  have hlock' : s'.lock = some t := hlock.trans hs.1
  refine ⟨hfifo', fun _ hfree => ?_, hlock', hq⟩
  rw [hlock'] at hfree
  cases hfree

/-- All who sleep on the channel wake up. -/
theorem wakeup_rule {φ : Pipe → (P → Option Chan) → Bool → Prop} (hφ : Down φ)
    (hfree : ∀ x a f, φ x a f → φ x a false) (chan : Chan) :
    (logic P K).Triple t (Held t φ) (wakeup chan) fun _ =>
      Held t fun x a f => φ x a f ∧ Nobody chan a := by
  refine keep_act hφ fun s i b s' hs hfifo _ hx => ?_
  obtain rfl := (Prod.mk.inj (Option.some.inj hx)).2
  refine ⟨hfifo.congr rfl rfl rfl rfl rfl, rfl, ?_, nobody_wakeup _ _⟩
  have hwoken := hφ _ _ _ _ (woken_wakeup s.asleep chan) hs.2
  show φ s.pipe _ ((if chan = .nread then Function.update s.fresh t false else s.fresh) t)
  by_cases hread : chan = .nread
  · rw [if_pos hread, Function.update_self]
    exact hfree _ _ _ hwoken
  · rw [if_neg hread]
    exact hwoken

/-- A process that finds itself killed has, under the condition, left no
reader asleep behind its bytes. -/
theorem killed_rule {φ : Pipe → (P → Option Chan) → Bool → Prop} (hφ : Down φ) :
    (logic P K).Triple t (Held t φ) (.perform .killed) fun b =>
      Held t fun x a f => φ x a f ∧ (K → b = true → f = true → Nobody .nread a) := by
  refine keep_act hφ fun s i b s' hs hfifo ha hx => ?_
  obtain ⟨rfl, rfl⟩ := Prod.mk.inj (Option.some.inj hx)
  exact ⟨hfifo, rfl, hs.2, ha⟩

theorem read_rule {β : Type} {φ : Pipe → (P → Option Chan) → Bool → Prop} (hφ : Down φ)
    (f : Pipe → β) :
    (logic P K).Triple t (Held t φ) (read f) fun b =>
      Held t fun x a e => φ x a e ∧ b = f x := by
  refine keep_act hφ fun s i b s' hs hfifo _ hx => ?_
  obtain ⟨rfl, rfl⟩ := Prod.mk.inj (Option.some.inj hx)
  exact ⟨hfifo, rfl, hs.2, rfl⟩

/-- A byte goes in where there is room. -/
theorem push_rule {φ ψ : Pipe → (P → Option Chan) → Bool → Prop} {ch : Byte} (hφ : Down φ)
    (hroom : ∀ x a f, φ x a f → ¬ Full x) (hψ : ∀ x a f, φ x a f → ψ (x.push ch) a true) :
    (logic P K).Triple t (Held t φ) (.perform (.push ch)) fun _ => Held t ψ := by
  refine keep_act hφ fun s i b s' hs hfifo _ hx => ?_
  obtain rfl := (Prod.mk.inj (Option.some.inj hx)).2
  refine ⟨hfifo.push (hroom _ _ _ hs.2) rfl rfl rfl, rfl, ?_⟩
  show ψ _ _ (Function.update s.fresh t true t)
  rw [Function.update_self]
  exact hψ _ _ _ hs.2

/-- A byte comes out where there is one. -/
theorem pop_rule {φ ψ : Pipe → (P → Option Chan) → Bool → Prop} (hφ : Down φ)
    (hsome : ∀ x a f, φ x a f → x.nread ≠ x.nwrite)
    (hψ : ∀ x a f, φ x a f → ψ { x with nread := x.nread + 1 } a f) :
    (logic P K).Triple t (Held t φ) (.perform .pop) fun _ => Held t ψ := by
  refine keep_act hφ fun s i b s' hs hfifo _ hx => ?_
  obtain rfl := (Prod.mk.inj (Option.some.inj hx)).2
  exact ⟨hfifo.pop (hsome _ _ _ hs.2) rfl rfl rfl, rfl, hψ _ _ _ hs.2⟩

theorem close_rule {φ ψ : Pipe → (P → Option Chan) → Bool → Prop} {writable : Bool}
    (hφ : Down φ) (hψ : ∀ x a f, φ x a f → ψ (Pipe.closed x writable) a f) :
    (logic P K).Triple t (Held t φ) (.perform (.close writable)) fun _ => Held t ψ := by
  refine keep_act hφ fun s i b s' hs hfifo _ hx => ?_
  obtain rfl := (Prod.mk.inj (Option.some.inj hx)).2
  refine ⟨?_, rfl, hψ _ _ _ hs.2⟩
  cases writable <;> exact hfifo.congr rfl rfl rfl rfl rfl

theorem copyin_rule {φ : Pipe → (P → Option Chan) → Bool → Prop} {srcva : U64} (hφ : Down φ) :
    (logic P K).Triple t (Held t φ) (.perform (.copyin srcva)) fun _ => Held t φ := by
  refine keep_act hφ fun s i b s' hs hfifo _ hx => ?_
  cases i with
  | byte ch =>
    obtain rfl := (Prod.mk.inj (Option.some.inj hx)).2
    exact ⟨hfifo, rfl, hs.2⟩
  | _ => cases hx

theorem copyout_rule {φ : Pipe → (P → Option Chan) → Bool → Prop} {dstva : U64} {ch : Byte}
    (hφ : Down φ) :
    (logic P K).Triple t (Held t φ) (.perform (.copyout dstva ch)) fun _ => Held t φ := by
  refine keep_act hφ fun s i b s' hs hfifo _ hx => ?_
  cases i with
  | stored r =>
    obtain rfl := (Prod.mk.inj (Option.some.inj hx)).2
    exact ⟨hfifo, rfl, hs.2⟩
  | _ => cases hx

/-! ## Outside the lock -/

/-- A step that leaves the pipe and its lock alone. -/
theorem outside_act {β : Type} {o : Op P β}
    (hstep : ∀ s i b s', exec t i s o = some (b, s') →
      s'.pipe = s.pipe ∧ s'.lock = s.lock ∧ s'.fresh = s.fresh ∧ s'.put = s.put ∧
        s'.taken = s.taken ∧ Woken s.asleep s'.asleep) :
    (logic P K).Triple t (fun _ => True) (.perform o) fun _ _ => True := by
  refine Triple.act (fun _ _ => rfl) true_stable (fun _ _ _ _ => trivial)
    fun s i b s' _ _ _ hx => ?_
  obtain ⟨hpipe, hlock, hfresh, hput, htaken, hwoken⟩ := hstep s i b s' hx
  refine ⟨⟨fun hinv => ⟨?_, fun hK hfree => ?_⟩, fun u _ hu => ⟨?_, hpipe, ?_, hwoken⟩⟩, trivial⟩
  · exact hinv.1.congr (by rw [hpipe]) (by rw [hpipe]) (by rw [hpipe]) hput htaken
  · rw [hpipe]
    rw [hlock] at hfree
    exact (hinv.2 hK hfree).woken hwoken
  · rw [hlock, hu]
  · rw [hfresh]

theorem kill_rule (q : P) :
    (logic P K).Triple t (fun _ => True) (.perform (.kill q)) fun _ _ => True := by
  refine outside_act fun s i b s' hx => ?_
  obtain rfl := (Prod.mk.inj (Option.some.inj hx)).2
  refine ⟨rfl, rfl, rfl, rfl, rfl, fun u c hu => ?_⟩
  have hu : Function.update s.asleep q none u = some c := hu
  by_cases heq : u = q
  · rw [heq, Function.update_self] at hu
    cases hu
  · rw [Function.update_of_ne heq] at hu
    exact hu

theorem next_rule :
    (logic P K).Triple t (fun _ => True) (.perform .next) fun _ _ => True := by
  refine outside_act fun s i b s' hx => ?_
  have hsame : s' = s := by
    cases i <;> exact (Prod.mk.inj (Option.some.inj hx)).2.symm
  rw [hsame]
  exact ⟨rfl, rfl, rfl, rfl, rfl, fun _ _ h => h⟩

end Xv6.Pipes
