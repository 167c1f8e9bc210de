import Xv6.Proc.Boot
import Xv6.Conc.Logic

/-!
# The locking discipline

Who may write what, and with which locks held.  The comments of `proc.h` and
`proc.c` state it in part: `wait_lock` protects `parent`, `p->lock` protects
`state`, and the rest belongs to the process.  `must` is the discipline, as an
obligation on every operation; `Inv` is what it keeps true of the shared
state.  The conditions that a run may be known to meet are in `Known`.
-/

namespace Xv6

open Conc Conc.Machine

/-- The process table. -/
abbrev Table := Slot → Proc

/-- The process that a thread is. -/
def Tid.slot : Tid → Option Slot
  | .cpu _ => none
  | .proc p => some p

@[simp] theorem Tid.slot_cpu (c : Cpu) : (Tid.cpu c).slot = none := rfl

@[simp] theorem Tid.slot_proc (p : Slot) : (Tid.proc p).slot = some p := rfl

/-! ## One lock or processor changes -/

namespace Kernel

variable (s : Kernel) {k l : Lock} {c d : Cpu}

theorem setLocked_same (l : Lock) (h : Option Cpu) : (s.setLocked l h).locked l = h := if_pos rfl

theorem setLocked_ne (h : Option Cpu) (hk : k ≠ l) : (s.setLocked l h).locked k = s.locked k :=
  if_neg hk

theorem setCurrent_same (c : Cpu) (p : Option Slot) : (s.setCurrent c p).current c = p :=
  if_pos rfl

theorem setCurrent_ne (p : Option Slot) (hd : d ≠ c) :
    (s.setCurrent c p).current d = s.current d :=
  if_neg hd

theorem modCpu_same (c : Cpu) (f : CpuState → CpuState) :
    (s.modCpu c f).cpu c = f (s.cpu c) :=
  if_pos rfl

theorem modCpu_ne (f : CpuState → CpuState) (hd : d ≠ c) : (s.modCpu c f).cpu d = s.cpu d :=
  if_neg hd

end Kernel

/-! ## What a store does to the table -/

/-- The process table after a store. -/
def Write.table (T : Table) : Write → Table
  | .state p v => fun q => if q = p then { T q with state := v } else T q
  | .chan p v => fun q => if q = p then { T q with chan := v } else T q
  | .killed p v => fun q => if q = p then { T q with killed := v } else T q
  | .xstate p v => fun q => if q = p then { T q with xstate := v } else T q
  | .pid p v => fun q => if q = p then { T q with pid := v } else T q
  | .xstatus p v => fun q => if q = p then { T q with xstatus := v } else T q
  | .parent p v => fun q => if q = p then { T q with parent := v } else T q
  | .priv p f => fun q => if q = p then { T q with priv := f (T q).priv } else T q
  | .creator p v => fun q => if q = p then { T q with creator := v } else T q
  | .byForkn p v => fun q => if q = p then { T q with byForkn := v } else T q
  | .ended p v => fun q => if q = p then { T q with ended := v } else T q
  | .site p v => fun q => if q = p then { T q with site := v } else T q
  | .leaving p v => fun q => if q = p then { T q with leaving := v } else T q
  | .dozing p v => fun q => if q = p then { T q with dozing := v } else T q
  | .reaped p v => fun q => if q = p then { T q with reaped := v } else T q
  | .reaps p v => fun q => if q = p then { T q with reaps := v } else T q
  | .reap p pp => fun q =>
    { T q with
      reaped := if q = p then (T q).reaped + 1 else (T q).reaped
      reaps := if q = pp then (T q).reaps + 1 else (T q).reaps }
  | .target p v => fun q => if q = p then { T q with target := v } else T q
  | .newpid p v => fun q => if q = p then { T q with newpid := v } else T q
  | .message p v => fun q => if q = p then { T q with message := v } else T q
  | .nextpid _ => T
  | .data _ => T

namespace Write

variable (w : Write) (s : Kernel)

theorem apply_proc : (w.apply s).proc = w.table s.proc := by cases w <;> rfl

theorem apply_current : (w.apply s).current = s.current := by cases w <;> rfl

theorem apply_cpu : (w.apply s).cpu = s.cpu := by cases w <;> rfl

theorem apply_locked : (w.apply s).locked = s.locked := by cases w <;> rfl

theorem apply_initproc : (w.apply s).initproc = s.initproc := by cases w <;> rfl

end Write

/-! Each field changes only in a store that names it. -/

section

variable {α : Type} (f : Proc → α) {x y : Proc} {p q : Slot}

/-- A store to another field. -/
theorem other_field (h : f y = f x) : f (if q = p then y else x) = f x := by
  split
  · exact h
  · rfl

/-- A store that names the field, in slot `p`. -/
theorem named_field (store : Slot → α → Write) {v : α} (h : f y = v) :
    f (if q = p then y else x) = f x ∨
      ∃ v', store p v = store q v' ∧ f (if q = p then y else x) = v' := by
  by_cases hq : q = p
  · subst hq
    exact .inr ⟨v, rfl, (congrArg f (if_pos rfl)).trans h⟩
  · exact .inl (congrArg f (if_neg hq))

end

namespace Write

variable (w : Write) (T : Table) (q : Slot)

theorem table_state : (w.table T q).state = (T q).state ∨
    ∃ v, w = .state q v ∧ (w.table T q).state = v := by
  cases w with
  | state => exact named_field Proc.state Write.state rfl
  | reap | nextpid | data => exact .inl rfl
  | _ => exact .inl (other_field Proc.state rfl)

theorem table_chan : (w.table T q).chan = (T q).chan ∨
    ∃ v, w = .chan q v ∧ (w.table T q).chan = v := by
  cases w with
  | chan => exact named_field Proc.chan Write.chan rfl
  | reap | nextpid | data => exact .inl rfl
  | _ => exact .inl (other_field Proc.chan rfl)

theorem table_killed : (w.table T q).killed = (T q).killed ∨
    ∃ v, w = .killed q v ∧ (w.table T q).killed = v := by
  cases w with
  | killed => exact named_field Proc.killed Write.killed rfl
  | reap | nextpid | data => exact .inl rfl
  | _ => exact .inl (other_field Proc.killed rfl)

theorem table_xstate : (w.table T q).xstate = (T q).xstate ∨
    ∃ v, w = .xstate q v ∧ (w.table T q).xstate = v := by
  cases w with
  | xstate => exact named_field Proc.xstate Write.xstate rfl
  | reap | nextpid | data => exact .inl rfl
  | _ => exact .inl (other_field Proc.xstate rfl)

theorem table_pid : (w.table T q).pid = (T q).pid ∨
    ∃ v, w = .pid q v ∧ (w.table T q).pid = v := by
  cases w with
  | pid => exact named_field Proc.pid Write.pid rfl
  | reap | nextpid | data => exact .inl rfl
  | _ => exact .inl (other_field Proc.pid rfl)

theorem table_xstatus : (w.table T q).xstatus = (T q).xstatus ∨
    ∃ v, w = .xstatus q v ∧ (w.table T q).xstatus = v := by
  cases w with
  | xstatus => exact named_field Proc.xstatus Write.xstatus rfl
  | reap | nextpid | data => exact .inl rfl
  | _ => exact .inl (other_field Proc.xstatus rfl)

theorem table_parent : (w.table T q).parent = (T q).parent ∨
    ∃ v, w = .parent q v ∧ (w.table T q).parent = v := by
  cases w with
  | parent => exact named_field Proc.parent Write.parent rfl
  | reap | nextpid | data => exact .inl rfl
  | _ => exact .inl (other_field Proc.parent rfl)

theorem table_creator : (w.table T q).creator = (T q).creator ∨
    ∃ v, w = .creator q v ∧ (w.table T q).creator = v := by
  cases w with
  | creator => exact named_field Proc.creator Write.creator rfl
  | reap | nextpid | data => exact .inl rfl
  | _ => exact .inl (other_field Proc.creator rfl)

theorem table_byForkn : (w.table T q).byForkn = (T q).byForkn ∨
    ∃ v, w = .byForkn q v ∧ (w.table T q).byForkn = v := by
  cases w with
  | byForkn => exact named_field Proc.byForkn Write.byForkn rfl
  | reap | nextpid | data => exact .inl rfl
  | _ => exact .inl (other_field Proc.byForkn rfl)

theorem table_ended : (w.table T q).ended = (T q).ended ∨
    ∃ v, w = .ended q v ∧ (w.table T q).ended = v := by
  cases w with
  | ended => exact named_field Proc.ended Write.ended rfl
  | reap | nextpid | data => exact .inl rfl
  | _ => exact .inl (other_field Proc.ended rfl)

theorem table_site : (w.table T q).site = (T q).site ∨
    ∃ v, w = .site q v ∧ (w.table T q).site = v := by
  cases w with
  | site => exact named_field Proc.site Write.site rfl
  | reap | nextpid | data => exact .inl rfl
  | _ => exact .inl (other_field Proc.site rfl)

theorem table_leaving : (w.table T q).leaving = (T q).leaving ∨
    ∃ v, w = .leaving q v ∧ (w.table T q).leaving = v := by
  cases w with
  | leaving => exact named_field Proc.leaving Write.leaving rfl
  | reap | nextpid | data => exact .inl rfl
  | _ => exact .inl (other_field Proc.leaving rfl)

theorem table_dozing : (w.table T q).dozing = (T q).dozing ∨
    ∃ v, w = .dozing q v ∧ (w.table T q).dozing = v := by
  cases w with
  | dozing => exact named_field Proc.dozing Write.dozing rfl
  | reap | nextpid | data => exact .inl rfl
  | _ => exact .inl (other_field Proc.dozing rfl)

theorem table_target : (w.table T q).target = (T q).target ∨
    ∃ v, w = .target q v ∧ (w.table T q).target = v := by
  cases w with
  | target => exact named_field Proc.target Write.target rfl
  | reap | nextpid | data => exact .inl rfl
  | _ => exact .inl (other_field Proc.target rfl)

theorem table_newpid : (w.table T q).newpid = (T q).newpid ∨
    ∃ v, w = .newpid q v ∧ (w.table T q).newpid = v := by
  cases w with
  | newpid => exact named_field Proc.newpid Write.newpid rfl
  | reap | nextpid | data => exact .inl rfl
  | _ => exact .inl (other_field Proc.newpid rfl)

theorem table_message : (w.table T q).message = (T q).message ∨
    ∃ v, w = .message q v ∧ (w.table T q).message = v := by
  cases w with
  | message => exact named_field Proc.message Write.message rfl
  | reap | nextpid | data => exact .inl rfl
  | _ => exact .inl (other_field Proc.message rfl)

theorem table_priv : (w.table T q).priv = (T q).priv ∨
    ∃ f, w = .priv q f ∧ (w.table T q).priv = f (T q).priv := by
  cases w with
  | priv p f =>
    by_cases hq : q = p
    · subst hq
      exact .inr ⟨f, rfl, congrArg Proc.priv (if_pos rfl)⟩
    · exact .inl (congrArg Proc.priv (if_neg hq))
  | reap | nextpid | data => exact .inl rfl
  | _ => exact .inl (other_field Proc.priv rfl)

theorem table_reaped : (w.table T q).reaped = (T q).reaped ∨
    (∃ v, w = .reaped q v ∧ (w.table T q).reaped = v) ∨
      ∃ pp, w = .reap q pp ∧ (w.table T q).reaped = (T q).reaped + 1 := by
  cases w with
  | reap p pp =>
    by_cases hq : q = p
    · subst hq
      exact .inr (.inr ⟨pp, rfl, if_pos rfl⟩)
    · exact .inl (if_neg hq)
  | reaped p v =>
    by_cases hq : q = p
    · subst hq
      exact .inr (.inl ⟨v, rfl, congrArg Proc.reaped (if_pos rfl)⟩)
    · exact .inl (congrArg Proc.reaped (if_neg hq))
  | nextpid | data => exact .inl rfl
  | _ => exact .inl (other_field Proc.reaped rfl)

theorem table_reaps : (w.table T q).reaps = (T q).reaps ∨
    (∃ v, w = .reaps q v ∧ (w.table T q).reaps = v) ∨
      ∃ p, w = .reap p q ∧ (w.table T q).reaps = (T q).reaps + 1 := by
  cases w with
  | reap p pp =>
    by_cases hq : q = pp
    · subst hq
      exact .inr (.inr ⟨p, rfl, if_pos rfl⟩)
    · exact .inl (if_neg hq)
  | reaps p v =>
    by_cases hq : q = p
    · subst hq
      exact .inr (.inl ⟨v, rfl, congrArg Proc.reaps (if_pos rfl)⟩)
    · exact .inl (congrArg Proc.reaps (if_neg hq))
  | nextpid | data => exact .inl rfl
  | _ => exact .inl (other_field Proc.reaps rfl)

end Write

/-! ## Children -/

namespace Table

/-- `q` is a child of `p` that has exited. -/
def ZombieChild (T : Table) (p q : Slot) : Prop :=
  (T q).parent = some p ∧ (T q).state = .zombie

instance (T : Table) (p q : Slot) : Decidable (T.ZombieChild p q) :=
  inferInstanceAs (Decidable (_ ∧ _))

/-- `p` has a child, in whatever state. -/
def HasChild (T : Table) (p : Slot) : Prop := ∃ q, (T q).parent = some p

instance (T : Table) (p : Slot) : Decidable (T.HasChild p) :=
  inferInstanceAs (Decidable (∃ _, _))

/-- How many children `p` has. -/
def numChildren (T : Table) (p : Slot) : Nat := slots.countP fun q => (T q).parent = some p

/-- How many exited children `p` has. -/
def numZombies (T : Table) (p : Slot) : Nat := slots.countP fun q => T.ZombieChild p q

/-- `q` is a new process that its creator `me` has not started yet. -/
def Owned (T : Table) (me : Option Slot) (q : Slot) : Prop :=
  (T q).state = .used ∧ (T q).creator = me ∧ me ≠ none

/-- `q` is a new process that its creator `me` sets up in `forkn`. -/
def Forked (T : Table) (me : Option Slot) (q : Slot) : Prop :=
  T.Owned me q ∧ (T q).byForkn = true

end Table

/-- The process runs, or waits to. -/
def Proc.Live (x : Proc) : Prop := x.state = .runnable ∨ x.state = .running ∨ x.state = .sleeping

/-! ## Statuses -/

/-- The waits that `kill` interrupts: their loops test `killed`. -/
def Site.interruptible : Site → Bool
  | .wait | .piperead | .pipewrite | .consoleread | .sysSleep => true
  | .waitall | .fs => false

/-- The process does not sleep, interruptibly, on a kill. -/
def Proc.KillSeen (x : Proc) : Prop :=
  x.state = .sleeping → x.site.interruptible = true → x.killed = false

/-- The status that a process's own termination determines. -/
def Termination.own : Termination → Option I32
  | .status s => some s
  | .msg => none
  | .killed => some (-1)

instance (e : Option Termination) : Decidable (∃ v, e = some (.status v)) :=
  match e with
  | some (.status v) => .isTrue ⟨v, rfl⟩
  | some .msg => .isFalse fun ⟨_, h⟩ => nomatch h
  | some .killed => .isFalse fun ⟨_, h⟩ => nomatch h
  | none => .isFalse fun ⟨_, h⟩ => nomatch h

/-- The reported status is the child's own. -/
def Report.Own (r : Report) : Prop := ∃ e, r.ended = some e ∧ e.own = some r.status

/-! ## Conditions on runs -/

/-- Whenever `waitall` starts a round, it has nothing to wait for, or it finds
an exited child, or there is no child; and no orphan is handed to `initproc`
while that is on its way out of `waitall`. -/
def completeScans : OpPred Op Kernel Cpu
  | _, c, .note (.scan n _), s =>
    ∀ p, s.current c = some p →
      n.toInt ≤ 0 ∨ (∃ q, Table.ZombieChild s.proc p q) ∨ ¬ Table.HasChild s.proc p
  | _, c, .write (.parent _ (some i)), s =>
    i = s.initproc → s.current c ≠ some i → (s.proc i).leaving = false
  | _, _, _, _ => True

/-- Whenever `waitall` starts a round, it is not the case that all children
have exited and that they are too few. -/
def liveScans : OpPred Op Kernel Cpu
  | _, c, .note (.scan n count), s =>
    ∀ p, s.current c = some p →
      ¬ (Table.HasChild s.proc p ∧ (∀ q, (s.proc q).parent = some p → (s.proc q).state = .zombie) ∧
        ((count + Table.numChildren s.proc p : Nat) : Int) < n.toInt)
  | _, _, _, _ => True

/-- No kill falls between the test of `killed` and the change of state. -/
def noKillInWindow : OpPred Op Kernel Cpu
  | _, _, .write (.state p .sleeping), s =>
    (s.proc p).site.interruptible = true → (s.proc p).killed = false
  | _, _, _, _ => True

/-- A child that `waitall` collects has called `exit` or `exit_num`, or was
killed and its slot's `xstatus` was left at -1. -/
def ownStatuses : OpPred Op Kernel Cpu
  | _, _, .note (.collect pp _), s =>
    (∃ v, (s.proc pp).ended = some (.status v)) ∨
      ((s.proc pp).ended = some .killed ∧ (s.proc pp).xstatus = -1)
  | _, _, _, _ => True

/-- No round of `waitall` finds more than what is still wanted, or than there
is place for. -/
def boundedScans : OpPred Op Kernel Cpu
  | _, c, .note (.scan n count), s =>
    ∀ p, s.current c = some p →
      ((count + Table.numZombies s.proc p : Nat) : Int) ≤ n.toInt ∧
        count + Table.numZombies s.proc p ≤ NPROC
  | _, _, _, _ => True

/-- Once `waitall` has collected a child, it can store what it has to report. -/
def copiesOut : OpPred Op Kernel Cpu
  | _, c, .vm f, s =>
    ∀ p, s.current c = some p → (s.proc p).leaving = true → 0 < (s.proc p).reaped →
      ∀ r m, f s.mem = .ok (r, m) → ¬ HEq r (none : Option Unit)
  | _, _, _, _ => True

/-- No child that `wait` finds has the process id -1. -/
def foundNamed : OpPred Op Kernel Cpu
  | _, _, .note (.found pid), _ => pid ≠ -1
  | _, _, _, _ => True

/-- Nobody calls `kill(0)`, and `waitall` frees no process that somebody else
has locked. -/
def killsApart : OpPred Op Kernel Cpu
  | _, _, .note (.kills pid), _ => pid ≠ 0
  | _, c, .write (.pid p _), s =>
    s.locked (.proc p) = none ∨ s.locked (.proc p) = some c
  | _, c, .write (.killed p false), s =>
    s.locked (.proc p) = none ∨ s.locked (.proc p) = some c
  | _, c, .write (.state p .unused), s =>
    s.locked (.proc p) = none ∨ s.locked (.proc p) = some c
  | _, _, _, _ => True

/-- `waitall` collects nobody. -/
def collectsNone : OpPred Op Kernel Cpu
  | _, _, .note (.collect _ _), _ => False
  | _, _, _, _ => True

/-- `allocpid` is called only while `nextpid` is positive. -/
def pidsPositive : OpPred Op Kernel Cpu
  | _, _, .write (.nextpid _), s => 0 < s.nextpid.toInt
  | _, _, _, _ => True

variable {β : Type} (c : Cpu) (o : Op β) (s : Kernel)

instance : Decidable (completeScans β c o s) := by
  unfold completeScans
  split <;> exact inferInstance

instance : Decidable (liveScans β c o s) := by
  unfold liveScans
  split <;> exact inferInstance

instance : Decidable (noKillInWindow β c o s) := by
  unfold noKillInWindow
  split <;> exact inferInstance

instance : Decidable (ownStatuses β c o s) := by
  unfold ownStatuses
  split <;> exact inferInstance

instance : Decidable (boundedScans β c o s) := by
  unfold boundedScans
  split <;> exact inferInstance

instance : Decidable (foundNamed β c o s) := by
  unfold foundNamed
  split <;> exact inferInstance

instance : Decidable (killsApart β c o s) := by
  unfold killsApart
  split <;> exact inferInstance

instance : Decidable (collectsNone β c o s) := by
  unfold collectsNone
  split <;> exact inferInstance

instance : Decidable (pidsPositive β c o s) := by
  unfold pidsPositive
  split <;> exact inferInstance

/-- The conditions that a run may be known to meet. -/
inductive Cond
  | complete | live | awake | own | bounded | copied | found | apart | locked | positive

/-- What a condition says of each operation. -/
def Cond.meets : Cond → OpPred Op Kernel Cpu
  | .complete => completeScans
  | .live => liveScans
  | .awake => noKillInWindow
  | .own => ownStatuses
  | .bounded => boundedScans
  | .copied => copiesOut
  | .found => foundNamed
  | .apart => killsApart
  | .locked => collectsNone
  | .positive => pidsPositive

/-- Which of the conditions a run is known to meet. -/
abbrev Known := Cond → Prop

namespace Known

/-- The condition that every operation of the run meets. -/
def assume (K : Known) : OpPred Op Kernel Cpu := fun β c o s => ∀ k, K k → k.meets β c o s

/-- Nothing is known about the run. -/
def nothing : Known := fun _ => False

/-- The run is known to meet one condition. -/
def only (k : Cond) : Known := fun k' => k' = k

theorem nothing_assume : nothing.assume β c o s := fun _ h => h.elim

theorem only_assume {k : Cond} (h : k.meets β c o s) : (only k).assume β c o s := by
  intro k' hk'
  rwa [show k' = k from hk']

theorem only_self (k : Cond) : only k k := rfl

end Known

/-! ## What the locks protect -/

/-- What is true of a process while nobody holds its lock, and it is not
running: it does not sleep on a kill; who has dozed off sleeps on its own
channel; a free slot is blank; a process has an id. -/
structure ProcInv (K : Known) (p : Slot) (x : Proc) : Prop where
  awake : K .awake → x.KillSeen
  dozing : x.dozing = true → x.state = .sleeping ∧ x.chan = some (.proc p)
  blank : K .apart → x.state = .unused → x.pid = 0 ∧ x.killed = false
  named : K .positive → x.state ≠ .unused → x.state ≠ .zombie → x.pid ≠ 0

/-- Who has dozed off, `ex` apart, has no exited child. -/
def Quiet (ex : Option Slot) (T : Table) : Prop :=
  ∀ p q, some p ≠ ex → (T p).dozing = true → ¬ T.ZombieChild p q

/-- An exited process, `ex` apart, waits to be collected. -/
def Settled (K : Known) (ex : Option Slot) (T : Table) : Prop :=
  ∀ q, some q ≠ ex → (T q).state = .zombie →
    (T q).parent ≠ none ∧ (T q).reaps = 0 ∧ (K .positive → (T q).pid ≠ 0)

/-- What is true while nobody holds a lock. -/
def LockInv (K : Known) : Lock → Table → Prop
  | .proc p, T => ProcInv K p (T p)
  | .wait, T => Quiet none T ∧ Settled K none T
  | _, _ => True

/-! ## The discipline -/

/-- The order of the locks: `p->lock` is taken with no other `p->lock` held,
and `wait_lock` only with that of a new process held, in `forkn`. -/
def lockOK (c : Cpu) (s : Kernel) : Lock → Prop
  | .proc _ => ∀ q, s.locked (.proc q) ≠ some c
  | .wait => s.locked .wait ≠ some c ∧
      ∀ q, s.locked (.proc q) = some c → Table.Forked s.proc (s.current c) q
  | _ => True

/-- What a thread leaves behind when it gives up a lock. -/
def unlockOK (K : Known) (c : Cpu) (s : Kernel) (l : Lock) : Prop :=
  s.locked l = some c ∧ LockInv K l s.proc ∧ (s.cpu c).proc = s.current c ∧
    ∀ p, l = .proc p →
      (s.current c = some p → (s.proc p).state = .running) ∧
      (s.current c ≠ some p → (s.proc p).state = .running → ∃ d, s.current d = some p)

/-- The slot is being freed: it is a new process that was never started, or an
exited one. -/
def Freeing (c : Cpu) (s : Kernel) (p : Slot) : Prop :=
  s.locked (.proc p) = some c ∧ Table.Owned s.proc (s.current c) p ∨
    s.locked .wait = some c ∧ (s.proc p).state = .zombie

/-- Who may store into a field that `p->lock` protects: its holder, and
`waitall`, that frees exited children with `wait_lock` alone. -/
def MayStore (K : Known) (c : Cpu) (s : Kernel) (p : Slot) : Prop :=
  s.locked (.proc p) = some c ∨
    ¬ K .locked ∧ s.locked .wait = some c ∧ (s.proc p).state = .zombie

/-- Every change of state needs `p->lock`, but that from `ZOMBIE` to `UNUSED`
can do with `wait_lock`. -/
def stateOK (K : Known) (c : Cpu) (s : Kernel) (p : Slot) : ProcState → Prop
  | .unused => (s.proc p).parent = none ∧ Freeing c s p ∧ MayStore K c s p ∧
      (K .apart → (s.proc p).pid = 0 ∧ (s.proc p).killed = false)
  | .used => s.locked (.proc p) = some c ∧ (s.proc p).state = .unused ∧ (s.proc p).reaps = 0
  | .sleeping => s.locked (.proc p) = some c ∧ s.current c = some p ∧
      (s.proc p).state = .running ∧
      (K .live → (s.proc p).site = .waitall → Table.HasChild s.proc p) ∧
      ((s.proc p).site.forChild = true → (s.proc p).dozing = true)
  | .runnable => s.locked (.proc p) = some c ∧
      ((s.proc p).state = .sleeping ∨ s.current c = some p ∧ (s.proc p).state = .running ∨
        Table.Owned s.proc (s.current c) p ∧ (s.proc p).parent = s.current c)
  | .running => s.locked (.proc p) = some c ∧ (s.proc p).state = .runnable ∧ s.current c = none
  | .zombie => s.locked (.proc p) = some c ∧ s.locked .wait = some c ∧
      s.current c = some p ∧ (s.proc p).state = .running ∧ (s.proc p).ended ≠ none ∧
      (∀ v, (s.proc p).ended = some (.status v) → (s.proc p).xstatus = v) ∧
      ((s.proc p).ended = some .msg → (s.proc p).message ≠ none ∧
        (s.proc p).priv.exitMsg = exitMsgOf (literal "Goodbye World xv6")) ∧
      p ≠ s.initproc ∧ ¬ Table.HasChild s.proc p ∧
      ∀ q, (s.proc p).parent = some q → (s.proc q).dozing = false

/-- Only the parent gives a child away, and only the creator gives a new
process a parent. -/
def parentOK (c : Cpu) (s : Kernel) (p : Slot) (v : Option Slot) : Prop :=
  v = none ∧ (s.proc p).parent = none ∨
    s.locked .wait = some c ∧
      (v = s.current c ∧ Table.Owned s.proc (s.current c) p ∧ (s.proc p).parent = none ∧
          (∀ q, s.current c = some q → (s.proc q).state = .running) ∨
        (s.proc p).parent = s.current c ∧ s.current c ≠ none ∧
          (v = some s.initproc ∨ v = none ∧ (s.proc p).state = .zombie))

/-- A kill hits the process with the id that it was given; a fatal trap hits
the process itself. -/
def killOK (c : Cpu) (s : Kernel) (p : Slot) : Prop :=
  ∃ q, s.current c = some q ∧
    ((s.proc q).target = none ∧ q = p ∧ (s.proc p).state = .running ∨
      (s.proc q).target = some (s.proc p).pid ∧ (s.proc p).pid ≠ 0 ∧ (s.proc p).state ≠ .unused)

/-- A new process gets an id that no other process has. -/
def pidOK (K : Known) (c : Cpu) (s : Kernel) (p : Slot) (v : I32) : Prop :=
  v = 0 ∧ Freeing c s p ∧ MayStore K c s p ∨
    s.locked (.proc p) = some c ∧ (s.proc p).state = .unused ∧
      (K .positive → v ≠ 0 ∧ (∀ q, (s.proc q).pid ≠ v) ∧
        ∃ q, s.current c = some q ∧ (s.proc q).newpid = v)

/-- Who may perform which store. -/
def writeOK (K : Known) (c : Cpu) (s : Kernel) : Write → Prop
  | .state p v => stateOK K c s p v
  | .chan p _ => MayStore K c s p
  | .killed p true => s.locked (.proc p) = some c ∧ (K .apart → killOK c s p)
  | .killed p false => MayStore K c s p
  | .xstate p v => v = 0 ∧ MayStore K c s p
  | .pid p v => pidOK K c s p v
  | .xstatus p _ => s.current c = some p ∧ (s.proc p).state = .running
  | .parent p v => parentOK c s p v
  | .priv p f => (∀ x, (f x).exitMsg = x.exitMsg) ∨
      s.current c = some p ∧ (s.proc p).state = .running
  | .creator p _ => s.locked (.proc p) = some c ∧ (s.proc p).state = .unused
  | .byForkn p _ => s.locked (.proc p) = some c ∧ (s.proc p).creator = s.current c
  | .ended p _ => s.current c = some p ∧ (s.proc p).state = .running ∨
      s.locked (.proc p) = some c ∧ (s.proc p).state = .unused
  | .site p _ => s.current c = some p ∧ s.locked (.proc p) = some c ∧
      (s.proc p).state = .running
  | .leaving p _ => s.current c = some p
  | .dozing p true => s.locked (.proc p) = some c ∧ s.locked .wait = some c ∧
      s.current c = some p ∧ (s.proc p).state = .running ∧ ∀ q, ¬ Table.ZombieChild s.proc p q
  | .dozing p false => s.locked (.proc p) = some c ∧ (s.proc p).state ≠ .sleeping
  | .reaped p _ => s.current c = some p
  | .reaps p v => s.locked (.proc p) = some c ∧ (s.proc p).state = .unused ∧ v = 0
  | .reap p pp => s.current c = some p ∧ s.locked .wait = some c ∧
      Table.ZombieChild s.proc p pp ∧ (s.proc pp).reaps = 0
  | .target p _ => s.current c = some p
  | .newpid p v => s.current c = some p ∧ s.locked .pid = some c ∧
      (K .positive → v.toNat < s.nextpid.toNat ∧ ∀ q, (s.proc q).newpid ≠ v ∧ (s.proc q).pid ≠ v)
  | .message p _ => s.current c = some p ∧ (s.proc p).state = .running
  | .nextpid v => s.locked .pid = some c ∧ v = s.nextpid + 1
  | .data _ => True

/-- What holds at the marked places. -/
def noteOK (K : Known) (c : Cpu) (s : Kernel) : Event → Prop
  | .waitReturns _ xstate ended => xstate = 0 ∧ ended ≠ none
  | .scan _ _ => True
  | .collect _ count => K .bounded → count < NPROC
  | .copyStatuses n count => K .bounded → (count : Int) ≤ n.toInt
  | .waitallReturns n reports =>
    (∀ r ∈ reports, (∃ e, r.ended = some e ∧ ∀ v, e = .status v → r.status = v) ∧
      (K .own → r.Own)) ∧
    ∀ p, s.current c = some p → K .complete →
      n.toInt ≤ reports.length ∨ ¬ Table.HasChild s.proc p
  | .waitallEnds r =>
    K .copied → r = -1 → ∀ p, s.current c = some p → (s.proc p).reaped = 0
  | .found _ => True
  | .messageStored ended message stored => ended = some .msg →
      message ≠ none ∧ stored = exitMsgOf (literal "Goodbye World xv6")
  | .waitEnds r =>
    K .found → r = -1 → ∀ p, s.current c = some p → (s.proc p).reaped = 0
  | .forknEnds _ _ _ copied => copied = false
  | .exitmsgReturns got => got = none
  | .kills _ => True
  | .allocated p => K .apart → (s.proc p).killed = false
  | .frees p => (K .locked → s.locked (.proc p) = some c) ∧
      ((s.proc p).state = .zombie → s.locked .wait = some c ∧ (s.proc p).reaps = 1)

/-- A scheduler says what runs on its processor while it holds the lock of
that process. -/
def cpuOK (c : Cpu) (s : Kernel) (x : CpuState) : Prop :=
  x.proc = (s.cpu c).proc ∨ s.current c = none ∧ ∀ p, x.proc = some p →
    s.locked (.proc p) = some c ∧ ∀ d, s.current d ≠ some p

/-- The obligation of every operation. -/
def must (K : Known) : OpPred Op Kernel Cpu
  | _, c, .lock l, s => lockOK c s l
  | _, c, .unlock l, s => unlockOK K c s l
  | _, c, .cpu f, s => cpuOK c s (f (s.cpu c)).2
  | _, c, .write w, s => writeOK K c s w
  | _, c, .context p, s =>
    s.locked (.proc p) = some c ∧ (s.proc p).state = .used ∧ s.current c ≠ some p
  | _, c, .swtch none, s => ∃ p, s.current c = some p ∧
      (∀ l, s.locked l = some c ↔ l = .proc p) ∧ (s.cpu c).noff = 1 ∧
      ProcInv K p (s.proc p) ∧ (s.proc p).state ≠ .running
  | _, c, .swtch (some p), s => s.current c = none ∧ (∀ d, s.current d ≠ some p) ∧
      (∀ l, s.locked l = some c ↔ l = .proc p) ∧ (s.cpu c).proc = some p ∧
      (s.cpu c).noff = 1 ∧ (s.proc p).state = .running ∧ ProcInv K p (s.proc p)
  | _, c, .note e, s => noteOK K c s e
  | _, _, _, _ => True

/-! ## The invariant -/

/-- The process tree: `init` is its root, and parents are alive. -/
structure Forest (T : Table) : Prop where
  init : (T Boot.initproc).Live
  root : (T Boot.initproc).parent = none
  parent : ∀ p q, (T q).parent = some p → p ≠ q ∧ (T p).Live
  rooted : ∀ q, q ≠ Boot.initproc → (T q).Live → (T q).parent ≠ none
  orphan : ∀ q, (T q).state = .unused → (T q).parent = none

/-- Process ids are given out in order, each of them once. -/
structure Pids (T : Table) (nextpid : I32) : Prop where
  bound : nextpid.toNat ≤ 2 ^ 31
  pid_lt : ∀ p, (T p).pid.toNat < nextpid.toNat
  newpid_lt : ∀ p, (T p).newpid.toNat < nextpid.toNat
  pid_inj : ∀ p q, (T p).pid = (T q).pid → (T p).pid ≠ 0 → p = q
  newpid_inj : ∀ p q, (T p).newpid = (T q).newpid → (T p).newpid ≠ 0 → p = q

/-- What the discipline keeps true. -/
structure Inv (K : Known) (s : Kernel) : Prop where
  initproc : s.initproc = Boot.initproc
  /-- `exit` stores nothing but 0. -/
  xstate : ∀ p, (s.proc p).xstate = 0
  ended : ∀ p, (s.proc p).state = .zombie → (s.proc p).ended ≠ none
  status : ∀ p v, (s.proc p).state = .zombie → (s.proc p).ended = some (.status v) →
    (s.proc p).xstatus = v
  /-- `exit_msg` has lost the string. -/
  message : ∀ p, (s.proc p).state = .zombie → (s.proc p).ended = some .msg →
    (s.proc p).message ≠ none ∧
      (s.proc p).priv.exitMsg = exitMsgOf (literal "Goodbye World xv6")
  forest : Forest s.proc
  fresh : ∀ p, (s.proc p).state ≠ .unused → (s.proc p).state ≠ .zombie → (s.proc p).reaps = 0
  reaps : ∀ p, (s.proc p).reaps ≤ 1
  dozing : ∀ p, (s.proc p).state = .sleeping → (s.proc p).site.forChild = true →
    (s.proc p).dozing = true
  pids : K .positive → Pids s.proc s.nextpid
  /-- A process runs on one processor. -/
  unique : ∀ c d p, s.current c = some p → s.current d = some p → c = d
  current : ∀ c p, s.current c = some p →
    (s.proc p).state = .running ∨ s.locked (.proc p) = some c
  cpu : ∀ c p, s.current c = some p → (s.cpu c).proc = some p
  proc : ∀ c p, (s.cpu c).proc = some p → s.current c = some p ∨
    s.locked (.proc p) = some c ∧ ∀ d, s.current d ≠ some p
  running : ∀ p, s.locked (.proc p) = none → (s.proc p).state = .running →
    ∃ c, s.current c = some p
  locks : ∀ l, s.locked l = none → LockInv K l s.proc

end Xv6
