import Xv6.Proc.Discipline

/-!
# The discipline keeps the invariant

The part of the invariant that is about the process table alone changes only
in stores, and `Write.table_…` says which field a store changes.
-/

namespace Xv6

open Conc Conc.Machine

variable {K : Known} {c : Cpu} {s : Kernel} {w : Write} {p q : Slot}

/-! ## What a lock protects -/

/-- Without the lock of a process its state does not change, but that of an
exited one, which is freed with `wait_lock`. -/
theorem state_unlocked (hw : writeOK K c s w) (hl : s.locked (.proc p) ≠ some c) :
    (w.table s.proc p).state = (s.proc p).state ∨
      w = .state p .unused ∧ s.locked .wait = some c ∧ (s.proc p).state = .zombie ∧
        stateOK K c s p .unused := by
  obtain hs | ⟨v, rfl, -⟩ := w.table_state s.proc p
  · exact .inl hs
  · cases v with
    | unused =>
      obtain ⟨hlock, -⟩ | ⟨hwait, hz⟩ := hw.2.1
      · exact absurd hlock hl
      · exact .inr ⟨rfl, hwait, hz, hw⟩
    | _ => exact absurd hw.1 hl

/-- Without the lock of a process only an exited one is freed. -/
theorem MayStore.zombie (h : MayStore K c s p) (hl : s.locked (.proc p) ≠ some c) :
    (s.proc p).state = .zombie := by
  obtain hlock | ⟨-, -, hz⟩ := h
  · exact absurd hlock hl
  · exact hz

theorem Freeing.zombie (h : Freeing c s p) (hl : s.locked (.proc p) ≠ some c) :
    (s.proc p).state = .zombie := by
  obtain ⟨hlock, -⟩ | ⟨-, hz⟩ := h
  · exact absurd hlock hl
  · exact hz

/-- Without the lock of a process it is not marked as killed. -/
theorem killed_unlocked (hw : writeOK K c s w) (hl : s.locked (.proc p) ≠ some c)
    (hk : (s.proc p).killed = false) : (w.table s.proc p).killed = false := by
  obtain h | ⟨v, rfl, h⟩ := w.table_killed s.proc p
  · exact h.trans hk
  · cases v with
    | false => exact h
    | true => exact absurd hw.1 hl

/-- Without the lock of a process, nobody disturbs what it protects. -/
theorem ProcInv.kept (h : ProcInv K p (s.proc p)) (hw : writeOK K c s w)
    (hl : s.locked (.proc p) ≠ some c) : ProcInv K p (w.table s.proc p) where
  awake hK := by
    intro hs hsite
    refine killed_unlocked hw hl (h.awake hK ?_ ?_)
    · obtain hstate | ⟨rfl, -, -, -⟩ := state_unlocked hw hl
      · exact hstate.symm.trans hs
      · simp [Write.table] at hs
    · obtain hx | ⟨v, rfl, -⟩ := w.table_site s.proc p
      · rwa [hx] at hsite
      · exact absurd hw.2.1 hl
  dozing := by
    intro hd
    obtain ⟨hs, hchan⟩ : (s.proc p).state = .sleeping ∧ (s.proc p).chan = some (.proc p) := by
      obtain hx | ⟨v, rfl, -⟩ := w.table_dozing s.proc p
      · exact h.dozing (hx.symm.trans hd)
      · cases v <;> exact absurd hw.1 hl
    constructor
    · obtain hstate | ⟨-, -, hz, -⟩ := state_unlocked hw hl
      · exact hstate.trans hs
      · rw [hs] at hz
        cases hz
    · obtain hx | ⟨v, rfl, -⟩ := w.table_chan s.proc p
      · exact hx.trans hchan
      · have hz := MayStore.zombie hw hl
        rw [hs] at hz
        cases hz
  blank hK := by
    intro hu
    obtain hstate | ⟨rfl, -, -, hok⟩ := state_unlocked hw hl
    · obtain ⟨hpid, hkilled⟩ := h.blank hK (hstate.symm.trans hu)
      refine ⟨?_, killed_unlocked hw hl hkilled⟩
      obtain hx | ⟨v, rfl, hx⟩ := w.table_pid s.proc p
      · exact hx.trans hpid
      · obtain ⟨hv, -⟩ | ⟨hlock, -⟩ := hw
        · exact hx.trans hv
        · exact absurd hlock hl
    · simpa only [Write.table, if_pos] using hok.2.2.2 hK
  named hK := by
    intro hu hz
    obtain hstate | ⟨rfl, -⟩ := state_unlocked hw hl
    · rw [hstate] at hu hz
      obtain hx | ⟨v, rfl, -⟩ := w.table_pid s.proc p
      · rw [hx]
        exact h.named hK hu hz
      · obtain ⟨-, hfree, -⟩ | ⟨hlock, -⟩ := hw
        · exact absurd (hfree.zombie hl) hz
        · exact absurd hlock hl
    · simp [Write.table] at hu

/-- Without `wait_lock` nobody gets an exited child, nor dozes off. -/
theorem zombieChild_of_write (hw : writeOK K c s w) (hl : s.locked .wait ≠ some c)
    (hz : Table.ZombieChild (w.table s.proc) p q) : Table.ZombieChild s.proc p q := by
  obtain ⟨hparent, hstate⟩ := hz
  constructor
  · obtain hp | ⟨v, rfl, hp⟩ := w.table_parent s.proc q
    · rwa [hp] at hparent
    · obtain ⟨hv, -⟩ | ⟨hwait, -⟩ := hw
      · rw [hp, hv] at hparent
        cases hparent
      · exact absurd hwait hl
  · obtain hs | ⟨v, rfl, hs⟩ := w.table_state s.proc q
    · rwa [hs] at hstate
    · rw [hstate] at hs
      subst hs
      exact absurd hw.2.1 hl

theorem Quiet.kept {ex : Option Slot} (h : Quiet ex s.proc) (hw : writeOK K c s w)
    (hl : s.locked .wait ≠ some c) : Quiet ex (w.table s.proc) := by
  intro p q hp hdozing hz
  refine h p q hp ?_ (zombieChild_of_write hw hl hz)
  obtain hd | ⟨v, rfl, hd⟩ := w.table_dozing s.proc p
  · rwa [hd] at hdozing
  · rw [hdozing] at hd
    subst hd
    exact absurd hw.2.1 hl

theorem Settled.kept {ex : Option Slot} (h : Settled K ex s.proc) (hw : writeOK K c s w)
    (hl : s.locked .wait ≠ some c) : Settled K ex (w.table s.proc) := by
  intro q hq hz
  have hz' : (s.proc q).state = .zombie := by
    obtain hs | ⟨v, rfl, hs⟩ := w.table_state s.proc q
    · rwa [hs] at hz
    · rw [hz] at hs
      subst hs
      exact absurd hw.2.1 hl
  obtain ⟨hparent, hreaps, hpid⟩ := h q hq hz'
  refine ⟨?_, ?_, fun hK => ?_⟩
  · obtain hp | ⟨v, rfl, hp⟩ := w.table_parent s.proc q
    · rwa [hp]
    · obtain ⟨-, hnone⟩ | ⟨hwait, -⟩ := hw
      · exact absurd hnone hparent
      · exact absurd hwait hl
  · obtain hr | ⟨v, rfl, -⟩ | ⟨p, rfl, -⟩ := w.table_reaps s.proc q
    · rwa [hr]
    · rw [hw.2.1] at hz'
      cases hz'
    · exact absurd hw.2.1 hl
  · obtain hp | ⟨v, rfl, hp⟩ := w.table_pid s.proc q
    · rw [hp]
      exact hpid hK
    · obtain ⟨-, ⟨-, howned⟩ | ⟨hwait, -⟩, -⟩ | ⟨-, hunused, -⟩ := hw
      · rw [howned.1] at hz'
        cases hz'
      · exact absurd hwait hl
      · rw [hunused] at hz'
        cases hz'

/-- A store without a lock keeps what the lock protects. -/
theorem LockInv.kept {l : Lock} (h : LockInv K l s.proc) (hw : writeOK K c s w)
    (hl : s.locked l ≠ some c) : LockInv K l (w.table s.proc) := by
  cases l with
  | proc p => exact ProcInv.kept h hw hl
  | wait => exact ⟨h.1.kept hw hl, h.2.kept hw hl⟩
  | _ => trivial

namespace Inv

/-! ## How a process ended -/

theorem write_xstate (h : Inv K s) (hw : writeOK K c s w) (p : Slot) :
    (w.table s.proc p).xstate = 0 := by
  obtain hx | ⟨v, rfl, hx⟩ := w.table_xstate s.proc p
  · rw [hx]
    exact h.xstate p
  · rw [hx]
    exact hw.1

/-- A process that a store makes a zombie was running, and how it ended is
settled. -/
theorem zombie_cases (hw : writeOK K c s w) (hz : (w.table s.proc p).state = .zombie) :
    (s.proc p).state = .zombie ∨
      w = .state p .zombie ∧ stateOK K c s p .zombie := by
  obtain hs | ⟨v, rfl, hs⟩ := w.table_state s.proc p
  · exact .inl (hs ▸ hz)
  · rw [hz] at hs
    subst hs
    exact .inr ⟨rfl, hw⟩

/-- Nobody changes how a zombie ended. -/
theorem zombie_kept (hw : writeOK K c s w) (hz : (s.proc p).state = .zombie) :
    (w.table s.proc p).ended = (s.proc p).ended ∧
      (w.table s.proc p).xstatus = (s.proc p).xstatus ∧
      (w.table s.proc p).message = (s.proc p).message ∧
      (w.table s.proc p).priv.exitMsg = (s.proc p).priv.exitMsg := by
  refine ⟨?_, ?_, ?_, ?_⟩
  · obtain hx | ⟨v, rfl, -⟩ := w.table_ended s.proc p
    · exact hx
    · obtain ⟨-, hr⟩ | ⟨-, hu⟩ := hw
      · simp [hz] at hr
      · simp [hz] at hu
  · obtain hx | ⟨v, rfl, -⟩ := w.table_xstatus s.proc p
    · exact hx
    · simp [writeOK, hz] at hw
  · obtain hx | ⟨v, rfl, -⟩ := w.table_message s.proc p
    · exact hx
    · simp [writeOK, hz] at hw
  · obtain hx | ⟨f, rfl, hx⟩ := w.table_priv s.proc p
    · rw [hx]
    · obtain hf | ⟨-, hr⟩ := hw
      · rw [hx, hf]
      · simp [hz] at hr

/-- A store to the state leaves how a process ended. -/
theorem state_kept (T : Table) (p q : Slot) (v : ProcState) :
    (Write.table T (.state p v) q).ended = (T q).ended ∧
      (Write.table T (.state p v) q).xstatus = (T q).xstatus ∧
      (Write.table T (.state p v) q).message = (T q).message ∧
      (Write.table T (.state p v) q).priv = (T q).priv := by
  simp only [Write.table]
  split <;> exact ⟨rfl, rfl, rfl, rfl⟩

theorem write_ended (h : Inv K s) (hw : writeOK K c s w) (p : Slot)
    (hz : (w.table s.proc p).state = .zombie) : (w.table s.proc p).ended ≠ none := by
  obtain hp | ⟨rfl, hok⟩ := zombie_cases hw hz
  · rw [(zombie_kept hw hp).1]
    exact h.ended p hp
  · rw [(state_kept s.proc p p .zombie).1]
    exact hok.2.2.2.2.1

theorem write_status (h : Inv K s) (hw : writeOK K c s w) (p : Slot) (v : I32)
    (hz : (w.table s.proc p).state = .zombie)
    (he : (w.table s.proc p).ended = some (.status v)) : (w.table s.proc p).xstatus = v := by
  obtain hp | ⟨rfl, hok⟩ := zombie_cases hw hz
  · obtain ⟨hended, hxstatus, -⟩ := zombie_kept hw hp
    rw [hxstatus]
    exact h.status p v hp (hended ▸ he)
  · obtain ⟨hended, hxstatus, -⟩ := state_kept s.proc p p .zombie
    rw [hxstatus]
    exact hok.2.2.2.2.2.1 v (hended ▸ he)

theorem write_message (h : Inv K s) (hw : writeOK K c s w) (p : Slot)
    (hz : (w.table s.proc p).state = .zombie) (he : (w.table s.proc p).ended = some .msg) :
    (w.table s.proc p).message ≠ none ∧
      (w.table s.proc p).priv.exitMsg = exitMsgOf (literal "Goodbye World xv6") := by
  obtain hp | ⟨rfl, hok⟩ := zombie_cases hw hz
  · obtain ⟨hended, -, hmessage, hpriv⟩ := zombie_kept hw hp
    rw [hmessage, hpriv]
    exact h.message p hp (hended ▸ he)
  · obtain ⟨hended, -, hmessage, hpriv⟩ := state_kept s.proc p p .zombie
    rw [hmessage, hpriv]
    exact hok.2.2.2.2.2.2.1 (hended ▸ he)

/-! ## The process tree -/

/-- A process that lives goes on to live, or it ends and has no child. -/
theorem live_cases (hw : writeOK K c s w) (hl : (s.proc p).Live) :
    (w.table s.proc p).Live ∨ w = .state p .zombie ∧ stateOK K c s p .zombie := by
  obtain hs | ⟨v, rfl, hs⟩ := w.table_state s.proc p
  · left
    unfold Proc.Live
    rwa [hs]
  · unfold Proc.Live at hl ⊢
    rw [hs]
    cases v with
    | zombie => exact .inr ⟨rfl, hw⟩
    | unused =>
      obtain ⟨-, ⟨-, howned⟩ | ⟨-, hz⟩, -⟩ := hw
      · simp [howned.1] at hl
      · simp [hz] at hl
    | used => simp [hw.2.1] at hl
    | _ => simp

theorem write_forest (h : Inv K s) (hw : writeOK K c s w) : Forest (w.table s.proc) where
  init := by
    obtain hl | ⟨rfl, hok⟩ := live_cases hw h.forest.init
    · exact hl
    · exact absurd h.initproc.symm hok.2.2.2.2.2.2.2.1
  root := by
    obtain hp | ⟨v, rfl, hp⟩ := w.table_parent s.proc Boot.initproc
    · rw [hp]
      exact h.forest.root
    · rw [hp]
      obtain ⟨hv, -⟩ | ⟨-, ⟨-, howned, -⟩ | ⟨hpar, hcur, -⟩⟩ := hw
      · exact hv
      · have hinit := h.forest.init
        unfold Proc.Live at hinit
        rw [howned.1] at hinit
        simp at hinit
      · rw [h.forest.root] at hpar
        exact absurd hpar.symm hcur
  parent p q hq := by
    obtain hp | ⟨v, rfl, hp⟩ := w.table_parent s.proc q
    · rw [hp] at hq
      obtain ⟨hne, hlive⟩ := h.forest.parent p q hq
      refine ⟨hne, ?_⟩
      obtain hl | ⟨rfl, hok⟩ := live_cases hw hlive
      · exact hl
      · exact absurd ⟨q, hq⟩ hok.2.2.2.2.2.2.2.2.1
    · -- the state is that of before
      have hlive : (Write.table s.proc (.parent q v) p).Live ↔ (s.proc p).Live := by
        simp only [Write.table, Proc.Live]
        split <;> exact Iff.rfl
      rw [hlive]
      rw [hp] at hq
      subst hq
      obtain ⟨hv, -⟩ | ⟨-, ⟨hv, howned, -, hrun⟩ | ⟨hpar, hcur, hv | ⟨hv, -⟩⟩⟩ := hw
      · cases hv
      · have hr := hrun p hv.symm
        refine ⟨fun hpq => ?_, .inr (.inl hr)⟩
        rw [hpq, howned.1] at hr
        cases hr
      · obtain rfl : p = s.initproc := Option.some.inj hv
        rw [h.initproc]
        refine ⟨fun hq => ?_, h.forest.init⟩
        rw [← hq, h.forest.root] at hpar
        exact absurd hpar.symm hcur
      · cases hv
  rooted q hq hl := by
    obtain hp | ⟨v, rfl, hp⟩ := w.table_parent s.proc q
    · rw [hp]
      obtain hs | ⟨v, rfl, hs⟩ := w.table_state s.proc q
      · refine h.forest.rooted q hq ?_
        unfold Proc.Live at hl ⊢
        rwa [hs] at hl
      · unfold Proc.Live at hl
        rw [hs] at hl
        have hroot := h.forest.rooted q hq
        unfold Proc.Live at hroot
        cases v with
        | sleeping => exact hroot (.inr (.inl hw.2.2.1))
        | running => exact hroot (.inl hw.2.1)
        | runnable =>
          obtain ⟨-, hsleep | ⟨-, hrun⟩ | ⟨howned, hparent⟩⟩ := hw
          · exact hroot (.inr (.inr hsleep))
          · exact hroot (.inr (.inl hrun))
          · rw [hparent]
            exact howned.2.2
        | _ => simp at hl
    · have hlive : (Write.table s.proc (.parent q v) q).Live ↔ (s.proc q).Live := by
        simp only [Write.table, Proc.Live, if_pos]
      rw [hp]
      have hroot := h.forest.rooted q hq (hlive.1 hl)
      have hlive := hlive.1 hl
      unfold Proc.Live at hlive
      obtain ⟨-, hnone⟩ | ⟨-, ⟨-, howned, -⟩ | ⟨-, -, hv | ⟨-, hz⟩⟩⟩ := hw
      · exact absurd hnone hroot
      · simp [howned.1] at hlive
      · simp [hv]
      · simp [hz] at hlive
  orphan q hu := by
    obtain hp | ⟨v, rfl, hp⟩ := w.table_parent s.proc q
    · rw [hp]
      obtain hs | ⟨v, rfl, hs⟩ := w.table_state s.proc q
      · exact h.forest.orphan q (hs ▸ hu)
      · rw [hu] at hs
        subst hs
        exact hw.1
    · have hstate : (Write.table s.proc (.parent q v) q).state = (s.proc q).state := by
        simp only [Write.table, if_pos]
      rw [hstate] at hu
      have horphan := h.forest.orphan q hu
      rw [hp]
      obtain ⟨hv, -⟩ | ⟨-, ⟨-, howned, -⟩ | ⟨hpar, hcur, -⟩⟩ := hw
      · exact hv
      · rw [howned.1] at hu
        cases hu
      · exact absurd (hpar.symm.trans horphan) hcur

/-! ## Collecting -/

theorem write_fresh (h : Inv K s) (hw : writeOK K c s w) (p : Slot)
    (hu : (w.table s.proc p).state ≠ .unused) (hz : (w.table s.proc p).state ≠ .zombie) :
    (w.table s.proc p).reaps = 0 := by
  have hp := h.fresh p
  obtain hr | ⟨v, rfl, hr⟩ | ⟨q, rfl, hr⟩ := w.table_reaps s.proc p
  · rw [hr]
    obtain hs | ⟨v, rfl, hs⟩ := w.table_state s.proc p
    · rw [hs] at hu hz
      exact hp hu hz
    · rw [hs] at hu hz
      cases v with
      | used => exact hw.2.2
      | sleeping => exact hp (by simp [hw.2.2.1]) (by simp [hw.2.2.1])
      | running => exact hp (by simp [hw.2.1]) (by simp [hw.2.1])
      | runnable =>
        obtain ⟨-, hsleep | ⟨-, hrun⟩ | ⟨howned, -⟩⟩ := hw
        · exact hp (by simp [hsleep]) (by simp [hsleep])
        · exact hp (by simp [hrun]) (by simp [hrun])
        · exact hp (by simp [howned.1]) (by simp [howned.1])
      | _ => contradiction
  · rw [hr]
    exact hw.2.2
  · have hstate : (Write.table s.proc (.reap q p) p).state = (s.proc p).state := rfl
    rw [hstate] at hz
    exact absurd hw.2.2.1.2 hz

theorem write_reaps (h : Inv K s) (hw : writeOK K c s w) (p : Slot) :
    (w.table s.proc p).reaps ≤ 1 := by
  obtain hr | ⟨v, rfl, hr⟩ | ⟨q, rfl, hr⟩ := w.table_reaps s.proc p
  · rw [hr]
    exact h.reaps p
  · rw [hr, hw.2.2]
    exact Nat.zero_le 1
  · rw [hr, hw.2.2.2]

/-! ## Sleeping -/

theorem write_dozing (h : Inv K s) (hw : writeOK K c s w) (p : Slot)
    (hs : (w.table s.proc p).state = .sleeping)
    (hsite : (w.table s.proc p).site.forChild = true) : (w.table s.proc p).dozing = true := by
  obtain hstate | ⟨v, rfl, hstate⟩ := w.table_state s.proc p
  · rw [hstate] at hs
    obtain hx | ⟨v, rfl, -⟩ := w.table_site s.proc p
    · rw [hx] at hsite
      obtain hd | ⟨v, rfl, hd⟩ := w.table_dozing s.proc p
      · exact hd.trans (h.dozing p hs hsite)
      · cases v with
        | true => exact hd
        | false => exact absurd hs hw.2
    · rw [hw.2.2] at hs
      cases hs
  · rw [hs] at hstate
    subst hstate
    simp only [Write.table, if_pos] at hsite ⊢
    exact hw.2.2.2.2 hsite

/-! ## Process ids -/

/-- A positive `int` is below 2^31, and its successor does not wrap. -/
theorem toNat_succ {n : I32} (h : 0 < n.toInt) :
    (n + 1).toNat = n.toNat + 1 ∧ n.toNat + 1 ≤ 2 ^ 31 := by
  rw [BitVec.toInt_eq_toNat_cond] at h
  have hlt := n.isLt
  rw [BitVec.toNat_add]
  split at h
  · constructor
    · rw [Nat.mod_eq_of_lt]
      · rfl
      · show n.toNat + 1 < 2 ^ 32
        omega
    · omega
  · omega

/-- Nothing but the ids matters. -/
theorem Pids.of_eq {T T' : Table} {n : I32} (h : Pids T n)
    (hpid : ∀ p, (T' p).pid = (T p).pid) (hnewpid : ∀ p, (T' p).newpid = (T p).newpid) :
    Pids T' n where
  bound := h.bound
  pid_lt p := hpid p ▸ h.pid_lt p
  newpid_lt p := hnewpid p ▸ h.newpid_lt p
  pid_inj p q := by
    rw [hpid, hpid]
    exact h.pid_inj p q
  newpid_inj p q := by
    rw [hnewpid, hnewpid]
    exact h.newpid_inj p q

theorem write_pids (h : Inv K s) (hw : writeOK K c s w) (hK : K .positive)
    (ha : pidsPositive Unit c (.write w) s) : Pids (w.apply s).proc (w.apply s).nextpid := by
  have hp := h.pids hK
  have hpos : 0 < s.nextpid.toNat := Nat.lt_of_le_of_lt (Nat.zero_le _) (hp.pid_lt 0)
  cases w with
  | pid q v =>
    -- the new id is that of the process that gives it, or 0
    have hv : v = 0 ∨ (∀ p, (s.proc p).pid ≠ v) ∧ v.toNat < s.nextpid.toNat := by
      obtain ⟨hv, -⟩ | ⟨-, -, hnew⟩ := hw
      · exact .inl hv
      · obtain ⟨-, hne, me, -, hme⟩ := hnew hK
        exact .inr ⟨hne, hme ▸ hp.newpid_lt me⟩
    refine ⟨hp.bound, fun p => ?_, fun p => ?_, fun p p' => ?_, fun p p' => ?_⟩
    · have := hp.pid_lt p
      simp only [Write.apply, Kernel.modProc]
      split
      · obtain rfl | hv := hv
        · exact hpos
        · exact hv.2
      · exact this
    · have := hp.newpid_lt p
      simp only [Write.apply, Kernel.modProc]
      split <;> exact this
    · have hinj := hp.pid_inj p p'
      simp only [Write.apply, Kernel.modProc]
      by_cases hpq : p = q <;> by_cases hpq' : p' = q <;>
        simp only [hpq, hpq', if_true, if_false] at hinj ⊢
      · exact fun _ _ => trivial
      · intro heq hne
        obtain rfl | ⟨hold, -⟩ := hv
        · exact absurd rfl hne
        · exact absurd heq.symm (hold p')
      · intro heq hne
        obtain rfl | ⟨hold, -⟩ := hv
        · exact absurd heq hne
        · exact absurd heq (hold p)
      · exact hinj
    · have hinj := hp.newpid_inj p p'
      simp only [Write.apply, Kernel.modProc]
      split <;> split <;> exact hinj
  | newpid q v =>
    obtain ⟨-, -, hnew⟩ := hw
    obtain ⟨hlt, hne⟩ := hnew hK
    refine ⟨hp.bound, fun p => ?_, fun p => ?_, fun p p' => ?_, fun p p' => ?_⟩
    · have := hp.pid_lt p
      simp only [Write.apply, Kernel.modProc]
      split <;> exact this
    · have := hp.newpid_lt p
      simp only [Write.apply, Kernel.modProc]
      split
      · exact hlt
      · exact this
    · have hinj := hp.pid_inj p p'
      simp only [Write.apply, Kernel.modProc]
      split <;> split <;> exact hinj
    · have hinj := hp.newpid_inj p p'
      simp only [Write.apply, Kernel.modProc]
      by_cases hpq : p = q <;> by_cases hpq' : p' = q <;>
        simp only [hpq, hpq', if_true, if_false] at hinj ⊢
      · exact fun _ _ => trivial
      · exact fun heq _ => absurd heq.symm (hne p').1
      · exact fun heq _ => absurd heq (hne p).1
      · exact hinj
  | nextpid v =>
    obtain ⟨-, rfl⟩ := hw
    obtain ⟨hnext, hbound⟩ := toNat_succ (n := s.nextpid) ha
    simp only [Write.apply]
    refine ⟨?_, fun p => ?_, fun p => ?_, hp.pid_inj, hp.newpid_inj⟩
    · rw [hnext]
      exact hbound
    · rw [hnext]
      exact Nat.lt_succ_of_lt (hp.pid_lt p)
    · rw [hnext]
      exact Nat.lt_succ_of_lt (hp.newpid_lt p)
  | _ =>
    -- no other store touches an id
    refine Pids.of_eq hp ?_ ?_ <;> intro p <;> rw [Write.apply_proc]
    · exact (Write.table_pid _ _ p).resolve_right (by simp)
    · exact (Write.table_newpid _ _ p).resolve_right (by simp)

/-! ## Processors -/

theorem write_current (h : Inv K s) (hw : writeOK K c s w) (d : Cpu) (p : Slot)
    (hc : s.current d = some p) :
    (w.table s.proc p).state = .running ∨ s.locked (.proc p) = some d := by
  obtain hs | ⟨v, rfl, hs⟩ := w.table_state s.proc p
  · rw [hs]
    exact h.current d p hc
  · rw [hs]
    obtain hrun | hlock := h.current d p hc
    · -- who takes a process away from `RUNNING` executes it
      have hown (hcur : s.current c = some p) (hl : s.locked (.proc p) = some c) :
          v = .running ∨ s.locked (.proc p) = some d :=
        .inr (h.unique c d p hcur hc ▸ hl)
      cases v with
      | running => exact .inl rfl
      | unused =>
        obtain ⟨-, howned⟩ | ⟨-, hz⟩ := hw.2.1
        · cases hrun.symm.trans howned.1
        · cases hrun.symm.trans hz
      | used => cases hrun.symm.trans hw.2.1
      | sleeping => exact hown hw.2.1 hw.1
      | runnable =>
        obtain ⟨hl, hsleep | ⟨hcur, -⟩ | ⟨howned, -⟩⟩ := hw
        · cases hrun.symm.trans hsleep
        · exact hown hcur hl
        · cases hrun.symm.trans howned.1
      | zombie => exact hown hw.2.2.1 hw.1
    · exact .inr hlock

theorem write_running (h : Inv K s) (hw : writeOK K c s w) (p : Slot)
    (hl : s.locked (.proc p) = none) (hr : (w.table s.proc p).state = .running) :
    ∃ d, s.current d = some p := by
  obtain hs | ⟨v, rfl, hs⟩ := w.table_state s.proc p
  · exact h.running p hl (hs ▸ hr)
  · rw [hr] at hs
    subst hs
    have := hw.1
    rw [hl] at this
    cases this

/-- A store that meets its obligation keeps the invariant. -/
theorem write (h : Inv K s) (hw : writeOK K c s w)
    (ha : K .positive → pidsPositive Unit c (.write w) s) : Inv K (w.apply s) where
  initproc := (w.apply_initproc s).trans h.initproc
  xstate p := by
    rw [w.apply_proc]
    exact h.write_xstate hw p
  ended p hz := by
    rw [w.apply_proc] at hz ⊢
    exact h.write_ended hw p hz
  status p v hz he := by
    rw [w.apply_proc] at hz he ⊢
    exact h.write_status hw p v hz he
  message p hz he := by
    rw [w.apply_proc] at hz he ⊢
    exact h.write_message hw p hz he
  forest := by
    rw [w.apply_proc]
    exact h.write_forest hw
  fresh p hu hz := by
    rw [w.apply_proc] at hu hz ⊢
    exact h.write_fresh hw p hu hz
  reaps p := by
    rw [w.apply_proc]
    exact h.write_reaps hw p
  dozing p hs hsite := by
    rw [w.apply_proc] at hs hsite ⊢
    exact h.write_dozing hw p hs hsite
  pids hK := h.write_pids hw hK (ha hK)
  unique d d' p := by
    rw [w.apply_current]
    exact h.unique d d' p
  current d p hc := by
    rw [w.apply_current] at hc
    rw [w.apply_proc, w.apply_locked]
    exact h.write_current hw d p hc
  cpu d p := by
    rw [w.apply_current, w.apply_cpu]
    exact h.cpu d p
  proc d p := by
    rw [w.apply_current, w.apply_cpu, w.apply_locked]
    exact h.proc d p
  running p hl hr := by
    rw [w.apply_locked] at hl
    rw [w.apply_proc] at hr
    rw [w.apply_current]
    exact h.write_running hw p hl hr
  locks l hl := by
    rw [w.apply_locked] at hl
    rw [w.apply_proc]
    refine (h.locks l hl).kept hw ?_
    rw [hl]
    simp

/-! ## Locks -/

/-- The invariant that does not speak of locks, processors or memory. -/
theorem of_table {s' : Kernel} (h : Inv K s) (hproc : s'.proc = s.proc)
    (hinit : s'.initproc = s.initproc) (hnext : s'.nextpid = s.nextpid)
    (unique : ∀ c d p, s'.current c = some p → s'.current d = some p → c = d)
    (current : ∀ c p, s'.current c = some p →
      (s'.proc p).state = .running ∨ s'.locked (.proc p) = some c)
    (cpu : ∀ c p, s'.current c = some p → (s'.cpu c).proc = some p)
    (proc : ∀ c p, (s'.cpu c).proc = some p → s'.current c = some p ∨
      s'.locked (.proc p) = some c ∧ ∀ d, s'.current d ≠ some p)
    (running : ∀ p, s'.locked (.proc p) = none → (s'.proc p).state = .running →
      ∃ c, s'.current c = some p)
    (locks : ∀ l, s'.locked l = none → LockInv K l s'.proc) : Inv K s' where
  initproc := hinit.trans h.initproc
  xstate := hproc ▸ h.xstate
  ended := hproc ▸ h.ended
  status := hproc ▸ h.status
  message := hproc ▸ h.message
  forest := hproc ▸ h.forest
  fresh := hproc ▸ h.fresh
  reaps := hproc ▸ h.reaps
  dozing := hproc ▸ h.dozing
  pids hK := hproc ▸ hnext ▸ h.pids hK
  unique := unique
  current := current
  cpu := cpu
  proc := proc
  running := running
  locks := locks

theorem lock (h : Inv K s) {l : Lock} (hl : s.locked l = none) :
    Inv K (s.setLocked l (some c)) := by
  have hkeep (k : Lock) (d : Cpu) (hk : s.locked k = some d) :
      (s.setLocked l (some c)).locked k = some d := by
    rw [s.setLocked_ne _ fun hkl => ?_, hk]
    rw [hkl, hl] at hk
    cases hk
  have hfree (k : Lock) (hk : (s.setLocked l (some c)).locked k = none) : s.locked k = none := by
    by_cases hkl : k = l
    · rw [hkl, hl]
    · rwa [s.setLocked_ne _ hkl] at hk
  refine h.of_table rfl rfl rfl h.unique (fun d p hc => ?_) h.cpu (fun d p hp => ?_)
    (fun p hp hr => h.running p (hfree _ hp) hr) fun k hk => h.locks k (hfree k hk)
  · obtain hrun | hlock := h.current d p hc
    · exact .inl hrun
    · exact .inr (hkeep _ d hlock)
  · obtain hcur | ⟨hlock, hnone⟩ := h.proc d p hp
    · exact .inl hcur
    · exact .inr ⟨hkeep _ d hlock, hnone⟩

theorem unlock (h : Inv K s) {l : Lock} (hl : unlockOK K c s l) :
    Inv K (s.setLocked l none) := by
  obtain ⟨hheld, hinv, hcpu, hproc⟩ := hl
  -- who holds another lock keeps it
  have hkeep (k : Lock) (d : Cpu) (hk : s.locked k = some d) :
      k = l ∧ d = c ∨ (s.setLocked l none).locked k = some d := by
    by_cases hkl : k = l
    · rw [hkl] at hk
      exact .inl ⟨hkl, Option.some.inj (hk.symm.trans hheld)⟩
    · rw [s.setLocked_ne _ hkl]
      exact .inr hk
  refine h.of_table rfl rfl rfl h.unique (fun d p (hc : s.current d = some p) => ?_) h.cpu
    (fun d p hp => ?_) (fun p hp hr => ?_) fun k hk => ?_
  · obtain hrun | hlock := h.current d p hc
    · exact .inl hrun
    · obtain ⟨hlp, rfl⟩ | hlock := hkeep _ d hlock
      · exact .inl ((hproc p hlp.symm).1 hc)
      · exact .inr hlock
  · obtain hcur | ⟨hlock, hnone⟩ := h.proc d p hp
    · exact .inl hcur
    · obtain ⟨-, rfl⟩ | hlock := hkeep _ d hlock
      · exact .inl (hcpu ▸ hp)
      · exact .inr ⟨hlock, hnone⟩
  · by_cases hlp : l = .proc p
    · by_cases hcur : s.current c = some p
      · exact ⟨c, hcur⟩
      · exact (hproc p hlp).2 hcur hr
    · refine h.running p ?_ hr
      rwa [s.setLocked_ne _ (Ne.symm hlp)] at hp
  · by_cases hkl : k = l
    · exact hkl ▸ hinv
    · refine h.locks k ?_
      rwa [s.setLocked_ne _ hkl] at hk

/-! ## Switches -/

theorem swtchNone (h : Inv K s) (hp : s.current c = some p)
    (hl : s.locked (.proc p) = some c) : Inv K (s.setCurrent c none) := by
  -- the other processors go on
  have hold (d : Cpu) (q : Slot) (hd : (s.setCurrent c none).current d = some q) :
      d ≠ c ∧ s.current d = some q := by
    by_cases hdc : d = c
    · rw [hdc, s.setCurrent_same] at hd
      cases hd
    · rw [s.setCurrent_ne _ hdc] at hd
      exact ⟨hdc, hd⟩
  refine h.of_table rfl rfl rfl (fun d d' q hd hd' => ?_) (fun d q hd => ?_) (fun d q hd => ?_)
    (fun d q hd => ?_) (fun q hq hr => ?_) h.locks
  · exact h.unique d d' q (hold d q hd).2 (hold d' q hd').2
  · exact h.current d q (hold d q hd).2
  · exact h.cpu d q (hold d q hd).2
  · -- the processor keeps its `proc` until its scheduler clears it
    by_cases hdc : d = c
    · subst hdc
      obtain rfl : p = q := Option.some.inj ((h.cpu d p hp).symm.trans hd)
      refine .inr ⟨hl, fun d' hd' => ?_⟩
      obtain ⟨hne, hcur⟩ := hold d' p hd'
      exact hne (h.unique d' d p hcur hp)
    · obtain hcur | ⟨hlock, hnone⟩ := h.proc d q hd
      · exact .inl ((s.setCurrent_ne _ hdc).trans hcur)
      · exact .inr ⟨hlock, fun d' hd' => hnone d' (hold d' q hd').2⟩
  · obtain ⟨d, hd⟩ := h.running q hq hr
    refine ⟨d, ?_⟩
    rw [s.setCurrent_ne _ fun hdc => ?_]
    · exact hd
    · obtain rfl : p = q := Option.some.inj (hp.symm.trans (hdc ▸ hd))
      cases hl.symm.trans hq

theorem swtchSome (h : Inv K s) (hcur : s.current c = none) (hp : ∀ d, s.current d ≠ some p)
    (hl : s.locked (.proc p) = some c) (hcpu : (s.cpu c).proc = some p)
    (hrun : (s.proc p).state = .running) : Inv K (s.setCurrent c (some p)) := by
  have hcases (d : Cpu) (q : Slot) (hd : (s.setCurrent c (some p)).current d = some q) :
      d = c ∧ q = p ∨ d ≠ c ∧ s.current d = some q := by
    by_cases hdc : d = c
    · rw [hdc, s.setCurrent_same] at hd
      exact .inl ⟨hdc, (Option.some.inj hd).symm⟩
    · rw [s.setCurrent_ne _ hdc] at hd
      exact .inr ⟨hdc, hd⟩
  refine h.of_table rfl rfl rfl (fun d d' q hd hd' => ?_) (fun d q hd => ?_) (fun d q hd => ?_)
    (fun d q hd => ?_) (fun q hq hr => ?_) h.locks
  · obtain ⟨rfl, rfl⟩ | ⟨-, hold⟩ := hcases d q hd
    · obtain ⟨rfl, -⟩ | ⟨-, hold'⟩ := hcases d' q hd'
      · rfl
      · exact absurd hold' (hp d')
    · obtain ⟨-, rfl⟩ | ⟨-, hold'⟩ := hcases d' q hd'
      · exact absurd hold (hp d)
      · exact h.unique d d' q hold hold'
  · obtain ⟨-, rfl⟩ | ⟨-, hd⟩ := hcases d q hd
    · exact .inl hrun
    · exact h.current d q hd
  · obtain ⟨rfl, rfl⟩ | ⟨-, hd⟩ := hcases d q hd
    · exact hcpu
    · exact h.cpu d q hd
  · by_cases hdc : d = c
    · subst hdc
      exact .inl ((s.setCurrent_same d _).trans (hcpu.symm.trans hd))
    · obtain hcur' | ⟨hlock, hnone⟩ := h.proc d q hd
      · exact .inl ((s.setCurrent_ne _ hdc).trans hcur')
      · refine .inr ⟨hlock, fun d' hd' => ?_⟩
        obtain ⟨-, rfl⟩ | ⟨-, hd'⟩ := hcases d' q hd'
        · exact hdc (Option.some.inj (hlock.symm.trans hl))
        · exact hnone d' hd'
  · obtain ⟨d, hd⟩ := h.running q hq hr
    refine ⟨d, ?_⟩
    rw [s.setCurrent_ne _ fun hdc => ?_]
    · exact hd
    · rw [hdc, hcur] at hd
      cases hd

/-- A step inside a processor. -/
theorem modCpu (h : Inv K s) {f : CpuState → CpuState} (hf : cpuOK c s (f (s.cpu c))) :
    Inv K (s.modCpu c f) := by
  refine h.of_table rfl rfl rfl h.unique h.current (fun d p hd => ?_) (fun d p hd => ?_)
    h.running h.locks
  · have hold := h.cpu d p hd
    by_cases hdc : d = c
    · subst hdc
      rw [s.modCpu_same]
      obtain hproc | ⟨hnone, -⟩ := hf
      · exact hproc.trans hold
      · cases hnone.symm.trans hd
    · rwa [s.modCpu_ne _ hdc]
  · by_cases hdc : d = c
    · subst hdc
      rw [s.modCpu_same] at hd
      obtain hproc | ⟨-, hlocked⟩ := hf
      · exact h.proc d p (hproc.symm.trans hd)
      · exact .inr (hlocked p hd)
    · rw [s.modCpu_ne _ hdc] at hd
      exact h.proc d p hd

end Inv

/-! ## The logic of the kernel -/

/-- An operation that meets its obligation keeps the invariant. -/
theorem inv_step {β : Type} {i : Input} {s' : Kernel} {o : Op β} {b : β} (h : Inv K s)
    (ha : K.assume β c o s) (hm : must K β c o s) (hx : exec c i s o = some (b, s')) :
    Inv K s' := by
  cases o with
  | lock l =>
    simp only [exec] at hx
    split at hx
    · rename_i hl
      obtain ⟨-, rfl⟩ := Prod.mk.inj (Option.some.inj hx)
      exact h.lock hl
    · cases hx
  | unlock l =>
    obtain ⟨-, rfl⟩ := Prod.mk.inj (Option.some.inj hx)
    exact h.unlock hm
  | read f =>
    obtain ⟨-, rfl⟩ := Prod.mk.inj (Option.some.inj hx)
    exact h
  | cpu f =>
    obtain ⟨-, rfl⟩ := Prod.mk.inj (Option.some.inj hx)
    exact h.modCpu (f := fun x => (f x).2) hm
  | write w =>
    obtain ⟨-, rfl⟩ := Prod.mk.inj (Option.some.inj hx)
    exact h.write hm (ha .positive)
  | context p =>
    obtain ⟨-, rfl⟩ := Prod.mk.inj (Option.some.inj hx)
    exact h
  | swtch p =>
    obtain ⟨-, rfl⟩ := Prod.mk.inj (Option.some.inj hx)
    cases p with
    | none =>
      obtain ⟨p, hp, hl, -⟩ := hm
      exact h.swtchNone hp ((hl _).2 rfl)
    | some p =>
      obtain ⟨hcur, hp, hl, hcpu, -, hrun, -⟩ := hm
      exact h.swtchSome hcur hp ((hl _).2 rfl) hcpu hrun
  | vm f =>
    simp only [exec] at hx
    split at hx
    · obtain ⟨-, rfl⟩ := Prod.mk.inj (Option.some.inj hx)
      exact h.of_table rfl rfl rfl h.unique h.current h.cpu h.proc h.running h.locks
    · obtain ⟨-, rfl⟩ := Prod.mk.inj (Option.some.inj hx)
      exact h
  | input =>
    obtain ⟨-, rfl⟩ := Prod.mk.inj (Option.some.inj hx)
    exact h
  | note e =>
    obtain ⟨-, rfl⟩ := Prod.mk.inj (Option.some.inj hx)
    exact h
  | panic msg => cases hx

/-- The locking discipline, in runs that are known to meet some conditions. -/
def discipline (K : Known) : Logic machine where
  inv := Inv K
  assume := K.assume
  must := must K
  inv_step := inv_step

/-! ## The invariant after boot -/

/-- Every slot but that of `initproc` is as `procinit` leaves it. -/
theorem Boot.table_cases (b : Boot) (p : Slot) :
    p = initproc ∧
        b.table p = { Proc.free with state := .runnable, pid := 1, priv := b.init } ∨
      p ≠ initproc ∧ b.table p = Proc.free := by
  by_cases hp : p = initproc
  · exact .inl ⟨hp, if_pos hp⟩
  · exact .inr ⟨hp, if_neg hp⟩

theorem forest_boot (b : Boot) : Forest b.table := by
  have hparent : ∀ p, (b.table p).parent = none := by
    intro p
    obtain ⟨-, hp⟩ | ⟨-, hp⟩ := b.table_cases p <;> rw [hp] <;> rfl
  refine ⟨?_, hparent _, fun p q hq => ?_, fun q hq hl => ?_, fun q _ => hparent q⟩
  · exact .inl (by rw [Boot.table, if_pos rfl])
  · rw [hparent q] at hq
    cases hq
  · obtain ⟨hq', -⟩ | ⟨-, hp⟩ := b.table_cases q
    · exact absurd hq' hq
    · rw [hp] at hl
      simp [Proc.Live, Proc.free] at hl

theorem pids_boot (b : Boot) : Pids b.table 2 := by
  have hnewpid : ∀ p, (b.table p).newpid = 0 := by
    intro p
    obtain ⟨-, hp⟩ | ⟨-, hp⟩ := b.table_cases p <;> rw [hp] <;> rfl
  have hpid : ∀ p, (b.table p).pid = if p = Boot.initproc then 1 else 0 := by
    intro p
    obtain ⟨hp', hp⟩ | ⟨hp', hp⟩ := b.table_cases p
    · rw [hp, if_pos hp']
    · rw [hp, if_neg hp']
      rfl
  refine ⟨by decide, fun p => ?_, fun p => ?_, fun p q h hne => ?_, fun p q _ hne => ?_⟩
  · rw [hpid]
    split <;> decide
  · rw [hnewpid]
    decide
  · have hinit (r : Slot) (hr : (b.table r).pid ≠ 0) : r = Boot.initproc := by
      by_contra hr'
      exact hr ((hpid r).trans (if_neg hr'))
    rw [hinit p hne, hinit q (h ▸ hne)]
  · exact absurd (hnewpid p) hne

/-- Nothing that a lock protects is disturbed yet. -/
theorem lockInv_boot (b : Boot) (l : Lock) : LockInv K l b.table := by
  cases l with
  | proc p =>
    obtain ⟨-, hp⟩ | ⟨-, hp⟩ := b.table_cases p
    · refine ⟨fun _ => ?_, ?_, fun _ => ?_, fun _ _ _ => ?_⟩ <;> rw [hp]
      · intro h
        cases h
      · exact fun h => nomatch h
      · exact fun h => nomatch h
      · show (1 : I32) ≠ 0
        decide
    · refine ⟨fun _ => ?_, ?_, fun _ _ => ?_, fun _ hu => ?_⟩
      · rw [hp]
        intro h
        cases h
      · rw [hp]
        exact fun h => nomatch h
      · rw [hp]
        exact ⟨rfl, rfl⟩
      · rw [hp] at hu
        exact absurd rfl hu
  | wait =>
    refine ⟨fun p q _ hd => ?_, fun q _ hz => ?_⟩
    · obtain ⟨-, hp⟩ | ⟨-, hp⟩ := b.table_cases p <;>
      · rw [hp] at hd
        cases hd
    · obtain ⟨-, hq⟩ | ⟨-, hq⟩ := b.table_cases q <;>
      · rw [hq] at hz
        cases hz
  | _ => trivial

/-- The invariant holds after boot. -/
theorem inv_boot (K : Known) (b : Boot) : Inv K b.kernel where
  initproc := rfl
  xstate p := by
    obtain ⟨-, hp⟩ | ⟨-, hp⟩ := b.table_cases p <;>
    · show (b.table p).xstate = 0
      rw [hp]
      rfl
  ended p (hz : (b.table p).state = .zombie) := by
    obtain ⟨-, hp⟩ | ⟨-, hp⟩ := b.table_cases p <;>
    · rw [hp] at hz
      cases hz
  status p v (hz : (b.table p).state = .zombie) := by
    obtain ⟨-, hp⟩ | ⟨-, hp⟩ := b.table_cases p <;>
    · rw [hp] at hz
      cases hz
  message p (hz : (b.table p).state = .zombie) := by
    obtain ⟨-, hp⟩ | ⟨-, hp⟩ := b.table_cases p <;>
    · rw [hp] at hz
      cases hz
  forest := forest_boot b
  fresh p _ _ := by
    obtain ⟨-, hp⟩ | ⟨-, hp⟩ := b.table_cases p <;>
    · show (b.table p).reaps = 0
      rw [hp]
      rfl
  reaps p := by
    obtain ⟨-, hp⟩ | ⟨-, hp⟩ := b.table_cases p <;>
    · show (b.table p).reaps ≤ 1
      rw [hp]
      exact Nat.zero_le 1
  dozing p (hs : (b.table p).state = .sleeping) := by
    obtain ⟨-, hp⟩ | ⟨-, hp⟩ := b.table_cases p <;>
    · rw [hp] at hs
      cases hs
  pids _ := pids_boot b
  unique c d p h := by cases h
  current c p h := by cases h
  cpu c p h := by cases h
  proc c p h := by cases h
  running p _ (hr : (b.table p).state = .running) := by
    obtain ⟨-, hp⟩ | ⟨-, hp⟩ := b.table_cases p <;>
    · rw [hp] at hr
      cases hr
  locks l _ := lockInv_boot b l

end Xv6
