import Xv6.Proc.Syscall
import Xv6.Conc.Calls
import Xv6.Vm.Uaccess
import Xv6.Vm.Isolation

/-!
# What `wait` stores

A call of `wait` among the steps of other threads, from its first operation on:
which of the caller's user memory it changes.  The call has three `copyout`s,
and the first of the exit message is not guarded by a test of its address.
-/

namespace Xv6.Stores

open Conc Conc.Logic

variable {p q : Slot} {root addr msgAddr : U64} {m₀ m m' : Mem} {s s' : Kernel} {α β : Type}

/-! ## What a run is known to meet -/

/-- The addresses for which the caller of `wait` has asked for something. -/
def Asked (addr msgAddr va : U64) : Prop :=
  (addr ≠ 0 ∧ ∃ i < 4, va = addr + BitVec.ofNat 64 i) ∨
    (msgAddr ≠ 0 ∧ ∃ i < 32, va = msgAddr + BitVec.ofNat 64 i)

/-- The user memory behind one page table is the same. -/
structure SameUser (root : U64) (m m' : Mem) : Prop where
  byte : ∀ va, userByte m' root va = userByte m root va
  pages : UserPages m root → UserPages m' root

/-- `q` is a child of `p` that has exited. -/
structure Exited (p q : Slot) (s : Kernel) : Prop where
  parent : (s.proc q).parent = some p
  state : (s.proc q).state = .zombie

/-- An exit message is an array of 32 bytes with a NUL, and what the child
holds is not user memory of its parent. -/
structure Collectable (root : U64) (x : Private) (m : Mem) : Prop where
  length : x.exitMsg.length = 32
  ends : 0 ∈ x.exitMsg
  trapframe : ∀ tf m', x.trapframe = some tf → kfree tf m = .ok ((), m') → SameUser root m m'
  pagetable : ∀ pt m', x.pagetable = some pt → procFreepagetable pt x.sz m = .ok ((), m') →
    SameUser root m m'

/-- What another thread leaves alone: the address space of `p`, the link from
its children to it, and those of them that have exited. -/
structure Others (p : Slot) (root : U64) (s s' : Kernel) : Prop where
  table : (s'.proc p).priv.pagetable = (s.proc p).priv.pagetable
  user : SameUser root s.mem s'.mem
  parent : ∀ q, (s.proc q).parent = some p → (s'.proc q).parent = some p
  exited : ∀ q, Exited p q s → (s'.proc q).state = .zombie ∧
    (s'.proc q).priv = (s.proc q).priv ∧ (s'.proc q).pid = (s.proc q).pid

/-- To store `bs` at `dst` changes nothing for which the caller has not asked:
the bytes that can be stored there are there already. -/
def Fits (root addr msgAddr dst : U64) (bs : List Byte) (m : Mem) : Prop :=
  ∀ i (h : i < bs.length), Reaches m root dst i →
    ¬ Asked addr msgAddr (dst + BitVec.ofNat 64 i) →
      userByte m root (dst + BitVec.ofNat 64 i) = some bs[i]

/-- The exit message is not stored, since the status cannot be, or it fits. -/
def Harmless (root addr msgAddr : U64) (msg : List Byte) (m : Mem) : Prop :=
  (addr ≠ 0 ∧ ¬ UserRange m root addr 4) ∨
    Fits root addr msgAddr msgAddr (cstring msg ++ [0]) m

/-- When `wait` has found a child and has no place for its message, the message
does no harm. -/
def messageOK (p : Slot) (root addr msgAddr : U64) (s : Kernel) : Event → Prop
  | .found pid => msgAddr = 0 → ∀ q, Exited p q s → (s.proc q).pid = pid →
      Harmless root addr msgAddr (s.proc q).priv.exitMsg s.mem
  | _ => True

def opOK (p : Slot) (root addr msgAddr : U64) (s : Kernel) : {β : Type} → Op β → Prop
  | _, .note e => messageOK p root addr msgAddr s e
  | _, _ => True

/-- A step of a run in which process `p` is in `wait(addr, msgAddr)`. -/
structure Fair (p : Slot) (root addr msgAddr : U64) (β : Type) (c : Cpu) (o : Op β)
    (s : Kernel) : Prop where
  self : s.running c = .proc p → (s.cpu c).proc = some p
  child : s.running c = .proc p → ∀ q, Exited p q s →
    q ≠ p ∧ Collectable root (s.proc q).priv s.mem
  message : s.running c = .proc p → opOK p root addr msgAddr s o
  others : s.running c ≠ .proc p → ∀ i b s', exec c i s o = some (b, s') → Others p root s s'

/-- User memory is as in `m₀`, but for what the caller has asked for. -/
structure Framed (p : Slot) (root addr msgAddr : U64) (m₀ : Mem) (s : Kernel) : Prop where
  table : (s.proc p).priv.pagetable = some root
  pages : UserPages s.mem root
  kept : ∀ va, ¬ Asked addr msgAddr va → userByte s.mem root va = userByte m₀ root va

theorem Framed.others (h : Framed p root addr msgAddr m₀ s) (ho : Others p root s s') :
    Framed p root addr msgAddr m₀ s' where
  table := ho.table.trans h.table
  pages := ho.user.pages h.pages
  kept va hva := (ho.user.byte va).trans (h.kept va hva)

/-- The calls of `wait`, each step of which keeps `Framed`. -/
def logic (p : Slot) (root addr msgAddr : U64) (m₀ : Mem) : Logic machine where
  inv := Framed p root addr msgAddr m₀
  assume := Fair p root addr msgAddr
  must _ c o s := s.running c = .proc p → ∀ i b s', exec c i s o = some (b, s') →
    Framed p root addr msgAddr m₀ s'
  inv_step {β c i s s' o b} hinv ha hm hx := by
    by_cases hc : s.running c = .proc p
    · exact hm hc i b s' hx
    · exact hinv.others (ha.others hc i b s' hx)

abbrev Spec (p : Slot) (root addr msgAddr : U64) (m₀ : Mem) (K : Kernel → Prop) (m : Code α)
    (Q : α → Kernel → Prop) : Prop :=
  (logic p root addr msgAddr m₀).Triple (.proc p) K m Q

/-- An assertion that the other threads keep. -/
def Kept (p : Slot) (root : U64) (K : Kernel → Prop) : Prop :=
  ∀ s s', Others p root s s' → K s → K s'

theorem Kept.stable {K : Kernel → Prop} (h : Kept p root K) :
    (logic p root addr msgAddr m₀).Stable (.proc p) K := by
  rintro s s' ⟨β, c, i, o, b, hc, -, ha, -, hx⟩ hs
  exact h s s' (ha.others hc i b s' hx) hs

theorem kept_true : Kept p root fun _ => True := fun _ _ _ _ => trivial

/-! ## Code that stores nothing in user memory -/

/-- An operation that runs no code on physical memory and leaves the private
fields of `p` alone. -/
def Plain (p : Slot) : (β : Type) → Op β → Prop
  | _, .vm _ => False
  | _, .write (.priv q _) => q ≠ p
  | _, _ => True

/-- An operation that leaves memory and the process table alone. -/
def Quiet : (β : Type) → Op β → Prop
  | _, .vm _ => False
  | _, .write _ => False
  | _, _ => True

theorem exec_quiet {c : Cpu} {i : Input} {o : Op β} {b : β} (ho : Quiet β o)
    (hx : exec c i s o = some (b, s')) : s'.mem = s.mem ∧ s'.proc = s.proc := by
  cases o with
  | lock l =>
    simp only [exec] at hx
    split at hx
    · cases hx
      exact ⟨rfl, rfl⟩
    · cases hx
  | vm f => exact ho.elim
  | write w => exact ho.elim
  | panic msg => cases hx
  | _ =>
    cases hx
    exact ⟨rfl, rfl⟩

theorem exec_plain {c : Cpu} {i : Input} {o : Op β} {b : β} (ho : Plain p β o)
    (hx : exec c i s o = some (b, s')) :
    s'.mem = s.mem ∧ (s'.proc p).priv = (s.proc p).priv := by
  by_cases hquiet : Quiet β o
  · obtain ⟨hmem, hproc⟩ := exec_quiet hquiet hx
    exact ⟨hmem, by rw [hproc]⟩
  cases o with
  | vm f => exact ho.elim
  | write w =>
    cases hx
    cases w with
    | priv q f =>
      have hq : q ≠ p := ho
      exact ⟨rfl, congrArg Proc.priv (if_neg (Ne.symm hq))⟩
    | reap q r => exact ⟨rfl, rfl⟩
    | nextpid v => exact ⟨rfl, rfl⟩
    | data f => exact ⟨rfl, rfl⟩
    | _ =>
      refine ⟨rfl, ?_⟩
      simp only [Write.apply, Kernel.modProc]
      split <;> rfl
  | _ => exact absurd trivial hquiet

theorem Framed.of_eq (h : Framed p root addr msgAddr m₀ s) (hmem : s'.mem = s.mem)
    (hpriv : (s'.proc p).priv = (s.proc p).priv) : Framed p root addr msgAddr m₀ s' where
  table := by rw [hpriv, h.table]
  pages := by rw [hmem]; exact h.pages
  kept va hva := by rw [hmem, h.kept va hva]

theorem plain_spec {m : Code α} (hm : m.All (Plain p)) :
    Spec p root addr msgAddr m₀ (fun _ => True) m fun _ _ => True := by
  refine Triple.all (Kept.stable kept_true) (fun β o s c ho _ hinv _ _ => ⟨fun _ i b s' hx => ?_,
    fun _ _ _ _ => trivial⟩) hm
  obtain ⟨hmem, hpriv⟩ := exec_plain ho hx
  exact Framed.of_eq hinv hmem hpriv

theorem plain_of_quiet {m : Code α} (hm : m.All Quiet) : m.All (Plain p) := by
  refine hm.mono fun β o ho => ?_
  cases o with
  | vm f => exact ho.elim
  | write w => exact ho.elim
  | _ => trivial

/-- Code that leaves memory and the process table alone keeps what is known of
these. -/
theorem quiet_spec {K : (Slot → Proc) → Mem → Prop} {m : Code α} (hm : m.All Quiet)
    (hK : Kept p root fun s => K s.proc s.mem) :
    Spec p root addr msgAddr m₀ (fun s => K s.proc s.mem) m fun _ s => K s.proc s.mem := by
  refine Triple.all hK.stable (fun β o s c ho hs hinv _ _ => ⟨fun _ i b s' hx => ?_,
    fun i b s' hx => ?_⟩) hm
  · obtain ⟨hmem, hproc⟩ := exec_quiet ho hx
    exact Framed.of_eq hinv hmem (by rw [hproc])
  · obtain ⟨hmem, hproc⟩ := exec_quiet ho hx
    rwa [hmem, hproc]

/-! ## Locks, sleeping and interrupts -/

theorem quiet_pushOff : pushOff.All Quiet := .perform trivial

theorem quiet_panic (msg : String) : (panic msg : Code α).All Quiet := .perform trivial

theorem quiet_holding (l : Lock) : (holding l).All Quiet := .perform trivial

theorem quiet_mycpuProc : mycpuProc.All Quiet := .perform trivial

theorem quiet_read (f : Kernel → β) : (read f).All Quiet := .perform trivial

theorem quiet_popOff : popOff.All Quiet := by
  refine .bind (.perform trivial) fun r => ?_
  cases r with
  | ok on => exact .ret on
  | error msg => exact quiet_panic msg

theorem quiet_myproc : myproc.All Quiet := by
  refine .bind quiet_mycpuProc fun r => ?_
  cases r with
  | some p => exact .ret p
  | none => exact quiet_panic _

theorem quiet_acquire (l : Lock) : (acquire l).All Quiet := by
  refine .bind quiet_pushOff fun _ => .bind (quiet_holding l) fun _ => ?_
  exact .ite (.bind (quiet_panic _) fun _ => .perform trivial) (.perform trivial)

theorem plain_write {w : Write} (hw : Plain p Unit (.write w)) : (write w).All (Plain p) :=
  .perform hw

theorem plain_releaseWith {trap : Code Unit} (htrap : trap.All (Plain p)) (l : Lock) :
    (releaseWith trap l).All (Plain p) := by
  have hrest : ((Prog.perform (.unlock l)).bind fun _ => popOff.bind fun on =>
      if on = true then trap else (pure () : Code Unit)).All (Plain p) :=
    .bind (.perform trivial) fun _ => .bind (plain_of_quiet quiet_popOff) fun _ => .ite htrap (.ret ())
  refine .bind (plain_of_quiet (quiet_holding l)) fun _ => ?_
  exact .ite (.bind (plain_of_quiet (quiet_panic _)) fun _ => hrest) hrest

theorem plain_wakeupWith {trap : Code Unit} (htrap : trap.All (Plain p)) (chan : Chan) :
    (wakeupWith trap chan).All (Plain p) := by
  refine .foldM (fun _ q => .bind (plain_of_quiet quiet_mycpuProc) fun _ => .ite ?_ (.ret ())) _ _
  refine .bind (plain_of_quiet (quiet_acquire _)) fun _ => .bind (plain_of_quiet (quiet_read _))
    fun _ => .bind (plain_of_quiet (quiet_read _)) fun _ => ?_
  have hrelease := plain_releaseWith htrap (.proc q)
  exact .ite (.bind (plain_write trivial) fun _ => .bind (plain_write trivial) fun _ => hrelease)
    hrelease

/-- A test that leads to a panic. -/
theorem plain_guard {φ : Prop} [Decidable φ] {msg : String} {m : Code α} (hm : m.All (Plain p)) :
    (if φ then (panic msg : Code PUnit).bind fun _ => m else m).All (Plain p) :=
  .ite (.bind (plain_of_quiet (quiet_panic msg)) fun _ => hm) hm

theorem plain_cpu (f : CpuState → β × CpuState) :
    (Prog.perform (.cpu f) : Code β).All (Plain p) := .perform trivial

theorem plain_sched : sched.All (Plain p) := by
  refine .bind (plain_of_quiet quiet_myproc) fun _ => ?_
  refine .bind (plain_of_quiet (quiet_holding _)) fun _ => plain_guard ?_
  refine .bind (plain_cpu _) fun _ => plain_guard ?_
  refine .bind (plain_of_quiet (quiet_read _)) fun _ => plain_guard ?_
  refine .bind (plain_cpu _) fun _ => plain_guard ?_
  refine .bind (plain_cpu _) fun _ => .bind (.perform trivial) fun _ => plain_cpu _

theorem plain_yieldWith {trap : Code Unit} (htrap : trap.All (Plain p)) :
    (yieldWith trap).All (Plain p) := by
  refine .bind (plain_of_quiet quiet_myproc) fun q => .bind (plain_of_quiet (quiet_acquire _))
    fun _ => .bind (plain_write trivial) fun _ => .bind plain_sched fun _ => ?_
  exact plain_releaseWith htrap _

theorem plain_noTrap : noTrap.All (Plain p) := .ret ()

theorem plain_devintr (d : Dev) : (devintr d).All (Plain p) := by
  have hrelease : ∀ l, (releaseWith noTrap l).All (Plain p) := plain_releaseWith plain_noTrap
  have hwakeup : ∀ chan, (wakeupWith noTrap chan).All (Plain p) := plain_wakeupWith plain_noTrap
  have hacquire : ∀ l, (acquire l).All (Plain p) := fun l => plain_of_quiet (quiet_acquire l)
  cases d with
  | timer =>
    refine .bind (.perform trivial) fun _ => .ite (.bind ?_ fun _ => .ret 2) (.ret 2)
    exact .bind (hacquire _) fun _ => .bind (plain_write trivial) fun _ =>
      .bind (hwakeup _) fun _ => hrelease _
  | uart c =>
    refine .bind ?_ fun _ => .ret 1
    refine .bind (hacquire _) fun _ => .bind (plain_of_quiet (quiet_read _)) fun r =>
      .bind (plain_write trivial) fun _ => ?_
    exact .ite (.bind (hwakeup _) fun _ => hrelease _) (hrelease _)
  | disk k =>
    exact .bind (hacquire _) fun _ => .bind (hwakeup _) fun _ => .bind (hrelease _) fun _ => .ret 1

theorem plain_kerneltrap : kerneltrap.All (Plain p) := by
  refine .loop (fun _ => .bind (.perform trivial) fun e => ?_) ()
  have hon : ((Prog.perform (.cpu fun x => ((), { x with intr := true }))).bind
      fun _ => (pure (.inl ()) : Code (Unit ⊕ Unit))).All (Plain p) :=
    .bind (plain_cpu _) fun _ => .ret _
  cases e with
  | intr d =>
    cases d with
    | none => exact .ret _
    | some d =>
      refine .bind (plain_cpu _) fun _ => .bind (plain_devintr d) fun which => .ite ?_ hon
      refine .bind (plain_of_quiet quiet_mycpuProc) fun r => ?_
      cases r with
      | none => exact hon
      | some q =>
        refine .bind (plain_of_quiet (quiet_read _)) fun _ => .ite ?_ hon
        exact .bind (plain_yieldWith plain_noTrap) fun _ => hon
  | user e => exact .ret _
  | fs a => exact .ret _

theorem plain_release (l : Lock) : (release l).All (Plain p) :=
  plain_releaseWith plain_kerneltrap l

theorem plain_killed (q : Slot) : (killed q).All (Plain p) :=
  .bind (plain_of_quiet (quiet_acquire _)) fun _ => .bind (plain_of_quiet (quiet_read _)) fun _ =>
    .bind (plain_release _) fun _ => .ret _

theorem plain_sleep (site : Site) (chan : Chan) (l : Lock) :
    (sleep site chan l).All (Plain p) := by
  refine .bind (plain_of_quiet quiet_myproc) fun q => .bind (plain_of_quiet (quiet_acquire _))
    fun _ => .bind (plain_write trivial) fun _ => .bind (plain_release _) fun _ => ?_
  refine .bind (plain_write trivial) fun _ => .bind (plain_write trivial) fun _ =>
    .bind (plain_write trivial) fun _ => .bind plain_sched fun _ => ?_
  exact .bind (plain_write trivial) fun _ => .bind (plain_release _) fun _ =>
    plain_of_quiet (quiet_acquire _)

/-! ## Operations that store -/

section

variable {K : Kernel → Prop}

theorem read_spec {f : Kernel → β} {Q : β → Kernel → Prop} (hK : Kept p root K)
    (h : ∀ s, K s → Framed p root addr msgAddr m₀ s →
      (∀ q, Exited p q s → q ≠ p ∧ Collectable root (s.proc q).priv s.mem) → Q (f s) s) :
    Spec p root addr msgAddr m₀ K (read f) Q := by
  refine Triple.perform hK.stable fun s c hs hinv hc ha => ⟨fun _ i b s' hx => ?_,
    fun i b s' hx => ?_⟩
  · cases hx
    exact hinv
  · cases hx
    exact h s hs hinv (ha.child hc)

/-- A mark in the code, where the run is known to meet the condition. -/
theorem note_spec {e : Event} (hK : Kept p root K) :
    Spec p root addr msgAddr m₀ K (note e) fun _ s => K s ∧ messageOK p root addr msgAddr s e := by
  refine Triple.perform hK.stable fun s c hs hinv hc ha => ⟨fun _ i b s' hx => ?_,
    fun i b s' hx => ?_⟩
  · cases hx
    exact hinv
  · cases hx
    exact ⟨hs, ha.message hc⟩

theorem panic_spec {msg : String} {Q : α → Kernel → Prop} :
    Spec p root addr msgAddr m₀ (fun _ => True) (panic msg) Q := by
  refine Triple.perform (Kept.stable kept_true) fun s c _ _ _ _ => ⟨fun _ i b s' hx => ?_,
    fun i b s' hx => ?_⟩
  · cases hx
  · cases hx

theorem vm_spec {f : Vm β} {Q : β → Kernel → Prop} (hK : Kept p root K)
    (h : ∀ s b m', K s → Framed p root addr msgAddr m₀ s →
      (∀ q, Exited p q s → q ≠ p ∧ Collectable root (s.proc q).priv s.mem) →
      f s.mem = .ok (b, m') →
        Framed p root addr msgAddr m₀ { s with mem := m' } ∧ Q b { s with mem := m' }) :
    Spec p root addr msgAddr m₀ K (vm f) Q := by
  refine Triple.bind (R := fun r s => ∀ b, r = .ok b → Q b s) (Triple.perform hK.stable
    fun s c hs hinv hc ha => ?_) fun r => ?_
  · have hcases : ∀ i r s', exec c i s (.vm f) = some (r, s') →
        Framed p root addr msgAddr m₀ s' ∧ ∀ b, r = .ok b → Q b s' := by
      intro i r s' hx
      simp only [exec] at hx
      split at hx
      · rename_i b m' hf
        cases hx
        obtain ⟨hframed, hQ⟩ := h s b m' hs hinv (ha.child hc) hf
        refine ⟨hframed, fun b' hb => ?_⟩
        cases hb
        exact hQ
      · cases hx
        exact ⟨hinv, fun b hb => by cases hb⟩
    exact ⟨fun _ i r s' hx => (hcases i r s' hx).1, fun i r s' hx => (hcases i r s' hx).2⟩
  · cases r with
    | ok b => exact fun s hs => hs b rfl
    | error msg => exact panic_spec.pre fun _ _ => trivial

theorem deref_spec {Q : β → Kernel → Prop} (b : β) (r : Option β)
    (hK : ∀ s, K s → r = some b ∧ Q b s) :
    Spec p root addr msgAddr m₀ K (deref r) Q := by
  cases r with
  | some b' =>
    intro s hs
    obtain ⟨hb, hQ⟩ := hK s hs
    cases hb
    exact hQ
  | none => exact fun s hs => by cases (hK s hs).1

end

/-! ## User memory before and after -/

theorem userMapped_congr {va : U64} (h : userByte m' root va = userByte m root va) :
    UserMapped m' root va ↔ UserMapped m root va := by
  rw [← userByte_ne_none, ← userByte_ne_none, h]

theorem reaches_congr {dst : U64} {i : Nat}
    (h : ∀ va, UserMapped m' root va ↔ UserMapped m root va) :
    Reaches m' root dst i ↔ Reaches m root dst i := by
  unfold Reaches
  simp only [userPage_ne_none, h]

theorem Fits.same {dst : U64} {bs : List Byte} (h : Fits root addr msgAddr dst bs m)
    (hsame : SameUser root m m') : Fits root addr msgAddr dst bs m' := by
  intro i hi hreach hnot
  rw [reaches_congr fun va => userMapped_congr (hsame.byte va)] at hreach
  rw [hsame.byte, h i hi hreach hnot]

theorem Harmless.same {msg : List Byte} (h : Harmless root addr msgAddr msg m)
    (hsame : SameUser root m m') : Harmless root addr msgAddr msg m' := by
  refine h.imp (fun hbad => ⟨hbad.1, fun hrange => hbad.2 fun i hi => ?_⟩) fun h => h.same hsame
  obtain ⟨hlt, hmapped⟩ := hrange i hi
  exact ⟨hlt, (userMapped_congr (hsame.byte _)).1 hmapped⟩

/-- What has been asked for fits. -/
theorem fits_of_asked {dst : U64} {bs : List Byte}
    (h : ∀ i < bs.length, Asked addr msgAddr (dst + BitVec.ofNat 64 i)) :
    Fits root addr msgAddr dst bs m :=
  fun i hi _ hnot => absurd (h i hi) hnot

theorem Framed.copied {dst : U64} {bs : List Byte} {r : Option Unit}
    (h : Framed p root addr msgAddr m₀ s) (hfits : Fits root addr msgAddr dst bs s.mem)
    (hdone : CopiedTo s.mem m' root dst bs r) :
    Framed p root addr msgAddr m₀ { s with mem := m' } where
  table := h.table
  pages := h.pages.wrote hdone.pages
  kept va hva := by
    rw [← h.kept va hva]
    by_cases hin : ∃ i, ∃ _ : i < bs.length, Reaches s.mem root dst i ∧
        va = dst + BitVec.ofNat 64 i
    · obtain ⟨i, hi, hreach, rfl⟩ := hin
      show userByte m' root _ = _
      rw [hdone.wrote i hi hreach, hfits i hi hreach hva]
    · exact hdone.kept va fun i hi hreach heq => hin ⟨i, hi, hreach, heq⟩

/-- A store of what has been asked for leaves what fits elsewhere. -/
theorem Fits.copied {dst dst' : U64} {bs bs' : List Byte} {r : Option Unit}
    (h : Fits root addr msgAddr dst bs m) (hu : UserPages m root)
    (hdone : CopiedTo m m' root dst' bs' r)
    (hasked : ∀ i < bs'.length, Asked addr msgAddr (dst' + BitVec.ofNat 64 i)) :
    Fits root addr msgAddr dst bs m' := by
  intro i hi hreach hnot
  have hpage := userPage_congr (hu.pte hdone.pages)
  have hmapped : ∀ va, UserMapped m' root va ↔ UserMapped m root va := fun va => by
    rw [← userPage_ne_none, ← userPage_ne_none, hpage]
  rw [reaches_congr hmapped] at hreach
  have hkept : userByte m' root (dst + BitVec.ofNat 64 i) =
      userByte m root (dst + BitVec.ofNat 64 i) := by
    refine hdone.kept _ fun j hj _ heq => hnot ?_
    rw [heq]
    exact hasked j hj
  rw [hkept, h i hi hreach hnot]

theorem copyoutTo_spec {K : Kernel → Prop} {Q : Option Unit → Kernel → Prop} {dst : U64}
    {bs : List Byte} (hK : Kept p root K)
    (hfits : ∀ s, K s → Fits root addr msgAddr dst bs s.mem)
    (hQ : ∀ s r m', K s → UserPages s.mem root → CopiedTo s.mem m' root dst bs r →
      Q r { s with mem := m' }) :
    Spec p root addr msgAddr m₀ K (copyoutTo p dst bs) Q := by
  refine Triple.bind (R := fun r s => r = some root ∧ K s)
    (read_spec hK fun s hs h _ => ⟨h.table, hs⟩) fun r => ?_
  refine Triple.bind (R := fun b s => b = root ∧ K s)
    (deref_spec root r fun s hs => ⟨hs.1, rfl, hs.2⟩) fun b => Triple.of_pure fun hb => ?_
  subst hb
  refine vm_spec hK fun s r m' hs h _ hf => ?_
  obtain ⟨r', m'', hrun, hdone⟩ := copyout_copiedTo h.pages dst bs
  rw [hf] at hrun
  cases hrun
  exact ⟨h.copied (hfits s hs) hdone, hQ s r m' hs h.pages hdone⟩

/-! ## Freeing a child -/

theorem write_spec {K Q : Kernel → Prop} {w : Write} (hw : Plain p Unit (.write w))
    (hK : Kept p root K) (hQ : ∀ s, K s → Q (w.apply s)) :
    Spec p root addr msgAddr m₀ K (write w) fun _ => Q := by
  refine Triple.perform hK.stable fun s c hs hinv _ _ => ⟨fun _ i b s' hx => ?_,
    fun i b s' hx => ?_⟩
  · obtain ⟨hmem, hpriv⟩ := exec_plain hw hx
    exact Framed.of_eq hinv hmem hpriv
  · cases hx
    exact hQ s hs

theorem kept_exited : Kept p root (Exited p q) := fun _ _ ho hs =>
  ⟨ho.parent q hs.parent, (ho.exited q hs).1⟩

/-- What is known of an exited child stays known. -/
theorem kept_priv {β : Type} (f : Private → β) (v : β) :
    Kept p root fun s => Exited p q s ∧ f (s.proc q).priv = v := fun s s' ho hs =>
  ⟨kept_exited s s' ho hs.1, by rw [(ho.exited q hs.1).2.1, hs.2]⟩

theorem exited_write {f : Private → Private} (h : Exited p q s) :
    Exited p q ((Write.priv q f).apply s) := by
  obtain ⟨hparent, hstate⟩ := h
  constructor <;> simpa [Write.apply, Kernel.modProc]

theorem Framed.same (h : Framed p root addr msgAddr m₀ s) (hsame : SameUser root s.mem m') :
    Framed p root addr msgAddr m₀ { s with mem := m' } where
  table := h.table
  pages := hsame.pages h.pages
  kept va hva := (hsame.byte va).trans (h.kept va hva)

theorem freeproc_spec (hq : q ≠ p) :
    Spec p root addr msgAddr m₀ (Exited p q) (freeproc q) fun _ _ => True := by
  have htake : ∀ f : Private → Private,
      Spec p root addr msgAddr m₀ (Exited p q) (write (.priv q f)) fun _ => Exited p q := fun f =>
    write_spec hq kept_exited fun s hs => exited_write hs
  have hrest : Spec p root addr msgAddr m₀ (Exited p q) (do
      write (.priv q fun x => { x with pagetable := none })
      write (.priv q fun x => { x with sz := 0 })
      write (.pid q 0)
      write (.parent q none)
      write (.priv q fun x => { x with name := x.name.set 0 0 })
      write (.chan q none)
      write (.killed q false)
      write (.xstate q 0)
      write (.state q .unused)) fun _ _ => True := by
    refine Triple.pre (plain_spec ?_) fun _ _ => trivial
    refine .bind (plain_write hq) fun _ => .bind (plain_write hq) fun _ =>
      .bind (plain_write trivial) fun _ => .bind (plain_write trivial) fun _ =>
      .bind (plain_write hq) fun _ => .bind (plain_write trivial) fun _ =>
      .bind (plain_write trivial) fun _ => .bind (plain_write trivial) fun _ =>
      plain_write trivial
  refine Triple.bind (R := fun _ => Exited p q)
    (Triple.post (note_spec kept_exited) fun _ s hs => hs.1) fun _ => ?_
  refine Triple.bind (R := fun r s => Exited p q s ∧ (s.proc q).priv.trapframe = r)
    (read_spec kept_exited fun s hs _ _ => ⟨hs, rfl⟩) fun trapframe => ?_
  -- with or without a trapframe, the rest is the same
  refine (fun htail => by
    cases trapframe with
    | none => exact Triple.pre htail fun s hs => hs.1
    | some trapframe =>
      refine Triple.bind (R := fun _ => Exited p q) (vm_spec (kept_priv Private.trapframe _)
        fun s b m' hs hframed hchild hf => ?_) fun _ => htail
      have hsame := (hchild q hs.1).2.trapframe trapframe m' hs.2 hf
      exact ⟨hframed.same hsame, hs.1.parent, hs.1.state⟩) ?_
  refine Triple.bind (htake _) fun _ => ?_
  refine Triple.bind (R := fun r s => Exited p q s ∧ (s.proc q).priv.pagetable = r)
    (read_spec kept_exited fun s hs _ _ => ⟨hs, rfl⟩) fun pagetable => ?_
  cases pagetable with
  | none => exact Triple.pre hrest fun s hs => hs.1
  | some pagetable =>
    refine Triple.bind (R := fun sz s => Exited p q s ∧
      ((s.proc q).priv.pagetable, (s.proc q).priv.sz) = (some pagetable, sz))
      (read_spec (kept_priv Private.pagetable _) fun s hs _ _ => ⟨hs.1, by rw [hs.2]⟩) fun sz => ?_
    refine Triple.bind (R := fun _ => Exited p q) (vm_spec
      (kept_priv (fun x => (x.pagetable, x.sz)) _) fun s b m' hs hframed hchild hf => ?_)
      fun _ => hrest
    obtain ⟨hpt, hsz⟩ := Prod.mk.inj hs.2
    have hsame := (hchild q hs.1).2.pagetable pagetable m' hpt (hsz ▸ hf)
    exact ⟨hframed.same hsame, hs.1.parent, hs.1.state⟩

/-! ## `wait` -/

theorem length_intBytes (v : I32) : (intBytes v).length = 4 := by simp [intBytes]

/-- A message with its NUL takes 32 bytes at most. -/
theorem length_cstring_le {msg : List Byte} (hlen : msg.length = 32) (hends : 0 ∈ msg) :
    (cstring msg ++ [0]).length ≤ 32 := by
  have hlt : (cstring msg).length < msg.length := by
    by_contra hge
    have hall : cstring msg = msg := (List.takeWhile_prefix _).eq_of_length_le (Nat.le_of_not_lt hge)
    rw [← hall] at hends
    have hnonzero := List.all_eq_true.1 (List.all_takeWhile (l := msg)) 0 hends
    simp at hnonzero
  rw [List.length_append]
  simp only [List.length_singleton]
  omega

theorem asked_status (haddr : addr ≠ 0) (v : I32) :
    ∀ i < (intBytes v).length, Asked addr msgAddr (addr + BitVec.ofNat 64 i) := fun i hi =>
  .inl ⟨haddr, i, by rwa [length_intBytes] at hi, rfl⟩

theorem asked_message (hmsg : msgAddr ≠ 0) {bs : List Byte} (hlen : bs.length ≤ 32) :
    ∀ i < bs.length, Asked addr msgAddr (msgAddr + BitVec.ofNat 64 i) := fun i hi =>
  .inr ⟨hmsg, i, by omega, rfl⟩

/-- With a place for the message, it does no harm. -/
theorem harmless_of_ne (hmsg : msgAddr ≠ 0) {msg : List Byte} (hlen : msg.length = 32)
    (hends : 0 ∈ msg) : Harmless root addr msgAddr msg m :=
  .inr (fits_of_asked (asked_message hmsg (length_cstring_le hlen hends)))

theorem storeStatus_spec (x : Private) (v : I32) :
    Spec p root addr msgAddr m₀ (fun s => (Exited p q s ∧ (s.proc q).priv = x) ∧
      Harmless root addr msgAddr x.exitMsg s.mem) (storeStatus p addr v) fun r s => r = some () →
        (Exited p q s ∧ (s.proc q).priv = x) ∧
          Fits root addr msgAddr msgAddr (cstring x.exitMsg ++ [0]) s.mem := by
  have hkept : Kept p root fun s => (Exited p q s ∧ (s.proc q).priv = x) ∧
      Harmless root addr msgAddr x.exitMsg s.mem := fun s s' ho hs =>
    ⟨kept_priv id x s s' ho hs.1, hs.2.same ho.user⟩
  unfold storeStatus
  refine Triple.ite (fun haddr => ?_) fun haddr => ?_
  · refine copyoutTo_spec hkept (fun s _ => fits_of_asked (asked_status haddr v))
      fun s r m' hs hu hdone hr => ⟨⟨⟨hs.1.1.parent, hs.1.1.state⟩, hs.1.2⟩, ?_⟩
    subst hr
    have hrange : UserRange s.mem root addr 4 := by
      rw [← length_intBytes v, ← reaches_iff_userRange]
      exact hdone.result.1 rfl
    have hfits := hs.2.resolve_left fun hbad => hbad.2 hrange
    exact hfits.copied hu hdone (asked_status haddr v)
  · intro s hs _
    exact ⟨hs.1, hs.2.resolve_left fun hbad => haddr hbad.1⟩

theorem waitFound_spec :
    Spec p root addr msgAddr m₀ (Exited p q) (waitFound p q addr msgAddr) fun _ _ => True := by
  have hfail : ∀ K : Kernel → Prop, Spec p root addr msgAddr m₀ K (do
      release (.proc q)
      release .wait
      return -1) fun (_ : I32) _ => True := fun K => Triple.pre (plain_spec (.bind (plain_release _)
    fun _ => .bind (plain_release _) fun _ => .ret (-1))) fun _ _ => trivial
  -- the child as it is found
  suffices h : ∀ x pid, Spec p root addr msgAddr m₀
      (fun s => Exited p q s ∧ (s.proc q).priv = x ∧ (s.proc q).pid = pid)
      (waitFound p q addr msgAddr) fun _ _ => True from
    fun s hs => h (s.proc q).priv (s.proc q).pid s ⟨hs, rfl, rfl⟩
  intro x pid
  have hkept : Kept p root fun s => Exited p q s ∧ (s.proc q).priv = x ∧ (s.proc q).pid = pid :=
    fun s s' ho hs => by
      obtain ⟨-, hpriv, hpid⟩ := ho.exited q hs.1
      exact ⟨kept_exited s s' ho hs.1, hpriv.trans hs.2.1, hpid.trans hs.2.2⟩
  refine Triple.bind (R := fun r s => (r = pid ∧ q ≠ p ∧ x.exitMsg.length = 32 ∧ 0 ∈ x.exitMsg) ∧
    Exited p q s ∧ (s.proc q).priv = x ∧ (s.proc q).pid = pid)
    (read_spec hkept fun s hs _ hchild => ?_) fun r => Triple.of_pure fun hpure => ?_
  · obtain ⟨hq, hcollect⟩ := hchild q hs.1
    rw [hs.2.1] at hcollect
    exact ⟨⟨hs.2.2, hq, hcollect.length, hcollect.ends⟩, hs⟩
  obtain ⟨hr, hq, hlen, hends⟩ := hpure
  refine Triple.bind (read_spec (Q := fun _ s => Exited p q s ∧ (s.proc q).priv = x ∧
    (s.proc q).pid = pid) hkept fun s hs _ _ => hs) fun xstate => ?_
  refine Triple.bind (read_spec (Q := fun _ s => Exited p q s ∧ (s.proc q).priv = x ∧
    (s.proc q).pid = pid) hkept fun s hs _ _ => hs) fun ended => ?_
  refine Triple.bind (read_spec (Q := fun _ s => Exited p q s ∧ (s.proc q).priv = x ∧
    (s.proc q).pid = pid) hkept fun s hs _ _ => hs) fun message => ?_
  refine Triple.bind (R := fun _ s => (Exited p q s ∧ (s.proc q).priv = x) ∧
    Harmless root addr msgAddr x.exitMsg s.mem) (Triple.post (note_spec hkept) fun _ s hs => ?_)
    fun _ => ?_
  · obtain ⟨⟨hexited, hpriv, hpid⟩, hok⟩ := hs
    refine ⟨⟨hexited, hpriv⟩, ?_⟩
    by_cases hmsg : msgAddr = 0
    · have hharmless := hok hmsg q hexited (hpid.trans hr.symm)
      rwa [hpriv] at hharmless
    · exact harmless_of_ne hmsg hlen hends
  refine Triple.bind (storeStatus_spec x xstate) fun stored => ?_
  cases stored with
  | none => exact hfail _
  | some _ =>
    have hkept : Kept p root fun s => (Exited p q s ∧ (s.proc q).priv = x) ∧
        Fits root addr msgAddr msgAddr (cstring x.exitMsg ++ [0]) s.mem := fun s s' ho hs =>
      ⟨kept_priv id x s s' ho hs.1, hs.2.same ho.user⟩
    refine Triple.pre ?_ fun s hs => hs rfl
    refine Triple.bind (R := fun msg s => msg = x.exitMsg ∧ (Exited p q s ∧ (s.proc q).priv = x) ∧
      Fits root addr msgAddr msgAddr (cstring x.exitMsg ++ [0]) s.mem)
      (read_spec hkept fun s hs _ _ => ⟨by rw [hs.1.2], hs⟩) fun msg => Triple.of_pure fun hmsg => ?_
    subst hmsg
    refine Triple.bind (R := fun _ s => Exited p q s ∧ (s.proc q).priv = x)
      (copyoutTo_spec hkept (fun s hs => hs.2) fun s r m' hs _ _ =>
        ⟨⟨hs.1.1.parent, hs.1.1.state⟩, hs.1.2⟩) fun stored => ?_
    cases stored with
    | none => exact hfail _
    | some _ =>
      have htail : Spec p root addr msgAddr m₀ (Exited p q) (do
          write (.reap p q)
          freeproc q
          release (.proc q)
          release .wait
          if addr ≠ 0 then
            note (.waitReturns r xstate ended)
          return r) fun (_ : I32) _ => True := by
        refine Triple.bind (R := fun _ => Exited p q) (write_spec trivial kept_exited
          fun s hs => ⟨hs.parent, hs.state⟩) fun _ => ?_
        refine Triple.bind (freeproc_spec hq) fun _ => plain_spec ?_
        refine .bind (plain_release _) fun _ => .bind (plain_release _) fun _ => ?_
        exact .ite (.bind (.perform trivial) fun _ => .ret r) (.ret r)
      have hexited : Kept p root fun s => Exited p q s ∧ (s.proc q).priv = x := kept_priv id x
      refine Triple.ite (fun hmsg => ?_) fun _ => Triple.pre htail fun s hs => hs.1
      refine Triple.bind (R := fun _ s => Exited p q s) (copyoutTo_spec hexited
        (fun s _ => fits_of_asked (asked_message hmsg (Nat.le_of_eq hlen))) fun s r m' hs _ _ =>
          ⟨hs.1.parent, hs.1.state⟩) fun stored => ?_
      cases stored with
      | none => exact htail
      | some _ =>
        exact Triple.bind (Triple.post (note_spec kept_exited) fun _ s hs => hs.1) fun _ => htail

theorem waitScan_spec (havekids : Bool) (qs : List Slot) :
    Spec p root addr msgAddr m₀ (fun _ => True) (waitScan p addr msgAddr havekids qs)
      fun _ _ => True := by
  induction qs generalizing havekids with
  | nil => exact fun _ _ => trivial
  | cons q qs ih =>
    unfold waitScan
    refine Triple.bind (R := fun r s => (s.proc q).parent = r)
      (read_spec kept_true fun s _ _ _ => rfl) fun r => Triple.ite (fun hr => ?_) fun _ => ih _ |>.pre
        fun _ _ => trivial
    subst hr
    have hparent : Kept p root fun s => (s.proc q).parent = some p := fun s s' ho hs =>
      ho.parent q hs
    refine Triple.bind (quiet_spec (K := fun T _ => (T q).parent = some p) (quiet_acquire _)
      hparent) fun _ => ?_
    refine Triple.bind (R := fun r s => r = .zombie → Exited p q s)
      (read_spec hparent fun s hs _ _ hr => ⟨hs, hr⟩) fun r => Triple.ite (fun hr => ?_) fun _ => ?_
    · refine Triple.bind (Triple.pre waitFound_spec fun s hs => hs hr) fun _ => ?_
      exact fun _ _ => trivial
    · exact Triple.bind (Triple.pre (plain_spec (plain_release _)) fun _ _ => trivial) fun _ => ih _

/-- The turn of the loop after a scan that has found no exited child. -/
theorem plain_waitTurn (havekids : Bool) : (do
    if !havekids then
      release .wait
      return .inr (-1)
    if ← killed p then
      release .wait
      return .inr (-1)
    sleep .wait (.proc p) .wait
    return .inl () : Code (Unit ⊕ I32)).All (Plain p) := by
  have hend : (do release .wait; return .inr (-1) : Code (Unit ⊕ I32)).All (Plain p) :=
    .bind (plain_release _) fun _ => .ret _
  refine .ite hend (.bind (plain_killed p) fun _ => .ite hend ?_)
  exact .bind (plain_sleep _ _ _) fun _ => .ret _

theorem wait_spec :
    Spec p root addr msgAddr m₀ (fun _ => True) (wait addr msgAddr) fun _ _ => True := by
  refine Triple.bind (R := fun r _ => r = p) ?_ fun r s hs => ?_
  · refine Triple.bind (R := fun r _ => r = some p) (Triple.perform (Kept.stable kept_true)
      fun s c _ hinv hc ha => ⟨fun _ i b s' hx => ?_, fun i b s' hx => ?_⟩) fun r s hs => ?_
    · cases hx
      exact hinv
    · cases hx
      exact ha.self hc
    · subst hs
      exact rfl
  subst hs
  refine Triple.bind (plain_spec (plain_write (p := r) (w := .reaped r 0) trivial)) (fun _ => ?_) s trivial
  refine Triple.bind (plain_spec (plain_of_quiet (quiet_acquire _))) fun _ => ?_
  refine Triple.loop (fun _ _ => True) (fun _ => Kept.stable kept_true) fun _ => ?_
  refine Triple.bind (waitScan_spec false slots) fun r => ?_
  cases r with
  | inl r => exact fun _ _ => trivial
  | inr havekids =>
    refine Triple.post (plain_spec (plain_waitTurn havekids)) fun r _ _ => ?_
    cases r <;> trivial

section

variable {ts tsq : List U64} {n : Nat} {top : Nat → U64}

/-- User memory whose pages, and those of its page table, are left alone. -/
theorem sameUser_of_pages (hs : Space m root ts n top) (htop : NoUser top)
    (hkeep : ∀ a ∈ m.upages root n ++ ts, m'.page a = m.page a) : SameUser root m m' := by
  obtain ⟨-, hpte⟩ := hs.frame fun b hb => hkeep b (List.mem_append_right _ hb)
  have hpage := userPage_congr hpte
  refine ⟨fun va => ?_, fun hu => ⟨fun va vb pa hva hvb => ?_, fun va pa hva hnode => ?_⟩⟩
  · rw [userByte_eq, userByte_eq, hpage]
    cases hva : m.userPage root va with
    | none => rfl
    | some pa =>
      obtain ⟨-, hlt, rfl⟩ := hs.userPage_eq_some htop hva
      simp only [Option.map_some, Mem.byte, hkeep _ (List.mem_append_left _ (mem_upages hlt))]
  · rw [hpage] at hva hvb
    exact hu.distinct va vb pa hva hvb
  · rw [hpage] at hva
    refine hu.outside va pa hva ((Radix.isNode_congr fun q a hq ha i => ?_).1 hnode)
    have hmem : a ∈ ts := (hs.table.mem a).2 ⟨q, Nat.le_of_lt hq, ha⟩
    rw [hkeep a (List.mem_append_right _ hmem)]

/-- A child that shares no page with the parent can be collected. -/
theorem collectable_of_apart {x : Private} {child : Vm.Image}
    (hs : Space m root ts n top) (htop : NoUser top)
    (hchild : Space m child.pagetable tsq (pages child.sz) (procTop child.trapframe))
    (hh : Held m ((m.upages root n ++ ts) ++ m.ownedBy child tsq))
    (hpagetable : x.pagetable = some child.pagetable) (hsz : x.sz = child.sz)
    (htrapframe : x.trapframe = some child.trapframe) (hlen : x.exitMsg.length = 32)
    (hends : 0 ∈ x.exitMsg) : Collectable root x m := by
  have hown : ∀ a ∈ m.upages root n ++ ts, a ∉ m.freelist ∧ a ∉ m.ownedBy child tsq :=
    fun a ha => ⟨hh.apart.not_mem (List.mem_append_left _ ha), fun hin =>
      (List.nodup_append.1 hh.apart.nodup_own).2.2 a ha a hin rfl⟩
  have htf : child.trapframe ∈ m.ownedBy child tsq := List.mem_append_right _ List.mem_cons_self
  refine ⟨hlen, hends, fun tf m' htf' hrun => ?_, fun pt m' hpt hrun => ?_⟩
  · obtain rfl : child.trapframe = tf := Option.some.inj (htrapframe.symm.trans htf')
    have hpage : Page child.trapframe :=
      hh.page _ (List.mem_append_right _ (List.mem_append_right _ htf))
    rw [kfree_ok hpage] at hrun
    cases hrun
    refine sameUser_of_pages hs htop fun a ha => if_neg ?_
    rintro rfl
    exact (hown _ ha).2 htf
  · obtain rfl : child.pagetable = pt := Option.some.inj (hpagetable.symm.trans hpt)
    have hheld : Held m (m.upages child.pagetable (pages child.sz) ++ tsq) :=
      hh.sublist ((List.sublist_append_left _ _).trans (List.sublist_append_right _ _))
    obtain ⟨m'', hrun', hmoves⟩ := procFreepagetable_spec hchild rfl hheld
    have hsame : procFreepagetable child.pagetable x.sz m = .ok ((), m'') := by
      rw [hsz]
      exact hrun'
    rw [hsame] at hrun
    cases hrun
    refine sameUser_of_pages hs htop fun a ha => hmoves.frame a (hown a ha).1 fun hin => ?_
    exact (hown a ha).2 (List.mem_append_left _ hin)

end

/-- Process 0 runs alone, with one page of text. -/
def alone (m : Mem) : Kernel where
  proc q := if q = 0 then { Proc.free with
    state := .running
    priv := { Proc.free.priv with pagetable := some 0x80023000, sz := PGSIZE } } else Proc.free
  cpu _ := ⟨some 0, 0, false, false⟩
  current c := if c = 0 then some 0 else none
  locked _ := none
  nextpid := 2
  initproc := 0
  data :=
    { ticks := 0, first := false, file := fun _ => ⟨.none, 0, false, false⟩, inodeRef := fun _ => 0,
      pipe := fun _ => ⟨fun _ => 0, 0, 0, false, false⟩, cons := ⟨fun _ => 0, 0, 0, 0⟩ }
  mem := m

/-- A step of process 0 while no process has a parent. -/
theorem fair_of_childless {o : Op β} (hrun : s.running 0 = .proc 0) (hself : (s.cpu 0).proc = some 0)
    (hchild : ∀ q, (s.proc q).parent = none) : Fair 0 root addr msgAddr β 0 o s where
  self _ := hself
  child _ q hq := by
    have hparent := hq.parent
    rw [hchild] at hparent
    cases hparent
  message _ := by
    cases o with
    | note e =>
      cases e with
      | found pid =>
        intro _ q hq
        have hparent := hq.parent
        rw [hchild] at hparent
        cases hparent
      | _ => trivial
    | _ => trivial
  others hne := absurd hrun hne

end Xv6.Stores
