import Xv6.Proc.Invariant

/-!
# Assertions of kernel threads

What a thread of the kernel knows: that it runs on some processor, how often
that has turned interrupts off, which locks it holds, and an assertion about
the process table that the stores of other threads keep.
-/

namespace Xv6

open Conc Conc.Machine

/-! ## The effect of one step -/

/-- What a step of processor `c` can change. -/
structure Effect (K : Known) (c : Cpu) (s s' : Kernel) : Prop where
  cpu : ∀ d, d ≠ c → s'.cpu d = s.cpu d
  current : ∀ d, d ≠ c → s'.current d = s.current d
  locked : ∀ d, d ≠ c → ∀ l, s'.locked l = some d ↔ s.locked l = some d
  proc : s'.proc = s.proc ∨
    ∃ w, K.assume Unit c (.write w) s ∧ writeOK K c s w ∧ s'.proc = w.table s.proc
  /-- A process comes to run with its lock held, and only that. -/
  resume : ∀ p, s'.current c = some p → s.current c ≠ some p →
    (∀ d, s.current d ≠ some p) ∧ (∀ l, s'.locked l = some c ↔ l = .proc p) ∧
      (s'.cpu c).proc = some p ∧ (s'.cpu c).noff = 1 ∧ (s'.proc p).state = .running ∧
      ProcInv K p (s'.proc p)
  /-- A process gives up the processor with its lock held, and only that. -/
  park : ∀ p, s.current c = some p → s'.current c ≠ some p →
    s'.current c = none ∧ (∀ l, s'.locked l = some c ↔ l = .proc p) ∧
      (s'.cpu c).noff = 1 ∧ ProcInv K p (s'.proc p) ∧ (s'.proc p).state ≠ .running
  nextpid : s'.nextpid = s.nextpid ∨ s.locked .pid = some c

/-- A step that leaves the processors and the locks alone. -/
private theorem Effect.of_same {K : Known} {c : Cpu} {s s' : Kernel} (hcpu : s'.cpu = s.cpu)
    (hcurrent : s'.current = s.current) (hlocked : s'.locked = s.locked)
    (hnext : s'.nextpid = s.nextpid ∨ s.locked .pid = some c)
    (hproc : s'.proc = s.proc ∨
      ∃ w, K.assume Unit c (.write w) s ∧ writeOK K c s w ∧ s'.proc = w.table s.proc) :
    Effect K c s s' where
  cpu d _ := by rw [hcpu]
  current d _ := by rw [hcurrent]
  locked d _ l := by rw [hlocked]
  proc := hproc
  resume p h hn := absurd (hcurrent ▸ h) hn
  park p h hn := absurd (hcurrent.symm ▸ h) hn
  nextpid := hnext

/-- The store of the next process id needs `pid_lock`. -/
private theorem nextpid_of_write {K : Known} {c : Cpu} {s : Kernel} {w : Write}
    (hw : writeOK K c s w) : (w.apply s).nextpid = s.nextpid ∨ s.locked .pid = some c := by
  cases w with
  | nextpid v => exact .inr hw.1
  | _ => exact .inl rfl

/-- Every operation that meets its obligation has such an effect. -/
theorem effect_of_exec {K : Known} {c : Cpu} {s s' : Kernel} {β : Type} {i : Input} {o : Op β}
    {b : β} (ha : K.assume β c o s) (hm : must K β c o s) (hx : exec c i s o = some (b, s')) :
    Effect K c s s' := by
  cases o with
  | lock l =>
    simp only [exec] at hx
    split at hx
    · rename_i hl
      obtain ⟨-, rfl⟩ := Prod.mk.inj (Option.some.inj hx)
      refine ⟨fun _ _ => rfl, fun _ _ => rfl, fun d hd k => ?_, .inl rfl, ?_, ?_, .inl rfl⟩
      · simp only [Kernel.setLocked]
        grind
      · exact fun p h hn => absurd h hn
      · exact fun p h hn => absurd h hn
    · cases hx
  | unlock l =>
    obtain ⟨-, rfl⟩ := Prod.mk.inj (Option.some.inj hx)
    have hl : s.locked l = some c := hm.1
    refine ⟨fun _ _ => rfl, fun _ _ => rfl, fun d hd k => ?_, .inl rfl, ?_, ?_, .inl rfl⟩
    · simp only [Kernel.setLocked]
      grind
    · exact fun p h hn => absurd h hn
    · exact fun p h hn => absurd h hn
  | read f =>
    obtain ⟨-, rfl⟩ := Prod.mk.inj (Option.some.inj hx)
    exact .of_same rfl rfl rfl (.inl rfl) (.inl rfl)
  | cpu f =>
    obtain ⟨-, rfl⟩ := Prod.mk.inj (Option.some.inj hx)
    refine ⟨fun d hd => ?_, fun _ _ => rfl, fun _ _ _ => Iff.rfl, .inl rfl, ?_, ?_, .inl rfl⟩
    · simp only [Kernel.modCpu, if_neg hd]
    · exact fun p h hn => absurd h hn
    · exact fun p h hn => absurd h hn
  | write w =>
    obtain ⟨-, rfl⟩ := Prod.mk.inj (Option.some.inj hx)
    exact .of_same (w.apply_cpu s) (w.apply_current s) (w.apply_locked s) (nextpid_of_write hm)
      (.inr ⟨w, ha, hm, w.apply_proc s⟩)
  | context p =>
    obtain ⟨-, rfl⟩ := Prod.mk.inj (Option.some.inj hx)
    exact .of_same rfl rfl rfl (.inl rfl) (.inl rfl)
  | swtch q =>
    obtain ⟨-, rfl⟩ := Prod.mk.inj (Option.some.inj hx)
    refine ⟨fun _ _ => rfl, fun d hd => ?_, fun _ _ _ => Iff.rfl, .inl rfl, ?_, ?_, .inl rfl⟩
    · simp only [Kernel.setCurrent, if_neg hd]
    · intro p h hn
      simp only [Kernel.setCurrent, if_pos] at h
      subst h
      obtain ⟨-, hfree, hl, hproc, hnoff, hrun, hinv⟩ := hm
      exact ⟨hfree, hl, hproc, hnoff, hrun, hinv⟩
    · intro p h hn
      cases q with
      | none =>
        obtain ⟨p', hp', hl, hnoff, hinv, hstate⟩ := hm
        obtain rfl : p' = p := Option.some.inj (hp'.symm.trans h)
        exact ⟨if_pos rfl, hl, hnoff, hinv, hstate⟩
      | some q => exact absurd (hm.1.symm.trans h) (by simp)
  | vm f =>
    simp only [exec] at hx
    split at hx <;>
    · obtain ⟨-, rfl⟩ := Prod.mk.inj (Option.some.inj hx)
      exact .of_same rfl rfl rfl (.inl rfl) (.inl rfl)
  | input =>
    obtain ⟨-, rfl⟩ := Prod.mk.inj (Option.some.inj hx)
    exact .of_same rfl rfl rfl (.inl rfl) (.inl rfl)
  | note e =>
    obtain ⟨-, rfl⟩ := Prod.mk.inj (Option.some.inj hx)
    exact .of_same rfl rfl rfl (.inl rfl) (.inl rfl)
  | panic msg => cases hx

/-- A process whose lock another processor holds goes on running where it
runs. -/
theorem Effect.ran {K : Known} {c d : Cpu} {s s' : Kernel} {p : Slot} (he : Effect K d s s')
    (hdc : d ≠ c) (hl : s.locked (.proc p) = some c)
    (h : (s.proc p).state = .running → ∃ e, s.current e = some p)
    (hr : (s'.proc p).state = .running) : ∃ e, s'.current e = some p := by
  have hne : s.locked (.proc p) ≠ some d := fun hld => hdc (Option.some.inj (hld.symm.trans hl))
  have hrun : (s.proc p).state = .running := by
    obtain hp | ⟨w, -, hw, hp⟩ := he.proc
    · rwa [hp] at hr
    · rw [hp] at hr
      obtain hs | ⟨v, rfl, hs⟩ := w.table_state s.proc p
      · rwa [hs] at hr
      · rw [hr] at hs
        subst hs
        exact absurd hw.1 hne
  obtain ⟨e, hcur⟩ := h hrun
  refine ⟨e, ?_⟩
  by_cases hed : e = d
  · subst hed
    by_contra hcur'
    obtain ⟨-, hlock, -⟩ := he.park p hcur hcur'
    have h₁ := (hlock (.proc p)).2 rfl
    have h₂ := (he.locked c hdc.symm (.proc p)).2 hl
    exact hdc (Option.some.inj (h₁.symm.trans h₂))
  · rw [he.current e hed]
    exact hcur

/-! ## Where a thread is -/

/-- Thread `t` runs on processor `c`, which has turned interrupts off `n`
times and holds exactly the locks `S`.  Another process whose lock it holds
does not run, or it runs on some processor. -/
structure Here (t : Tid) (n : Nat) (S : List Lock) (s : Kernel) (c : Cpu) : Prop where
  running : s.running c = t
  proc : (s.cpu c).proc = t.slot
  noff : (s.cpu c).noff = n
  nodup : S.Nodup
  held : ∀ l, s.locked l = some c ↔ l ∈ S
  ran : ∀ p, .proc p ∈ S → t ≠ .proc p → (s.proc p).state = .running → ∃ d, s.current d = some p

/-- Thread `t` runs like that, and `F` holds of the process table. -/
def At (t : Tid) (n : Nat) (S : List Lock) (F : Table → Prop) (s : Kernel) : Prop :=
  ∃ c, Here t n S s c ∧ F s.proc

theorem At.imp {t : Tid} {n : Nat} {S : List Lock} {F G : Table → Prop} {s : Kernel}
    (hFG : ∀ T, F T → G T) (h : At t n S F s) : At t n S G s := by
  obtain ⟨c, hc, hF⟩ := h
  exact ⟨c, hc, hFG _ hF⟩

theorem At.here {t : Tid} {n : Nat} {S : List Lock} {F : Table → Prop} {s : Kernel}
    (h : At t n S F s) : ∃ c, Here t n S s c := by
  obtain ⟨c, hc, -⟩ := h
  exact ⟨c, hc⟩

/-- Thread `t` runs and holds the locks `S`, each with interrupts off. -/
abbrev On (t : Tid) (S : List Lock) (F : Table → Prop) : Kernel → Prop := At t S.length S F

theorem Kernel.running_eq_proc {s : Kernel} {c : Cpu} {p : Slot} :
    s.running c = .proc p ↔ s.current c = some p := by
  unfold Kernel.running
  split <;> simp_all

theorem Kernel.running_eq_cpu {s : Kernel} {c d : Cpu} :
    s.running c = .cpu d ↔ s.current c = none ∧ c = d := by
  unfold Kernel.running
  split <;> simp_all

theorem Kernel.current_eq_slot (s : Kernel) (c : Cpu) : s.current c = (s.running c).slot := by
  unfold Kernel.running
  split <;> simp_all

/-- Threads on different processors are different. -/
theorem Kernel.ne_of_running {s : Kernel} {c d : Cpu} {t : Tid} (h : s.running c = t)
    (hd : s.running d ≠ t) : d ≠ c := fun hdc => hd (hdc ▸ h)

theorem Here.current {t : Tid} {n : Nat} {S : List Lock} {s : Kernel} {c : Cpu}
    (h : Here t n S s c) : s.current c = t.slot := by
  rw [s.current_eq_slot, h.running]

/-- A step on another processor leaves the thread where it is. -/
theorem Here.step {K : Known} {t : Tid} {n : Nat} {S : List Lock} {s s' : Kernel} {c d : Cpu}
    (h : Here t n S s c) (he : Effect K d s s') (hd : d ≠ c) : Here t n S s' c where
  running := by
    have hc := he.current c hd.symm
    rw [← h.running]
    simp only [Kernel.running, hc]
  proc := by rw [he.cpu c hd.symm, h.proc]
  noff := by rw [he.cpu c hd.symm, h.noff]
  nodup := h.nodup
  held l := (he.locked c hd.symm l).trans (h.held l)
  ran p hp ht := he.ran hd ((h.held _).2 hp) (h.ran p hp ht)

/-! ## What other threads keep -/

/-- Another thread than `t` may perform the store, while `t` holds `S`. -/
def Rely (K : Known) (t : Tid) (S : List Lock) (s : Kernel) (w : Write) : Prop :=
  ∃ c, s.running c ≠ t ∧ (∀ l ∈ S, s.locked l ≠ some c) ∧ K.assume Unit c (.write w) s ∧
    writeOK K c s w ∧ ∀ l ∈ S, s.locked l ≠ none

/-- Other threads keep `F` while `t` holds `S`. -/
def Stab (K : Known) (t : Tid) (S : List Lock) (F : Table → Prop) : Prop :=
  ∀ s w, Inv K s → Rely K t S s w → F s.proc → F (w.table s.proc)

variable {K : Known} {t : Tid} {n : Nat} {S S' : List Lock} {F F' G : Table → Prop}

theorem Stab.mono (h : Stab K t S F) (hS : ∀ l ∈ S, l ∈ S') : Stab K t S' F := by
  intro s w hinv hr hF
  obtain ⟨c, hc, hl, ha, hw, hheld⟩ := hr
  exact h s w hinv
    ⟨c, hc, fun l hmem => hl l (hS l hmem), ha, hw, fun l hmem => hheld l (hS l hmem)⟩ hF

theorem Stab.cons (h : Stab K t S F) (l : Lock) : Stab K t (l :: S) F :=
  h.mono fun _ hmem => List.mem_cons_of_mem l hmem

theorem Stab.and (h : Stab K t S F) (h' : Stab K t S G) : Stab K t S fun T => F T ∧ G T :=
  fun s w hinv hr hFG => ⟨h s w hinv hr hFG.1, h' s w hinv hr hFG.2⟩

theorem Stab.or (h : Stab K t S F) (h' : Stab K t S G) : Stab K t S fun T => F T ∨ G T :=
  fun s w hinv hr hFG => hFG.imp (h s w hinv hr) (h' s w hinv hr)

theorem Stab.imp {φ : Prop} (h : φ → Stab K t S F) : Stab K t S fun T => φ → F T :=
  fun s w hinv hr hF hφ => h hφ s w hinv hr (hF hφ)

theorem Stab.const (φ : Prop) : Stab K t S fun _ => φ := fun _ _ _ _ h => h

/-- A stable assertion about the table makes a stable assertion. -/
theorem Stab.stable (h : Stab K t S F) : (discipline K).Stable t (At t n S F) := by
  rintro s s' ⟨β, d, i, o, b, hd, hinv, ha, hm, hx⟩ ⟨c, hc, hF⟩
  have he : Effect K d s s' := effect_of_exec ha hm hx
  have hdc : d ≠ c := Kernel.ne_of_running hc.running hd
  refine ⟨c, hc.step he hdc, ?_⟩
  obtain hp | ⟨w, haw, hw, hp⟩ := he.proc
  · rwa [hp]
  · rw [hp]
    have hheld : ∀ l ∈ S, s.locked l = some c := fun l => (hc.held l).2
    refine h s w hinv ⟨d, hd, fun l hl hld => ?_, haw, hw, fun l hl => ?_⟩ hF
    · exact hdc (Option.some.inj (hld.symm.trans (hheld l hl)))
    · simp [hheld l hl]

/-! ## Operations -/

section Operations

variable {α β : Type}

/-- One operation of a thread, from an assertion about the whole state. -/
theorem triple_perform {o : Op α} {P : Kernel → Prop} {Q : α → Kernel → Prop}
    (hP : (discipline K).Stable t P) (hat : ∀ s, P s → ∃ c, Here t n S s c)
    (h : ∀ s c, P s → Inv K s → Here t n S s c → K.assume α c o s →
      must K α c o s ∧ ∀ i b s', exec c i s o = some (b, s') → Q b s') :
    (discipline K).Triple t P (.perform o) Q := by
  refine Logic.Triple.perform hP fun s d hs hinv hd ha => ?_
  obtain ⟨c, hc⟩ := hat s hs
  obtain rfl : d = c := by
    by_contra hne
    cases t with
    | cpu e =>
      have h₁ := (Kernel.running_eq_cpu.1 hd).2
      have h₂ := (Kernel.running_eq_cpu.1 hc.running).2
      exact hne (h₁.trans h₂.symm)
    | proc p =>
      exact hne (hinv.unique d c p (Kernel.running_eq_proc.1 hd)
        (Kernel.running_eq_proc.1 hc.running))
  exact h s d hs hinv hc ha

/-- One operation of a thread. -/
theorem triple_op {o : Op α} {Q : α → Kernel → Prop} (hF : Stab K t S F)
    (h : ∀ s c, Inv K s → Here t n S s c → F s.proc → K.assume α c o s →
      must K α c o s ∧ ∀ i b s', exec c i s o = some (b, s') → Q b s') :
    (discipline K).Triple t (At t n S F) (.perform o) Q := by
  refine triple_perform hF.stable (fun s hs => hs.here) fun s c hs hinv hc ha => h s c hinv hc ?_ ha
  obtain ⟨-, -, hFs⟩ := hs
  exact hFs

theorem triple_read {f : Cpu → Kernel → β} {G : β → Table → Prop} (hF : Stab K t S F)
    (h : ∀ s c, Inv K s → Here t n S s c → F s.proc → G (f c s) s.proc) :
    (discipline K).Triple t (At t n S F) (.perform (.read f)) fun b => At t n S (G b) := by
  refine triple_op hF fun s c hinv hc hFs _ => ⟨trivial, fun i b s' hx => ?_⟩
  obtain ⟨rfl, rfl⟩ := Prod.mk.inj (Option.some.inj hx)
  exact ⟨c, hc, h s c hinv hc hFs⟩

/-- A store that makes a process run. -/
def Write.Starts : Write → Prop
  | .state _ .running => True
  | _ => False

theorem Write.running_of_table {w : Write} (hw : ¬ w.Starts) {T : Table} {p : Slot}
    (h : (w.table T p).state = .running) : (T p).state = .running := by
  obtain hs | ⟨v, rfl, hs⟩ := w.table_state T p
  · rwa [hs] at h
  · rw [h] at hs
    subst hs
    exact absurd trivial hw

/-- What a store leaves of an assertion about the thread. -/
theorem Here.write {s : Kernel} {c : Cpu} {w : Write} (hc : Here t n S s c) (hstart : ¬ w.Starts) :
    Here t n S (w.apply s) c where
  running := by
    rw [← hc.running]
    simp only [Kernel.running, Write.apply_current]
  proc := by rw [Write.apply_cpu, hc.proc]
  noff := by rw [Write.apply_cpu, hc.noff]
  nodup := hc.nodup
  held := by
    rw [Write.apply_locked]
    exact hc.held
  ran p hp ht hr := by
    rw [Write.apply_proc] at hr
    rw [Write.apply_current]
    exact hc.ran p hp ht (Write.running_of_table hstart hr)

theorem triple_write {w : Write} (hF : Stab K t S F) (hstart : ¬ w.Starts)
    (h : ∀ s c, Inv K s → Here t n S s c → F s.proc → K.assume Unit c (.write w) s →
      writeOK K c s w ∧ G (w.table s.proc)) :
    (discipline K).Triple t (At t n S F) (write w) fun _ => At t n S G := by
  refine triple_op hF fun s c hinv hc hFs ha => ?_
  obtain ⟨hw, hG⟩ := h s c hinv hc hFs ha
  refine ⟨hw, fun i b s' hx => ?_⟩
  obtain ⟨-, rfl⟩ := Prod.mk.inj (Option.some.inj hx)
  refine ⟨c, hc.write hstart, ?_⟩
  rwa [Write.apply_proc]

theorem triple_cpu {f : CpuState → β × CpuState} {m : β → Nat} (hF : Stab K t S F)
    (h : ∀ x, x.proc = t.slot → x.noff = n →
      (f x).2.proc = t.slot ∧ (f x).2.noff = m (f x).1) :
    (discipline K).Triple t (At t n S F) (.perform (.cpu f)) fun b => At t (m b) S F := by
  refine triple_op hF fun s c _ hc hFs _ => ?_
  obtain ⟨hproc, hnoff⟩ := h (s.cpu c) hc.proc hc.noff
  refine ⟨.inl (hproc.trans hc.proc.symm), fun i b s' hx => ?_⟩
  obtain ⟨rfl, rfl⟩ := Prod.mk.inj (Option.some.inj hx)
  refine ⟨c, ⟨hc.running, ?_, ?_, hc.nodup, hc.held, hc.ran⟩, hFs⟩
  · simpa only [Kernel.modCpu, if_pos] using hproc
  · simpa only [Kernel.modCpu, if_pos] using hnoff

/-- A change of the processor's state that has no result. -/
theorem triple_cpu_unit {f : CpuState → CpuState} (hF : Stab K t S F)
    (h : ∀ x, (f x).proc = x.proc ∧ (f x).noff = x.noff) :
    (discipline K).Triple t (At t n S F) (.perform (.cpu fun x => ((), f x)))
      fun _ => At t n S F :=
  triple_cpu hF fun x hp hn => ⟨(h x).1.trans hp, (h x).2.trans hn⟩

theorem triple_input (hF : Stab K t S F) :
    (discipline K).Triple t (At t n S F) input fun _ => At t n S F := by
  refine triple_op hF fun s c _ hc hFs _ => ⟨trivial, fun i b s' hx => ?_⟩
  obtain ⟨-, rfl⟩ := Prod.mk.inj (Option.some.inj hx)
  exact ⟨c, hc, hFs⟩

theorem triple_note {e : Event} (hF : Stab K t S F)
    (h : ∀ s c, Inv K s → Here t n S s c → F s.proc → K.assume Unit c (.note e) s →
      noteOK K c s e ∧ G s.proc) :
    (discipline K).Triple t (At t n S F) (note e) fun _ => At t n S G := by
  refine triple_op hF fun s c hinv hc hFs ha => ?_
  obtain ⟨hn, hG⟩ := h s c hinv hc hFs ha
  refine ⟨hn, fun i b s' hx => ?_⟩
  obtain ⟨-, rfl⟩ := Prod.mk.inj (Option.some.inj hx)
  exact ⟨c, hc, hG⟩

theorem triple_panic {msg : String} {Q : α → Kernel → Prop} (hF : Stab K t S F) :
    (discipline K).Triple t (At t n S F) (panic msg) Q :=
  triple_op hF fun _ _ _ _ _ _ => ⟨trivial, fun _ _ _ hx => nomatch hx⟩

theorem triple_vm {f : Vm β} (hF : Stab K t S F) :
    (discipline K).Triple t (At t n S F) (vm f) fun _ => At t n S F := by
  refine Logic.Triple.bind (R := fun _ => At t n S F) ?_ fun r => ?_
  · refine triple_op hF fun s c _ hc hFs _ => ⟨trivial, fun i b s' hx => ?_⟩
    simp only [exec] at hx
    split at hx <;>
    · obtain ⟨-, rfl⟩ := Prod.mk.inj (Option.some.inj hx)
      exact ⟨c, ⟨hc.running, hc.proc, hc.noff, hc.nodup, hc.held, hc.ran⟩, hFs⟩
  · cases r with
    | ok b => exact fun s hs => hs
    | error msg => exact triple_panic hF

end Operations

end Xv6
