import Xv6.Proc.LockRules

/-!
# Giving up the processor

`sched`, `yield`, `sleep`, `wakeup`, interrupts and `scheduler` obey the
discipline.  Both sides of a switch hand over the lock of the process: a
process that has given up the processor is `Parked`, and a scheduler whose
process runs has `Lent` it.
-/

namespace Xv6

open Conc Conc.Machine

variable {K : Known} {t : Tid} {n : Nat} {S S' : List Lock} {F G : Table → Prop} {l : Lock}
variable {p q : Slot} {α β γ : Type}

/-! ## Code that only moves locks -/

/-- The code takes a thread from the locks `S` to those that its result gives,
and keeps every frame. -/
def Moves (K : Known) (t : Tid) (S : List Lock) (m : Code α) (S' : α → List Lock) : Prop :=
  ∀ F, Frame K t [] F → (discipline K).Triple t (On t S F) m fun a => On t (S' a) F

namespace Moves

variable {R : α → List Lock} {T : β → List Lock}

theorem ret {a : α} (h : S = R a) : Moves K t S (.ret a) R := by
  subst h
  exact fun _ _ _ hs => hs

theorem bind {m : Code α} {f : α → Code β} (hm : Moves K t S m R)
    (hf : ∀ a, Moves K t (R a) (f a) T) : Moves K t S (m.bind f) T :=
  fun F hF => (hm F hF).bind fun a => hf a F hF

theorem ite {φ : Prop} [Decidable φ] {m m' : Code α} (h : Moves K t S m R)
    (h' : Moves K t S m' R) : Moves K t S (if φ then m else m') R := by
  by_cases hφ : φ
  · rw [if_pos hφ]
    exact h
  · rw [if_neg hφ]
    exact h'

theorem loop {body : β → Code (β ⊕ α)} {b : β}
    (h : ∀ b, Moves K t S (body b) (Sum.elim (fun _ => S) R)) :
    Moves K t S (.loop body b) R := by
  intro F hF
  refine Logic.Triple.loop (fun _ => On t S F) (fun _ => hF.mono.stab.stable) fun b => ?_
  refine (h b F hF).post fun r s hs => ?_
  cases r <;> exact hs

theorem foldM {ι : Type} {f : α → ι → Code α} {a : α} {is : List ι}
    (h : ∀ a i, Moves K t S (f a i) fun _ => S) :
    Moves K t S (Prog.foldM f a is) fun _ => S :=
  fun F hF => Logic.Triple.foldM (fun _ _ => On t S F) fun i _ a => h a i F hF

theorem findM? {ι : Type} {f : ι → Code (Option α)} {is : List ι} {R : Option α → List Lock}
    (h : ∀ i, Moves K t (R none) (f i) R) : Moves K t (R none) (Prog.findM? f is) R := by
  intro F hF
  refine (Logic.Triple.findM? (J := fun _ => On t (R none) F)
    (Q := fun a => On t (R (some a)) F) fun i _ => (h i F hF).post fun r s hs => ?_).post
    fun r s hs => ?_
  · cases r <;> exact hs
  · cases r <;> exact hs

end Moves

/-! ## Operations that move no lock -/

theorem read_moves {f : Kernel → β} : Moves K t S (read f) fun _ => S :=
  fun F hF => triple_read (G := fun _ => F) hF.mono.stab fun _ _ _ _ hs => hs

theorem vm_moves {f : Vm β} : Moves K t S (vm f) fun _ => S :=
  fun _ hF => triple_vm hF.mono.stab

theorem input_moves : Moves K t S input fun _ => S := fun _ hF => triple_input hF.mono.stab

theorem panic_moves {msg : String} {R : α → List Lock} : Moves K t S (panic msg : Code α) R :=
  fun _ hF => triple_panic hF.mono.stab

theorem deref_moves {x : Option α} : Moves K t S (deref x) fun _ => S := by
  cases x with
  | none => exact panic_moves
  | some a => exact .ret rfl

theorem write_moves {w : Write} (hw : w.Free) : Moves K t S (write w) fun _ => S :=
  fun _ hF => triple_write_free hF.mono.stab hw

theorem cpu_moves {f : CpuState → CpuState} (h : ∀ x, (f x).proc = x.proc ∧ (f x).noff = x.noff) :
    Moves K t S (.perform (.cpu fun x => ((), f x))) fun _ => S :=
  fun _ hF => triple_cpu_unit hF.mono.stab h

/-- Turn interrupts on or off. -/
theorem intr_moves {v : Bool} :
    Moves K t S (.perform (.cpu fun x => ((), { x with intr := v }))) fun _ => S :=
  cpu_moves (f := fun x => { x with intr := v }) fun _ => ⟨rfl, rfl⟩

theorem acquire_moves (hl : l.Plain) : Moves K t S (acquire l) fun _ => l :: S :=
  fun _ hF => acquire_plain hF.mono.stab hl

theorem releaseWith_moves {trap : Code Unit} (htrap : Moves K t [] trap fun _ => [])
    (hl : l.Plain) : Moves K t (l :: S) (releaseWith trap l) fun _ => S :=
  fun F hF => release_plain hl hF.mono.stab fun _ => htrap F hF

theorem noTrap_moves : Moves K t [] noTrap fun _ => [] := .ret rfl

/-! ## The current process -/

theorem Tid.eq_proc_of_slot (h : t.slot = some p) : t = .proc p := by
  cases t with
  | cpu c => cases h
  | proc q => rw [Option.some.inj h]

theorem mycpuProc_spec (hF : Stab K t S F) :
    (discipline K).Triple t (At t n S F) mycpuProc fun r s => r = t.slot ∧ At t n S F s := by
  refine (triple_read (G := fun r T => r = t.slot ∧ F T) hF fun s c _ hc hFs =>
    ⟨hc.proc, hFs⟩).post ?_
  rintro r s ⟨c, hc, hr, hFs⟩
  exact ⟨hr, c, hc, hFs⟩

theorem myproc_spec (hF : Stab K t S F) :
    (discipline K).Triple t (At t n S F) myproc fun p s => t = .proc p ∧ At t n S F s := by
  refine (mycpuProc_spec hF).bind fun r => ?_
  cases r with
  | none => exact fun s hs => triple_panic hF s hs.2
  | some p =>
    rintro s ⟨hp, hs⟩
    refine ⟨?_, hs⟩
    cases t with
    | cpu c => cases hp
    | proc q => rw [Option.some.inj hp]

/-- Code that starts with `myproc`. -/
theorem myproc_moves {f : Slot → Code β} {R : β → List Lock}
    (h : ∀ p, t = .proc p → Moves K t S (f p) R) : Moves K t S (myproc.bind f) R := by
  intro F hF
  refine (myproc_spec hF.mono.stab).bind fun p => ?_
  rintro s ⟨ht, hs⟩
  exact h p ht F hF s hs

theorem stab_true : Stab K t S fun _ => True := .const True

/-- A process alone says whom it kills. -/
theorem target_stab {v : Option I32} : Stab K (.proc p) S fun T => (T p).target = v := by
  intro s w hinv hr h
  obtain ⟨c, hc, hl, ha, hw, -⟩ := hr
  obtain ht | ⟨v', rfl, -⟩ := w.table_target s.proc p
  · exact ht.trans h
  · exact absurd (Kernel.running_eq_proc.2 hw) hc

/-- The victim of a kill stays noted. -/
theorem target_frame {v : Option I32} : Frame K (.proc p) S fun T => (T p).target = v where
  stab := target_stab
  mild T w hw h := by
    obtain ht | ⟨v', rfl, -⟩ := w.table_target T p
    · exact ht.trans h
    · exact hw.elim

/-- The victim of a kill is noted. -/
theorem setTarget_spec {v : Option I32} :
    (discipline K).Triple (.proc p) (On (.proc p) S fun _ => True) (record (.target · v))
      fun _ => On (.proc p) S fun T => (T p).target = v := by
  refine (mycpuProc_spec stab_true).bind fun r => ?_
  intro s hs
  obtain ⟨rfl, hs⟩ := hs
  refine triple_write stab_true id (fun s c hinv hc _ _ => ⟨?_, ?_⟩) s hs
  · exact hc.current
  · simp only [Write.table, if_pos]

/-! ## Code of a process -/

/-- Code that a process runs with no lock held, and that may change what it
likes within the discipline. -/
def Calm (K : Known) (p : Slot) (m : Code α) : Prop :=
  (discipline K).Triple (.proc p) (On (.proc p) [] fun _ => True) m
    fun _ => On (.proc p) [] fun _ => True

theorem Moves.calm {m : Code α} (h : Moves K (.proc p) [] m fun _ => []) : Calm K p m :=
  h _ (.const True)

theorem Calm.bind {m : Code α} {f : α → Code β} (hm : Calm K p m) (hf : ∀ a, Calm K p (f a)) :
    Calm K p (m.bind f) :=
  Logic.Triple.bind hm hf

theorem Calm.ret {a : α} : Calm K p (.ret a : Code α) := fun _ hs => hs

/-! ## Waking up -/

/-- The process is there, and it has an id. -/
def Named (K : Known) (p : Slot) (T : Table) : Prop :=
  (T p).state ≠ .unused ∧ (T p).state ≠ .zombie ∧ (K .positive → (T p).pid ≠ 0)

theorem Named.stab (hmem : .proc p ∈ S) : Stab K t S (Named K p) := by
  intro s w hinv hr h
  obtain ⟨c, hc, hl, ha, hw, -⟩ := hr
  obtain ⟨hunused, hzombie, hpid⟩ := h
  have hlp := hl _ hmem
  have hstate : (w.table s.proc p).state = (s.proc p).state := by
    obtain hs | ⟨v, rfl, -⟩ := w.table_state s.proc p
    · exact hs
    · cases v <;> (simp only [writeOK, stateOK, Freeing] at hw; grind)
  refine ⟨hstate ▸ hunused, hstate ▸ hzombie, fun hK => ?_⟩
  obtain hp | ⟨v, rfl, -⟩ := w.table_pid s.proc p
  · rw [hp]
    exact hpid hK
  · simp only [writeOK, pidOK, Freeing] at hw
    grind

/-- The lock of a process keeps others from letting it sleep. -/
theorem sleeping_stab {φ : Prop} (hmem : .proc p ∈ S) :
    Stab K t S fun T => ((T p).state = .sleeping ↔ φ) := by
  intro s w hinv hr h
  obtain ⟨c, hc, hl, ha, hw, -⟩ := hr
  have hlp := hl _ hmem
  obtain hs | ⟨v, rfl, hs⟩ := w.table_state s.proc p
  · rwa [hs]
  · rw [hs]
    cases v <;> (simp only [writeOK, stateOK, Freeing] at hw; grind)

/-- Only who holds the lock of a process wakes it up. -/
theorem dozing_stab {v : Bool} (hmem : .proc p ∈ S) : Stab K t S fun T => (T p).dozing = v := by
  intro s w hinv hr h
  obtain ⟨c, hc, hl, ha, hw, -⟩ := hr
  obtain hd | ⟨v', rfl, -⟩ := w.table_dozing s.proc p
  · rwa [hd]
  · cases v' <;> exact absurd hw.1 (hl _ hmem)

/-- Wake up a process whose lock is held. -/
theorem rouse_spec {f : Unit → Code β} {Q : β → Kernel → Prop} (hF : Frame K t S F)
    (hq : t ≠ .proc q)
    (hf : (discipline K).Triple t (On t (.proc q :: S) fun T =>
      (F T ∧ Guarded K t q T) ∧ (T q).dozing = false) (f ()) Q) :
    (discipline K).Triple t
      (On t (.proc q :: S) fun T => F T ∧ (T q).state = .sleeping ∧ Named K q T) (do
        write (.state q .runnable)
        let u ← write (.dozing q false)
        f u) Q := by
  have hsleep : Stab K t (.proc q :: S) fun T =>
      F T ∧ (T q).state = .sleeping ∧ Named K q T :=
    (hF.stab.cons _).and ((state_stab (by simp) List.mem_cons_self).and
      (Named.stab List.mem_cons_self))
  have hrunnable : Stab K t (.proc q :: S) fun T =>
      F T ∧ (T q).state = .runnable ∧ (K .positive → Named K q T) :=
    (hF.stab.cons _).and ((state_stab (by simp) List.mem_cons_self).and
      (.imp fun _ => Named.stab List.mem_cons_self))
  refine Logic.Triple.bind (triple_write (G := fun T =>
    F T ∧ (T q).state = .runnable ∧ (K .positive → Named K q T)) hsleep id ?_) fun _ => ?_
  · intro s c hinv hc h ha
    obtain ⟨hFs, hstate, hnamed⟩ := h
    refine ⟨⟨(hc.held _).2 List.mem_cons_self, .inl hstate⟩, hF.mild _ _ (.inl hstate) hFs, ?_,
      fun hK => ⟨?_, ?_, fun _ => ?_⟩⟩
    · simp only [Write.table, if_pos]
    · simp [Write.table]
    · simp [Write.table]
    · simpa only [Write.table, if_pos] using hnamed.2.2 hK
  refine Logic.Triple.bind (triple_write (G := fun T =>
    (F T ∧ Guarded K t q T) ∧ (T q).dozing = false) hrunnable id ?_) fun _ => hf
  intro s c hinv hc h ha
  obtain ⟨hFs, hstate, hnamed⟩ := h
  refine ⟨⟨(hc.held _).2 List.mem_cons_self, by simp [hstate]⟩,
    ⟨hF.mild _ _ (.inl rfl) hFs, ⟨fun _ hs => ?_, fun hd => ?_, fun _ hu => ?_, fun hK _ _ => ?_⟩,
      fun ht => absurd ht hq⟩, ?_⟩
  · simp [Write.table, hstate] at hs
  · simp [Write.table] at hd
  · simp [Write.table, hstate] at hu
  · simpa only [Write.table, if_pos] using (hnamed hK).2.2 hK
  · simp only [Write.table, if_pos]

/-- `wakeup` has come past every process but those in `is`: who could have
dozed off on `chan` is awake, as long as `wait_lock` is held. -/
def Woken (t : Tid) (S : List Lock) (chan : Chan) (is : List Slot) (T : Table) : Prop :=
  ∀ p, chan = .proc p → t ≠ .proc p → .wait ∈ S → p ∉ is → (T p).dozing = false

theorem Woken.frame {chan : Chan} {is : List Slot} : Frame K t S (Woken t S chan is) where
  stab := by
    intro s w hinv hr h p hchan ht hwait hp
    obtain ⟨c, hc, hl, ha, hw, -⟩ := hr
    obtain hd | ⟨v, rfl, hd⟩ := w.table_dozing s.proc p
    · rw [hd]
      exact h p hchan ht hwait hp
    · rw [hd]
      cases v with
      | false => rfl
      | true => exact absurd hw.2.1 (hl _ hwait)
  mild T w hw h p hchan ht hwait hp := by
    obtain hd | ⟨v, rfl, hd⟩ := w.table_dozing T p
    · rw [hd]
      exact h p hchan ht hwait hp
    · rw [hd]
      exact hw.resolve_right fun hown => ht hown.2

/-- Once `q` is awake too, it need not be visited. -/
theorem Woken.visited {chan : Chan} {is : List Slot} {T : Table} (h : Woken t S chan (q :: is) T)
    (hq : chan = .proc q → t ≠ .proc q → (T q).dozing = false) : Woken t S chan is T := by
  intro p hchan ht hwait hp
  by_cases hpq : p = q
  · subst hpq
    exact hq hchan ht
  · exact h p hchan ht hwait (by simp [hpq, hp])

/-- `wakeup` takes the locks of all processes, one after the other. -/
theorem wakeup_spec {trap : Code Unit} {chan : Chan} (hF : Frame K t S F) (hS : NoProc S)
    (htrap : S = [] → (discipline K).Triple t (On t [] F) trap fun _ => On t [] F) :
    (discipline K).Triple t (On t S F) (wakeupWith trap chan)
      fun _ => On t S fun T => F T ∧ Woken t S chan [] T := by
  refine Logic.Triple.pre (Logic.Triple.foldM
    (fun is _ => On t S fun T => F T ∧ Woken t S chan is T) fun q is _ => ?_) fun s hs => ?_
  · have hW : Frame K t S fun T => F T ∧ Woken t S chan (q :: is) T := hF.and Woken.frame
    refine (mycpuProc_spec hW.stab).bind fun r => ?_
    by_cases hr : r = some q
    · rw [if_neg (not_not_intro hr)]
      rintro s ⟨hrt, hs⟩
      have ht : t = .proc q := Tid.eq_proc_of_slot (hrt.symm.trans hr)
      show On t S (fun T => F T ∧ Woken t S chan is T) s
      exact hs.imp fun T hT => ⟨hT.1, hT.2.visited fun _ hne => absurd ht hne⟩
    rw [if_pos hr]
    rintro s ⟨hrt, hs⟩
    have hq : t ≠ .proc q := by
      rintro rfl
      exact hr hrt
    refine Logic.Triple.bind (acquire_proc hW.stab hS) (fun _ => ?_) s hs
    have hrelease : (discipline K).Triple t (On t (.proc q :: S) fun T =>
        (F T ∧ Woken t S chan is T) ∧ Guarded K t q T) (releaseWith trap (.proc q))
        fun _ => On t S fun T => F T ∧ Woken t S chan is T := by
      refine release_proc (hF.and Woken.frame).stab fun hnil => ?_
      subst hnil
      refine (htrap rfl).conseq (fun s hs => hs.imp fun T hT => hT.1) fun _ s hs =>
        hs.imp fun T hT => ⟨hT, fun p _ _ hwait => absurd hwait List.not_mem_nil⟩
    have hG : Stab K t (.proc q :: S) fun T =>
        (F T ∧ Woken t S chan (q :: is) T) ∧ Guarded K t q T :=
      (hW.stab.cons _).and (Guarded.stab List.mem_cons_self)
    -- the state is that of the table as long as the lock is held
    refine Logic.Triple.bind (triple_read (G := fun v T =>
      ((F T ∧ Woken t S chan (q :: is) T) ∧ Guarded K t q T) ∧
        ((T q).state = .sleeping ↔ v = .sleeping)) hG fun s c _ _ h => ⟨h, Iff.rfl⟩) fun v => ?_
    refine Logic.Triple.bind (triple_read (G := fun ch T =>
      (((F T ∧ Woken t S chan (q :: is) T) ∧ Guarded K t q T) ∧
        ((T q).state = .sleeping ↔ v = .sleeping)) ∧
        (¬ (v = .sleeping ∧ ch = some chan) → chan = .proc q → (T q).dozing = false))
      (hG.and (sleeping_stab List.mem_cons_self)) ?_) fun ch => ?_
    · intro s c _ _ h
      refine ⟨h, fun hno hchan => ?_⟩
      by_contra hdoze
      have hdoze := h.1.2.1.dozing (by simpa using hdoze)
      exact hno ⟨h.2.1 hdoze.1, hchan ▸ hdoze.2⟩
    by_cases hv : v = .sleeping ∧ ch = some chan
    · rw [if_pos hv]
      refine (rouse_spec (F := fun T => F T ∧ Woken t S chan (q :: is) T) hW hq
        (hrelease.pre fun s hs => hs.imp fun T hT => ?_)).pre fun s hs => hs.imp fun T hT => ?_
      · obtain ⟨⟨⟨hFW, hg⟩, hsleep⟩, -⟩ := hT
        have hsleep := hsleep.2 hv.1
        exact ⟨hFW, hsleep, by simp [hsleep], by simp [hsleep], fun hK =>
          hg.1.named hK (by simp [hsleep]) (by simp [hsleep])⟩
      · exact ⟨⟨hT.1.1.1, hT.1.1.2.visited fun _ _ => hT.2⟩, hT.1.2⟩
    · rw [if_neg hv]
      refine hrelease.pre fun s hs => hs.imp fun T hT => ?_
      exact ⟨⟨hT.1.1.1.1, hT.1.1.1.2.visited fun hchan _ => hT.2 hv hchan⟩, hT.1.1.2⟩
  · refine hs.imp fun T hT => ⟨hT, fun p _ _ _ hp => absurd ?_ hp⟩
    unfold slots
    exact List.mem_finRange p

theorem wakeup_noTrap_moves {chan : Chan} (hS : NoProc S) :
    Moves K t S (wakeupWith noTrap chan) fun _ => S :=
  fun F hF => (wakeup_spec hF.mono hS fun _ => noTrap_moves F hF).post fun _ _ hs =>
    hs.imp fun _ hT => hT.1

/-! ## Switching -/

/-- Process `p` waits to run: when it does, it has its lock. -/
def Parked (K : Known) (p : Slot) (F : Table → Prop) (s : Kernel) : Prop :=
  On (.proc p) [.proc p] (fun T => F T ∧ Guarded K (.proc p) p T) s ∨
    (∀ c, s.current c ≠ some p) ∧ F s.proc

theorem Parked.stable (hF : Stab K (.proc p) [] F) :
    (discipline K).Stable (.proc p) (Parked K p F) := by
  intro s s' hstep hs
  have hF₁ : Stab K (.proc p) [.proc p] fun T => F T ∧ Guarded K (.proc p) p T :=
    (hF.cons _).and (Guarded.stab List.mem_cons_self)
  obtain hs | ⟨hcur, hFs⟩ := hs
  · exact .inl (hF₁.stable s s' hstep hs)
  · obtain ⟨β, d, i, o, b, hd, hinv, ha, hm, hx⟩ := hstep
    have he : Effect K d s s' := effect_of_exec ha hm hx
    have hFs' : F s'.proc := by
      obtain hp | ⟨w, haw, hw, hp⟩ := he.proc
      · rwa [hp]
      · rw [hp]
        exact hF s w hinv ⟨d, hd, fun l hl => absurd hl List.not_mem_nil, haw, hw,
          fun l hl => absurd hl List.not_mem_nil⟩ hFs
    by_cases hd' : s'.current d = some p
    · -- a scheduler resumes the process
      obtain ⟨-, hl, hproc, hnoff, hrun, hpi⟩ := he.resume p hd' (hcur d)
      refine .inl ⟨d, ⟨Kernel.running_eq_proc.2 hd', hproc, hnoff, List.nodup_singleton _,
        fun l => (hl l).trans List.mem_singleton.symm, fun q hq ht => ?_⟩, hFs', hpi,
        fun _ => hrun⟩
      exact absurd (congrArg Tid.proc (Lock.proc.inj (List.mem_singleton.1 hq))).symm ht
    · refine .inr ⟨fun c => ?_, hFs'⟩
      by_cases hcd : c = d
      · exact hcd ▸ hd'
      · rw [he.current c hcd]
        exact hcur c

theorem Parked.resume {s : Kernel} {c : Cpu} (h : Parked K p F s) (hc : s.running c = .proc p) :
    On (.proc p) [.proc p] (fun T => F T ∧ Guarded K (.proc p) p T) s := by
  obtain h | ⟨hcur, -⟩ := h
  · exact h
  · exact absurd (Kernel.running_eq_proc.1 hc) (hcur c)

/-- `sched` returns with the process running again. -/
theorem sched_spec (hF : Stab K (.proc p) [] F) :
    (discipline K).Triple (.proc p)
      (On (.proc p) [.proc p] fun T => F T ∧ ProcInv K p (T p)) sched
      fun _ => On (.proc p) [.proc p] fun T => F T ∧ Guarded K (.proc p) p T := by
  have hS : Stab K (.proc p) [.proc p] fun T => F T ∧ ProcInv K p (T p) :=
    (hF.cons _).and (procInv_stab List.mem_cons_self)
  refine (myproc_spec hS).bind fun p' => ?_
  rintro s ⟨hp', hs⟩
  obtain rfl : p = p' := Tid.proc.inj hp'
  refine Logic.Triple.bind (holding_spec hS) (fun b => ?_) s hs
  cases b with
  | false => exact panic_first fun s hs => triple_panic hS s hs.1
  | true =>
  rintro s ⟨hs, -⟩
  refine Logic.Triple.bind (triple_cpu (m := fun _ => 1) hS fun x hp hn => ⟨hp, hn⟩)
    (fun noff => ?_) s hs
  by_cases hn : noff ≠ 1
  · rw [if_pos hn]
    exact panic_first (triple_panic hS)
  rw [if_neg hn]
  refine Logic.Triple.bind (triple_read (G := fun v T =>
    (F T ∧ ProcInv K p (T p)) ∧ (v ≠ .running → (T p).state ≠ .running)) hS
    fun _ _ _ _ h => ⟨h, id⟩) fun v => ?_
  by_cases hv : v = .running
  · rw [if_pos hv]
    exact panic_first fun s hs => triple_panic hS s (hs.imp fun T hT => hT.1)
  rw [if_neg hv]
  -- the process has changed its state
  have hready : Stab K (.proc p) [.proc p] fun T =>
      (F T ∧ ProcInv K p (T p)) ∧ (v ≠ .running → (T p).state ≠ .running) :=
    hS.and (.imp fun _ => not_running_stab List.mem_cons_self)
  refine Logic.Triple.bind (triple_cpu (m := fun _ => 1) hready fun x hp hn => ⟨hp, hn⟩)
    fun intr => ?_
  cases intr with
  | true => exact panic_first (triple_panic hready)
  | false =>
  refine Logic.Triple.bind (triple_cpu (m := fun _ => 1) hready fun x hp hn => ⟨hp, hn⟩)
    fun intena => ?_
  refine Logic.Triple.bind (R := fun _ => Parked K p F) ?_ fun _ => ?_
  · refine triple_op hready fun s c hinv hc h _ =>
      ⟨⟨p, hc.current, ?_, hc.noff, h.1.2, h.2 hv⟩, ?_⟩
    · exact fun l => (hc.held l).trans List.mem_singleton
    · intro i b s' hx
      obtain ⟨-, rfl⟩ := Prod.mk.inj (Option.some.inj hx)
      refine .inr ⟨fun d => ?_, h.1.1⟩
      simp only [Kernel.setCurrent]
      split
      · simp
      · rename_i hd
        exact fun hcur => hd (hinv.unique d c p hcur hc.current)
  · refine Logic.Triple.resume (Parked.stable hF) (fun s c h _ hc => h.resume hc) ?_
    exact triple_cpu (m := fun _ => 1) ((hF.cons _).and (Guarded.stab List.mem_cons_self))
      fun x hp hn => ⟨hp, hn⟩

/-- `yield`. -/
theorem yield_spec {trap : Code Unit} (hF : Frame K t [] F)
    (htrap : (discipline K).Triple t (On t [] F) trap fun _ => On t [] F) :
    (discipline K).Triple t (On t [] F) (yieldWith trap) fun _ => On t [] F := by
  refine (myproc_spec hF.stab).bind fun p => ?_
  rintro s ⟨rfl, hs⟩
  refine Logic.Triple.bind (acquire_proc hF.stab .nil) (fun _ => ?_) s hs
  have hG : Stab K (.proc p) [.proc p] fun T => F T ∧ Guarded K (.proc p) p T :=
    (hF.stab.cons _).and (Guarded.stab List.mem_cons_self)
  refine Logic.Triple.bind (triple_write (G := fun T => F T ∧ ProcInv K p (T p)) hG id ?_)
    fun _ => (sched_spec hF.stab).bind fun _ => release_proc hF.stab fun _ => htrap
  intro s c hinv hc h ha
  obtain ⟨hFs, hpi, hrun⟩ := h
  have hrun := hrun rfl
  refine ⟨⟨(hc.held _).2 List.mem_cons_self, .inr (.inl ⟨hc.current, hrun⟩)⟩,
    hF.mild _ _ (.inr ⟨rfl, rfl⟩) hFs, ?_⟩
  simp only [Write.table, if_pos]
  exact .of_awake (by simp) (by simp) (hpi.not_dozing (by simp [hrun])) fun hK =>
    hpi.named hK (by simp [hrun]) (by simp [hrun])

/-! ## Interrupts -/

theorem Lock.plain_cons : Lock.Plain .cons := ⟨by simp, by simp⟩

theorem Lock.plain_ticks : Lock.Plain .ticks := ⟨by simp, by simp⟩

theorem Lock.plain_pid : Lock.Plain .pid := ⟨by simp, by simp⟩

theorem Lock.plain_ftable : Lock.Plain .ftable := ⟨by simp, by simp⟩

theorem Lock.plain_itable : Lock.Plain .itable := ⟨by simp, by simp⟩

theorem Lock.plain_pipe (pi : PipeId) : Lock.Plain (.pipe pi) := ⟨by simp, by simp⟩

theorem Lock.plain_fs (k : Nat) : Lock.Plain (.fs k) := ⟨by simp, by simp⟩

theorem Lock.Plain.noProc (h : l.Plain) : NoProc [l] := NoProc.nil.cons h.2

theorem consoleintr_moves {c : I32} : Moves K t [] (consoleintr c) fun _ => [] := by
  refine (acquire_moves Lock.plain_cons).bind fun _ => read_moves.bind fun ⟨cons, wake⟩ => ?_
  refine (write_moves (w := .data _) trivial).bind fun _ => ?_
  refine .ite ?_ (releaseWith_moves noTrap_moves Lock.plain_cons)
  exact (wakeup_noTrap_moves Lock.plain_cons.noProc).bind fun _ =>
    releaseWith_moves noTrap_moves Lock.plain_cons

theorem clockintr_moves : Moves K t [] clockintr fun _ => [] := by
  refine (acquire_moves Lock.plain_ticks).bind fun _ => (write_moves (w := .data _) trivial).bind fun _ => ?_
  exact (wakeup_noTrap_moves Lock.plain_ticks.noProc).bind fun _ =>
    releaseWith_moves noTrap_moves Lock.plain_ticks

theorem cpuid_moves : Moves K t S cpuid fun _ => S :=
  fun F hF => triple_read (G := fun _ => F) hF.mono.stab fun _ _ _ _ hs => hs

theorem devintr_moves {d : Dev} : Moves K t [] (devintr d) fun _ => [] := by
  cases d with
  | timer =>
    exact cpuid_moves.bind fun c => .ite (clockintr_moves.bind fun _ => .ret rfl) (.ret rfl)
  | uart c => exact consoleintr_moves.bind fun _ => Moves.ret rfl
  | disk k =>
    refine (acquire_moves (Lock.plain_fs k)).bind fun _ => ?_
    refine (wakeup_noTrap_moves (Lock.plain_fs k).noProc).bind fun _ => ?_
    exact (releaseWith_moves noTrap_moves (Lock.plain_fs k)).bind fun _ =>
      Moves.ret rfl

theorem yield_noTrap_moves : Moves K t [] (yieldWith noTrap) fun _ => [] :=
  fun F hF => yield_spec hF (noTrap_moves F hF)

/-- Interrupts leave a thread as it is. -/
theorem kerneltrap_moves : Moves K t [] kerneltrap fun _ => [] := by
  refine Moves.loop fun _ => input_moves.bind fun i => ?_
  split
  · refine intr_moves.bind fun _ => devintr_moves.bind fun which => ?_
    have hend : Moves K t [] (do
        Prog.perform (.cpu fun x => ((), { x with intr := true }))
        return (Sum.inl () : Unit ⊕ Unit)) (Sum.elim (fun _ => []) fun _ => []) :=
      intr_moves.bind fun _ => Moves.ret rfl
    by_cases hw : which = 2
    · rw [if_pos hw]
      intro F hF
      refine (mycpuProc_spec hF.stab).bind fun r => ?_
      rintro s ⟨-, hs⟩
      cases r with
      | none => exact hend F hF s hs
      | some p =>
        refine Logic.Triple.bind (read_moves F hF) (fun v => ?_) s hs
        by_cases hv : v = .running
        · rw [if_pos hv]
          exact (yield_noTrap_moves F hF).bind fun _ => hend F hF
        · rw [if_neg hv]
          exact hend F hF
    · rw [if_neg hw]
      exact hend
  · exact Moves.ret rfl

theorem intrOn_moves : Moves K t [] intrOn fun _ => [] :=
  intr_moves.bind fun _ => kerneltrap_moves

theorem release_moves (hl : l.Plain) : Moves K t (l :: S) (release l) fun _ => S :=
  releaseWith_moves kerneltrap_moves hl

theorem wakeup_moves {chan : Chan} (hS : NoProc S) : Moves K t S (wakeup chan) fun _ => S :=
  fun F hF => (wakeup_spec hF.mono hS fun _ => kerneltrap_moves F hF).post fun _ _ hs =>
    hs.imp fun _ hT => hT.1

theorem yield_moves : Moves K t [] yield fun _ => [] :=
  fun F hF => yield_spec hF (kerneltrap_moves F hF)

end Xv6
