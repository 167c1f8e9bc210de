import Xv6.Asm.Traps
import Mathlib.Logic.Relation

/-!
# Threads

Processors that run kernel threads, which call `swtch` to go from one to
another.  A thread that has called `swtch` finds its registers as they were
when some processor comes back to it.
-/

namespace Xv6.Asm

open Riscv
open Function (update)

variable {H T : Type}

/-- The registers of a processor. -/
structure Hart where
  regs : Reg → U64
  csr : Csr → U64
  pc : U64

/-- The processors, with the threads that they run.  `saved` is history: the
registers with which a thread that does not run has called `swtch`, or with
which it is to begin. -/
structure System (H T : Type) where
  hart : H → Hart
  mem : U64 → U64
  on : H → T
  saved : T → Option (Reg → U64)

def System.machine (s : System H T) (h : H) : Machine :=
  ⟨(s.hart h).regs, (s.hart h).csr, s.mem, (s.hart h).pc⟩

/-- The contexts of the threads do not overlap, and the kernel has them mapped
where they are. -/
structure Contexts (tr : Mapping) (satp : U64) (ctx : T → U64) : Prop where
  aligned : ∀ t, (ctx t).toNat % 8 = 0
  mapped : ∀ t, ∀ p ∈ context, tr satp (ctx t + p.2) = some (ctx t + p.2)
  apart : ∀ t t', ∀ p ∈ context, ∀ q ∈ context, ctx t + p.2 = ctx t' + q.2 → t = t'

/-- The context of `t` is the same. -/
def SameContext (ctx : T → U64) (t : T) (mem mem' : U64 → U64) : Prop :=
  ∀ p ∈ context, mem' (ctx t + p.2) = mem (ctx t + p.2)

variable [DecidableEq H] [DecidableEq T]

/-- What the processors do: code that leaves the contexts alone, a new thread
with a context, and `swtch(&old, &new)` to a thread that does not run. -/
inductive Step (tr : Mapping) (ctx : T → U64) : System H T → System H T → Prop
  | work (s : System H T) (h : H) (c : Hart) (mem : U64 → U64)
      (hsatp : c.csr .satp = (s.hart h).csr .satp) (hmem : ∀ t, SameContext ctx t s.mem mem) :
      Step tr ctx s { s with hart := update s.hart h c, mem := mem }
  | create (s : System H T) (t : T) (regs : Reg → U64) (mem : U64 → U64)
      (hidle : ∀ h, s.on h ≠ t) (hmem : ∀ u, u ≠ t → SameContext ctx u s.mem mem)
      (hregs : ∀ p ∈ context, mem (ctx t + p.2) = regs p.1) :
      Step tr ctx s { s with mem := mem, saved := update s.saved t (some regs) }
  | swtch (s : System H T) (h : H) (t : T) (m' : Machine) (hsaved : s.saved t ≠ none)
      (hold : (s.hart h).regs .a0 = ctx (s.on h)) (hnew : (s.hart h).regs .a1 = ctx t)
      (hrun : (s.machine h).exec tr swtch = some m') :
      Step tr ctx s
        { hart := update s.hart h ⟨m'.regs, m'.csr, m'.pc⟩, mem := m'.mem, on := update s.on h t
          saved := update (update s.saved (s.on h) (some (s.hart h).regs)) t none }

/-- At the beginning every processor runs a thread of its own, and there are no
others. -/
structure Initial (satp : U64) (s : System H T) : Prop where
  satp : ∀ h, (s.hart h).csr .satp = satp
  on : Function.Injective s.on
  saved : ∀ t, s.saved t = none

structure Inv (satp : U64) (ctx : T → U64) (s : System H T) : Prop where
  satp : ∀ h, (s.hart h).csr .satp = satp
  on : Function.Injective s.on
  running : ∀ h, s.saved (s.on h) = none
  saved : ∀ t regs, s.saved t = some regs → ∀ p ∈ context, s.mem (ctx t + p.2) = regs p.1

variable {tr : Mapping} {satp : U64} {ctx : T → U64} {s s' : System H T}

omit [DecidableEq H] [DecidableEq T] in
theorem Contexts.area (hc : Contexts tr satp ctx) (t : T) :
    Area tr satp (ctx t) (ctx t + ·) context where
  aligned p hp := by
    have hoff : ∀ p ∈ context, p.2.toNat % 8 = 0 := by decide
    have hb := hc.aligned t
    have ho := hoff p hp
    rw [BitVec.toNat_add]
    omega
  mapped p hp := hc.mapped t p hp
  apart := by
    have hmap : (context.map fun p => ctx t + p.2) = (context.map Prod.snd).map (ctx t + ·) := by
      rw [List.map_map]
      rfl
    rw [hmap]
    exact (List.nodup_map_iff fun a b hab => by simpa using hab).2 (by decide)
  once := by decide

/-- What `swtch` does. -/
structure Switched (ctx : T → U64) (old new : T) (m m' : Machine) : Prop where
  regs : ∀ p ∈ context, m'.regs p.1 = m.mem (ctx new + p.2)
  kept : ∀ p ∈ context, m'.mem (ctx old + p.2) = m.regs p.1
  other : ∀ t, t ≠ old → SameContext ctx t m.mem m'.mem
  csr : m'.csr = m.csr
  pc : m'.pc = m.mem (ctx new + 0)

omit [DecidableEq H] [DecidableEq T] in
theorem exec_swtch (hc : Contexts tr satp ctx) {old new : T} (hne : new ≠ old) {m : Machine}
    (hsatp : m.csr .satp = satp) (ha0 : m.regs .a0 = ctx old) (ha1 : m.regs .a1 = ctx new) :
    ∃ m', m.exec tr swtch = some m' ∧ Switched ctx old new m m' := by
  obtain ⟨m₁, hsaves, hsaved⟩ := exec_saves (hc.area old) hsatp ha0
  obtain ⟨m₂, hloads, hres⟩ := exec_loads (hc.area new) (hsaved.csr ▸ hsatp)
    (hsaved.regs ▸ ha1) (by decide)
  have hother : ∀ t, t ≠ old → SameContext ctx t m.mem m₁.mem := fun t ht p hp =>
    hsaved.other _ fun q hq heq => ht (hc.apart t old p hp q hq heq)
  have hregs : ∀ p ∈ context, m₂.regs p.1 = m.mem (ctx new + p.2) := fun p hp =>
    (hres.back p.1 p.2 hp).trans (hother new hne p hp)
  refine ⟨{ m₂ with pc := m₂.regs .ra }, ?_, hregs, fun p hp => ?_, fun t ht p hp => ?_, ?_, ?_⟩
  · unfold swtch
    rw [List.append_assoc, exec_of_exec hsaves, exec_of_exec hloads]
    rfl
  · exact (congrFun hres.mem _).trans (hsaved.kept p.1 p.2 hp)
  · exact (congrFun hres.mem _).trans (hother t ht p hp)
  · exact hres.csr.trans hsaved.csr
  · exact hregs (.ra, 0) (by decide)

omit [DecidableEq T] in
theorem satp_update {hart : H → Hart} {c : Hart} (h : H) (hsatp : ∀ k, (hart k).csr .satp = satp)
    (hc : c.csr .satp = satp) (k : H) : (update hart h c k).csr .satp = satp := by
  by_cases hk : k = h
  · rw [hk, Function.update_self]
    exact hc
  · rw [Function.update_of_ne hk]
    exact hsatp k

/-- One step. -/
theorem Inv.step (hc : Contexts tr satp ctx) (hinv : Inv satp ctx s) (hs : Step tr ctx s s') :
    Inv satp ctx s' := by
  cases hs with
  | work h c mem hsatp hmem =>
    refine ⟨satp_update h hinv.satp (hsatp.trans (hinv.satp h)), hinv.on, hinv.running,
      fun t regs ht p hp => ?_⟩
    exact (hmem t p hp).trans (hinv.saved t regs ht p hp)
  | create t regs mem hidle hmem hregs =>
    refine ⟨hinv.satp, hinv.on, fun h => ?_, fun u regs' hu p hp => ?_⟩
    · exact (Function.update_of_ne (hidle h) ..).trans (hinv.running h)
    · have hu : update s.saved t (some regs) u = some regs' := hu
      by_cases hut : u = t
      · subst hut
        rw [Function.update_self] at hu
        obtain rfl := Option.some.inj hu
        exact hregs p hp
      · rw [Function.update_of_ne hut] at hu
        exact (hmem u hut p hp).trans (hinv.saved u regs' hu p hp)
  | swtch h t m' hsaved hold hnew hrun =>
    have hidle : ∀ k, s.on k ≠ t := fun k heq => hsaved (heq ▸ hinv.running k)
    obtain ⟨m'', hrun', hsw⟩ := exec_swtch hc (m := s.machine h) (hidle h).symm (hinv.satp h) hold hnew
    obtain rfl : m'' = m' := Option.some.inj (hrun'.symm.trans hrun)
    refine ⟨satp_update h hinv.satp ((congrFun hsw.csr .satp).trans (hinv.satp h)),
      fun j k hjk => ?_, fun k => ?_, fun u regs hu p hp => ?_⟩
    · have hjk : update s.on h t j = update s.on h t k := hjk
      by_cases hj : j = h <;> by_cases hk : k = h
      · rw [hj, hk]
      · rw [hj, Function.update_self, Function.update_of_ne hk] at hjk
        exact absurd hjk.symm (hidle k)
      · rw [hk, Function.update_self, Function.update_of_ne hj] at hjk
        exact absurd hjk (hidle j)
      · rw [Function.update_of_ne hj, Function.update_of_ne hk] at hjk
        exact hinv.on hjk
    · show update (update s.saved (s.on h) _) t none (update s.on h t k) = none
      by_cases hk : k = h
      · rw [hk, Function.update_self, Function.update_self]
      · rw [Function.update_of_ne hk, Function.update_of_ne (hidle k),
          Function.update_of_ne fun heq => hk (hinv.on heq)]
        exact hinv.running k
    · have hu : update (update s.saved (s.on h) (some (s.hart h).regs)) t none u = some regs := hu
      have hut : u ≠ t := by
        rintro rfl
        rw [Function.update_self] at hu
        cases hu
      rw [Function.update_of_ne hut] at hu
      by_cases huo : u = s.on h
      · subst huo
        rw [Function.update_self] at hu
        obtain rfl := Option.some.inj hu
        exact hsw.kept p hp
      · rw [Function.update_of_ne huo] at hu
        exact (hsw.other u huo p hp).trans (hinv.saved u regs hu p hp)

omit [DecidableEq H] [DecidableEq T] in
theorem Initial.inv (h : Initial satp s) : Inv satp ctx s where
  satp := h.satp
  on := h.on
  running k := h.saved _
  saved t regs ht := by
    rw [h.saved t] at ht
    cases ht

theorem inv_of_steps {s₀ : System H T} (hc : Contexts tr satp ctx) (h₀ : Initial satp s₀)
    (hs : Relation.ReflTransGen (Step tr ctx) s₀ s) : Inv satp ctx s := by
  induction hs with
  | refl => exact h₀.inv
  | tail _ hstep ih => exact ih.step hc hstep

/-- A thread that a processor comes back to finds the stack and the
callee-saved registers as they were when it called `swtch`, which returns to
it, in every run with any number of processors and threads. -/
theorem swtch_resumes (tr : Mapping) (satp : U64) (ctx : T → U64) (hc : Contexts tr satp ctx)
    (s₀ s : System H T) (h₀ : Initial satp s₀) (hs : Relation.ReflTransGen (Step tr ctx) s₀ s)
    (h : H) (t : T) (regs : Reg → U64) (hsaved : s.saved t = some regs)
    (hold : (s.hart h).regs .a0 = ctx (s.on h)) (hnew : (s.hart h).regs .a1 = ctx t) :
    ∃ m', (s.machine h).exec tr swtch = some m' ∧ (∀ p ∈ context, m'.regs p.1 = regs p.1) ∧
      m'.pc = regs .ra := by
  have hinv : Inv satp ctx s := inv_of_steps hc h₀ hs
  have hne : t ≠ s.on h := by
    rintro rfl
    rw [hinv.running h] at hsaved
    cases hsaved
  obtain ⟨m', hrun, hsw⟩ := exec_swtch hc (m := s.machine h) hne (hinv.satp h) hold hnew
  refine ⟨m', hrun, fun p hp => (hsw.regs p hp).trans (hinv.saved t regs hsaved p hp), ?_⟩
  exact hsw.pc.trans (hinv.saved t regs hsaved (.ra, 0) (by decide))

/-- The contexts of two threads. -/
def twoContexts (t : Bool) : U64 := if t then 0x1000 else 0x2000

theorem contexts_two : Contexts bare 0 twoContexts where
  aligned := by decide
  mapped _ _ _ := rfl
  apart := by decide

/-- One processor calls `swtch`. -/
def oneHart : System Unit Bool where
  hart _ := ⟨fun r => if r = .a0 then 0x2000 else if r = .a1 then 0x1000 else 5, fun _ => 0, 0⟩
  mem _ := 0
  on _ := false
  saved _ := none

/-- A new thread has a stack at 77. -/
theorem swtch_resumes_new : ∃ (s : System Unit Bool) (m' : Machine),
    Relation.ReflTransGen (Step bare twoContexts) oneHart s ∧
      (s.machine ()).exec bare swtch = some m' ∧ m'.regs .sp = 77 ∧ m'.pc = 0 := by
  let regs : Reg → U64 := fun r => if r = .sp then 77 else 0
  let mem : U64 → U64 := fun a => if a = 0x1008 then 77 else 0
  have hstep : Step bare twoContexts oneHart
      { oneHart with mem := mem, saved := update oneHart.saved true (some regs) } :=
    .create oneHart true regs mem (fun _ hon => Bool.noConfusion hon)
      (by
        intro u hu
        obtain rfl : u = false := by simpa using hu
        unfold SameContext
        decide)
      (by decide)
  obtain ⟨m', hrun, hregs, hpc⟩ := swtch_resumes bare 0 twoContexts contexts_two oneHart _
    ⟨fun _ => rfl, fun _ _ _ => rfl, fun _ => rfl⟩ (.single hstep) () true regs
    rfl rfl rfl
  exact ⟨_, m', .single hstep, hrun, hregs (.sp, 8) (by decide), hpc⟩

end Xv6.Asm
