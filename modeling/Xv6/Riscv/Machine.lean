import Mathlib.Logic.Function.Basic
import Mathlib.Data.List.Nodup

/-!
# Straight-line RISC-V code

A machine with the registers of RV64, some control and status registers, and a
memory of doublewords that it reaches through the page table that `satp`
selects; what `satp` stands for is a parameter.  A load or a store traps if the
address is not aligned or not mapped.

Code that saves registers, or restores them, is a list of stores, or loads,
at different offsets from one base register.
-/

namespace Riscv

open Function (update)

abbrev U64 := BitVec 64

/-- The registers but `zero`. -/
inductive Reg
  | ra | sp | gp | tp
  | t0 | t1 | t2 | t3 | t4 | t5 | t6
  | s0 | s1 | s2 | s3 | s4 | s5 | s6 | s7 | s8 | s9 | s10 | s11
  | a0 | a1 | a2 | a3 | a4 | a5 | a6 | a7
  deriving DecidableEq

inductive Csr
  | satp | sscratch | sepc | sip | mscratch | mepc
  deriving DecidableEq

inductive Instr
  | sd (rs : Reg) (off : U64) (base : Reg)
  | ld (rd : Reg) (off : U64) (base : Reg)
  | li (rd : Reg) (imm : U64)
  | addi (rd rs : Reg) (imm : U64)
  | add (rd rs₁ rs₂ : Reg)
  | csrw (c : Csr) (rs : Reg)
  | csrr (rd : Reg) (c : Csr)
  | csrrw (rd : Reg) (c : Csr) (rs : Reg)
  /-- `sfence.vma zero, zero` -/
  | sfence
  | jr (rs : Reg)
  | sret
  | mret

@[ext]
structure Machine where
  regs : Reg → U64
  csr : Csr → U64
  mem : U64 → U64
  pc : U64

/-- Where each `satp` has an address. -/
abbrev Mapping := U64 → U64 → Option U64

namespace Machine

variable (m : Machine)

def setReg (r : Reg) (v : U64) : Machine := { m with regs := update m.regs r v }

def setCsr (c : Csr) (v : U64) : Machine := { m with csr := update m.csr c v }

def setMem (a v : U64) : Machine := { m with mem := update m.mem a v }

/-- The address in memory of a virtual address. -/
def walk (tr : Mapping) (va : U64) : Option U64 :=
  if va.toNat % 8 = 0 then tr (m.csr .satp) va else none

/-- One instruction. -/
def step (tr : Mapping) : Instr → Option Machine
  | .sd rs off base => (m.walk tr (m.regs base + off)).map fun a => m.setMem a (m.regs rs)
  | .ld rd off base => (m.walk tr (m.regs base + off)).map fun a => m.setReg rd (m.mem a)
  | .li rd imm => some (m.setReg rd imm)
  | .addi rd rs imm => some (m.setReg rd (m.regs rs + imm))
  | .add rd rs₁ rs₂ => some (m.setReg rd (m.regs rs₁ + m.regs rs₂))
  | .csrw c rs => some (m.setCsr c (m.regs rs))
  | .csrr rd c => some (m.setReg rd (m.csr c))
  | .csrrw rd c rs => some ((m.setCsr c (m.regs rs)).setReg rd (m.csr c))
  | .sfence => some m
  | .jr rs => some { m with pc := m.regs rs }
  | .sret => some { m with pc := m.csr .sepc }
  | .mret => some { m with pc := m.csr .mepc }

/-- The instructions of a list. -/
def exec (tr : Mapping) (is : List Instr) : Option Machine := is.foldlM (fun m i => m.step tr i) m

end Machine

variable {tr : Mapping} {m m' : Machine}

theorem exec_append (is js : List Instr) :
    m.exec tr (is ++ js) = (m.exec tr is).bind fun m' => m'.exec tr js :=
  List.foldlM_append

theorem exec_cons (i : Instr) (is : List Instr) :
    m.exec tr (i :: is) = (m.step tr i).bind fun m' => m'.exec tr is :=
  List.foldlM_cons

theorem exec_of_step {i : Instr} {is : List Instr} (h : m.step tr i = some m') :
    m.exec tr (i :: is) = m'.exec tr is := by
  rw [exec_cons, h, Option.bind_some]

theorem exec_of_exec {is js : List Instr} (h : m.exec tr is = some m') :
    m.exec tr (is ++ js) = m'.exec tr js := by
  rw [exec_append, h, Option.bind_some]

/-! ## Saving and restoring -/

/-- Where each register is kept, from the base. -/
abbrev Layout := List (Reg × U64)

def saves (base : Reg) (l : Layout) : List Instr := l.map fun p => .sd p.1 p.2 base

def loads (base : Reg) (l : Layout) : List Instr := l.map fun p => .ld p.1 p.2 base

/-- Each register of the layout has a place of its own: `place` is where the
doubleword at an offset from `base` is in memory. -/
structure Area (tr : Mapping) (satp base : U64) (place : U64 → U64) (l : Layout) : Prop where
  aligned : ∀ p ∈ l, (base + p.2).toNat % 8 = 0
  mapped : ∀ p ∈ l, tr satp (base + p.2) = some (place p.2)
  apart : (l.map fun p => place p.2).Nodup
  once : (l.map Prod.fst).Nodup

variable {base : Reg} {satp b : U64} {place : U64 → U64} {l : Layout} {r : Reg} {off a : U64}

theorem Area.tail {p : Reg × U64} (h : Area tr satp b place (p :: l)) : Area tr satp b place l where
  aligned q hq := h.aligned q (.tail _ hq)
  mapped q hq := h.mapped q (.tail _ hq)
  apart := (List.nodup_cons.1 h.apart).2
  once := (List.nodup_cons.1 h.once).2

theorem Area.walk (h : Area tr satp b place l) (hp : (r, off) ∈ l) (hsatp : m.csr .satp = satp)
    (hb : m.regs base = b) : m.walk tr (m.regs base + off) = some (place off) := by
  unfold Machine.walk
  rw [hb, hsatp, if_pos (h.aligned _ hp)]
  exact h.mapped _ hp

/-- What the memory is after the registers have been saved. -/
structure Saved (place : U64 → U64) (l : Layout) (m m' : Machine) : Prop where
  kept : ∀ r off, (r, off) ∈ l → m'.mem (place off) = m.regs r
  other : ∀ a, (∀ p ∈ l, a ≠ place p.2) → m'.mem a = m.mem a
  regs : m'.regs = m.regs
  csr : m'.csr = m.csr
  pc : m'.pc = m.pc

theorem exec_saves (h : Area tr satp b place l) (hsatp : m.csr .satp = satp)
    (hb : m.regs base = b) : ∃ m', m.exec tr (saves base l) = some m' ∧ Saved place l m m' := by
  induction l generalizing m with
  | nil => exact ⟨m, rfl, nofun, fun _ _ => rfl, rfl, rfl, rfl⟩
  | cons p l ih =>
    obtain ⟨r, off⟩ := p
    have hstep : m.step tr (.sd r off base) = some (m.setMem (place off) (m.regs r)) := by
      show (m.walk tr _).map _ = _
      rw [h.walk List.mem_cons_self hsatp hb]
      rfl
    obtain ⟨m', hrun, hsaved⟩ := ih (m := m.setMem (place off) (m.regs r)) h.tail hsatp hb
    have hnot : ∀ p ∈ l, place off ≠ place p.2 := by
      intro p hp heq
      refine (List.nodup_cons.1 h.apart).1 ?_
      show place off ∈ _
      rw [heq]
      exact List.mem_map_of_mem hp
    refine ⟨m', (exec_of_step hstep).trans hrun, fun r' off' hp => ?_, fun a ha => ?_,
      hsaved.regs, hsaved.csr, hsaved.pc⟩
    · rcases List.mem_cons.1 hp with heq | hp
      · obtain ⟨rfl, rfl⟩ := Prod.mk.inj heq
        rw [hsaved.other _ hnot]
        exact Function.update_self ..
      · exact hsaved.kept r' off' hp
    · rw [hsaved.other a fun p hp => ha p (.tail _ hp)]
      exact Function.update_of_ne (ha _ List.mem_cons_self) ..

/-- What the registers are after they have been restored. -/
structure Restored (place : U64 → U64) (l : Layout) (m m' : Machine) : Prop where
  back : ∀ r off, (r, off) ∈ l → m'.regs r = m.mem (place off)
  other : ∀ r, r ∉ l.map Prod.fst → m'.regs r = m.regs r
  mem : m'.mem = m.mem
  csr : m'.csr = m.csr
  pc : m'.pc = m.pc

theorem exec_loads (h : Area tr satp b place l) (hsatp : m.csr .satp = satp)
    (hb : m.regs base = b) (hbase : base ∉ l.map Prod.fst) :
    ∃ m', m.exec tr (loads base l) = some m' ∧ Restored place l m m' := by
  induction l generalizing m with
  | nil => exact ⟨m, rfl, nofun, fun _ _ => rfl, rfl, rfl, rfl⟩
  | cons p l ih =>
    obtain ⟨r, off⟩ := p
    have hstep : m.step tr (.ld r off base) = some (m.setReg r (m.mem (place off))) := by
      show (m.walk tr _).map _ = _
      rw [h.walk List.mem_cons_self hsatp hb]
      rfl
    have hne : base ≠ r := fun heq => hbase (heq ▸ List.mem_cons_self)
    have hb' : (m.setReg r (m.mem (place off))).regs base = b :=
      (Function.update_of_ne hne ..).trans hb
    obtain ⟨m', hrun, hres⟩ := ih (m := m.setReg r (m.mem (place off))) h.tail hsatp hb'
      fun hmem => hbase (.tail _ hmem)
    have hnot : r ∉ l.map Prod.fst := (List.nodup_cons.1 h.once).1
    refine ⟨m', (exec_of_step hstep).trans hrun, fun r' off' hp => ?_, fun r' hr' => ?_,
      hres.mem, hres.csr, hres.pc⟩
    · rcases List.mem_cons.1 hp with heq | hp
      · obtain ⟨rfl, rfl⟩ := Prod.mk.inj heq
        rw [hres.other _ hnot]
        exact Function.update_self ..
      · exact hres.back r' off' hp
    · rw [List.map_cons, List.mem_cons, not_or] at hr'
      rw [hres.other r' hr'.2]
      exact Function.update_of_ne hr'.1 ..

end Riscv
