import Xv6.Asm.Code

/-!
# Traps

A trap changes no register of the code that it interrupts.
-/

namespace Xv6.Asm

open Riscv
open Function (update)

variable {tr : Mapping} {m m' : Machine} {satp base : U64} {place : U64 → U64}

/-! ## Layouts -/

/-- The page of a trapframe: `satp` has it at `TRAPFRAME`. -/
def Framed (tr : Mapping) (satp frame : U64) : Prop :=
  ∀ off : U64, off.toNat < 288 → off.toNat % 8 = 0 → tr satp (TRAPFRAME + off) = some (frame + off)

/-- The trapframe is at one place. -/
theorem area_trapframe {frame : U64} (h : Framed tr satp frame) :
    Area tr satp TRAPFRAME (frame + ·) trapframe where
  aligned := by decide
  mapped p hp := by
    have hoff : ∀ p ∈ trapframe, p.2.toNat < 288 ∧ p.2.toNat % 8 = 0 := by decide
    exact h p.2 (hoff p hp).1 (hoff p hp).2
  apart := by
    have hmap : (trapframe.map fun p => frame + p.2) = (trapframe.map Prod.snd).map (frame + ·) := by
      rw [List.map_map]
      rfl
    rw [hmap]
    exact (List.nodup_map_iff fun a b hab => by simpa using hab).2 (by decide)
  once := by decide

/-- One load. -/
theorem step_ld {rd b : Reg} {off a : U64} (h : m.walk tr (m.regs b + off) = some a) :
    m.step tr (.ld rd off b) = some (m.setReg rd (m.mem a)) := by
  show (m.walk tr _).map _ = _
  rw [h]
  rfl

theorem step_sd {rs b : Reg} {off a : U64} (h : m.walk tr (m.regs b + off) = some a) :
    m.step tr (.sd rs off b) = some (m.setMem a (m.regs rs)) := by
  show (m.walk tr _).map _ = _
  rw [h]
  rfl

/-- What is at an offset from `TRAPFRAME`. -/
theorem Framed.walk {frame off : U64} {b : Reg} (h : Framed tr satp frame)
    (hsatp : m.csr .satp = satp) (hb : m.regs b = TRAPFRAME) (hoff : off.toNat < 288)
    (h8 : off.toNat % 8 = 0) : m.walk tr (m.regs b + off) = some (frame + off) := by
  have haligned : (TRAPFRAME + off).toNat % 8 = 0 := by
    have hbase : TRAPFRAME.toNat = 2 ^ 38 - 2 * 4096 := by decide
    rw [BitVec.toNat_add, hbase]
    omega
  unfold Machine.walk
  rw [hb, hsatp, if_pos haligned]
  exact h off hoff h8

/-! ## From user space and back -/

/-- Where the registers of the user are kept. -/
def userRegs : Layout := (.a0, 112) :: trapframe

theorem mem_userRegs (r : Reg) : ∃ off, (r, off) ∈ userRegs := by
  have hmem : r ∈ userRegs.map Prod.fst := by cases r <;> decide
  obtain ⟨p, hp, rfl⟩ := List.mem_map.1 hmem
  exact ⟨p.2, hp⟩

/-- The kernel has been entered from user space. -/
structure Entered (frame : U64) (m m' : Machine) : Prop where
  kept : ∀ r off, (r, off) ∈ userRegs → m'.mem (frame + off) = m.regs r
  other : ∀ a, (∀ p ∈ userRegs, a ≠ frame + p.2) → m'.mem a = m.mem a
  sp : m'.regs .sp = m.mem (frame + 8)
  tp : m'.regs .tp = m.mem (frame + 32)
  satp : m'.csr .satp = m.mem (frame + 0)
  pc : m'.pc = m.mem (frame + 16)

theorem exec_uservec {frame : U64} (h : Framed tr (m.csr .satp) frame) :
    ∃ m', m.exec tr uservec = some m' ∧ Entered frame m m' := by
  let m₁ : Machine := (m.setCsr .sscratch (m.regs .a0)).setReg .a0 TRAPFRAME
  obtain ⟨m₂, hsaves, hsaved⟩ : ∃ m₂, m₁.exec tr (saves .a0 trapframe) = some m₂ ∧
      Saved (frame + ·) trapframe m₁ m₂ := exec_saves (area_trapframe h) rfl rfl
  obtain ⟨regs, csr, mem, pc⟩ := m₂
  obtain ⟨hkept, hother, hregs, hcsr, hpc⟩ := hsaved
  subst hregs hcsr hpc
  -- the user a0 is in t0, and goes to its place
  let m₃ : Machine := (Machine.mk m₁.regs m₁.csr mem m₁.pc).setReg .t0 (m.regs .a0)
  let m₄ := m₃.setMem (frame + 112) (m.regs .a0)
  have hne : ∀ {a b : U64}, a ≠ b → frame + a ≠ frame + b := fun hab heq =>
    hab (by simpa using heq)
  have hold : ∀ off : U64, (∀ p ∈ userRegs, off ≠ p.2) → m₄.mem (frame + off) = m.mem (frame + off) :=
    fun off hoff => (Function.update_of_ne (hne (hoff _ List.mem_cons_self)) ..).trans
      (hother _ fun p hp => hne (hoff p (.tail _ hp)))
  let m₅ := m₄.setReg .sp (m₄.mem (frame + 8))
  let m₆ := m₅.setReg .tp (m₄.mem (frame + 32))
  let m₇ := m₆.setReg .t0 (m₄.mem (frame + 16))
  let m₈ := m₇.setReg .t1 (m₄.mem (frame + 0))
  refine ⟨{ m₈.setCsr .satp (m₄.mem (frame + 0)) with pc := m₄.mem (frame + 16) }, ?_, ?_⟩
  · have hwalk : ∀ {n : Machine} {off : U64}, n.csr .satp = m.csr .satp →
        n.regs .a0 = TRAPFRAME → off.toNat < 288 → off.toNat % 8 = 0 →
        n.walk tr (n.regs .a0 + off) = some (frame + off) := fun hs ha => h.walk hs ha
    unfold uservec
    rw [List.append_assoc]
    have h₄ : m₃.step tr (.sd .t0 112 .a0) = some m₄ :=
      step_sd (hwalk rfl rfl (by decide) (by decide))
    have h₅ : m₄.step tr (.ld .sp 8 .a0) = some m₅ :=
      step_ld (hwalk rfl rfl (by decide) (by decide))
    have h₆ : m₅.step tr (.ld .tp 32 .a0) = some m₆ :=
      step_ld (hwalk rfl rfl (by decide) (by decide))
    have h₇ : m₆.step tr (.ld .t0 16 .a0) = some m₇ :=
      step_ld (hwalk rfl rfl (by decide) (by decide))
    have h₈ : m₇.step tr (.ld .t1 0 .a0) = some m₈ :=
      step_ld (hwalk rfl rfl (by decide) (by decide))
    have h₁ : m.step tr (.csrw .sscratch .a0) = some (m.setCsr .sscratch (m.regs .a0)) := rfl
    have h₂ : (m.setCsr .sscratch (m.regs .a0)).step tr (.li .a0 TRAPFRAME) = some m₁ := rfl
    have h₃ : (Machine.mk m₁.regs m₁.csr mem m₁.pc).step tr (.csrr .t0 .sscratch) = some m₃ := rfl
    rw [List.cons_append, List.cons_append, List.nil_append, exec_of_step h₁, exec_of_step h₂,
      exec_of_exec hsaves, exec_of_step h₃, exec_of_step h₄, exec_of_step h₅, exec_of_step h₆,
      exec_of_step h₇, exec_of_step h₈]
    rfl
  · refine ⟨fun r off hp => ?_, fun a ha => ?_, ?_, ?_, ?_, ?_⟩
    · rcases List.mem_cons.1 hp with heq | hp
      · obtain ⟨rfl, rfl⟩ := Prod.mk.inj heq
        exact Function.update_self ..
      · have hnot : ∀ p ∈ trapframe, p.2 ≠ 112 ∧ p.1 ≠ .a0 := by decide
        refine (Function.update_of_ne (hne (hnot _ hp).1) ..).trans ((hkept r off hp).trans ?_)
        exact Function.update_of_ne (hnot _ hp).2 ..
    · exact (Function.update_of_ne (ha _ List.mem_cons_self) ..).trans
        (hother a fun p hp => ha p (.tail _ hp))
    · exact hold 8 (by decide)
    · exact hold 32 (by decide)
    · exact hold 0 (by decide)
    · exact hold 16 (by decide)

/-- The user's registers are what the trapframe has. -/
structure Returned (frame : U64) (m m' : Machine) : Prop where
  regs : ∀ r off, (r, off) ∈ userRegs → m'.regs r = m.mem (frame + off)
  mem : m'.mem = m.mem
  satp : m'.csr .satp = m.regs .a0
  pc : m'.pc = m.csr .sepc

theorem exec_userret {frame : U64} (h : Framed tr (m.regs .a0) frame) :
    ∃ m', m.exec tr userret = some m' ∧ Returned frame m m' := by
  let m₁ : Machine := (m.setCsr .satp (m.regs .a0)).setReg .a0 TRAPFRAME
  obtain ⟨m₂, hloads, hres⟩ : ∃ m₂, m₁.exec tr (loads .a0 trapframe) = some m₂ ∧
      Restored (frame + ·) trapframe m₁ m₂ :=
    exec_loads (area_trapframe h) rfl rfl (by decide)
  obtain ⟨regs, csr, mem, pc⟩ := m₂
  obtain ⟨hback, hother, hmem, hcsr, hpc⟩ := hres
  subst hmem hcsr hpc
  let m₃ : Machine := ⟨regs, m₁.csr, m₁.mem, m₁.pc⟩
  have ha0 : m₃.regs .a0 = TRAPFRAME := hother .a0 (by decide)
  have hload : m₃.step tr (.ld .a0 112 .a0) = some (m₃.setReg .a0 (m.mem (frame + 112))) :=
    step_ld (h.walk rfl ha0 (by decide) (by decide))
  refine ⟨{ m₃.setReg .a0 (m.mem (frame + 112)) with pc := m.csr .sepc }, ?_, ?_, rfl, rfl, rfl⟩
  · have h₁ : (m.setCsr .satp (m.regs .a0)).step tr (.li .a0 TRAPFRAME) = some m₁ := rfl
    unfold userret
    rw [List.append_assoc, List.cons_append, List.cons_append, List.cons_append, List.cons_append,
      List.nil_append, exec_of_step rfl, exec_of_step rfl, exec_of_step rfl, exec_of_step h₁,
      exec_of_exec hloads, exec_of_step hload]
    rfl
  · intro r off hp
    rcases List.mem_cons.1 hp with heq | hp
    · obtain ⟨rfl, rfl⟩ := Prod.mk.inj heq
      rfl
    · have hnot : ∀ p ∈ trapframe, p.1 ≠ .a0 := by decide
      exact (Function.update_of_ne (hnot _ hp) ..).trans (hback r off hp)

/-- A trap from user space changes no register of the user but `a0`, in which
a system call returns, as long as the kernel leaves the trapframe alone. -/
theorem trap_keeps_registers (tr : Mapping) (frame : U64) (m : Machine)
    (hframe : Framed tr (m.csr .satp) frame) :
    ∃ m', m.exec tr uservec = some m' ∧
      m'.regs .sp = m.mem (frame + 8) ∧ m'.regs .tp = m.mem (frame + 32) ∧
      m'.csr .satp = m.mem (frame + 0) ∧ m'.pc = m.mem (frame + 16) ∧
      ∀ n : Machine, Framed tr (n.regs .a0) frame →
        (∀ p ∈ trapframe, n.mem (frame + p.2) = m'.mem (frame + p.2)) →
        ∃ n', n.exec tr userret = some n' ∧ (∀ r, r ≠ .a0 → n'.regs r = m.regs r) ∧
          n'.regs .a0 = n.mem (frame + 112) ∧ n'.mem = n.mem ∧ n'.csr .satp = n.regs .a0 ∧
          n'.pc = n.csr .sepc := by
  obtain ⟨m', hrun, hin⟩ := exec_uservec hframe
  refine ⟨m', hrun, hin.sp, hin.tp, hin.satp, hin.pc, fun n hn hsame => ?_⟩
  obtain ⟨n', hret, hout⟩ := exec_userret hn
  refine ⟨n', hret, fun r hr => ?_, hout.regs _ _ List.mem_cons_self, hout.mem, hout.satp, hout.pc⟩
  obtain ⟨off, hoff⟩ := mem_userRegs r
  have htf : (r, off) ∈ trapframe :=
    (List.mem_cons.1 hoff).resolve_left fun heq => hr (congrArg Prod.fst heq)
  rw [hout.regs r off hoff, hsame _ htf]
  exact hin.kept r off hoff

/-- A trapframe is at 32768. -/
def oneFrame : Mapping := fun _ va => some (va - TRAPFRAME + 32768)

/-- A user program whose stack is at 5. -/
def userMachine : Machine where
  regs r := if r = .sp then 5 else 1
  csr _ := 0
  mem _ := 0
  pc := 0

theorem trap_keeps_registers_user : ∃ m' n', userMachine.exec oneFrame uservec = some m' ∧
    (m'.setReg .a0 0).exec oneFrame userret = some n' ∧ n'.regs .sp = 5 ∧ n'.regs .t6 = 1 := by
  have hframe : ∀ satp, Framed oneFrame satp 32768 := fun _ off _ _ => congrArg some (by bv_omega)
  obtain ⟨m', hin, -, -, -, -, hback⟩ :=
    trap_keeps_registers oneFrame 32768 userMachine (hframe _)
  obtain ⟨n', hout, hregs, -⟩ := hback (m'.setReg .a0 0) (hframe _) fun _ _ => rfl
  exact ⟨m', n', hin, hout, hregs .sp (by decide), hregs .t6 (by decide)⟩

/-! ## In the kernel -/

/-- All registers on the kernel stack. -/
def stack : Layout := [(.ra, 0), (.sp, 8), (.gp, 16), (.tp, 24)] ++ frame

/-- The 256 bytes from `base` are on a stack that is mapped. -/
structure Stacked (tr : Mapping) (satp base : U64) (place : U64 → U64) : Prop where
  aligned : base.toNat % 8 = 0
  mapped : ∀ off : U64, off.toNat < 256 → off.toNat % 8 = 0 → tr satp (base + off) = some (place off)
  apart : ∀ off off' : U64, off.toNat < 256 → off'.toNat < 256 → place off = place off' → off = off'

theorem stack_offsets : ∀ p ∈ stack, p.2.toNat < 256 ∧ p.2.toNat % 8 = 0 := by decide

theorem Stacked.area (h : Stacked tr satp base place) : Area tr satp base place stack where
  aligned p hp := by
    have hb := h.aligned
    have hoff := (stack_offsets p hp).2
    rw [BitVec.toNat_add]
    omega
  mapped p hp := h.mapped p.2 (stack_offsets p hp).1 (stack_offsets p hp).2
  apart := by
    have hmap : (stack.map fun p => place p.2) = (stack.map Prod.snd).map place := by
      rw [List.map_map]
      rfl
    rw [hmap]
    refine List.Nodup.map_on ?_ (by decide)
    intro a ha b hb hab
    obtain ⟨p, hp, rfl⟩ := List.mem_map.1 ha
    obtain ⟨q, hq, rfl⟩ := List.mem_map.1 hb
    exact h.apart _ _ (stack_offsets p hp).1 (stack_offsets q hq).1 hab
  once := by decide

/-- A part of the stack. -/
theorem Stacked.area_frame (h : Stacked tr satp base place) : Area tr satp base place frame where
  aligned p hp := h.area.aligned p (List.mem_append_right _ hp)
  mapped p hp := h.area.mapped p (List.mem_append_right _ hp)
  apart := h.area.tail.tail.tail.tail.apart
  once := h.area.tail.tail.tail.tail.once

/-- A trap in the kernel changes no register but `tp`, which has the hartid,
whatever `kerneltrap` does, as long as it gives the stack back and leaves what
is on it alone. -/
theorem kernelvec_keeps_registers (tr : Mapping) (place : U64 → U64) (m : Machine)
    (hstack : Stacked tr (m.csr .satp) (m.regs .sp + -256) place) :
    ∃ m', m.exec tr kernelvecSave = some m' ∧ m'.regs .sp = m.regs .sp + -256 ∧ m'.csr = m.csr ∧
      (∀ a, (∀ p ∈ stack, a ≠ place p.2) → m'.mem a = m.mem a) ∧
      ∀ n : Machine, n.regs .sp = m'.regs .sp → n.csr .satp = m.csr .satp →
        (∀ p ∈ stack, n.mem (place p.2) = m'.mem (place p.2)) →
        ∃ n', n.exec tr kernelvecRestore = some n' ∧ (∀ r, r ≠ .tp → n'.regs r = m.regs r) ∧
          n'.regs .tp = n.regs .tp ∧ n'.mem = n.mem ∧ n'.pc = n.csr .sepc := by
  let m₁ := m.setReg .sp (m.regs .sp + -256)
  obtain ⟨m', hsaves, hsaved⟩ : ∃ m', m₁.exec tr (saves .sp stack) = some m' ∧
      Saved place stack m₁ m' := exec_saves hstack.area rfl rfl
  have hsp : m'.regs .sp = m.regs .sp + -256 := congrFun hsaved.regs .sp
  have hadd : m.step tr (.addi .sp .sp (-256)) = some m₁ := rfl
  refine ⟨m', (exec_of_step hadd).trans hsaves, hsp, hsaved.csr, hsaved.other,
    fun n hnsp hnsatp hsame => ?_⟩
  have hkept : ∀ p ∈ stack, n.mem (place p.2) = m₁.regs p.1 := fun p hp =>
    (hsame p hp).trans (hsaved.kept p.1 p.2 hp)
  have hbase : n.regs .sp = m.regs .sp + -256 := hnsp.trans hsp
  have hwalk : ∀ {k : Machine} (p : Reg × U64), p ∈ stack → k.csr .satp = m.csr .satp →
      k.regs .sp = m.regs .sp + -256 → k.walk tr (k.regs .sp + p.2) = some (place p.2) :=
    fun p hp hs hb => hstack.area.walk hp hs hb
  -- the stack pointer that comes back is the one that is there
  let n₁ := n.setReg .ra (n.mem (place 0))
  let n₂ := n₁.setReg .sp (n.mem (place 8))
  let n₃ := n₂.setReg .gp (n.mem (place 16))
  have hsp₂ : n₂.regs .sp = m.regs .sp + -256 := hkept (.sp, 8) (by decide)
  have h₁ : n.step tr (.ld .ra 0 .sp) = some n₁ := step_ld (hwalk (.ra, 0) (by decide) hnsatp hbase)
  have h₂ : n₁.step tr (.ld .sp 8 .sp) = some n₂ := step_ld (hwalk (.sp, 8) (by decide) hnsatp hbase)
  have h₃ : n₂.step tr (.ld .gp 16 .sp) = some n₃ := step_ld (hwalk (.gp, 16) (by decide) hnsatp hsp₂)
  obtain ⟨n₄, hloads, hres⟩ : ∃ n₄, n₃.exec tr (loads .sp frame) = some n₄ ∧
      Restored place frame n₃ n₄ := exec_loads hstack.area_frame hnsatp hsp₂ (by decide)
  have h₅ : n₄.step tr (.addi .sp .sp 256) = some (n₄.setReg .sp (n₄.regs .sp + 256)) := rfl
  refine ⟨{ n₄.setReg .sp (n₄.regs .sp + 256) with pc := n₄.csr .sepc }, ?_, fun r hr => ?_, ?_,
    hres.mem, ?_⟩
  · unfold kernelvecRestore
    rw [List.append_assoc, List.cons_append, List.cons_append, List.cons_append, List.nil_append,
      exec_of_step h₁, exec_of_step h₂, exec_of_step h₃, exec_of_exec hloads, exec_of_step h₅]
    rfl
  · have hall : r ∈ stack.map Prod.fst := by cases r <;> decide
    obtain ⟨⟨r, off⟩, hp, rfl⟩ := List.mem_map.1 hall
    have hvalue := hkept _ hp
    by_cases hrsp : r = .sp
    · subst hrsp
      have hsp₄ : n₄.regs .sp = m.regs .sp + -256 := (hres.other .sp (by decide)).trans hsp₂
      show n₄.regs .sp + 256 = m.regs .sp
      rw [hsp₄]
      bv_omega
    · have hback : n₄.regs r = m₁.regs r := by
        rcases List.mem_append.1 hp with hfirst | hframe
        · have hother := hres.other r
          simp only [List.mem_cons, Prod.mk.injEq, List.not_mem_nil, or_false] at hfirst
          rcases hfirst with ⟨rfl, rfl⟩ | ⟨rfl, -⟩ | ⟨rfl, rfl⟩ | ⟨rfl, -⟩
          · exact (hother (by decide)).trans hvalue
          · exact absurd rfl hrsp
          · exact (hother (by decide)).trans hvalue
          · exact absurd rfl hr
        · exact (hres.back r off hframe).trans hvalue
      calc update n₄.regs .sp (n₄.regs .sp + 256) r
        _ = n₄.regs r := Function.update_of_ne hrsp ..
        _ = m₁.regs r := hback
        _ = m.regs r := Function.update_of_ne hrsp ..
  · exact hres.other .tp (by decide)
  · exact congrFun hres.csr .sepc

/-- The same registers in the kernel. -/
def kernelMachine : Machine := userMachine.setReg .sp 8192

theorem kernelvec_keeps_registers_stack : ∃ m' n',
    kernelMachine.exec (fun _ va => some va) kernelvecSave = some m' ∧
      m'.exec (fun _ va => some va) kernelvecRestore = some n' ∧ n'.regs .sp = 8192 := by
  obtain ⟨m', hin, -, hcsr, -, hback⟩ := kernelvec_keeps_registers (fun _ va => some va) (7936 + ·)
    kernelMachine ⟨by decide, fun _ _ _ => rfl, fun _ _ _ _ heq => by simpa using heq⟩
  obtain ⟨n', hout, hregs, -⟩ := hback m' rfl (congrFun hcsr .satp) fun _ _ => rfl
  exact ⟨m', n', hin, hout, hregs .sp (by decide)⟩

/-! ## In machine mode -/

/-- No page table. -/
def bare : Mapping := fun _ va => some va

/-- The area that `mscratch` points to: three places to save registers, the
address of `MTIMECMP`, which is somewhere else, and the interval. -/
structure Scratch (m : Machine) (scratch mtimecmp : U64) : Prop where
  here : m.csr .mscratch = scratch
  aligned : scratch.toNat % 8 = 0
  timer : m.mem (scratch + 24) = mtimecmp
  word : mtimecmp.toNat % 8 = 0
  apart : ∀ off : U64, off.toNat < 40 → mtimecmp ≠ scratch + off

theorem walk_bare {va : U64} (h : va.toNat % 8 = 0) : m.walk bare va = some va := if_pos h

theorem Scratch.word_aligned {scratch mtimecmp : U64} (h : Scratch m scratch mtimecmp)
    {off : U64} (hoff : off.toNat % 8 = 0) : (scratch + off).toNat % 8 = 0 := by
  have hs := h.aligned
  rw [BitVec.toNat_add]
  omega

theorem Scratch.area {scratch mtimecmp : U64} (h : Scratch m scratch mtimecmp) :
    Area bare satp scratch (scratch + ·) scratchRegs where
  aligned p hp := by
    have hoff : ∀ p ∈ scratchRegs, p.2.toNat % 8 = 0 := by decide
    exact h.word_aligned (hoff p hp)
  mapped _ _ := rfl
  apart := by
    have hmap : (scratchRegs.map fun p => scratch + p.2) =
        (scratchRegs.map Prod.snd).map (scratch + ·) := rfl
    rw [hmap]
    exact (List.nodup_map_iff fun a b hab => by simpa using hab).2 (by decide)
  once := by decide

/-- The timer interrupt changes no register, sets the timer for the next one
and asks for a software interrupt. -/
theorem timervec_keeps_registers (m : Machine) (scratch mtimecmp : U64)
    (h : Scratch m scratch mtimecmp) :
    ∃ m', m.exec bare timervec = some m' ∧ m'.regs = m.regs ∧ m'.csr .mscratch = scratch ∧
      m'.csr .sip = 2 ∧ m'.pc = m.csr .mepc ∧
      m'.mem mtimecmp = m.mem mtimecmp + m.mem (scratch + 32) ∧
      ∀ a, a ≠ mtimecmp → (∀ p ∈ scratchRegs, a ≠ scratch + p.2) → m'.mem a = m.mem a := by
  have hne : ∀ {a b : U64}, a ≠ b → scratch + a ≠ scratch + b := fun hab heq =>
    hab (by simpa using heq)
  let m₁ : Machine := (m.setCsr .mscratch (m.regs .a0)).setReg .a0 (m.csr .mscratch)
  obtain ⟨m₂, hsaves, hsaved⟩ : ∃ m₂, m₁.exec bare (saves .a0 scratchRegs) = some m₂ ∧
      Saved (scratch + ·) scratchRegs m₁ m₂ := exec_saves h.area rfl h.here
  obtain ⟨regs, csr, mem, pc⟩ := m₂
  obtain ⟨hkept, hother, hregs, hcsr, hpc⟩ := hsaved
  subst hregs hcsr hpc
  have hmem : ∀ off : U64, 16 < off.toNat → mem (scratch + off) = m.mem (scratch + off) := by
    intro off hoff
    refine hother _ fun p hp => hne fun heq => ?_
    have hle : ∀ p ∈ scratchRegs, p.2.toNat ≤ 16 := by decide
    exact absurd (heq ▸ hle p hp) (Nat.not_le.2 hoff)
  have htimer : mem mtimecmp = m.mem mtimecmp := by
    refine hother _ fun p hp => h.apart p.2 ?_
    have hlt : ∀ p ∈ scratchRegs, p.2.toNat < 40 := by decide
    exact hlt p hp
  obtain rfl := h.here
  have hstay : ∀ off v : U64, off.toNat < 40 →
      update mem mtimecmp v (m.csr .mscratch + off) = mem (m.csr .mscratch + off) :=
    fun off v hoff => Function.update_of_ne (h.apart off hoff).symm ..
  let m₂ : Machine := ⟨m₁.regs, m₁.csr, mem, m₁.pc⟩
  let m₃ := m₂.setReg .a1 (mem (m.csr .mscratch + 24))
  let m₄ := m₃.setReg .a2 (mem (m.csr .mscratch + 32))
  have ha1 : m₄.regs .a1 + 0 = mtimecmp := by
    show mem (m.csr .mscratch + 24) + 0 = mtimecmp
    rw [hmem 24 (by decide), h.timer]
    exact BitVec.add_zero mtimecmp
  let m₅ := m₄.setReg .a3 (mem mtimecmp)
  let m₆ := m₅.setReg .a3 (mem mtimecmp + mem (m.csr .mscratch + 32))
  let m₇ := m₆.setMem mtimecmp (mem mtimecmp + mem (m.csr .mscratch + 32))
  let m₈ := (m₇.setReg .a1 2).setCsr .sip 2
  let m₉ := m₈.setReg .a3 (m₇.mem (m.csr .mscratch + 16))
  let m₁₀ := m₉.setReg .a2 (m₇.mem (m.csr .mscratch + 8))
  let m₁₁ := m₁₀.setReg .a1 (m₇.mem (m.csr .mscratch + 0))
  let m₁₂ := (m₁₁.setCsr .mscratch (m.csr .mscratch)).setReg .a0 (m.regs .a0)
  have hwalk : ∀ {n : Machine} (off : U64), n.regs .a0 = m.csr .mscratch → off.toNat % 8 = 0 →
      n.walk bare (n.regs .a0 + off) = some (m.csr .mscratch + off) := fun off ha hoff =>
    (walk_bare (ha ▸ h.word_aligned hoff)).trans (congrArg (fun a => some (a + off)) ha)
  have hword : ∀ {n : Machine}, n.regs .a1 = m₄.regs .a1 →
      n.walk bare (n.regs .a1 + 0) = some mtimecmp := by
    intro n hn
    rw [hn, ha1]
    exact walk_bare h.word
  have h₃ : m₂.step bare (.ld .a1 24 .a0) = some m₃ := step_ld (hwalk 24 rfl (by decide))
  have h₄ : m₃.step bare (.ld .a2 32 .a0) = some m₄ := step_ld (hwalk 32 rfl (by decide))
  have h₅ : m₄.step bare (.ld .a3 0 .a1) = some m₅ := step_ld (hword rfl)
  have h₆ : m₅.step bare (.add .a3 .a3 .a2) = some m₆ := rfl
  have h₇ : m₆.step bare (.sd .a3 0 .a1) = some m₇ := step_sd (hword rfl)
  have h₈ : m₇.step bare (.li .a1 2) = some (m₇.setReg .a1 2) := rfl
  have h₈' : (m₇.setReg .a1 2).step bare (.csrw .sip .a1) = some m₈ := rfl
  have h₉ : m₈.step bare (.ld .a3 16 .a0) = some m₉ := step_ld (hwalk 16 rfl (by decide))
  have h₁₀ : m₉.step bare (.ld .a2 8 .a0) = some m₁₀ := step_ld (hwalk 8 rfl (by decide))
  have h₁₁ : m₁₀.step bare (.ld .a1 0 .a0) = some m₁₁ := step_ld (hwalk 0 rfl (by decide))
  have h₁₂ : m₁₁.step bare (.csrrw .a0 .mscratch .a0) = some m₁₂ := rfl
  have hsame : ∀ p ∈ scratchRegs, m₇.mem (m.csr .mscratch + p.2) = m₁.regs p.1 := fun p hp =>
    (hstay p.2 _ (by
      have hlt : ∀ p ∈ scratchRegs, p.2.toNat < 40 := by decide
      exact hlt p hp)).trans (hkept p.1 p.2 hp)
  refine ⟨{ m₁₂ with pc := m.csr .mepc }, ?_, funext fun r => ?_, rfl, rfl, rfl, ?_,
    fun a ha hregs => (Function.update_of_ne ha ..).trans (hother a hregs)⟩
  · have h₁ : m.step bare (.csrrw .a0 .mscratch .a0) = some m₁ := rfl
    unfold timervec
    rw [List.append_assoc, List.cons_append, List.nil_append, exec_of_step h₁,
      exec_of_exec hsaves, exec_of_step h₃, exec_of_step h₄, exec_of_step h₅, exec_of_step h₆,
      exec_of_step h₇, exec_of_step h₈, exec_of_step h₈', exec_of_step h₉, exec_of_step h₁₀,
      exec_of_step h₁₁, exec_of_step h₁₂]
    rfl
  · cases r with
    | a1 => exact hsame (.a1, 0) (by decide)
    | a2 => exact hsame (.a2, 8) (by decide)
    | a3 => exact hsame (.a3, 16) (by decide)
    | _ => rfl
  · show update mem mtimecmp _ mtimecmp = _
    rw [Function.update_self, htimer, hmem 32 (by decide)]

/-- The timer is at 4096, and its interval is 100. -/
def timerMachine : Machine where
  regs _ := 9
  csr c := if c = .mscratch then 512 else 0
  mem a := if a = 536 then 4096 else if a = 544 then 100 else 0
  pc := 0

theorem timervec_keeps_registers_hundred : ∃ m', timerMachine.exec bare timervec = some m' ∧
    m'.regs = timerMachine.regs ∧ m'.mem 4096 = 100 := by
  have hscratch : Scratch timerMachine 512 4096 :=
    ⟨rfl, by decide, by decide, by decide, fun off hoff => by bv_omega⟩
  obtain ⟨m', hrun, hregs, -, -, -, htime, -⟩ :=
    timervec_keeps_registers timerMachine 512 4096 hscratch
  exact ⟨m', hrun, hregs, htime⟩

end Xv6.Asm
