import Xv6.Riscv.Machine

/-!
# The assembly of the kernel

`trampoline.S`, `kernelvec.S` and `swtch.S`.  A run of stores or loads from one
base is a layout, in the order of the source.
-/

namespace Xv6.Asm

open Riscv

abbrev U64 := BitVec 64

def PGSIZE : U64 := 4096
def MAXVA : U64 := 1 <<< 38
def TRAMPOLINE : U64 := MAXVA - PGSIZE
def TRAPFRAME : U64 := TRAMPOLINE - PGSIZE

/-! ## trampoline.S -/

/-- The user registers in `struct trapframe`, but for `a0`. -/
def trapframe : Layout :=
  [(.ra, 40), (.sp, 48), (.gp, 56), (.tp, 64), (.t0, 72), (.t1, 80), (.t2, 88), (.s0, 96),
    (.s1, 104), (.a1, 120), (.a2, 128), (.a3, 136), (.a4, 144), (.a5, 152), (.a6, 160),
    (.a7, 168), (.s2, 176), (.s3, 184), (.s4, 192), (.s5, 200), (.s6, 208), (.s7, 216),
    (.s8, 224), (.s9, 232), (.s10, 240), (.s11, 248), (.t3, 256), (.t4, 264), (.t5, 272),
    (.t6, 280)]

def uservec : List Instr :=
  -- save user a0 in sscratch so a0 can be used to get at TRAPFRAME.
  [.csrw .sscratch .a0, .li .a0 TRAPFRAME] ++
  -- save the user registers in TRAPFRAME
  saves .a0 trapframe ++
  -- save the user a0 in p->trapframe->a0
  [.csrr .t0 .sscratch, .sd .t0 112 .a0,
  -- initialize kernel stack pointer, hartid, usertrap() and page table
  .ld .sp 8 .a0, .ld .tp 32 .a0, .ld .t0 16 .a0, .ld .t1 0 .a0,
  .sfence, .csrw .satp .t1, .sfence,
  -- jump to usertrap(), which does not return
  .jr .t0]

def userret : List Instr :=
  -- switch to the user page table.
  [.sfence, .csrw .satp .a0, .sfence, .li .a0 TRAPFRAME] ++
  -- restore all but a0 from TRAPFRAME
  loads .a0 trapframe ++
  -- restore user a0
  [.ld .a0 112 .a0, .sret]

/-! ## kernelvec.S -/

/-- The registers behind `sp` on the kernel stack, but for `tp`. -/
def frame : Layout :=
  [(.t0, 32), (.t1, 40), (.t2, 48), (.s0, 56), (.s1, 64), (.a0, 72), (.a1, 80), (.a2, 88),
    (.a3, 96), (.a4, 104), (.a5, 112), (.a6, 120), (.a7, 128), (.s2, 136), (.s3, 144),
    (.s4, 152), (.s5, 160), (.s6, 168), (.s7, 176), (.s8, 184), (.s9, 192), (.s10, 200),
    (.s11, 208), (.t3, 216), (.t4, 224), (.t5, 232), (.t6, 240)]

/-- `kernelvec` up to the call of `kerneltrap`. -/
def kernelvecSave : List Instr :=
  .addi .sp .sp (-256) :: saves .sp ([(.ra, 0), (.sp, 8), (.gp, 16), (.tp, 24)] ++ frame)

/-- `kernelvec` when `kerneltrap` has returned. -/
def kernelvecRestore : List Instr :=
  -- not tp (contains hartid), in case we moved CPUs
  [.ld .ra 0 .sp, .ld .sp 8 .sp, .ld .gp 16 .sp] ++ loads .sp frame ++
    [.addi .sp .sp 256, .sret]

/-- The registers behind `mscratch`. -/
def scratchRegs : Layout := [(.a1, 0), (.a2, 8), (.a3, 16)]

def timervec : List Instr :=
  [.csrrw .a0 .mscratch .a0] ++ saves .a0 scratchRegs ++
  -- schedule the next timer interrupt by adding interval to mtimecmp.
  [.ld .a1 24 .a0, .ld .a2 32 .a0, .ld .a3 0 .a1, .add .a3 .a3 .a2, .sd .a3 0 .a1,
  -- arrange for a supervisor software interrupt after this handler returns.
  .li .a1 2, .csrw .sip .a1,
  .ld .a3 16 .a0, .ld .a2 8 .a0, .ld .a1 0 .a0, .csrrw .a0 .mscratch .a0, .mret]

/-! ## swtch.S -/

/-- `struct context` -/
def context : Layout :=
  [(.ra, 0), (.sp, 8), (.s0, 16), (.s1, 24), (.s2, 32), (.s3, 40), (.s4, 48), (.s5, 56),
    (.s6, 64), (.s7, 72), (.s8, 80), (.s9, 88), (.s10, 96), (.s11, 104)]

/-- Save current registers in old. Load from new. -/
def swtch : List Instr := saves .a0 context ++ loads .a1 context ++ [.jr .ra]

end Xv6.Asm
