import Vardar.Interrupts.Syscall
import Vardar.Vmm.Vmm

/-!
# Entering a process

`run_proc` pushes the frame for an `iretq` and then the saved registers, and pops the registers. The
pops are written in the order of the pushes, so the registers come back in the reverse order: the
one that is pushed first is popped last. `RBP` is set by a move and is not affected.

The operands of the assembly have the values they have before it. The stack is a memory of its own.

## Main definitions

* `Vardar.Proc.Registers`, `Vardar.Proc.Pcb`, `Vardar.Proc.Context`.
* `Vardar.Proc.runProc`: `run_proc` up to the `iretq`.
* `Vardar.Proc.Restores`: what it is for.

## Main results

* `Vardar.Proc.runProc_frame`: the frame for the `iretq`.
* `Vardar.Proc.runProc_reg`: the registers.
* `Vardar.Proc.runProc_restores_iff`.
-/

namespace Vardar.Proc

open ByteMemory

/-- `pcb->registers`. -/
structure Registers where
  gpr : Reg → BitVec 64
  rsp : BitVec 64
  rip : BitVec 64

/-- The fields of `pcb_t` that `run_proc` reads. -/
structure Pcb where
  pagemap : ℕ
  registers : Registers

/-- The processor. -/
structure Context where
  cpu : Cpu
  rflags : BitVec 64
  cr3 : ℕ

/-- `USER_DS_SEGSEL`. -/
def userDsSegsel : BitVec 64 := 0x43

/-- `USER_CS_SEGSEL`. -/
def userCsSegsel : BitVec 64 := 0x3B

/-- The operands `%0` to `%13`, in the order in which they are pushed. -/
def pushedOperands : List Reg :=
  [.rax, .rbx, .rcx, .rdx, .rdi, .rsi, .r8, .r9, .r10, .r11, .r12, .r13, .r14, .r15]

/-- The registers in the order in which they are popped. -/
def poppedRegs : List Reg :=
  [.rax, .rbx, .rcx, .rdx, .rdi, .rsi, .r8, .r9, .r10, .r11, .r12, .r13, .r14, .r15]

/-- The words that are pushed before the operands. -/
def framePushes (pcb : Pcb) (rflags : BitVec 64) : List (BitVec 64) :=
  [userDsSegsel, pcb.registers.rsp, rflags, userCsSegsel, pcb.registers.rip]

/-- `run_proc` up to the `iretq`, `KERNEL_PAGE_TABLE_ROOT` given. -/
def runProc (m : Mem) (kernelPageTableRoot : ℕ) (pcb : Pcb) (c : Context) : Context :=
  let stack := c.cpu.stack.pushAll (framePushes pcb c.rflags)
  let stack := stack.pushAll (pushedOperands.map pcb.registers.gpr)
  let cpu := poppedRegs.foldl Cpu.pop { c.cpu with stack := stack }
  { c with
    cpu := cpu.setReg .rbp (pcb.registers.gpr .rbp)
    cr3 := Vmm.kernelVAddrToPAddr m kernelPageTableRoot pcb.pagemap }

/-- The word at a distance from the stack pointer. -/
def Context.word (c : Context) (i : ℕ) : BitVec 64 :=
  c.cpu.stack.mem (c.cpu.stack.sp + BitVec.ofNat 64 (8 * i))

/-- The registers are those of the process, and what has been pushed beyond them is the frame of an
`iretq`. -/
structure Restores (pcb : Pcb) (c c' : Context) : Prop where
  gpr : ∀ r, c'.cpu.regs r = pcb.registers.gpr r
  sp : c'.cpu.stack.sp = c.cpu.stack.sp - 40
  frame : (List.range 5).map c'.word =
    [pcb.registers.rip, userCsSegsel, c.rflags, pcb.registers.rsp, userDsSegsel]

/-! ### The stack -/

variable (m : Mem) (root : ℕ) (pcb : Pcb) (c : Context)

/-- All that is pushed. -/
def pushes : List (BitVec 64) :=
  framePushes pcb c.rflags ++ pushedOperands.map pcb.registers.gpr

theorem runProc_stack :
    (runProc m root pcb c).cpu.stack =
      ⟨(c.cpu.stack.pushAll (pushes pcb c)).sp + BitVec.ofNat 64 (8 * 14),
        (c.cpu.stack.pushAll (pushes pcb c)).mem⟩ := by
  rw [pushes, QuadStack.pushAll_append]
  exact Cpu.foldl_pop_stack _ _

theorem runProc_sp : (runProc m root pcb c).cpu.stack.sp = c.cpu.stack.sp - 40 := by
  have hsp : (c.cpu.stack.pushAll (pushes pcb c)).sp = c.cpu.stack.sp - 152 :=
    QuadStack.pushAll_sp _
  have hsum : (152 : BitVec 64) = 40 + BitVec.ofNat 64 (8 * 14) := rfl
  rw [runProc_stack, hsp, hsum, ← sub_sub, sub_add_cancel]

/-- The words of the frame are those pushed first, in the reverse order. -/
theorem runProc_word {i : ℕ} {v : BitVec 64}
    (hv : (framePushes pcb c.rflags).reverse[i]? = some v) :
    (runProc m root pcb c).word i = v := by
  have hall : (pushes pcb c).reverse[14 + i]? = some v := by
    rw [pushes, List.reverse_append, List.getElem?_append_right (Nat.le_add_right 14 i)]
    exact (congrArg _ (Nat.add_sub_cancel_left 14 i)).trans hv
  have hlen : (pushes pcb c).length < 2 ^ 61 := by
    rw [show (pushes pcb c).length = 19 from rfl]
    decide
  have hmem := QuadStack.pushAll_mem_sp_add (s := c.cpu.stack) hlen hall
  rw [Nat.mul_add, BitVec.ofNat_add, ← add_assoc] at hmem
  rw [Context.word, runProc_stack, hmem]

/-- The frame for the `iretq`. -/
theorem runProc_frame : (List.range 5).map (runProc m root pcb c).word =
    [pcb.registers.rip, userCsSegsel, c.rflags, pcb.registers.rsp, userDsSegsel] := by
  have hword {i : ℕ} {v : BitVec 64} := runProc_word m root pcb c (i := i) (v := v)
  change [_, _, _, _, _] = _
  rw [hword (i := 0) rfl, hword (i := 1) rfl, hword (i := 2) rfl, hword (i := 3) rfl,
    hword (i := 4) rfl]

/-! ### The registers -/

/-- A register gets the operand that is at its place in the reverse order. -/
theorem runProc_reg {i : ℕ} {r r' : Reg} (hr : poppedRegs[i]? = some r)
    (hr' : pushedOperands.reverse[i]? = some r') :
    (runProc m root pcb c).cpu.regs r = pcb.registers.gpr r' := by
  have hne : r ≠ .rbp := by
    rintro rfl
    exact absurd (List.mem_of_getElem? hr) (by decide)
  have hv : (pushedOperands.map pcb.registers.gpr).reverse[i]? =
      some (pcb.registers.gpr r') := by
    rw [← List.map_reverse, List.getElem?_map, hr', Option.map_some]
  refine (Function.update_of_ne hne _ _).trans ?_
  rw [Cpu.foldl_pop_regs (by decide) hr]
  exact QuadStack.pushAll_mem_sp_add (by rw [List.length_map]; decide) hv

theorem runProc_rbp : (runProc m root pcb c).cpu.regs .rbp = pcb.registers.gpr .rbp := by
  simp only [runProc, Cpu.setReg, Function.update_self]

/-- **When `run_proc` restores the registers.** The registers are those of the process at the
`iretq`, and the frame is as it should be, if and only if the saved registers that are exchanged
have the same values. -/
theorem runProc_restores_iff :
    Restores pcb c (runProc m root pcb c) ↔
      let gpr := pcb.registers.gpr
      gpr .rax = gpr .r15 ∧ gpr .rbx = gpr .r14 ∧ gpr .rcx = gpr .r13 ∧ gpr .rdx = gpr .r12 ∧
        gpr .rdi = gpr .r11 ∧ gpr .rsi = gpr .r10 ∧ gpr .r8 = gpr .r9 := by
  have hreg {i : ℕ} {r r' : Reg} (hr : poppedRegs[i]? = some r)
      (hr' : pushedOperands.reverse[i]? = some r') := runProc_reg m root pcb c hr hr'
  constructor
  · rintro ⟨hgpr, -, -⟩
    have hswap {i : ℕ} {r r' : Reg} (hr : poppedRegs[i]? = some r)
        (hr' : pushedOperands.reverse[i]? = some r') :
        pcb.registers.gpr r = pcb.registers.gpr r' := (hgpr r).symm.trans (hreg hr hr')
    exact ⟨hswap (i := 0) rfl rfl, hswap (i := 1) rfl rfl, hswap (i := 2) rfl rfl,
      hswap (i := 3) rfl rfl, hswap (i := 4) rfl rfl, hswap (i := 5) rfl rfl,
      hswap (i := 6) rfl rfl⟩
  · rintro ⟨hrax, hrbx, hrcx, hrdx, hrdi, hrsi, hr8⟩
    refine ⟨fun r => ?_, runProc_sp m root pcb c, runProc_frame m root pcb c⟩
    cases r with
    | rax => exact (hreg (i := 0) rfl rfl).trans hrax.symm
    | rbx => exact (hreg (i := 1) rfl rfl).trans hrbx.symm
    | rcx => exact (hreg (i := 2) rfl rfl).trans hrcx.symm
    | rdx => exact (hreg (i := 3) rfl rfl).trans hrdx.symm
    | rdi => exact (hreg (i := 4) rfl rfl).trans hrdi.symm
    | rsi => exact (hreg (i := 5) rfl rfl).trans hrsi.symm
    | r8 => exact (hreg (i := 6) rfl rfl).trans hr8.symm
    | r9 => exact (hreg (i := 7) rfl rfl).trans hr8
    | r10 => exact (hreg (i := 8) rfl rfl).trans hrsi
    | r11 => exact (hreg (i := 9) rfl rfl).trans hrdi
    | r12 => exact (hreg (i := 10) rfl rfl).trans hrdx
    | r13 => exact (hreg (i := 11) rfl rfl).trans hrcx
    | r14 => exact (hreg (i := 12) rfl rfl).trans hrbx
    | r15 => exact (hreg (i := 13) rfl rfl).trans hrax
    | rbp => exact runProc_rbp m root pcb c

/-- A process with 1 in `RAX` and 0 in the other registers starts with 1 in `R15`. -/
theorem runProc_exchanges :
    let pcb : Pcb := ⟨0x1000, fun r => if r = .rax then 1 else 0, 0x8000, 0x400000⟩
    let c : Context := ⟨⟨fun _ => 0, fun _ => 0x30, ⟨0x9000, fun _ => 0⟩⟩, 0x202, 0⟩
    (runProc (fun _ => 0) 0 pcb c).cpu.regs .r15 = 1 ∧
      (runProc (fun _ => 0) 0 pcb c).cpu.regs .rax = 0 ∧
      ¬ Restores pcb c (runProc (fun _ => 0) 0 pcb c) := by
  intro pcb c
  have hrax : (runProc (fun _ => 0) 0 pcb c).cpu.regs .rax = 0 :=
    runProc_reg (fun _ => 0) 0 pcb c (i := 0) rfl rfl
  refine ⟨runProc_reg (fun _ => 0) 0 pcb c (i := 13) rfl rfl, hrax, fun h => ?_⟩
  have hne := hrax.symm.trans (h.gpr .rax)
  exact absurd hne (by decide)

end Vardar.Proc
