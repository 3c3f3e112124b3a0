import Vardar.Lib.QuadStack

/-!
# System calls

`isr80` saves the general-purpose registers on the stack and passes the address of the frame to
`Isr80Handler`, which reads it as a `registers_t`. The fields of `registers_t` are not in the order
in which the registers lie on the stack: five of them are permuted. The segment registers are loaded
with the data segment of the kernel and not saved.

The effect of the handler of a system call, with the `call` and the `ret` around it, is a parameter.

## Main definitions

* `Vardar.Reg`, `Vardar.SegReg`, `Vardar.Cpu`.
* `Vardar.Cpu.pushall`, `Vardar.Cpu.popall`, `Vardar.Cpu.isr80`.
* `Vardar.registersT`: the order of the fields of `registers_t`.
* `Vardar.Cpu.FrameOk`: what the frame is for.

## Main results

* `Vardar.Cpu.popall_pushall`: the registers are restored.
* `Vardar.Cpu.frameOk_iff`.
-/

namespace Vardar

/-- The general-purpose registers without the stack pointer. -/
inductive Reg
  | rax | rbx | rcx | rdx | rdi | rsi | rbp | r8 | r9 | r10 | r11 | r12 | r13 | r14 | r15
  deriving DecidableEq

/-- The segment registers but `CS`. -/
inductive SegReg
  | ds | es | fs | gs | ss
  deriving DecidableEq

/-- The registers, the selectors in the segment registers, and the stack. -/
structure Cpu where
  regs : Reg → BitVec 64
  selectors : SegReg → BitVec 16
  stack : QuadStack

/-- The registers in the order of `PUSHALL`. -/
def pushOrder : List Reg :=
  [.rax, .rbx, .rcx, .rdx, .rdi, .rsi, .rbp, .r8, .r9, .r10, .r11, .r12, .r13, .r14, .r15]

/-- The registers in the order of `POPALL`. -/
def popOrder : List Reg :=
  [.r15, .r14, .r13, .r12, .r11, .r10, .r9, .r8, .rbp, .rsi, .rdi, .rdx, .rcx, .rbx, .rax]

/-- The fields of `registers_t`. -/
def registersT : List Reg :=
  [.r15, .r14, .r13, .r12, .r11, .rsi, .rbp, .r10, .r9, .r8, .rdi, .rdx, .rcx, .rbx, .rax]

namespace Cpu

/-- `push`. -/
def push (s : Cpu) (r : Reg) : Cpu := { s with stack := s.stack.push (s.regs r) }

/-- `pop`. -/
def pop (s : Cpu) (r : Reg) : Cpu :=
  { s with regs := Function.update s.regs r s.stack.top, stack := s.stack.drop }

/-- `PUSHALL`. -/
def pushall (s : Cpu) : Cpu := pushOrder.foldl push s

/-- `POPALL`. -/
def popall (s : Cpu) : Cpu := popOrder.foldl pop s

/-- Set a register. -/
def setReg (s : Cpu) (r : Reg) (v : BitVec 64) : Cpu := { s with regs := Function.update s.regs r v }

/-- `mov` of `AX` to a segment register. -/
def movAx (s : Cpu) (r : SegReg) : Cpu :=
  { s with selectors := Function.update s.selectors r ((s.regs .rax).setWidth 16) }

/-- `isr80` up to the call of `Isr80Handler`. -/
def enterIsr80 (s : Cpu) : Cpu :=
  let s := s.pushall
  let s := s.setReg .rsi (s.stack.sp + 120)
  let s := s.setReg .rdi s.stack.sp
  let s := s.setReg .rax (s.regs .rax &&& ~~~0xFFFF ||| 0x30)
  ((((s.movAx .ds).movAx .fs).movAx .ss).movAx .gs).movAx .es

/-- A field of the `registers_t` at an address. -/
def field (mem : BitVec 64 → BitVec 64) (regs : BitVec 64) (r : Reg) : BitVec 64 :=
  mem (regs + BitVec.ofNat 64 (8 * registersT.idxOf r))

/-- `Isr80Handler`: the handler in the table `SYSCALLS`. -/
def isr80Handler (syscalls : BitVec 64 → Cpu → Cpu) (s : Cpu) : Cpu :=
  syscalls (field s.stack.mem (s.regs .rdi) .rax) s

/-- `isr80` up to the `iretq`. -/
def isr80 (syscalls : BitVec 64 → Cpu → Cpu) (s : Cpu) : Cpu :=
  (isr80Handler syscalls s.enterIsr80).popall

/-! ### The frame -/

variable {s s' : Cpu}

theorem foldl_push (rs : List Reg) :
    rs.foldl push s = { s with stack := s.stack.pushAll (rs.map s.regs) } := by
  induction rs generalizing s with
  | nil => rfl
  | cons r rs ih =>
    rw [List.foldl_cons, ih]
    rfl

theorem pushall_sp (s : Cpu) : s.pushall.stack.sp = s.stack.sp - 120 := by
  rw [pushall, foldl_push]
  exact QuadStack.pushAll_sp _

/-- The quadword at a distance from the stack pointer is that of the register that is popped
there. -/
theorem pushall_mem (s : Cpu) {i : ℕ} {r : Reg} (hr : popOrder[i]? = some r) :
    s.pushall.stack.mem (s.pushall.stack.sp + BitVec.ofNat 64 (8 * i)) = s.regs r := by
  have hpop : (pushOrder.map s.regs).reverse[i]? = some (s.regs r) := by
    rw [← List.map_reverse, show pushOrder.reverse = popOrder from rfl, List.getElem?_map, hr,
      Option.map_some]
  rw [pushall, foldl_push]
  exact QuadStack.pushAll_mem_sp_add (by rw [List.length_map]; decide) hpop

theorem foldl_pop_regs_of_notMem {rs : List Reg} {r : Reg} (hr : r ∉ rs) :
    (rs.foldl pop s).regs r = s.regs r := by
  induction rs generalizing s with
  | nil => rfl
  | cons r' rs ih =>
    have hne : r ≠ r' := fun h => hr (List.mem_cons.mpr (Or.inl h))
    rw [List.foldl_cons, ih fun h => hr (List.mem_cons_of_mem _ h)]
    exact Function.update_of_ne hne _ _

/-- The registers after `pop`s in an order. -/
theorem foldl_pop_regs {rs : List Reg} (hnd : rs.Nodup) {i : ℕ} {r : Reg} (hr : rs[i]? = some r) :
    (rs.foldl pop s).regs r = s.stack.mem (s.stack.sp + BitVec.ofNat 64 (8 * i)) := by
  induction rs generalizing s i with
  | nil => exact absurd hr (by simp)
  | cons r' rs ih =>
    rw [List.nodup_cons] at hnd
    rw [List.foldl_cons]
    cases i with
    | zero =>
      obtain rfl := Option.some.inj hr
      rw [foldl_pop_regs_of_notMem hnd.1, Nat.mul_zero, BitVec.add_zero]
      exact Function.update_self _ _ _
    | succ i =>
      rw [ih hnd.2 hr, Nat.mul_succ, Nat.add_comm, BitVec.ofNat_add, ← add_assoc]
      rfl

/-- The stack after `pop`s. -/
theorem foldl_pop_stack (rs : List Reg) (s : Cpu) :
    (rs.foldl pop s).stack = ⟨s.stack.sp + BitVec.ofNat 64 (8 * rs.length), s.stack.mem⟩ := by
  induction rs generalizing s with
  | nil => rw [List.foldl_nil, List.length_nil, Nat.mul_zero, BitVec.add_zero]
  | cons r rs ih =>
    rw [List.foldl_cons, ih, List.length_cons, Nat.mul_succ, Nat.add_comm, BitVec.ofNat_add,
      ← add_assoc]
    rfl

theorem foldl_pop_selectors (rs : List Reg) (s : Cpu) :
    (rs.foldl pop s).selectors = s.selectors := by
  induction rs generalizing s with
  | nil => rfl
  | cons r rs ih => exact ih (s.pop r)

/-- `POPALL` does not depend on the segment registers. -/
theorem popall_withSelectors (s : Cpu) (selectors : SegReg → BitVec 16) :
    popall { s with selectors := selectors } = { s.popall with selectors := selectors } := by
  rw [popall, popall]
  induction popOrder generalizing s with
  | nil => rfl
  | cons r rs ih => exact ih (s.pop r)

theorem pushall_selectors (s : Cpu) : s.pushall.selectors = s.selectors := by
  rw [pushall, foldl_push]

theorem enterIsr80_stack (s : Cpu) : s.enterIsr80.stack = s.pushall.stack := rfl

/-- The handler is called with the data segment of the kernel in all segment registers. -/
theorem enterIsr80_selectors (s : Cpu) (r : SegReg) : s.enterIsr80.selectors r = 0x30 := by
  have hax : ((s.pushall.regs .rax &&& ~~~0xFFFF ||| 0x30).setWidth 16 : BitVec 16) = 0x30 := by
    ext i hi
    have hmask : ∀ j < 16, (~~~0xFFFF : BitVec 64).getLsbD j = false := by decide
    simp only [BitVec.getElem_setWidth, BitVec.getLsbD_or, BitVec.getLsbD_and, hmask i hi,
      Bool.and_false, Bool.false_or]
    revert i
    decide
  cases r <;> exact hax

theorem exists_popOrder (r : Reg) : ∃ i < 15, popOrder[i]? = some r := by
  have hmem : r ∈ popOrder := by cases r <;> decide
  obtain ⟨i, hi, heq⟩ := List.mem_iff_getElem.mp hmem
  exact ⟨i, hi, List.getElem?_eq_some_iff.mpr ⟨hi, heq⟩⟩

/-- The stack pointer and the frame above it are as before. -/
structure LeavesFrame (s s' : Cpu) : Prop where
  sp : s'.stack.sp = s.stack.sp
  frame : ∀ i < 15, s'.stack.mem (s.stack.sp + BitVec.ofNat 64 (8 * i)) =
    s.stack.mem (s.stack.sp + BitVec.ofNat 64 (8 * i))

/-- `POPALL` restores the registers from a frame that was left alone. -/
theorem popall_pushall (h : LeavesFrame s.pushall s') : s'.popall.regs = s.regs := by
  funext r
  obtain ⟨i, hi, hr⟩ := exists_popOrder r
  rw [popall, foldl_pop_regs (by decide) hr, h.sp, h.frame i hi, pushall_mem s hr]

/-- The frame of a system call: its fields are the registers, `RSI` points behind it to what the
processor pushed, and the registers are restored if the handler leaves it alone. -/
structure FrameOk (s : Cpu) : Prop where
  fields : ∀ r, field s.enterIsr80.stack.mem (s.enterIsr80.regs .rdi) r = s.regs r
  returnFrame : s.enterIsr80.regs .rsi = s.stack.sp
  restored : ∀ syscalls, LeavesFrame s.enterIsr80 (isr80Handler syscalls s.enterIsr80) →
    (isr80 syscalls s).regs = s.regs

/-- A field has the register that is popped at its place. -/
theorem field_eq (s : Cpu) (r : Reg) {r' : Reg} (hr : popOrder[registersT.idxOf r]? = some r') :
    field s.enterIsr80.stack.mem (s.enterIsr80.regs .rdi) r = s.regs r' :=
  pushall_mem s hr

/-- The frame is as its users read it exactly if the registers whose fields are permuted have the
same values. -/
theorem frameOk_iff (s : Cpu) :
    s.FrameOk ↔ s.regs .rsi = s.regs .r8 ∧ s.regs .r8 = s.regs .r10 ∧
      s.regs .rbp = s.regs .r9 := by
  constructor
  · intro h
    have hr8 := (field_eq s .r8 rfl).symm.trans (h.fields .r8)
    have hr10 := (field_eq s .r10 rfl).symm.trans (h.fields .r10)
    have hr9 := (field_eq s .r9 rfl).symm.trans (h.fields .r9)
    exact ⟨hr8, hr10, hr9⟩
  · rintro ⟨hrsi, hr8, hrbp⟩
    refine ⟨fun r => ?_, ?_, fun syscalls h => popall_pushall ⟨h.sp, h.frame⟩⟩
    · cases r with
      | rsi => exact (field_eq s .rsi rfl).trans (hrsi.trans hr8).symm
      | rbp => exact (field_eq s .rbp rfl).trans hrbp.symm
      | r10 => exact (field_eq s .r10 rfl).trans hr8
      | r9 => exact (field_eq s .r9 rfl).trans hrbp
      | r8 => exact (field_eq s .r8 rfl).trans hrsi
      | rax => exact field_eq s .rax rfl
      | rbx => exact field_eq s .rbx rfl
      | rcx => exact field_eq s .rcx rfl
      | rdx => exact field_eq s .rdx rfl
      | rdi => exact field_eq s .rdi rfl
      | r11 => exact field_eq s .r11 rfl
      | r12 => exact field_eq s .r12 rfl
      | r13 => exact field_eq s .r13 rfl
      | r14 => exact field_eq s .r14 rfl
      | r15 => exact field_eq s .r15 rfl
    · change s.pushall.stack.sp + 120 = _
      rw [pushall_sp, sub_add_cancel]

/-- A system call with a pointer in `RSI`, which the handler reads in the field of `R8`. -/
theorem frame_permuted :
    ¬ FrameOk ⟨fun r => if r = .rsi then 0x400000 else 0, fun _ => 0, ⟨0x8000, fun _ => 0⟩⟩ := by
  intro h
  have hrsi := (field_eq _ .rsi rfl).symm.trans (h.fields .rsi)
  exact absurd hrsi (by decide)

end Cpu

end Vardar
