import Vardar.Gdt.Gdt
import Vardar.Interrupts.Idt
import Vardar.Interrupts.Syscall

/-!
# Entering and leaving the kernel

`_start` fills the interrupt table and then the global descriptor table. With these, an interrupt
enters the kernel at three vectors only, and an instruction of the user at one of them. The
processor goes to the stack of the kernel, and the code around every handler, `PUSHALL`, `POPALL`
and `iretq`, goes back to the state that was interrupted. A system call does not keep `DS`, `ES`, `FS`
and `GS`: the user gets null selectors in them.

## Main definitions

* `Vardar.Image`: where the tables and the handlers are.
* `Vardar.Image.enter`: what an interrupt does.

## Main results

* `Vardar.Image.interrupt_eq`.
* `Vardar.Image.iretq_eq`.
-/

namespace Vardar

open ByteMemory Protection

/-- The kernel in memory: `IDT`, `GDT`, `TSS`, the handlers and the stack that `initialize_gdt` is
called with, and the processor it runs on. -/
structure Image where
  idt : ℕ
  gdt : ℕ
  tss : ℕ
  isr1 : BitVec 64
  isr2 : BitVec 64
  isr80 : BitVec 64
  stack : BitVec 64
  lapicId : BitVec 8
  apart : Gdt.Apart gdt tss
  idtGdt : idt + 4096 ≤ gdt ∨ gdt + 88 ≤ idt
  idtTss : idt + 4096 ≤ tss ∨ tss + 26624 ≤ idt
  isr1Canonical : Canonical isr1
  isr2Canonical : Canonical isr2
  isr80Canonical : Canonical isr80
  stackCanonical : Canonical stack

namespace Image

variable (I : Image) (m : Mem)

/-- Memory after `InitializeIdt` and `initialize_gdt`. -/
def mem : Mem :=
  Gdt.initializeGdt (Idt.initializeIdt I.idt m I.isr1 I.isr2 I.isr80) I.gdt I.tss I.lapicId I.stack

/-- The tables that `LoadIdt`, `load_gdt` and `load_tss` load. -/
def tables : Tables := ⟨I.gdt, 87, I.idt, 4095, readBase (I.mem m) (I.gdt + 72)⟩

/-- The handler of a vector, and the level up to which an instruction may call it. -/
def handler (n : ℕ) : Option (BitVec 64 × ℕ) :=
  if n = 0x21 then some (I.isr1, 0)
  else if n = 0x22 then some (I.isr2, 0)
  else if n = 0x80 then some (I.isr80, 3)
  else none

/-- The state in which an interrupt enters the kernel. -/
def enter (soft : Bool) (n : ℕ) (s : Flow) : Option Flow :=
  (I.handler n).bind fun (isr, dpl) =>
    if soft = true ∧ dpl < level s.cs then none
    else some
      { rip := isr
        cs := 0x28
        rflags := s.rflags &&& ~~~0x34300
        ss := if 0 < level s.cs then 0 else s.ss
        stack := (⟨(if 0 < level s.cs then I.stack else s.stack.sp) &&& ~~~0xF, s.stack.mem⟩ :
          QuadStack).pushAll (frame s) }

/-! ### The tables -/

theorem segment_eq {selector : BitVec 16} {i : ℕ} {e : Gdt.Entry} (hi : selector.toNat / 8 = i)
    (hpos : i ≠ 0) (hlocal : selector.getLsbD 2 = false) (he : Gdt.segments[i]? = some e) :
    (I.tables m).segment (I.mem m) selector = some e.segment := by
  have hlt : i < 9 := (List.getElem?_eq_some_iff.mp he).1
  have hlimit : ¬ (i = 0 ∨ false = true ∨ (I.tables m).gdtLimit < 8 * i + 7) := by
    rintro (hzero | hfalse | hlt')
    · exact hpos hzero
    · exact Bool.false_ne_true hfalse
    · change 87 < 8 * i + 7 at hlt'
      omega
  rw [Tables.segment, hi, hlocal, if_neg hlimit]
  exact congrArg some (Gdt.readSegment_initializeGdt _ I.apart _ _ he)

/-- The code of the kernel. -/
theorem segment_kernel : (I.tables m).segment (I.mem m) 0x28 =
    some (⟨0, 0, 0, 0x9A, 0xA2, 0⟩ : Gdt.Entry).segment :=
  I.segment_eq m rfl (by decide) rfl rfl

/-- The data of the kernel. -/
theorem segment_kernelData : (I.tables m).segment (I.mem m) 0x30 =
    some (⟨0, 0, 0, 0x92, 0xA0, 0⟩ : Gdt.Entry).segment :=
  I.segment_eq m rfl (by decide) rfl rfl

/-- The stack for the kernel. -/
theorem levelStack_eq : (I.tables m).levelStack (I.mem m) 0 = I.stack := by
  have hbase : (I.tables m).tss = Gdt.tssAddr I.tss I.lapicId :=
    Gdt.readBase_initializeGdt _ I.apart _ _
  rw [Tables.levelStack, hbase, mem, Nat.mul_zero, Nat.add_zero, Gdt.stack_initializeGdt,
    BitVec.ofNat_toNat, BitVec.setWidth_eq]

/-- `IDT` has not been written to. -/
def Zeroed (I : Image) (m : Mem) : Prop := ∀ x, I.idt ≤ x → x < I.idt + 4096 → m x = 0

variable {I m}

/-- The gate of a vector that `InitializeIdt` does not set. -/
theorem not_present (h : Zeroed I m) {n : ℕ} (hn : n < 256) :
    (readGate m (I.idt + 16 * n)).present = false := by
  change (m (I.idt + 16 * n + 5)).getLsbD 7 = false
  rw [h _ (by omega) (by omega)]
  rfl

/-- The gate that the processor reads. -/
theorem gate_eq (vector : BitVec 8) : (I.tables m).gate (I.mem m) vector.toNat =
    some (LastWrite.last ((Idt.entries I.isr1 I.isr2 I.isr80).map fun c => (c.vector, Idt.gate c))
      vector (readGate m (I.idt + 16 * vector.toNat))) := by
  have hlt := vector.isLt
  have hgdt := I.idtGdt
  have htss := I.idtTss
  have hlimit : ¬ (I.tables m).idtLimit < 16 * vector.toNat + 15 := by
    change ¬ 4095 < 16 * vector.toNat + 15
    omega
  rw [Tables.gate, if_neg hlimit, ← Idt.readGate_of_run]
  refine congrArg some (Idt.readGate_congr fun x hx hx' => ?_)
  change x < I.idt + 16 * vector.toNat + 16 at hx'
  change I.idt + 16 * vector.toNat ≤ x at hx
  rw [mem, Gdt.initializeGdt, Gdt.initTss_of_notMem _ (by omega) (by omega),
    Gdt.setEntries_of_notMem _ (by change x < I.gdt ∨ I.gdt + 72 ≤ x; omega)]
  rfl

/-! ### Entering -/

/-- An interrupt through a gate of `SetIdtEntry`. -/
theorem interrupt_of_gate {soft : Bool} {n : ℕ} {s : Flow} {c : Idt.Call}
    (hgate : (I.tables m).gate (I.mem m) n = some (Idt.gate c)) {dpl : ℕ}
    (hflags : c.flags = 0x8E ∧ dpl = 0 ∨ c.flags = 0xEE ∧ dpl = 3) (hisr : Canonical c.isr)
    (hsp : level s.cs = 0 → Canonical s.stack.sp) :
    interrupt (I.tables m) (I.mem m) soft n s =
      if soft = true ∧ dpl < level s.cs then none
      else some
        { rip := c.isr
          cs := 0x28
          rflags := s.rflags &&& ~~~0x34300
          ss := if 0 < level s.cs then 0 else s.ss
          stack := (⟨(if 0 < level s.cs then I.stack else s.stack.sp) &&& ~~~0xF, s.stack.mem⟩ :
            QuadStack).pushAll (frame s) } := by
  have hpass : (Idt.gate c).passes soft (level s.cs) = (!soft || decide (level s.cs ≤ dpl)) := by
    rcases hflags with ⟨hflags, rfl⟩ | ⟨hflags, rfl⟩ <;> rw [Gate.passes, Idt.gate, hflags] <;> rfl
  have hkind : (Idt.gate c).kind = 14 := by
    rcases hflags with ⟨hflags, -⟩ | ⟨hflags, -⟩ <;> rw [Idt.gate, hflags] <;> rfl
  have hcs : withLevel (Idt.gate c).selector 0 = 0x28 := (by decide : withLevel 0x28 0 = 0x28)
  have hstack : entryStack (I.tables m) (I.mem m) (Idt.gate c) 0 s =
      if 0 < level s.cs then I.stack else s.stack.sp := by
    rw [entryStack, if_neg (by simp [Idt.gate]), levelStack_eq]
  have hcanonical : Canonical (if 0 < level s.cs then I.stack else s.stack.sp) := by
    split_ifs with hlevel
    · exact I.stackCanonical
    · exact hsp (by omega)
  by_cases hdpl : soft = true ∧ dpl < level s.cs
  · rw [if_pos hdpl]
    refine interrupt_of_not_passes hgate ?_
    rw [hpass, hdpl.1, decide_eq_false (by omega)]
    rfl
  · have hok : (Idt.gate c).passes soft (level s.cs) = true := by
      rw [hpass]
      cases soft with
      | false => rfl
      | true => exact decide_eq_true (by simpa using hdpl)
    rw [if_neg hdpl, interrupt_of_passes (l := 0) hgate hok (I.segment_kernel m) rfl (Nat.zero_le _)
      rfl hisr (hstack ▸ hcanonical), Protection.enter, hstack, hkind, handlerFlags, if_pos rfl,
      hcs]
    rfl

/-- **Interrupts enter the kernel at three vectors.** Whatever the interrupted state is, an
interrupt goes to the handler of its vector in the code segment of the kernel and with interrupts
off, on the stack of the kernel if it comes from the user. All other vectors fault, and so does an
instruction of the user for any vector but `0x80`. -/
theorem interrupt_eq (hzero : Zeroed I m) (soft : Bool) (n : ℕ) (s : Flow)
    (hsp : level s.cs = 0 → Canonical s.stack.sp) :
    interrupt (I.tables m) (I.mem m) soft n s = I.enter soft n s := by
  rw [Image.enter, handler]
  by_cases hn : n < 256
  · have hgate := gate_eq (I := I) (m := m) (BitVec.ofNat 8 n)
    have hvector {v : BitVec 8} (hv : n ≠ v.toNat) : v ≠ BitVec.ofNat 8 n := by
      rintro rfl
      rw [BitVec.toNat_ofNat, Nat.mod_eq_of_lt hn] at hv
      exact hv rfl
    rw [BitVec.toNat_ofNat, Nat.mod_eq_of_lt hn, Idt.entries] at hgate
    simp only [List.map_cons, List.map_nil, LastWrite.last_cons, LastWrite.last_nil] at hgate
    by_cases h80 : n = 0x80
    · subst h80
      exact interrupt_of_gate hgate (.inr ⟨rfl, rfl⟩) I.isr80Canonical hsp
    by_cases h22 : n = 0x22
    · subst h22
      exact interrupt_of_gate hgate (.inl ⟨rfl, rfl⟩) I.isr2Canonical hsp
    by_cases h21 : n = 0x21
    · subst h21
      exact interrupt_of_gate hgate (.inl ⟨rfl, rfl⟩) I.isr1Canonical hsp
    rw [if_neg (hvector (v := 0x80) h80), if_neg (hvector (v := 0x22) h22),
      if_neg (hvector (v := 0x21) h21)] at hgate
    rw [if_neg h21, if_neg h22, if_neg h80]
    refine interrupt_of_not_passes hgate ?_
    rw [Gate.passes, not_present hzero hn, Bool.and_false, Bool.false_and]
  · have hlimit : (I.tables m).idtLimit < 16 * n + 15 := by
      change 4095 < 16 * n + 15
      omega
    rw [if_neg (by omega), if_neg (by omega), if_neg (by omega), interrupt, Tables.gate,
      if_pos hlimit]
    rfl

theorem sample_apart : Gdt.Apart 0x2000 0x3000 := ⟨by decide, by decide⟩

theorem sample_before : 0x1000 + 4096 ≤ 0x2000 := by decide

theorem sample_before_tss : 0x1000 + 4096 ≤ 0x3000 := by decide

theorem sample_canonical {i : ℕ} (hi : i < 0x20000) : Canonical (BitVec.ofNat 64 i) := by
  rw [Canonical, BitVec.toNat_ofNat]
  omega

theorem sample_bound : 0x10000 < 0x20000 := by decide

/-- A kernel at low addresses. -/
def sample : Image where
  idt := 0x1000
  gdt := 0x2000
  tss := 0x3000
  isr1 := BitVec.ofNat 64 0x10000
  isr2 := BitVec.ofNat 64 0x10000
  isr80 := BitVec.ofNat 64 0x10000
  stack := BitVec.ofNat 64 0x10000
  lapicId := 0
  apart := sample_apart
  idtGdt := .inl sample_before
  idtTss := .inl sample_before_tss
  isr1Canonical := sample_canonical sample_bound
  isr2Canonical := sample_canonical sample_bound
  isr80Canonical := sample_canonical sample_bound
  stackCanonical := sample_canonical sample_bound

/-- A state of the user. -/
def sampleUser : Flow := ⟨0x400000, 0x3B, 0x202, 0x43, ⟨0x8000, fun _ => 0⟩⟩

/-- The user may not call the keyboard interrupt. -/
theorem interrupt_eq_keyboard :
    interrupt (sample.tables fun _ => 0) (sample.mem fun _ => 0) true 0x21 sampleUser = none :=
  (interrupt_eq (fun _ _ _ => rfl) true 0x21 sampleUser fun h => absurd h (by decide)).trans rfl

/-! ### Leaving -/

/-- Code of the user or of the kernel, with the selectors that `run_proc` and `load_gdt` set or the
stack selector of an interrupt from the user. -/
structure Running (s : Flow) : Prop where
  selectors : s.cs = 0x3B ∧ s.ss = 0x43 ∨ s.cs = 0x28 ∧ (s.ss = 0x30 ∨ s.ss = 0)
  rip : Canonical s.rip

/-- `iretq` may go back to it. -/
theorem Running.returnable {s : Flow} (h : Running s) :
    Returnable (I.tables m) (I.mem m) 0 s := by
  rcases h.selectors with ⟨hcs, hss⟩ | ⟨hcs, hss⟩
  · refine ⟨Nat.zero_le _, ?_, .inr ⟨?_, ?_⟩, h.rip⟩
    · rw [hcs, I.segment_eq (i := 7) m rfl (by decide) rfl rfl]
      rfl
    · rw [hcs, hss]
      rfl
    · rw [hcs, hss, I.segment_eq (i := 8) m rfl (by decide) rfl rfl]
      rfl
  · have hcode : ((I.tables m).segment (I.mem m) s.cs).any (·.runsAt (level s.cs)) = true := by
      rw [hcs, I.segment_kernel m]
      rfl
    refine ⟨Nat.zero_le _, hcode, ?_, h.rip⟩
    rcases hss with hss | hss
    · refine .inr ⟨?_, ?_⟩
      · rw [hcs, hss]
        rfl
      · rw [hcs, hss, I.segment_eq (i := 6) m rfl (by decide) rfl rfl]
        rfl
    · refine .inl ⟨?_, ?_⟩
      · rw [hss]
        decide
      · rw [hcs]
        decide

end Image

namespace Cpu

/-- The handler leaves the segment registers, the stack pointer, the saved registers and the frame of
the interrupt as they were. -/
structure Keeps (s s' : Cpu) : Prop where
  selectors : s'.selectors = s.selectors
  sp : s'.stack.sp = s.stack.sp
  frame : ∀ i < 20, s'.stack.mem (s.stack.sp + BitVec.ofNat 64 (8 * i)) =
    s.stack.mem (s.stack.sp + BitVec.ofNat 64 (8 * i))

/-- `PUSHALL` is below the frame of the interrupt. -/
theorem pushall_above (s : Cpu) {i : ℕ} (hi : i < 5) :
    s.pushall.stack.mem (s.stack.sp + BitVec.ofNat 64 (8 * i)) =
      s.stack.mem (s.stack.sp + BitVec.ofNat 64 (8 * i)) := by
  rw [pushall, foldl_push]
  refine QuadStack.pushAll_mem_of_ne fun j hj heq => ?_
  rw [List.length_map] at hj
  have hlen : j < 15 := hj
  rw [QuadStack.slot, ← BitVec.toNat_inj, BitVec.toNat_add, BitVec.toNat_sub, BitVec.toNat_ofNat,
    BitVec.toNat_ofNat] at heq
  have hlt := s.stack.sp.isLt
  omega

/-- The frame is where it was after `POPALL`. -/
theorem Keeps.popall {s c : Cpu} (h : Keeps s.pushall c) :
    c.popall.regs = s.regs ∧ c.popall.stack.sp = s.stack.sp ∧
      ∀ i < 5, c.popall.stack.mem (s.stack.sp + BitVec.ofNat 64 (8 * i)) =
        s.stack.mem (s.stack.sp + BitVec.ofNat 64 (8 * i)) := by
  have hstack : c.popall.stack = ⟨c.stack.sp + BitVec.ofNat 64 120, c.stack.mem⟩ :=
    foldl_pop_stack popOrder c
  refine ⟨popall_pushall ⟨h.sp, fun i hi => h.frame i (by omega)⟩, ?_, fun i hi => ?_⟩
  · rw [hstack, h.sp, pushall_sp]
    exact sub_add_cancel _ _
  · have hslot : s.stack.sp + BitVec.ofNat 64 (8 * i) =
        s.pushall.stack.sp + BitVec.ofNat 64 (8 * (15 + i)) := by
      rw [pushall_sp, Nat.mul_add, BitVec.ofNat_add, ← add_assoc]
      exact congrArg (· + BitVec.ofNat 64 (8 * i)) (sub_add_cancel _ _).symm
    rw [hstack, ← pushall_above s hi, hslot]
    exact h.frame (15 + i) (by omega)

/-- A handler that has changed the segment registers only. -/
theorem Keeps.withSelectors {s t c : Cpu} (h : Keeps t c) (ht : t.stack = s.stack) :
    Keeps s { c with selectors := s.selectors } := by
  obtain ⟨-, hsp, hframe⟩ := h
  rw [ht] at hsp hframe
  exact ⟨rfl, hsp, hframe⟩

/-- What `isr80` leaves: the registers and the frame are as if it had saved them only, and the
segment registers have the data segment of the kernel. -/
theorem Keeps.popall_isr80 {s c : Cpu} (h : Keeps s.enterIsr80 c) :
    c.popall.regs = s.regs ∧ (∀ r, c.popall.selectors r = 0x30) ∧
      ∃ c' : Cpu, Keeps s.pushall c' ∧ c.popall.stack = c'.popall.stack := by
  -- `POPALL` does not see that `isr80` has loaded the segment registers
  have hsaved := h.withSelectors (enterIsr80_stack s)
  have hpopall := popall_withSelectors c s.pushall.selectors
  have hregs := hsaved.popall.1
  rw [hpopall] at hregs
  refine ⟨hregs, fun r => ?_, _, hsaved, ?_⟩
  · rw [Cpu.popall, foldl_pop_selectors, h.selectors, enterIsr80_selectors]
  · rw [hpopall]

/-- The registers at the start of a handler: an interrupt changes the stack and `SS`. -/
def atEntry (regs : Reg → BitVec 64) (selectors : SegReg → BitVec 16) (s : Flow) : Cpu :=
  ⟨regs, Function.update selectors .ss s.ss, s.stack⟩

/-- The flow of control at the `iretq` of a handler that was entered in a state. -/
def atIretq (c : Cpu) (s : Flow) : Flow := { s with ss := c.selectors .ss, stack := c.stack }

end Cpu

namespace Image

variable {I : Image} {m : Mem}

/-- `iretq` takes the frame of the interrupt, which the handler has kept. -/
theorem Running.iretq {soft : Bool} {n : ℕ} {s s' : Flow} (hs : Running s)
    (h : interrupt (I.tables m) (I.mem m) soft n s = some s') {regs : Reg → BitVec 64}
    {selectors : SegReg → BitVec 16} {c c' : Cpu}
    (hc : Cpu.Keeps (Cpu.atEntry regs selectors s').pushall c) (hstack : c'.stack = c.popall.stack) :
    iretq (I.tables m) (I.mem m) (c'.atIretq s') =
      some { s with stack := ⟨s.stack.sp, c'.stack.mem⟩ } := by
  obtain ⟨-, hsp, hframe⟩ := hc.popall
  have hword : ∀ i < 5, (c'.atIretq s').word i = s'.word i := fun i hi => by
    rw [Flow.word, Cpu.atIretq, hstack, hsp]
    exact hframe i hi
  exact iretq_interrupt h hs.returnable rfl hword

/-- **Interrupts are invisible.** `isr1` and `isr2` save the registers, call their handler, restore
the registers and end with `iretq`. If the handler returns with the segment registers and the stack
it was called with, then the interrupted code goes on with its registers, flags, `CS`, `SS` and stack
pointer, and `iretq` finds its selectors in `DS`, `ES`, `FS` and `GS`. -/
theorem iretq_eq {soft : Bool} {n : ℕ} {s s' : Flow}
    (h : interrupt (I.tables m) (I.mem m) soft n s = some s') (hs : Running s)
    (regs : Reg → BitVec 64) (selectors : SegReg → BitVec 16) {c : Cpu}
    (hc : Cpu.Keeps (Cpu.atEntry regs selectors s').pushall c) :
    c.popall.regs = regs ∧ (∀ r, r ≠ .ss → c.popall.selectors r = selectors r) ∧
      iretq (I.tables m) (I.mem m) (c.popall.atIretq s') =
        some { s with stack := ⟨s.stack.sp, c.popall.stack.mem⟩ } := by
  refine ⟨hc.popall.1, fun r hr => ?_, hs.iretq h hc rfl⟩
  rw [Cpu.popall, Cpu.foldl_pop_selectors, hc.selectors, Cpu.pushall_selectors]
  exact Function.update_of_ne hr _ _

/-- A timer interrupt of the user, with a handler that does nothing. -/
theorem iretq_eq_timer : ∃ s',
    interrupt (sample.tables fun _ => 0) (sample.mem fun _ => 0) false 0x22 sampleUser = some s' ∧
    ∃ c : Cpu, c = (Cpu.atEntry (fun _ => 0) (fun _ => 0x43) s').pushall.popall ∧
      c.selectors .ds = 0x43 ∧
      iretq (sample.tables fun _ => 0) (sample.mem fun _ => 0) (c.atIretq s') =
        some { sampleUser with stack := ⟨0x8000, c.stack.mem⟩ } := by
  have henter : interrupt (sample.tables fun _ => 0) (sample.mem fun _ => 0) false 0x22 sampleUser =
      _ := interrupt_of_gate (c := ⟨0x22, sample.isr2, 0x8E⟩) (gate_eq 0x22) (.inl ⟨rfl, rfl⟩)
    sample.isr2Canonical fun h => absurd h (by decide)
  rw [if_neg (by decide)] at henter
  have hrunning : Running sampleUser := ⟨.inl ⟨rfl, rfl⟩, by decide⟩
  obtain ⟨-, hselectors, hiretq⟩ := iretq_eq henter hrunning (fun _ => 0) (fun _ => 0x43)
    ⟨rfl, rfl, fun _ _ => rfl⟩
  exact ⟨_, henter, _, rfl, hselectors .ds (by decide), hiretq⟩

/-- **System calls return.** From every state of the user, `int 0x80` enters the kernel, and if the
handler in `SYSCALLS` leaves the segment registers and the stack it was called with, the user goes on
after the instruction with its registers, flags, `CS`, `SS` and stack pointer. Whatever `DS`, `ES`,
`FS` and `GS` were, the selector of the kernel's data is in them at the `iretq`, for which the
processor puts the null selector. -/
theorem syscall_returns {s : Flow} (hcs : s.cs = 0x3B) (hss : s.ss = 0x43)
    (hrip : Canonical s.rip) (regs : Reg → BitVec 64) (selectors : SegReg → BitVec 16)
    (syscalls : BitVec 64 → Cpu → Cpu)
    (hkeeps : ∀ s', Cpu.Keeps (Cpu.atEntry regs selectors s').enterIsr80
      (Cpu.isr80Handler syscalls (Cpu.atEntry regs selectors s').enterIsr80)) :
    ∃ s', interrupt (I.tables m) (I.mem m) true 0x80 s = some s' ∧ s'.rip = I.isr80 ∧
      ∃ c : Cpu, c = Cpu.isr80 syscalls (Cpu.atEntry regs selectors s') ∧ c.regs = regs ∧
        iretq (I.tables m) (I.mem m) (c.atIretq s') =
          some { s with stack := ⟨s.stack.sp, c.stack.mem⟩ } ∧
        ∀ r, r ≠ .ss → c.selectors r = 0x30 ∧
          (I.tables m).outerSelector (I.mem m) (level s.cs) (c.selectors r) = 0 := by
  have hlevel : level s.cs = 3 := by
    rw [hcs]
    rfl
  have hgate {s' : Flow} (hs' : I.enter true 0x80 s = some s') :
      interrupt (I.tables m) (I.mem m) true 0x80 s = some s' :=
    (interrupt_of_gate (c := ⟨0x80, I.isr80, 0xEE⟩) (gate_eq 0x80) (.inr ⟨rfl, rfl⟩)
      I.isr80Canonical fun h => by omega).trans hs'
  obtain ⟨s', hs', hisr⟩ : ∃ s', I.enter true 0x80 s = some s' ∧ s'.rip = I.isr80 :=
    ⟨_, if_neg fun h => by omega, rfl⟩
  have hrunning : Running s := ⟨.inl ⟨hcs, hss⟩, hrip⟩
  obtain ⟨hregs, hdata, c, hsaved, hstack⟩ := (hkeeps s').popall_isr80
  have hnull : (I.tables m).outerSelector (I.mem m) (level s.cs) 0x30 = 0 := by
    rw [hlevel, Tables.outerSelector_data (I.segment_kernelData m) rfl rfl]
    rfl
  exact ⟨s', hgate hs', hisr, _, rfl, hregs, hrunning.iretq (hgate hs') hsaved hstack,
    fun r _ => ⟨hdata r, (congrArg _ (hdata r)).trans hnull⟩⟩

/-- A system call whose handler does nothing. -/
theorem syscall_returns_nop : ∃ s', interrupt (sample.tables fun _ => 0) (sample.mem fun _ => 0) true
      0x80 sampleUser = some s' ∧ s'.rip = sample.isr80 ∧
    ∃ c : Cpu, c = Cpu.isr80 (fun _ c => c) (Cpu.atEntry (fun _ => 0) (fun _ => 0x43) s') ∧
      c.regs = (fun _ => 0) ∧
      iretq (sample.tables fun _ => 0) (sample.mem fun _ => 0) (c.atIretq s') =
        some { sampleUser with stack := ⟨0x8000, c.stack.mem⟩ } ∧
      ∀ r, r ≠ .ss → c.selectors r = 0x30 ∧ (sample.tables fun _ => 0).outerSelector
        (sample.mem fun _ => 0) (level sampleUser.cs) (c.selectors r) = 0 :=
  syscall_returns rfl rfl (by decide) (fun _ => 0) (fun _ => 0x43) (fun _ c => c)
    fun _ => ⟨rfl, rfl, fun _ _ => rfl⟩

end Image

end Vardar
