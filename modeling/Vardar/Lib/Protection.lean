import Vardar.Lib.ByteMemory
import Vardar.Lib.QuadStack

/-!
# Interrupts of a processor in 64-bit mode

A processor finds the code for an interrupt through three tables in memory: a gate of 16 bytes, the
segment that the gate selects, and, if the segment is more privileged than the code that is
interrupted, a stack pointer in the task state segment. It pushes the interrupted state, which
`iretq` pops. A fault at any of these checks is `none`.

## Main definitions

* `Protection.Segment`, `Protection.Gate`: descriptors, with how they lie in memory.
* `Protection.Tables`, `Protection.Flow`: the registers of the processor.
* `Protection.interrupt`, `Protection.iretq`.

## Main results

* `Protection.iretq_interrupt`: `iretq` undoes an interrupt whose frame was left alone.
-/

namespace Protection

open ByteMemory

/-! ### Descriptors -/

/-- The bits of a descriptor of a segment. `memory` says that it is for code or data. -/
structure Segment where
  present : Bool
  dpl : ℕ
  memory : Bool
  code : Bool
  conforming : Bool
  writable : Bool
  long : Bool
  big : Bool

/-- The descriptor at an address. -/
def readSegment (m : Mem) (a : ℕ) : Segment where
  present := (m (a + 5)).getLsbD 7
  dpl := (m (a + 5)).toNat / 32 % 4
  memory := (m (a + 5)).getLsbD 4
  code := (m (a + 5)).getLsbD 3
  conforming := (m (a + 5)).getLsbD 2
  writable := (m (a + 5)).getLsbD 1
  long := (m (a + 6)).getLsbD 5
  big := (m (a + 6)).getLsbD 6

/-- Code of 64 bits that is present. -/
def Segment.isCode (c : Segment) : Bool := c.memory && c.code && c.present && c.long && !c.big

/-- Code that runs at a level. -/
def Segment.runsAt (c : Segment) (level : ℕ) : Bool :=
  c.isCode && if c.conforming then decide (c.dpl ≤ level) else decide (c.dpl = level)

/-- A stack of a level. -/
def Segment.isStack (d : Segment) (level : ℕ) : Bool :=
  d.memory && !d.code && d.writable && d.present && decide (d.dpl = level)

/-- A gate. `system` is the bit that is clear for the gates of interrupts. -/
structure Gate where
  offset : BitVec 64
  selector : BitVec 16
  ist : ℕ
  kind : ℕ
  system : Bool
  dpl : ℕ
  present : Bool

/-- The gate at an address. -/
def readGate (m : Mem) (a : ℕ) : Gate where
  offset := BitVec.ofNat 64
    (load m a 2 + 2 ^ 16 * load m (a + 6) 2 + 2 ^ 32 * load m (a + 8) 4)
  selector := BitVec.ofNat 16 (load m (a + 2) 2)
  ist := (m (a + 4)).toNat % 8
  kind := (m (a + 5)).toNat % 16
  system := (m (a + 5)).getLsbD 4
  dpl := (m (a + 5)).toNat / 32 % 4
  present := (m (a + 5)).getLsbD 7

/-- A gate that an interrupt may pass, from an instruction of a level or from outside. -/
def Gate.passes (g : Gate) (soft : Bool) (level : ℕ) : Bool :=
  !g.system && (g.kind == 14 || g.kind == 15) && g.present && (!soft || decide (level ≤ g.dpl))

/-- The base in the descriptor of a task state segment. -/
def readBase (m : Mem) (a : ℕ) : ℕ :=
  load m (a + 2) 2 + 2 ^ 16 * load m (a + 4) 1 + 2 ^ 24 * load m (a + 7) 1 +
    2 ^ 32 * load m (a + 8) 4

/-! ### The processor -/

/-- The tables, with the offset of the last byte of the first two. -/
structure Tables where
  gdt : ℕ
  gdtLimit : ℕ
  idt : ℕ
  idtLimit : ℕ
  tss : ℕ

/-- The registers of the flow of control, and the stack. -/
structure Flow where
  rip : BitVec 64
  cs : BitVec 16
  rflags : BitVec 64
  ss : BitVec 16
  stack : QuadStack

/-- The level in a selector. -/
def level (selector : BitVec 16) : ℕ := selector.toNat % 4

/-- Addresses whose upper bits are copies of bit 47. -/
def Canonical (a : BitVec 64) : Prop := a.toNat < 2 ^ 47 ∨ 2 ^ 64 - 2 ^ 47 ≤ a.toNat

instance (a : BitVec 64) : Decidable (Canonical a) := inferInstanceAs (Decidable (_ ∨ _))

namespace Tables

variable (T : Tables) (m : Mem)

/-- The segment of a selector, in the global table and not the null one. -/
def segment (selector : BitVec 16) : Option Segment :=
  let i := selector.toNat / 8
  if i = 0 ∨ selector.getLsbD 2 = true ∨ T.gdtLimit < 8 * i + 7 then none
  else some (readSegment m (T.gdt + 8 * i))

/-- The gate of a vector. -/
def gate (n : ℕ) : Option Gate :=
  if T.idtLimit < 16 * n + 15 then none else some (readGate m (T.idt + 16 * n))

/-- The stack pointer for a level. -/
def levelStack (l : ℕ) : BitVec 64 := BitVec.ofNat 64 (load m (T.tss + 4 + 8 * l) 8)

/-- The stack pointer of an entry of the interrupt stack table. -/
def interruptStack (i : ℕ) : BitVec 64 := BitVec.ofNat 64 (load m (T.tss + 36 + 8 * (i - 1)) 8)

end Tables

/-- What a segment register for data has after a return to an outer level: the null selector if its
segment is of an inner level. -/
def Tables.outerSelector (T : Tables) (m : Mem) (l : ℕ) (selector : BitVec 16) : BitVec 16 :=
  if (T.segment m selector).any fun d => d.memory && !(d.code && d.conforming) && decide (d.dpl < l)
  then 0 else selector

/-- The selector with another level. -/
def withLevel (selector : BitVec 16) (l : ℕ) : BitVec 16 :=
  BitVec.ofNat 16 (selector.toNat / 4 * 4 + l)

/-- The flags in the handler: single steps, nested tasks and, for an interrupt gate, interrupts are
off. -/
def handlerFlags (kind : ℕ) (rflags : BitVec 64) : BitVec 64 :=
  rflags &&& ~~~(if kind = 14 then 0x34300 else 0x34100)

/-- What an interrupt pushes. -/
def frame (s : Flow) : List (BitVec 64) :=
  [s.ss.setWidth 64, s.stack.sp, s.rflags, s.cs.setWidth 64, s.rip]

/-- The level that code is entered at. -/
def Segment.entryLevel (c : Segment) (level : ℕ) : ℕ := if c.conforming then level else c.dpl

/-- The stack that the frame is pushed on. -/
def entryStack (T : Tables) (m : Mem) (g : Gate) (l : ℕ) (s : Flow) : BitVec 64 :=
  if g.ist ≠ 0 then T.interruptStack m g.ist
  else if l < level s.cs then T.levelStack m l
  else s.stack.sp

/-- The state at the start of the handler. -/
def enter (T : Tables) (m : Mem) (g : Gate) (l : ℕ) (s : Flow) : Flow where
  rip := g.offset
  cs := withLevel g.selector l
  rflags := handlerFlags g.kind s.rflags
  ss := if l < level s.cs then BitVec.ofNat 16 l else s.ss
  stack := (⟨entryStack T m g l s &&& ~~~0xF, s.stack.mem⟩ : QuadStack).pushAll (frame s)

/-- An interrupt with a vector, by an instruction or from outside. -/
def interrupt (T : Tables) (m : Mem) (soft : Bool) (n : ℕ) (s : Flow) : Option Flow :=
  (T.gate m n).bind fun g =>
    if g.passes soft (level s.cs) then
      (T.segment m g.selector).bind fun c =>
        if c.isCode ∧ c.dpl ≤ level s.cs ∧ Canonical g.offset ∧
            Canonical (entryStack T m g (c.entryLevel (level s.cs)) s) then
          some (enter T m g (c.entryLevel (level s.cs)) s)
        else none
    else none

/-- The word at a distance from the stack pointer. -/
def Flow.word (s : Flow) (i : ℕ) : BitVec 64 := s.stack.mem (s.stack.sp + BitVec.ofNat 64 (8 * i))

/-- A state that `iretq` goes to from a level. -/
structure Returnable (T : Tables) (m : Mem) (cpl : ℕ) (s : Flow) : Prop where
  outer : cpl ≤ level s.cs
  code : (T.segment m s.cs).any (·.runsAt (level s.cs)) = true
  stack : (s.ss.toNat < 4 ∧ level s.cs ≠ 3) ∨
    (level s.ss = level s.cs ∧ (T.segment m s.ss).any (·.isStack (level s.cs)) = true)
  rip : Canonical s.rip

instance (T : Tables) (m : Mem) (cpl : ℕ) (s : Flow) : Decidable (Returnable T m cpl s) :=
  decidable_of_iff (cpl ≤ level s.cs ∧ (T.segment m s.cs).any (·.runsAt (level s.cs)) = true ∧
      ((s.ss.toNat < 4 ∧ level s.cs ≠ 3) ∨
        (level s.ss = level s.cs ∧ (T.segment m s.ss).any (·.isStack (level s.cs)) = true)) ∧
      Canonical s.rip)
    ⟨fun h => ⟨h.1, h.2.1, h.2.2.1, h.2.2.2⟩, fun h => ⟨h.outer, h.code, h.stack, h.rip⟩⟩

/-- `iretq`. -/
def iretq (T : Tables) (m : Mem) (s : Flow) : Option Flow :=
  let s' : Flow :=
    { rip := s.word 0
      cs := (s.word 1).setWidth 16
      rflags := s.word 2
      ss := (s.word 4).setWidth 16
      stack := ⟨s.word 3, s.stack.mem⟩ }
  if Returnable T m (level s.cs) s' then some s' else none

/-! ### Returning -/

variable {T : Tables} {m : Mem} {soft : Bool} {n : ℕ} {s s' t : Flow}

theorem Tables.outerSelector_data {selector : BitVec 16} {l : ℕ} {d : Segment}
    (hd : T.segment m selector = some d) (hdata : d.memory = true) (hcode : d.code = false) :
    T.outerSelector m l selector = if d.dpl < l then 0 else selector := by
  rw [outerSelector, hd, Option.any_some, hdata, hcode]
  simp

theorem level_withLevel (selector : BitVec 16) {l : ℕ} (hl : l < 4) :
    level (withLevel selector l) = l := by
  have hlt := selector.isLt
  rw [level, withLevel, BitVec.toNat_ofNat]
  omega

theorem Segment.entryLevel_le {c : Segment} {l : ℕ} (h : c.dpl ≤ l) : c.entryLevel l ≤ l := by
  rw [entryLevel]
  split_ifs
  · exact le_rfl
  · exact h

/-- An interrupt whose checks succeed. -/
theorem interrupt_of_passes {g : Gate} {c : Segment} {l : ℕ} (hgate : T.gate m n = some g)
    (hpass : g.passes soft (level s.cs) = true) (hseg : T.segment m g.selector = some c)
    (hcode : c.isCode = true) (hdpl : c.dpl ≤ level s.cs) (hl : c.entryLevel (level s.cs) = l)
    (hoffset : Canonical g.offset) (hstack : Canonical (entryStack T m g l s)) :
    interrupt T m soft n s = some (enter T m g l s) := by
  subst hl
  rw [interrupt, hgate, Option.bind_some, if_pos hpass, hseg, Option.bind_some,
    if_pos ⟨hcode, hdpl, hoffset, hstack⟩]

/-- A gate that may not be passed. -/
theorem interrupt_of_not_passes {g : Gate} (hgate : T.gate m n = some g)
    (hpass : g.passes soft (level s.cs) = false) : interrupt T m soft n s = none := by
  rw [interrupt, hgate, Option.bind_some, hpass]
  rfl

/-- What an interrupt does. -/
theorem interrupt_cases (h : interrupt T m soft n s = some s') :
    ∃ g c, T.gate m n = some g ∧ T.segment m g.selector = some c ∧ c.dpl ≤ level s.cs ∧
      s' = enter T m g (c.entryLevel (level s.cs)) s := by
  obtain ⟨g, hgate, hg⟩ := Option.bind_eq_some_iff.mp h
  obtain ⟨-, hseg⟩ := (Option.ite_none_right_eq_some ..).mp hg
  obtain ⟨c, hc, hif⟩ := Option.bind_eq_some_iff.mp hseg
  obtain ⟨⟨-, hdpl, -⟩, hs'⟩ := (Option.ite_none_right_eq_some ..).mp hif
  exact ⟨g, c, hgate, hc, hdpl, (Option.some.inj hs').symm⟩

/-- The words of the frame. -/
theorem word_enter (g : Gate) (l : ℕ) {i : ℕ} {v : BitVec 64}
    (hv : (frame s).reverse[i]? = some v) :
    (enter T m g l s).word i = v := by
  have hlen : (frame s).length < 2 ^ 61 := by
    rw [show (frame s).length = 5 from rfl]
    decide
  exact QuadStack.pushAll_mem_sp_add hlen hv

/-- **`iretq` undoes an interrupt.** If the handler leaves the stack pointer, the frame and the
level as they were, `iretq` goes back to the interrupted state. -/
theorem iretq_interrupt (h : interrupt T m soft n s = some s') (hs : Returnable T m 0 s)
    (hcs : t.cs = s'.cs) (hframe : ∀ i < 5, t.word i = s'.word i) :
    iretq T m t = some { s with stack := ⟨s.stack.sp, t.stack.mem⟩ } := by
  obtain ⟨g, c, -, -, hdpl, rfl⟩ := interrupt_cases h
  have hword {i : ℕ} (hi : i < 5) {v : BitVec 64} (hv : (frame s).reverse[i]? = some v) :
      t.word i = v := (hframe i hi).trans (word_enter g _ hv)
  have hrip : t.word 0 = s.rip := hword (by decide) rfl
  have hcode : t.word 1 = s.cs.setWidth 64 := hword (by decide) rfl
  have hflags : t.word 2 = s.rflags := hword (by decide) rfl
  have hsp : t.word 3 = s.stack.sp := hword (by decide) rfl
  have hss : t.word 4 = s.ss.setWidth 64 := hword (by decide) rfl
  have hlevel : level t.cs ≤ level s.cs := by
    have hlt : level s.cs < 4 := Nat.mod_lt _ (by decide)
    have hl := Segment.entryLevel_le hdpl
    rw [hcs, enter, level_withLevel _ (by omega)]
    exact hl
  have hcut (v : BitVec 16) : (v.setWidth 64).setWidth 16 = v := by
    rw [BitVec.setWidth_setWidth_of_le _ (by decide), BitVec.setWidth_eq]
  rw [iretq, hrip, hcode, hflags, hsp, hss, hcut, hcut]
  exact if_pos ⟨hlevel, hs.code, hs.stack, hs.rip⟩

end Protection
