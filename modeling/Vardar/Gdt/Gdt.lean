import Vardar.Lib.Protection

/-!
# The global descriptor table

`initialize_gdt` fills a packed table of nine segments and the descriptor of a task state segment,
whose base it splits into four fields. The lock that `init_tss` and `load_tss` take is free.

## Main definitions

* `Vardar.Gdt.Entry`: `gdt_entry_t`, with `Vardar.Gdt.segments`.
* `Vardar.Gdt.setTssEntry`, `Vardar.Gdt.initTss`, `Vardar.Gdt.initializeGdt`.

## Main results

* `Vardar.Gdt.readSegment_initializeGdt`: the segments that the processor reads.
* `Vardar.Gdt.readBase_initializeGdt`: the base of the task state segment.
* `Vardar.Gdt.stack_initializeGdt`: the stack for the kernel.
-/

namespace Vardar.Gdt

open ByteMemory Protection

/-! ### The code -/

/-- `gdt_entry_t`. -/
structure Entry where
  limit : BitVec 16
  baseLow : BitVec 16
  baseMid : BitVec 8
  access : BitVec 8
  limitAndFlags : BitVec 8
  baseHigh : BitVec 8

/-- Set the fields of `GDT.segments[i]`, which is at `a`. -/
def setEntry (m : Mem) (a : ℕ) (e : Entry) : Mem :=
  let m := store m a 2 e.limit.toNat
  let m := store m (a + 2) 2 e.baseLow.toNat
  let m := store m (a + 4) 1 e.baseMid.toNat
  let m := store m (a + 5) 1 e.access.toNat
  let m := store m (a + 6) 1 e.limitAndFlags.toNat
  store m (a + 7) 1 e.baseHigh.toNat

/-- Set `GDT.segments` from an address on. -/
def setEntries (m : Mem) (a : ℕ) : List Entry → Mem
  | [] => m
  | e :: es => setEntries (setEntry m a e) (a + 8) es

/-- `GDT.segments`: the null descriptor, code and data of the kernel for 16, 32 and 64 bits, and
code and data of the user for 64 bits. -/
def segments : List Entry :=
  [⟨0, 0, 0, 0, 0, 0⟩,
    ⟨0xffff, 0, 0, 0x9A, 0x80, 0⟩,
    ⟨0xffff, 0, 0, 0x9A, 0x80, 0⟩,
    ⟨0xffff, 0, 0, 0x9A, 0xCF, 0⟩,
    ⟨0xffff, 0, 0, 0x92, 0xCF, 0⟩,
    ⟨0, 0, 0, 0x9A, 0xA2, 0⟩,
    ⟨0, 0, 0, 0x92, 0xA0, 0⟩,
    ⟨0, 0, 0, 0xFA, 0x20, 0⟩,
    ⟨0, 0, 0, 0xF2, 0, 0⟩]

/-- `set_tss_entry`, `GDT` being at `gdt`. -/
def setTssEntry (m : Mem) (gdt base flags access : ℕ) : Mem :=
  let m := store m (gdt + 72) 2 104
  let m := store m (gdt + 74) 2 (base &&& 0xFFFF)
  let m := store m (gdt + 76) 1 (base >>> 16 &&& 0xFF)
  let m := store m (gdt + 77) 1 access
  let m := store m (gdt + 78) 1 flags
  let m := store m (gdt + 79) 1 (base >>> 24 &&& 0xFF)
  let m := store m (gdt + 80) 4 (base >>> 32)
  store m (gdt + 84) 4 0

/-- The address of `TSS[lapic_id]`. -/
def tssAddr (tss : ℕ) (lapicId : BitVec 8) : ℕ := tss + 104 * lapicId.toNat

/-- `init_tss`, `TSS` being at `tss`. -/
def initTss (m : Mem) (gdt tss : ℕ) (lapicId : BitVec 8) (stack : BitVec 64) : Mem :=
  let m := setTssEntry m gdt (tssAddr tss lapicId) 0x20 0x89
  let m := fill m (tssAddr tss lapicId) 0 104
  let m := store m (tssAddr tss lapicId + 4) 8 stack.toNat
  store m (tssAddr tss lapicId + 36) 8 0

/-- `initialize_gdt`, up to the loads of the tables. -/
def initializeGdt (m : Mem) (gdt tss : ℕ) (lapicId : BitVec 8) (stack : BitVec 64) : Mem :=
  initTss (setEntries m gdt segments) gdt tss lapicId stack

/-! ### What the processor reads -/

/-- The segment of an entry. -/
def Entry.segment (e : Entry) : Segment where
  present := e.access.getLsbD 7
  dpl := e.access.toNat / 32 % 4
  memory := e.access.getLsbD 4
  code := e.access.getLsbD 3
  conforming := e.access.getLsbD 2
  writable := e.access.getLsbD 1
  long := e.limitAndFlags.getLsbD 5
  big := e.limitAndFlags.getLsbD 6

variable {m m' : Mem} {a gdt tss : ℕ}

theorem readSegment_congr (h : ∀ x, a ≤ x → x < a + 8 → m x = m' x) :
    readSegment m a = readSegment m' a := by
  rw [readSegment, readSegment, h (a + 5) (by omega) (by omega), h (a + 6) (by omega) (by omega)]

theorem setEntry_of_notMem {x : ℕ} (e : Entry) (hx : x < a ∨ a + 8 ≤ x) :
    setEntry m a e x = m x := by
  simp (disch := omega) only [setEntry, store_of_notMem]

theorem readSegment_setEntry (m : Mem) (a : ℕ) (e : Entry) :
    readSegment (setEntry m a e) a = e.segment := by
  have haccess : setEntry m a e (a + 5) = e.access := by
    simp (disch := omega) only [setEntry, store_of_notMem, store_byte,
      BitVec.ofNat_toNat, BitVec.setWidth_eq]
  have hflags : setEntry m a e (a + 6) = e.limitAndFlags := by
    simp (disch := omega) only [setEntry, store_of_notMem, store_byte,
      BitVec.ofNat_toNat, BitVec.setWidth_eq]
  rw [readSegment, haccess, hflags]
  rfl

theorem setEntries_of_notMem {x : ℕ} (es : List Entry) (hx : x < a ∨ a + 8 * es.length ≤ x) :
    setEntries m a es x = m x := by
  induction es generalizing m a with
  | nil => rfl
  | cons e es ih =>
    rw [List.length_cons] at hx
    rw [setEntries, ih (by omega), setEntry_of_notMem e (by omega)]

theorem readSegment_setEntries {es : List Entry} {i : ℕ} {e : Entry} (he : es[i]? = some e) :
    readSegment (setEntries m a es) (a + 8 * i) = e.segment := by
  induction es generalizing m a i with
  | nil => simp at he
  | cons e' es ih =>
    rw [setEntries]
    cases i with
    | zero =>
      obtain rfl := Option.some.inj he
      rw [← readSegment_setEntry m a e']
      exact readSegment_congr fun x hx hx' => setEntries_of_notMem es (by omega)
    | succ i =>
      have hrest := ih (m := setEntry m a e') (a := a + 8) he
      rwa [show a + 8 * (i + 1) = a + 8 + 8 * i by ring]

theorem setTssEntry_of_notMem {x base flags access : ℕ} (hx : x < gdt + 72 ∨ gdt + 88 ≤ x) :
    setTssEntry m gdt base flags access x = m x := by
  simp (disch := omega) only [setTssEntry, store_of_notMem]

/-- The four fields of the base are its bytes. -/
theorem readBase_setTssEntry (m : Mem) (gdt : ℕ) {base : ℕ} (hbase : base < 2 ^ 64)
    (flags access : ℕ) : readBase (setTssEntry m gdt base flags access) (gdt + 72) = base := by
  have hlow : load (setTssEntry m gdt base flags access) (gdt + 74) 2 = base % 2 ^ 16 := by
    simp (disch := omega) only [setTssEntry, load_store_of_disjoint, load_store_self]
    rw [show 0xFFFF = 2 ^ 16 - 1 from rfl, Nat.and_two_pow_sub_one_eq_mod]
    omega
  have hmid : load (setTssEntry m gdt base flags access) (gdt + 76) 1 = base / 2 ^ 16 % 2 ^ 8 := by
    simp (disch := omega) only [setTssEntry, load_store_of_disjoint, load_store_self]
    rw [show 0xFF = 2 ^ 8 - 1 from rfl, Nat.and_two_pow_sub_one_eq_mod, Nat.shiftRight_eq_div_pow]
    omega
  have hhigh : load (setTssEntry m gdt base flags access) (gdt + 79) 1 = base / 2 ^ 24 % 2 ^ 8 := by
    simp (disch := omega) only [setTssEntry, load_store_of_disjoint, load_store_self]
    rw [show 0xFF = 2 ^ 8 - 1 from rfl, Nat.and_two_pow_sub_one_eq_mod, Nat.shiftRight_eq_div_pow]
    omega
  have htop : load (setTssEntry m gdt base flags access) (gdt + 80) 4 = base / 2 ^ 32 := by
    simp (disch := omega) only [setTssEntry, load_store_of_disjoint, load_store_self]
    rw [Nat.shiftRight_eq_div_pow]
    omega
  rw [readBase, hlow, hmid, hhigh, htop]
  omega

theorem initTss_of_notMem {x : ℕ} {lapicId : BitVec 8} (stack : BitVec 64)
    (hgdt : x < gdt + 72 ∨ gdt + 88 ≤ x) (htss : x < tss ∨ tss + 26624 ≤ x) :
    initTss m gdt tss lapicId stack x = m x := by
  have hid := lapicId.isLt
  rw [initTss, tssAddr]
  simp (disch := omega) only [store_of_notMem, fill_of_notMem, setTssEntry_of_notMem]

/-- The tables do not overlap. -/
structure Apart (gdt tss : ℕ) : Prop where
  apart : gdt + 88 ≤ tss ∨ tss + 26624 ≤ gdt
  bound : tss + 26624 ≤ 2 ^ 64

section Initialized

variable (m) (h : Apart gdt tss) (lapicId : BitVec 8) (stack : BitVec 64)
include h

/-- The processor reads the segments of the table. -/
theorem readSegment_initializeGdt {i : ℕ} {e : Entry} (he : segments[i]? = some e) :
    readSegment (initializeGdt m gdt tss lapicId stack) (gdt + 8 * i) = e.segment := by
  have hi : i < 9 := (List.getElem?_eq_some_iff.mp he).1
  have hapart := h.apart
  rw [← readSegment_setEntries (m := m) (a := gdt) he]
  exact readSegment_congr fun x hx hx' => initTss_of_notMem stack (by omega) (by omega)

/-- The processor reads the address of the task state segment. -/
theorem readBase_initializeGdt :
    readBase (initializeGdt m gdt tss lapicId stack) (gdt + 72) = tssAddr tss lapicId := by
  have hid := lapicId.isLt
  have hapart := h.apart
  have hbound := h.bound
  have hlt : tssAddr tss lapicId < 2 ^ 64 := by
    rw [tssAddr]
    omega
  rw [← readBase_setTssEntry (setEntries m gdt segments) gdt hlt 0x20 0x89, readBase, readBase,
    initializeGdt, initTss]
  simp only [tssAddr]
  have hload (b k : ℕ) (hb : gdt ≤ b) (hk : b + k ≤ gdt + 88) (m : Mem) :
      load (store (store (fill m (tss + 104 * lapicId.toNat) 0 104)
        (tss + 104 * lapicId.toNat + 4) 8 stack.toNat) (tss + 104 * lapicId.toNat + 36) 8 0) b k =
      load m b k := by
    rw [load_store_of_disjoint (by omega), load_store_of_disjoint (by omega)]
    exact load_congr fun x hx hx' => fill_of_notMem (by omega)
  rw [hload _ _ (by omega) (by omega), hload _ _ (by omega) (by omega),
    hload _ _ (by omega) (by omega), hload _ _ (by omega) (by omega)]

omit h in
/-- The task state segment has the stack for the kernel. -/
theorem stack_initializeGdt (gdt tss : ℕ) :
    load (initializeGdt m gdt tss lapicId stack) (tssAddr tss lapicId + 4) 8 = stack.toNat := by
  rw [initializeGdt, initTss, load_store_of_disjoint (by omega), load_store_self]
  exact Nat.mod_eq_of_lt stack.isLt

end Initialized

end Vardar.Gdt
