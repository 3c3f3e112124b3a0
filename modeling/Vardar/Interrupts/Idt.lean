import Vardar.Lib.Protection
import Vardar.Lib.LastWrite

/-!
# The interrupt descriptor table

`SetIdtEntry` splits the address of a handler into three fields of a packed entry. The processor
reads it as a gate with the whole address.

## Main definitions

* `Vardar.Idt.setIdtEntry`, `Vardar.Idt.initializeIdt`.
* `Vardar.Idt.gate`: the gate of an entry.

## Main results

* `Vardar.Idt.readGate_of_run`: after every sequence of calls, the gate of a vector is that of the
  last call for it.
-/

namespace Vardar.Idt

open ByteMemory Protection

/-! ### The code -/

/-- `INTERRUPT_GATE`. -/
def interruptGate : BitVec 8 := 0x8E

/-- `USER_MODE_INT`. -/
def userModeInt : BitVec 8 := 0x60

/-- The arguments of `SetIdtEntry`. -/
structure Call where
  vector : BitVec 8
  isr : BitVec 64
  flags : BitVec 8

/-- `SetIdtEntry`, `IDT` being at `idt`. -/
def setIdtEntry (idt : ℕ) (m : Mem) (c : Call) : Mem :=
  let desc := idt + 16 * c.vector.toNat
  let m := store m desc 2 (c.isr.toNat &&& 0xFFFF)
  let m := store m (desc + 6) 2 (c.isr.toNat >>> 16 &&& 0xFFFF)
  let m := store m (desc + 8) 4 (c.isr.toNat >>> 32 &&& 0xFFFFFFFF)
  let m := store m (desc + 2) 2 0x28
  let m := store m (desc + 4) 1 0
  let m := store m (desc + 5) 1 c.flags.toNat
  store m (desc + 12) 4 0

/-- The calls of `InitializeIdt`. -/
def entries (isr1 isr2 isr80 : BitVec 64) : List Call :=
  [⟨0x21, isr1, interruptGate⟩, ⟨0x22, isr2, interruptGate⟩,
    ⟨0x80, isr80, interruptGate ||| userModeInt⟩]

/-- `InitializeIdt`, up to the table it loads. -/
def initializeIdt (idt : ℕ) (m : Mem) (isr1 isr2 isr80 : BitVec 64) : Mem :=
  (entries isr1 isr2 isr80).foldl (setIdtEntry idt) m

/-! ### What the processor reads -/

/-- The gate of a call. -/
def gate (c : Call) : Gate where
  offset := c.isr
  selector := 0x28
  ist := 0
  kind := c.flags.toNat % 16
  system := c.flags.getLsbD 4
  dpl := c.flags.toNat / 32 % 4
  present := c.flags.getLsbD 7

variable {m m' : Mem} {idt a : ℕ}

theorem readGate_congr (h : ∀ x, a ≤ x → x < a + 16 → m x = m' x) :
    readGate m a = readGate m' a := by
  have hload (b k : ℕ) (hb : a ≤ b) (hk : b + k ≤ a + 16) : load m b k = load m' b k :=
    load_congr fun x hx hx' => h x (by omega) (by omega)
  rw [readGate, readGate, hload a 2 (by omega) (by omega), hload (a + 6) 2 (by omega) (by omega),
    hload (a + 8) 4 (by omega) (by omega), hload (a + 2) 2 (by omega) (by omega),
    h (a + 4) (by omega) (by omega), h (a + 5) (by omega) (by omega)]

theorem setIdtEntry_of_notMem {x : ℕ} {c : Call}
    (hx : x < idt + 16 * c.vector.toNat ∨ idt + 16 * c.vector.toNat + 16 ≤ x) :
    setIdtEntry idt m c x = m x := by
  simp (disch := omega) only [setIdtEntry, store_of_notMem]

/-- The three fields of the address are put together. -/
theorem readGate_setIdtEntry (idt : ℕ) (m : Mem) (c : Call) :
    readGate (setIdtEntry idt m c) (idt + 16 * c.vector.toNat) = gate c := by
  have hlt := c.isr.isLt
  have hlow : load (setIdtEntry idt m c) (idt + 16 * c.vector.toNat) 2 = c.isr.toNat % 2 ^ 16 := by
    simp (disch := omega) only [setIdtEntry, load_store_of_disjoint, load_store_self]
    rw [show 0xFFFF = 2 ^ 16 - 1 from rfl, Nat.and_two_pow_sub_one_eq_mod]
    omega
  have hmid : load (setIdtEntry idt m c) (idt + 16 * c.vector.toNat + 6) 2 =
      c.isr.toNat / 2 ^ 16 % 2 ^ 16 := by
    simp (disch := omega) only [setIdtEntry, load_store_of_disjoint, load_store_self]
    rw [show 0xFFFF = 2 ^ 16 - 1 from rfl, Nat.and_two_pow_sub_one_eq_mod,
      Nat.shiftRight_eq_div_pow]
    omega
  have hhigh : load (setIdtEntry idt m c) (idt + 16 * c.vector.toNat + 8) 4 =
      c.isr.toNat / 2 ^ 32 := by
    simp (disch := omega) only [setIdtEntry, load_store_of_disjoint, load_store_self]
    rw [show 0xFFFFFFFF = 2 ^ 32 - 1 from rfl, Nat.and_two_pow_sub_one_eq_mod,
      Nat.shiftRight_eq_div_pow]
    omega
  have hselector : load (setIdtEntry idt m c) (idt + 16 * c.vector.toNat + 2) 2 = 0x28 := by
    simp (disch := omega) only [setIdtEntry, load_store_of_disjoint, load_store_self]
    rfl
  have hist : setIdtEntry idt m c (idt + 16 * c.vector.toNat + 4) = 0 := by
    simp (disch := omega) only [setIdtEntry, store_of_notMem, store_byte]
    rfl
  have hflags : setIdtEntry idt m c (idt + 16 * c.vector.toNat + 5) = c.flags := by
    simp (disch := omega) only [setIdtEntry, store_of_notMem, store_byte,
      BitVec.ofNat_toNat, BitVec.setWidth_eq]
  have hsum : c.isr.toNat % 2 ^ 16 + 2 ^ 16 * (c.isr.toNat / 2 ^ 16 % 2 ^ 16) +
      2 ^ 32 * (c.isr.toNat / 2 ^ 32) = c.isr.toNat := by omega
  rw [readGate, hlow, hmid, hhigh, hselector, hist, hflags, hsum, BitVec.ofNat_toNat,
    BitVec.setWidth_eq]
  rfl

/-- **The gates are those of the last calls.** After every sequence of calls of `SetIdtEntry`, the
processor finds at a vector the gate of the last call for it, with the whole address of the handler,
or the gate that was there before. -/
theorem readGate_of_run (idt : ℕ) (m : Mem) (cs : List Call) (vector : BitVec 8) :
    readGate (cs.foldl (setIdtEntry idt) m) (idt + 16 * vector.toNat) =
      LastWrite.last (cs.map fun c => (c.vector, gate c)) vector
        (readGate m (idt + 16 * vector.toNat)) := by
  induction cs generalizing m with
  | nil => rfl
  | cons c cs ih =>
    rw [List.foldl_cons, ih, List.map_cons, LastWrite.last_cons]
    congr 1
    by_cases hc : c.vector = vector
    · rw [if_pos hc, ← hc, readGate_setIdtEntry]
    · have hne : c.vector.toNat ≠ vector.toNat := fun h => hc (BitVec.eq_of_toNat_eq h)
      rw [if_neg hc]
      exact readGate_congr fun x hx hx' => setIdtEntry_of_notMem (by omega)

end Vardar.Idt
