import Vardar.Pmm.Ownership

/-!
# What the frame allocator does to memory

The bitmap is part of the memory whose frames are handed out. A call of the allocator writes to the
bitmap and zeroes the frames it hands out or takes back; no other byte changes. A write outside the
bitmap keeps the invariant of the allocator.

## Main definitions

* `Vardar.Pmm.Off`, `Vardar.Pmm.SameOff`: bytes outside the bitmap.

## Main results

* `Vardar.Pmm.State.Inv.takeFrame`, `Vardar.Pmm.State.Inv.takeRegion`,
  `Vardar.Pmm.State.Inv.giveFrame`: the effects of the three calls.
* `Vardar.Pmm.State.Inv.write`: writes outside the bitmap.
-/

namespace Vardar.Pmm

open ByteMemory Word Bitmap

/-- An address outside the bitmap. -/
def Off (p : Pmm) (x : ℕ) : Prop := x < p.bitmap ∨ p.bitmap + p.bitmapSize ≤ x

/-- Two memories that agree outside the bitmap. -/
def SameOff (p : Pmm) (m m' : Mem) : Prop := ∀ x, p.Off x → m x = m' x

namespace SameOff

variable {p : Pmm} {m m' m'' : Mem}

theorem refl (p : Pmm) (m : Mem) : SameOff p m m := fun _ _ => rfl

theorem symm (h : SameOff p m m') : SameOff p m' m := fun x hx => (h x hx).symm

theorem trans (h : SameOff p m m') (h' : SameOff p m' m'') : SameOff p m m'' :=
  fun x hx => (h x hx).trans (h' x hx)

theorem fill (h : SameOff p m m') (a : ℕ) (v : BitVec 8) (n : ℕ) :
    SameOff p (fill m a v n) (fill m' a v n) := by
  intro x hx
  simp only [ByteMemory.fill, h x hx]

theorem store (h : SameOff p m m') (a n v : ℕ) : SameOff p (store m a n v) (store m' a n v) := by
  intro x hx
  simp only [ByteMemory.store, h x hx]

theorem load_eq (h : SameOff p m m') {a n : ℕ} (hoff : ∀ x, a ≤ x → x < a + n → p.Off x) :
    load m a n = load m' a n :=
  load_congr fun x hx hx' => h x (hoff x hx hx')

end SameOff

variable {G : ℕ → Prop} {p : Pmm}

/-- Grantable frames are outside the bitmap. -/
theorem Layout.off (h : Layout G p) {f x : ℕ} (hf : G f) (hx : x / frameSize = f) : p.Off x := by
  have hap := h.apart f hf
  simp only [frameSize] at hap hx
  rw [Off]
  omega

/-- Setting a bit of the bitmap. -/
theorem Layout.sameOff_setBit (h : Layout G p) {i : ℕ} (hi : i ≤ p.numEntries + 1) (m : Mem) :
    SameOff p (setBit m p.bitmap i) m := by
  intro x hx
  have hb := h.byte_lt hi
  rw [Off] at hx
  exact setBit_of_ne (by omega)

theorem Layout.sameOff_clearBit (h : Layout G p) {i : ℕ} (hi : i ≤ p.numEntries + 1) (m : Mem) :
    SameOff p (clearBit m p.bitmap i) m := by
  intro x hx
  have hb := h.byte_lt hi
  rw [Off] at hx
  exact clearBit_of_ne (by omega)

/-- Marking a chunk changes bytes of the bitmap only. -/
theorem sameOff_setPagesUsed {p q q' : Pmm} (hl : Layout G p) (hs : SameMap p q) {i tail fuel : ℕ}
    (htail : tail ≤ p.numEntries + 1) (hr : setPagesUsed tail fuel i q = some q') :
    SameOff p q'.mem q.mem := by
  have hsmall := hl.small
  induction fuel generalizing i q with
  | zero => simp [setPagesUsed] at hr
  | succ fuel ih =>
    rw [setPagesUsed] at hr
    split_ifs at hr with hle
    · have hi : i ≤ tail := by exact_mod_cast hle
      have hset := (hl.congr hs).setUsed_eq (i := i) (by rw [hs.1]; omega)
      rw [int32_natCast_add_one (by omega)] at hr
      have hrest := ih (q := q.setPageUsed i) (by rw [hset]; exact hs) hr
      rw [hset] at hrest
      refine hrest.trans ?_
      rw [hs.2.2]
      exact hl.sameOff_setBit (by omega) q.mem
    · rw [Option.some.inj hr]
      exact SameOff.refl p q'.mem

/-- `AllocContiguous` changes bytes of the bitmap and zeroes the region it returns. -/
theorem allocContiguousFrom_mem {p q : Pmm} (hl : Layout G p)
    (hlast : bit p.mem p.bitmap (p.numEntries + 1) = true) {numPages inner fuel head a : ℕ}
    (hhead : head ≤ p.numEntries + 1)
    (hr : allocContiguousFrom numPages inner fuel head p = some (some a, q)) :
    SameOff p q.mem (memset p.mem a 0 (frameSize * numPages)) := by
  have hsmall := hl.small
  induction fuel generalizing head with
  | zero => simp [allocContiguousFrom] at hr
  | succ fuel ih =>
    rw [allocContiguousFrom, int32_natCast (by omega)] at hr
    by_cases hstop : head = p.lastUsed
    · simp [if_pos hstop] at hr
    rw [if_neg hstop] at hr
    cases hchunk : findChunk p numPages head inner head with
    | none => simp only [hchunk, reduceCtorEq] at hr
    | some c =>
      obtain ⟨found, tail⟩ := c
      rcases findChunk_spec hl hlast le_rfl hhead (by omega) (by omega) hchunk with
        ⟨rfl, k, hk, rfl⟩ | ⟨rfl, rfl, hle, -⟩
      -- a used frame: the search goes on after it
      · simp only [hchunk] at hr
        split_ifs at hr with hzero
        rw [u64_natCast (by omega), add64_of_lt (by omega)] at hr
        have hnext : (k + 1) % p.numEntries < p.numEntries := Nat.mod_lt _ (by omega)
        exact ih (by omega) hr
      · simp only [hchunk] at hr
        cases hset : setPagesUsed ((head + numPages + 1 : ℕ) : ℤ) inner head p with
        | none => simp only [hset, reduceCtorEq] at hr
        | some q' =>
          have hoff := sameOff_setPagesUsed hl ⟨rfl, rfl, rfl⟩ (by omega) hset
          simp only [hset, Option.some.injEq, Prod.mk.injEq] at hr
          obtain ⟨rfl, rfl⟩ := hr
          rw [Nat.mod_eq_of_lt (a := frameSize * numPages) (by simp only [frameSize]; omega)]
          exact hoff.fill _ _ _

namespace State

variable {s : State} {q : Pmm}

/-- A write outside the bitmap. -/
theorem Inv.write (hi : Inv G p s) (hl : Layout G p) {m : Mem}
    (hm : ∀ x, p.bitmap ≤ x → x < p.bitmap + p.bitmapSize → m x = s.pmm.mem x) :
    Inv G p ⟨{ s.pmm with mem := m }, s.live⟩ := by
  refine ⟨hi.same, hi.cursor, fun i hin hbit => hi.clear i hin ?_, hi.held, hi.cleared⟩
  have hb := hl.byte_lt hin
  rw [← bit_congr (hm _ (by omega) hb)]
  exact hbit

/-- `AllocFirstFrame` fails without effect, or hands out a zeroed frame. -/
theorem Inv.takeFrame (hi : Inv G p s) (hl : Layout G p) {fuel : ℕ} {o : Option ℕ}
    (hr : s.pmm.allocFirstFrame fuel = some (o, q)) :
    (o = none ∧ q = s.pmm) ∨ ∃ j, o = some (j * frameSize) ∧ G j ∧ j ∉ s.live ∧
      Inv G p ⟨q, j :: s.live⟩ ∧
        SameOff p q.mem (memset s.pmm.mem (j * frameSize) 0 frameSize) := by
  have hinv := hi.allocFirstFrame hl hr
  have hcursor := hi.cursor
  have hsmall := hl.small
  obtain ⟨hN, hZ, hB⟩ := hi.same
  rw [Pmm.allocFirstFrame, int32_natCast (by omega)] at hr
  rcases allocFirstFrameFrom_spec (hl.congr hi.same) (by omega) hr with
    ⟨rfl, rfl⟩ | ⟨j, hj, -, rfl, rfl⟩
  · exact .inl ⟨rfl, rfl⟩
  · simp only [State.grant, Nat.mul_div_cancel _ (show 0 < frameSize by decide)] at hinv
    obtain ⟨hG, hlive⟩ := hinv.1 j (by simp)
    refine .inr ⟨j, rfl, hG, hlive, hinv.2, ?_⟩
    refine SameOff.fill ?_ _ _ _
    rw [hB]
    exact hl.sameOff_setBit (by omega) _

/-- `AllocContiguous` fails without effect, or hands out a zeroed region. -/
theorem Inv.takeRegion (hi : Inv G p s) (hl : Layout G p) {fuel size : ℕ} {o : Option ℕ}
    (hr : s.pmm.allocContiguous fuel size = some (o, q)) :
    (o = none ∧ q = s.pmm) ∨ ∃ a, o = some (a * frameSize) ∧
      (∀ f ∈ List.range' a (numPages size), G f ∧ f ∉ s.live) ∧
      Inv G p ⟨q, List.range' a (numPages size) ++ s.live⟩ ∧
      SameOff p q.mem (memset s.pmm.mem (a * frameSize) 0 (frameSize * numPages size)) := by
  have hinv := hi.allocContiguous hl hr
  have hcursor := hi.cursor
  have hsmall := hl.small
  have hlast := hi.bit_last hl
  have hls := hl.congr hi.same
  obtain ⟨hN, hZ, hB⟩ := hi.same
  rw [← hN, ← hB] at hlast
  rcases allocContiguousFrom_spec hls hlast (by omega) hr with ⟨rfl, rfl⟩ | ⟨a, -, -, -, -, rfl, -⟩
  · exact .inl ⟨rfl, rfl⟩
  · simp only [State.grant, Nat.mul_div_cancel _ (show 0 < frameSize by decide)] at hinv
    have hmem := allocContiguousFrom_mem hls hlast (by omega) hr
    refine .inr ⟨a, rfl, hinv.1, hinv.2, fun x hx => hmem x ?_⟩
    rwa [Off, hB, hZ]

/-- `FreeFrame` zeroes the frame. -/
theorem Inv.giveFrame (hi : Inv G p s) (hl : Layout G p) {f : ℕ} (hf : f ∈ s.live) :
    Inv G p ⟨s.pmm.freeFrame (f * frameSize), s.live.filter fun g => g ≠ f⟩ ∧
      SameOff p (s.pmm.freeFrame (f * frameSize)).mem
        (memset s.pmm.mem (f * frameSize) 0 frameSize) := by
  refine ⟨hi.freeFrame hl hf, ?_⟩
  have hle := hl.le f (hi.held f hf)
  have hsmall := hl.small
  have hlz : Layout G (s.pmm.zero (f * frameSize) frameSize) :=
    (hl.congr hi.same).congr ⟨rfl, rfl, rfl⟩
  obtain ⟨hN, hZ, hB⟩ := hi.same
  have hNz : (s.pmm.zero (f * frameSize) frameSize).numEntries = p.numEntries := hN
  rw [Pmm.freeFrame, show f * frameSize / frameSize = f from Nat.mul_div_cancel _ (by decide),
    int32_natCast (by omega), hlz.setFree_eq (by omega)]
  change SameOff p (clearBit _ s.pmm.bitmap f) _
  rw [hB]
  exact hl.sameOff_clearBit (by omega) _

/-- The bits of the frames held are set. -/
theorem Inv.bit_of_live (hi : Inv G p s) (hl : Layout G p) {f : ℕ} (hf : f ∈ s.live) :
    s.pmm.pageIsUsed f = true := by
  have hle := hl.le f (hi.held f hf)
  rw [(hl.congr hi.same).used_eq (by rw [hi.same.1]; omega), hi.same.2.2]
  by_contra hbit
  exact (hi.clear f (by omega) (by simpa using hbit)).2 hf

end State

end Vardar.Pmm
