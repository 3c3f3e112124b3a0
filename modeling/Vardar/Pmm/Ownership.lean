import Mathlib.Logic.Relation
import Vardar.Lib.Bitmap
import Vardar.Pmm.Pmm

/-!
# Ownership of page frames

A frame is grantable if it lies in a usable entry other than the one that holds the bitmap. In
every state reached after `InitPmm`, a clear bit belongs to a grantable frame that nobody holds,
and every frame handed out is grantable. A grantable frame is disjoint from the bitmap, so zeroing
it leaves the bitmap alone.

## Main definitions

* `Vardar.Pmm.Grantable`: the frames the allocator may hand out.
* `Vardar.Pmm.State`, `Vardar.Pmm.Call`, `Vardar.Pmm.State.Step`: runs of the allocator.
* `Vardar.Pmm.Layout`, `Vardar.Pmm.State.Inv`: the geometry `InitPmm` fixes and the invariant.

## Main results

* `Vardar.Pmm.frames_handed_out_once`: no frame is handed out twice and no memset of the
  allocator touches the bitmap, in any run.
-/

namespace Vardar.Pmm

open ByteMemory Word Bitmap

/-! ### The bitmap operations on indices in range -/

variable {p : Pmm} {n : ℕ}

theorem bitmapByte_natCast (hb : p.bitmap + n / 8 < 2 ^ 64) :
    p.bitmapByte n = p.bitmap + n / 8 := by
  rw [bitmapByte, show ((n : ℤ).tdiv 8) = ((n / 8 : ℕ) : ℤ) from rfl, u64_natCast (by omega),
    add64_of_lt hb]

theorem shiftCount_natCast (n : ℕ) : shiftCount n = n % 8 := by
  rw [shiftCount, show ((n : ℤ).tmod 8) = ((n % 8 : ℕ) : ℤ) from rfl]
  omega

theorem setPageUsed_natCast (hb : p.bitmap + n / 8 < 2 ^ 64) :
    p.setPageUsed n = { p with mem := setBit p.mem p.bitmap n } := by
  rw [setPageUsed, bitmapByte_natCast hb, shiftCount_natCast]
  rfl

theorem setPageFree_natCast (hb : p.bitmap + n / 8 < 2 ^ 64) :
    p.setPageFree n = { p with mem := clearBit p.mem p.bitmap n } := by
  rw [setPageFree, bitmapByte_natCast hb, shiftCount_natCast]
  rfl

theorem pageIsUsed_natCast (hb : p.bitmap + n / 8 < 2 ^ 64) :
    p.pageIsUsed n = bit p.mem p.bitmap n := by
  have hbyte (b : BitVec 8) (j : ℕ) : decide (b >>> j &&& 1#8 = 1#8) = b.getLsbD j := by
    rw [BitVec.and_one_eq_setWidth_ofBool_getLsbD, BitVec.getLsbD_ushiftRight, Nat.add_zero]
    cases b.getLsbD j <;> decide
  rw [pageIsUsed, bitmapByte_natCast hb, shiftCount_natCast, hbyte]
  rfl

/-! ### The loops over the bitmap -/

/-- Marking a chunk sets its bits and no others. -/
theorem setPagesUsed_eq {i tail : ℕ} (hb : p.bitmap + tail / 8 < 2 ^ 64) (h31 : tail + 1 < 2 ^ 31)
    (hi : i ≤ tail + 1) :
    ∃ m, (∀ fuel, setPagesUsed tail fuel i p =
        if tail + 1 < i + fuel then some { p with mem := m } else none) ∧
      ∀ k, bit m p.bitmap k = (bit p.mem p.bitmap k || decide (i ≤ k ∧ k ≤ tail)) := by
  induction hd : tail + 1 - i generalizing i p with
  | zero =>
    refine ⟨p.mem, fun fuel => ?_, fun k => ?_⟩
    · cases fuel with
      | zero => rw [setPagesUsed, if_neg (by omega)]
      | succ fuel => rw [setPagesUsed, if_neg (by omega), if_pos (by omega)]
    · rw [decide_eq_false (by omega), Bool.or_false]
  | succ d ih =>
    have hset := setPageUsed_natCast (p := p) (n := i) (by omega)
    obtain ⟨m, hm, hbit⟩ := ih (p := p.setPageUsed i) (i := i + 1) hb (by omega) (by omega)
    refine ⟨m, fun fuel => ?_, fun k => ?_⟩
    · cases fuel with
      | zero => rw [setPagesUsed, if_neg (by omega)]
      | succ fuel =>
        rw [setPagesUsed, if_pos (by omega), int32_natCast_add_one (by omega), hm fuel, hset,
          show i + 1 + fuel = i + (fuel + 1) by omega]
    · refine (hbit k).trans ?_
      rw [hset, bit_setBit, Bool.or_assoc, ← Bool.decide_or]
      congr 2
      rw [eq_iff_iff]
      omega

/-- Freeing the pages of an entry clears their bits and no others. -/
theorem setPagesFree_eq {endingPage fuel i : ℕ} (hi : i < 2 ^ 32)
    (hb : i < endingPage → endingPage ≤ 2 ^ 31 ∧ p.bitmap + (endingPage - 1) / 8 < 2 ^ 64)
    (hfuel : endingPage ≤ i + fuel) :
    ∃ m, setPagesFree endingPage fuel (int32 i) p = { p with mem := m } ∧ ∀ k,
      bit m p.bitmap k = (bit p.mem p.bitmap k && decide (¬ (i ≤ k ∧ k < endingPage))) := by
  induction fuel generalizing i p with
  | zero =>
    refine ⟨p.mem, rfl, fun k => ?_⟩
    rw [decide_eq_true (by omega), Bool.and_true]
  | succ fuel ih =>
    rw [setPagesFree]
    by_cases hlt : i < endingPage
    · obtain ⟨h31, hbyte⟩ := hb hlt
      have hset := setPageFree_natCast (p := p) (n := i) (by omega)
      rw [int32_natCast (by omega), u64_natCast (by omega), if_pos hlt]
      obtain ⟨m, hm, hbit⟩ := ih (p := p.setPageFree i) (i := i + 1) (by omega)
        (fun _ => ⟨h31, hbyte⟩) (by omega)
      refine ⟨m, hm.trans (by rw [hset]), fun k => ?_⟩
      refine (hbit k).trans ?_
      rw [hset, bit_clearBit, Bool.and_assoc, ← Bool.decide_and]
      congr 2
      rw [eq_iff_iff]
      omega
    · have hle := le_u64_int32 hi
      rw [if_neg (by omega)]
      refine ⟨p.mem, rfl, fun k => ?_⟩
      rw [decide_eq_true (by omega), Bool.and_true]

/-! ### The geometry `InitPmm` fixes -/

/-- What the boot loader promises of a memory map: entries sorted by base, usable ones aligned,
one after the other, below `2 ^ 42` and without frame 0. -/
structure MemmapOk (memmap : List MmapEntry) : Prop where
  sorted : memmap.Pairwise fun e e' => e.base ≤ e'.base
  aligned : ∀ e ∈ memmap, e.type = usablePage →
    e.base % frameSize = 0 ∧ e.length % frameSize = 0
  apart : memmap.Pairwise fun e e' =>
    e.type = usablePage → e'.type = usablePage → e.base + e.length ≤ e'.base
  below : ∀ e ∈ memmap, e.type = usablePage → e.base + e.length ≤ 2 ^ 42
  frameZero : ∀ e ∈ memmap, e.type = usablePage → e.base = 0 → e.length = 0

/-- Frame `f` lies in a usable entry other than entry `bmpInd`. -/
def Grantable (memmap : List MmapEntry) (bmpInd : Option ℕ) (f : ℕ) : Prop :=
  ∃ i e, memmap[i]? = some e ∧ some i ≠ bmpInd ∧ e.type = usablePage ∧
    e.base ≤ f * frameSize ∧ f * frameSize + frameSize ≤ e.base + e.length

/-- The bitmap covers the frames up to `num_entries + 1`, grantable frames have an index up to
`num_entries`, and none of them overlaps the bitmap. -/
structure Layout (G : ℕ → Prop) (p : Pmm) : Prop where
  small : p.numEntries < 2 ^ 30
  fits : p.bitmap + p.bitmapSize ≤ 2 ^ 42
  covers : p.numEntries + 1 < 8 * p.bitmapSize
  le : ∀ f, G f → f ≤ p.numEntries
  apart : ∀ f, G f →
    f * frameSize + frameSize ≤ p.bitmap ∨ p.bitmap + p.bitmapSize ≤ f * frameSize

/-- The fields that no call changes. -/
def SameMap (p p' : Pmm) : Prop :=
  p'.numEntries = p.numEntries ∧ p'.bitmapSize = p.bitmapSize ∧ p'.bitmap = p.bitmap

theorem SameMap.trans {p p' p'' : Pmm} (h : SameMap p p') (h' : SameMap p' p'') :
    SameMap p p'' :=
  ⟨h'.1.trans h.1, h'.2.1.trans h.2.1, h'.2.2.trans h.2.2⟩

/-- A run of frames that are apart from the bitmap holds no byte of it. -/
theorem notMem_of_apart {G : ℕ → Prop} {p : Pmm}
    (hapart : ∀ f, G f →
      f * frameSize + frameSize ≤ p.bitmap ∨ p.bitmap + p.bitmapSize ≤ f * frameSize)
    {a k : ℕ} (hG : ∀ j < k, G (a + j)) {x : ℕ} (hx : p.bitmap ≤ x)
    (hx' : x < p.bitmap + p.bitmapSize) :
    x < a * frameSize ∨ a * frameSize + frameSize * k ≤ x := by
  by_contra hin
  simp only [frameSize] at hin
  have hlt : x / 4096 - a < k := by omega
  have hap := hapart _ (hG _ hlt)
  simp only [frameSize] at hap
  omega

namespace Layout

variable {G : ℕ → Prop} {p p' : Pmm} {i : ℕ}

theorem congr (h : Layout G p) (hs : SameMap p p') : Layout G p' := by
  obtain ⟨hn, hz, hb⟩ := hs
  exact ⟨hn ▸ h.small, hb ▸ hz ▸ h.fits, hn ▸ hz ▸ h.covers, hn ▸ h.le, hb ▸ hz ▸ h.apart⟩

theorem byte_lt (h : Layout G p) (hi : i ≤ p.numEntries + 1) :
    p.bitmap + i / 8 < p.bitmap + p.bitmapSize := by
  have hc := h.covers
  omega

theorem used_eq (h : Layout G p) (hi : i ≤ p.numEntries + 1) :
    p.pageIsUsed i = bit p.mem p.bitmap i := by
  have hb := h.byte_lt hi
  have hf := h.fits
  exact pageIsUsed_natCast (by omega)

theorem setUsed_eq (h : Layout G p) (hi : i ≤ p.numEntries + 1) :
    p.setPageUsed i = { p with mem := setBit p.mem p.bitmap i } := by
  have hb := h.byte_lt hi
  have hf := h.fits
  exact setPageUsed_natCast (by omega)

theorem setFree_eq (h : Layout G p) (hi : i ≤ p.numEntries + 1) :
    p.setPageFree i = { p with mem := clearBit p.mem p.bitmap i } := by
  have hb := h.byte_lt hi
  have hf := h.fits
  exact setPageFree_natCast (by omega)

theorem apart_run (h : Layout G p) {a k : ℕ} (hG : ∀ j < k, G (a + j)) {x : ℕ}
    (hx : p.bitmap ≤ x) (hx' : x < p.bitmap + p.bitmapSize) :
    x < a * frameSize ∨ a * frameSize + frameSize * k ≤ x :=
  notMem_of_apart h.apart hG hx hx'

theorem bit_zero (h : Layout G p) {a k : ℕ} (hG : ∀ j < k, G (a + j)) (hi : i ≤ p.numEntries + 1) :
    bit (memset p.mem (a * frameSize) 0 (frameSize * k)) p.bitmap i = bit p.mem p.bitmap i :=
  bit_congr (fill_of_notMem (h.apart_run hG (by omega) (h.byte_lt hi)))

end Layout

/-! ### The two searches -/

section Search

variable {G : ℕ → Prop} {p p' : Pmm} {r : Option ℕ}

/-- `AllocFirstFrame` fails without effect, or takes a frame with a clear bit. -/
theorem allocFirstFrameFrom_spec (h : Layout G p) {fuel i : ℕ} (hi : i ≤ p.numEntries + 1)
    (hr : allocFirstFrameFrom fuel i p = some (r, p')) :
    (r = none ∧ p' = p) ∨ ∃ j ≤ p.numEntries + 1, bit p.mem p.bitmap j = false ∧
      r = some (j * frameSize) ∧
      p' = ({ p with mem := setBit p.mem p.bitmap j, lastUsed := j } : Pmm).zero (j * frameSize)
        frameSize := by
  have hsmall := h.small
  induction fuel generalizing i with
  | zero => simp [allocFirstFrameFrom] at hr
  | succ fuel ih =>
    rw [allocFirstFrameFrom, u64_natCast (by omega), h.used_eq hi] at hr
    split_ifs at hr with hlast hused hzero
    · obtain ⟨rfl, rfl⟩ := Prod.mk.inj (Option.some.inj hr)
      exact .inl ⟨rfl, rfl⟩
    · have hnext : (i + 1) % p.numEntries < p.numEntries := Nat.mod_lt _ (by omega)
      rw [int32_natCast_add_one (by omega), u64_natCast (by omega), int32_natCast (by omega)] at hr
      exact ih (by omega) hr
    · rw [h.setUsed_eq hi, Nat.mod_eq_of_lt (by simp only [frameSize]; omega)] at hr
      obtain ⟨rfl, rfl⟩ := Prod.mk.inj (Option.some.inj hr)
      exact .inr ⟨i, hi, by simpa using hused, rfl, rfl⟩

/-- The inner loop of `AllocContiguous` stops at a used frame, or has seen `num_pages + 1` clear
bits from `head` on. The set bit after the last frame keeps it inside the bitmap. -/
theorem findChunk_spec (h : Layout G p) (hlast : bit p.mem p.bitmap (p.numEntries + 1) = true)
    {numPages head fuel t : ℕ} {found : Bool} {tail : ℤ} (hht : head ≤ t)
    (ht : t ≤ p.numEntries + 1) (htn : t ≤ head + numPages + 1)
    (hclear : ∀ k, head ≤ k → k < t → bit p.mem p.bitmap k = false)
    (hr : findChunk p numPages head fuel t = some (found, tail)) :
    (found = false ∧ ∃ k ≤ p.numEntries + 1, tail = (k : ℤ)) ∨
      (found = true ∧ tail = ((head + numPages + 1 : ℕ) : ℤ) ∧ head + numPages ≤ p.numEntries ∧
        ∀ k, head ≤ k → k ≤ head + numPages → bit p.mem p.bitmap k = false) := by
  have hsmall := h.small
  induction fuel generalizing t with
  | zero => simp [findChunk] at hr
  | succ fuel ih =>
    rw [findChunk, u64_natCast (by omega), sub64_of_le hht (by omega), h.used_eq ht] at hr
    split_ifs at hr with hle hused
    · obtain ⟨rfl, rfl⟩ := Prod.mk.inj (Option.some.inj hr)
      exact .inl ⟨rfl, t, ht, rfl⟩
    · have hne : t ≠ p.numEntries + 1 := by
        rintro rfl
        exact hused hlast
      rw [int32_natCast_add_one (by omega)] at hr
      refine ih (by omega) (by omega) (by omega) (fun k hk hk' => ?_) hr
      rcases Nat.lt_succ_iff_lt_or_eq.mp hk' with hlt | rfl
      · exact hclear k hk hlt
      · simpa using hused
    · obtain ⟨rfl, rfl⟩ := Prod.mk.inj (Option.some.inj hr)
      have htail : t = head + numPages + 1 := by omega
      exact .inr ⟨rfl, by rw [htail], by omega, fun k hk hk' => hclear k hk (by omega)⟩

end Search

/-! ### Runs -/

/-- The allocator and the frames handed out and not freed. -/
structure State where
  pmm : Pmm
  live : List ℕ

/-- The calls of a run. -/
inductive Call
  | allocFirstFrame
  | allocContiguous (size : ℕ)
  | freeFrame (frame : ℕ)

namespace State

/-- Add the `k` frames of the region at the returned address, if there is one. -/
def grant (s : State) (k : ℕ) : Option ℕ × Pmm → List ℕ × State
  | (none, p) => ([], ⟨p, s.live⟩)
  | (some a, p) =>
    let region := List.range' (a / frameSize) k
    (region, ⟨p, region ++ s.live⟩)

/-- The frames a call returns and the state after it, if it returns within `fuel` rounds. -/
def step (fuel : ℕ) (s : State) : Call → Option (List ℕ × State)
  | .allocFirstFrame => (s.pmm.allocFirstFrame fuel).map (s.grant 1)
  | .allocContiguous size => (s.pmm.allocContiguous fuel size).map (s.grant (numPages size))
  | .freeFrame frame =>
    some ([], ⟨s.pmm.freeFrame frame, s.live.filter fun f => f ≠ frame / frameSize⟩)

/-- Only frames handed out are freed. -/
def Allowed (s : State) : Call → Prop
  | .freeFrame frame => ∃ f ∈ s.live, frame = f * frameSize
  | _ => True

/-- One returning call. -/
def Step (s s' : State) : Prop :=
  ∃ fuel c r, s.Allowed c ∧ s.step fuel c = some (r, s')

/-- A clear bit belongs to a grantable frame nobody holds, the frames held are grantable, and
nothing that was zeroed overlaps the bitmap. -/
structure Inv (G : ℕ → Prop) (p : Pmm) (s : State) : Prop where
  same : SameMap p s.pmm
  cursor : add64 s.pmm.lastUsed 1 ≤ p.numEntries + 1
  clear : ∀ i ≤ p.numEntries + 1, bit s.pmm.mem p.bitmap i = false → G i ∧ i ∉ s.live
  held : ∀ i ∈ s.live, G i
  cleared : ∀ z ∈ s.pmm.cleared, ∀ x, p.bitmap ≤ x → x < p.bitmap + p.bitmapSize →
    x < z.1 ∨ z.1 + z.2 ≤ x

variable {G : ℕ → Prop} {p : Pmm} {s s' : State} {r : List ℕ}

theorem Inv.bit_last (hi : Inv G p s) (hl : Layout G p) :
    bit s.pmm.mem p.bitmap (p.numEntries + 1) = true := by
  by_contra hfalse
  have hG := (hi.clear _ le_rfl (by simpa using hfalse)).1
  have hle := hl.le _ hG
  omega

/-- Handing out a run of frames whose bits were clear, when exactly the bits from `a` to `b` are
set and only those frames are zeroed. -/
theorem Inv.grant (hi : Inv G p s) (hl : Layout G p) {a b k : ℕ} {m : Mem} {q : Pmm}
    (hclear : ∀ j < k, a + j ≤ p.numEntries + 1 ∧ bit s.pmm.mem p.bitmap (a + j) = false)
    (hm : ∀ i ≤ p.numEntries + 1,
      bit m p.bitmap i = (bit s.pmm.mem p.bitmap i || decide (a ≤ i ∧ i ≤ b)))
    (hkb : a + k ≤ b + 1) (hsame : SameMap p q) (hcursor : add64 q.lastUsed 1 ≤ p.numEntries + 1)
    (hmem : q.mem = memset m (a * frameSize) 0 (frameSize * k))
    (hcleared : q.cleared = (a * frameSize, frameSize * k) :: s.pmm.cleared) :
    (∀ f ∈ List.range' a k, G f ∧ f ∉ s.live) ∧ Inv G p ⟨q, List.range' a k ++ s.live⟩ := by
  have hG (j : ℕ) (hj : j < k) : G (a + j) ∧ a + j ∉ s.live :=
    hi.clear _ (hclear j hj).1 (hclear j hj).2
  have hregion (f : ℕ) (hf : f ∈ List.range' a k) : G f ∧ f ∉ s.live := by
    obtain ⟨j, hj, rfl⟩ := List.mem_range'.mp hf
    simpa using hG j hj
  refine ⟨hregion, hsame, hcursor, fun i hin hbit => ?_, fun i hmem => ?_, ?_⟩
  · -- the bit was clear before, and its frame is not one of those handed out
    have hlm : Layout G { p with mem := m } := hl.congr ⟨rfl, rfl, rfl⟩
    have hz := hlm.bit_zero (fun j hj => (hG j hj).1) hin
    rw [hmem] at hbit
    rw [hz, hm i hin, Bool.or_eq_false_iff, decide_eq_false_iff_not] at hbit
    obtain ⟨hGi, hfree⟩ := hi.clear i hin hbit.1
    refine ⟨hGi, fun hmem => ?_⟩
    rcases List.mem_append.mp hmem with hmem | hmem
    · obtain ⟨j, hj, rfl⟩ := List.mem_range'.mp hmem
      omega
    · exact hfree hmem
  · rcases List.mem_append.mp hmem with hmem | hmem
    · exact (hregion i hmem).1
    · exact hi.held i hmem
  · intro z hz x hx hx'
    rw [hcleared] at hz
    rcases List.mem_cons.mp hz with rfl | hz
    · exact hl.apart_run (fun j hj => (hG j hj).1) hx hx'
    · exact hi.cleared z hz x hx hx'

theorem Inv.allocFirstFrame (hi : Inv G p s) (hl : Layout G p) {fuel : ℕ} {o : Option ℕ}
    {q : Pmm} (hr : s.pmm.allocFirstFrame fuel = some (o, q)) :
    (∀ f ∈ (s.grant 1 (o, q)).1, G f ∧ f ∉ s.live) ∧ Inv G p (s.grant 1 (o, q)).2 := by
  have hls := hl.congr hi.same
  have hsmall := hl.small
  have hcursor := hi.cursor
  obtain ⟨hN, -, hB⟩ := hi.same
  rw [Pmm.allocFirstFrame, int32_natCast (by omega)] at hr
  rcases allocFirstFrameFrom_spec hls (by omega) hr with ⟨rfl, rfl⟩ | ⟨j, hj, hbit, rfl, rfl⟩
  · exact ⟨by simp [State.grant], hi⟩
  · rw [hN] at hj
    rw [hB] at hbit
    have hle := hl.le j (hi.clear j hj hbit).1
    simp only [State.grant, frameSize, Nat.mul_div_cancel _ (show 0 < 4096 by decide)]
    refine hi.grant hl (b := j) (m := setBit s.pmm.mem p.bitmap j) ?_ ?_ le_rfl hi.same ?_ ?_ rfl
    · intro i hi'
      obtain rfl : i = 0 := by omega
      exact ⟨hj, hbit⟩
    · intro i _
      rw [bit_setBit]
      congr 2
      rw [eq_iff_iff]
      omega
    · change add64 j 1 ≤ _
      rw [add64_of_lt (by omega)]
      omega
    · simp only [Pmm.zero, hB, frameSize, Nat.mul_one]

/-- The outer loop of `AllocContiguous` fails without effect, or takes a chunk of clear bits. -/
theorem allocContiguousFrom_spec (hl : Layout G s.pmm)
    (hlast : bit s.pmm.mem s.pmm.bitmap (s.pmm.numEntries + 1) = true) {numPages inner fuel head : ℕ}
    {o : Option ℕ} {q : Pmm} (hhead : head ≤ s.pmm.numEntries + 1)
    (hr : allocContiguousFrom numPages inner fuel head s.pmm = some (o, q)) :
    (o = none ∧ q = s.pmm) ∨ ∃ a m, a + numPages ≤ s.pmm.numEntries ∧
      (∀ k, a ≤ k → k ≤ a + numPages → bit s.pmm.mem s.pmm.bitmap k = false) ∧
      (∀ k ≤ s.pmm.numEntries + 1, bit m s.pmm.bitmap k =
        (bit s.pmm.mem s.pmm.bitmap k || decide (a ≤ k ∧ k ≤ a + numPages + 1))) ∧
      o = some (a * frameSize) ∧
      q = { ({ s.pmm with mem := m } : Pmm).zero (a * frameSize) (frameSize * numPages) with
        lastUsed := a + numPages } := by
  have hsmall := hl.small
  induction fuel generalizing head with
  | zero => simp [allocContiguousFrom] at hr
  | succ fuel ih =>
    rw [allocContiguousFrom, int32_natCast (by omega)] at hr
    by_cases hstop : head = s.pmm.lastUsed
    · rw [if_pos hstop] at hr
      obtain ⟨rfl, rfl⟩ := Prod.mk.inj (Option.some.inj hr)
      exact .inl ⟨rfl, rfl⟩
    · rw [if_neg hstop] at hr
      cases hchunk : findChunk s.pmm numPages head inner head with
      | none => simp only [hchunk, reduceCtorEq] at hr
      | some c =>
        obtain ⟨found, tail⟩ := c
        rcases findChunk_spec hl hlast le_rfl hhead (by omega) (by omega) hchunk with
          ⟨rfl, k, hk, rfl⟩ | ⟨rfl, rfl, hle, hclear⟩
        -- a used frame: the search goes on after it
        · simp only [hchunk] at hr
          split_ifs at hr with hzero
          rw [u64_natCast (by omega), add64_of_lt (by omega)] at hr
          have hnext : (k + 1) % s.pmm.numEntries < s.pmm.numEntries := Nat.mod_lt _ (by omega)
          exact ih (by omega) hr
        · simp only [hchunk] at hr
          have hbyte := hl.byte_lt (i := head + numPages + 1) (by omega)
          have hfits := hl.fits
          obtain ⟨m, hm, hbit⟩ := setPagesUsed_eq (i := head)
            (show s.pmm.bitmap + (head + numPages + 1) / 8 < 2 ^ 64 by omega) (by omega) (by omega)
          rw [hm inner] at hr
          split_ifs at hr
          simp only at hr
          rw [Nat.mod_eq_of_lt (a := head * frameSize) (by simp only [frameSize]; omega),
            Nat.mod_eq_of_lt (by simp only [frameSize]; omega), add64_of_lt (by omega)] at hr
          obtain ⟨rfl, rfl⟩ := Prod.mk.inj (Option.some.inj hr)
          exact .inr ⟨head, m, hle, hclear, fun k _ => hbit k, rfl, rfl⟩

theorem Inv.allocContiguous (hi : Inv G p s) (hl : Layout G p) {fuel size : ℕ} {o : Option ℕ}
    {q : Pmm} (hr : s.pmm.allocContiguous fuel size = some (o, q)) :
    (∀ f ∈ (s.grant (numPages size) (o, q)).1, G f ∧ f ∉ s.live) ∧
      Inv G p (s.grant (numPages size) (o, q)).2 := by
  have hls := hl.congr hi.same
  have hsmall := hl.small
  have hcursor := hi.cursor
  have hlast := hi.bit_last hl
  obtain ⟨hN, -, hB⟩ := hi.same
  rw [← hN, ← hB] at hlast
  rcases allocContiguousFrom_spec hls hlast (by omega) hr with
    ⟨rfl, rfl⟩ | ⟨a, m, hle, hclear, hm, rfl, rfl⟩
  · exact ⟨by simp [State.grant], hi⟩
  · rw [hB] at hclear hm
    rw [hN] at hm hle
    simp only [State.grant, frameSize, Nat.mul_div_cancel _ (show 0 < 4096 by decide)]
    refine hi.grant hl (b := a + numPages size + 1) (m := m) ?_ hm (by omega) hi.same ?_ rfl rfl
    · intro j hj
      exact ⟨by omega, hclear _ (by omega) (by omega)⟩
    · change add64 (a + numPages size) 1 ≤ _
      rw [add64_of_lt (by omega)]
      omega

theorem Inv.freeFrame (hi : Inv G p s) (hl : Layout G p) {f : ℕ} (hf : f ∈ s.live) :
    Inv G p ⟨s.pmm.freeFrame (f * frameSize), s.live.filter fun g => g ≠ f⟩ := by
  have hls := hl.congr hi.same
  have hG : ∀ j < 1, G (f + j) := fun j hj => by
    obtain rfl : j = 0 := by omega
    exact hi.held f hf
  have hle := hl.le f (hi.held f hf)
  have hsmall := hl.small
  obtain ⟨hN, -, hB⟩ := hi.same
  have hlz : Layout G (s.pmm.zero (f * frameSize) frameSize) := hls.congr ⟨rfl, rfl, rfl⟩
  have hfree : s.pmm.freeFrame (f * frameSize) = { s.pmm.zero (f * frameSize) frameSize with
      mem := clearBit (memset s.pmm.mem (f * frameSize) 0 (frameSize * 1)) p.bitmap f } := by
    rw [Pmm.freeFrame, show f * frameSize / frameSize = f from Nat.mul_div_cancel _ (by decide),
      int32_natCast (by omega), hlz.setFree_eq (by simp only [Pmm.zero]; omega)]
    simp only [Pmm.zero, hB, Nat.mul_one]
  rw [hfree]
  refine ⟨hi.same, hi.cursor, fun i hin hbit => ?_, fun i hmem => ?_, ?_⟩
  · have hz := hls.bit_zero hG (i := i) (by omega)
    rw [hB] at hz
    simp only [bit_clearBit, hz, Bool.and_eq_false_iff, decide_eq_false_iff_not, not_not] at hbit
    rcases hbit with hbit | rfl
    · obtain ⟨hGi, hlive⟩ := hi.clear i hin hbit
      exact ⟨hGi, fun hmem => hlive (List.mem_of_mem_filter hmem)⟩
    · exact ⟨hi.held i hf, by simp⟩
  · exact hi.held i (List.mem_of_mem_filter hmem)
  · intro z hz x hx hx'
    rcases List.mem_cons.mp hz with rfl | hz
    · simpa using hl.apart_run hG hx hx'
    · exact hi.cleared z hz x hx hx'

/-- A returning call hands out grantable frames nobody holds and keeps the invariant. -/
theorem Inv.step (hi : Inv G p s) (hl : Layout G p) {fuel : ℕ} {c : Call} (hc : s.Allowed c)
    (hr : s.step fuel c = some (r, s')) : (∀ f ∈ r, G f ∧ f ∉ s.live) ∧ Inv G p s' := by
  cases c with
  | allocFirstFrame =>
    obtain ⟨⟨o, q⟩, ho, hg⟩ := Option.map_eq_some_iff.mp hr
    have h := hi.allocFirstFrame hl ho
    rwa [hg] at h
  | allocContiguous size =>
    obtain ⟨⟨o, q⟩, ho, hg⟩ := Option.map_eq_some_iff.mp hr
    have h := hi.allocContiguous hl ho
    rwa [hg] at h
  | freeFrame frame =>
    obtain ⟨f, hf, rfl⟩ := hc
    obtain ⟨rfl, rfl⟩ := Prod.mk.inj (Option.some.inj hr)
    rw [show f * frameSize / frameSize = f from Nat.mul_div_cancel _ (by decide)]
    exact ⟨by simp, hi.freeFrame hl hf⟩

/-- The invariant holds along every run of returning calls. -/
theorem Inv.run (hi : Inv G p s) (hl : Layout G p) (hrun : Relation.ReflTransGen Step s s') :
    Inv G p s' := by
  induction hrun with
  | refl => exact hi
  | tail _ hstep ih =>
    obtain ⟨fuel, c, r, hc, hr⟩ := hstep
    exact (ih.step hl hc hr).2

end State

/-! ### What `InitPmm` establishes -/

section Init

variable {G : ℕ → Prop} {memmap : List MmapEntry}

/-- Usable entries lie one after the other. -/
def EntriesApart (memmap : List MmapEntry) : Prop :=
  memmap.Pairwise fun e e' =>
    e.type = usablePage → e'.type = usablePage → e.base + e.length ≤ e'.base

/-- The end of the last usable entry is above every usable entry. -/
theorem uppermostUsableAddr_spec (hapart : EntriesApart memmap) {B : ℕ}
    (hbelow : ∀ e ∈ memmap, e.type = usablePage → e.base + e.length ≤ B) {e₀ : MmapEntry}
    (h₀ : e₀ ∈ memmap) (hu₀ : e₀.type = usablePage) :
    ∃ t ≤ B, uppermostUsableAddr memmap = sub64 t 1 ∧
      ∀ e ∈ memmap, e.type = usablePage → e.base + e.length ≤ t := by
  cases hfind : memmap.reverse.find? fun e => decide (e.type = usablePage) with
  | none =>
    have hnone := List.find?_eq_none.mp hfind e₀ (List.mem_reverse.mpr h₀)
    simp [hu₀] at hnone
  | some l =>
    obtain ⟨hl, xs, ys, hsplit, hxs⟩ := List.find?_eq_some_iff_append.mp hfind
    have hlu : l.type = usablePage := by simpa using hl
    have hmap : memmap = ys.reverse ++ l :: xs.reverse := by
      have hrev := congrArg List.reverse hsplit
      simpa using hrev
    have hlm : l ∈ memmap := by simp [hmap]
    refine ⟨l.base + l.length, hbelow l hlm hlu, ?_, fun e he hu => ?_⟩
    · simp only [uppermostUsableAddr, hfind]
      simp only [add64, sub64]
      omega
    · rw [EntriesApart, hmap] at hapart
      rw [hmap] at he
      rcases List.mem_append.mp he with he | he
      · have hle := (List.pairwise_append.mp hapart).2.2 e he l (by simp) hu hlu
        omega
      · rcases List.mem_cons.mp he with rfl | he
        · exact le_rfl
        · have hno := hxs e (List.mem_reverse.mp he)
          simp [hu] at hno

theorem findMemEntryBySize_spec {k bmp : ℕ} (h : findMemEntryBySize memmap k = some bmp) :
    ∃ e, memmap[bmp]? = some e ∧ k ≤ e.length ∧ e.type = usablePage := by
  obtain ⟨hlt, he, -⟩ := List.findIdx?_eq_some_iff_getElem.mp h
  exact ⟨memmap[bmp], List.getElem?_eq_getElem hlt, by simpa using he⟩

/-- Usable entries at different places of the map do not overlap. -/
theorem EntriesApart.disjoint (hapart : EntriesApart memmap) {i j : ℕ} {e e' : MmapEntry}
    (he : memmap[i]? = some e) (he' : memmap[j]? = some e') (hij : i ≠ j)
    (hu : e.type = usablePage) (hu' : e'.type = usablePage) :
    e.base + e.length ≤ e'.base ∨ e'.base + e'.length ≤ e.base := by
  obtain ⟨hi, rfl⟩ := List.getElem?_eq_some_iff.mp he
  obtain ⟨hj, rfl⟩ := List.getElem?_eq_some_iff.mp he'
  have hap := List.pairwise_iff_getElem.mp hapart
  rcases Nat.lt_or_gt_of_ne hij with hlt | hlt
  · exact .inl (hap i j hi hj hlt hu hu')
  · exact .inr (hap j i hj hi hlt hu' hu)

/-- The invariant while `InitPmm` goes through the entries, nothing being handed out. -/
theorem inv_initEntry {p q : Pmm} {bmp i : ℕ} {e : MmapEntry} (hl : Layout G p)
    (hi : State.Inv G p ⟨q, []⟩) (ha : e.type = usablePage → e.base % frameSize = 0)
    (hle : e.type = usablePage → (e.base + e.length) / frameSize ≤ p.numEntries + 1)
    (hG : e.type = usablePage → i ≠ bmp → ∀ f, e.base ≤ f * frameSize →
      f * frameSize + frameSize ≤ e.base + e.length → G f) :
    State.Inv G p ⟨initEntry bmp q i e, []⟩ := by
  by_cases hu : e.type = usablePage ∧ i ≠ bmp
  · have hls : Layout G q := hl.congr hi.same
    have hsmall := hl.small
    have hend := hle hu.1
    have halign := ha hu.1
    obtain ⟨hN, -, hB⟩ := hi.same
    simp only [frameSize] at hend halign
    have hbound : e.base / 4096 + e.length / 4096 ≤ q.numEntries + 1 := by
      simp only at hN
      omega
    have hbyte := hls.byte_lt (i := e.base / 4096 + e.length / 4096 - 1) (by omega)
    have hfits := hls.fits
    have hsmall' := hls.small
    obtain ⟨m, hm, hbit⟩ := setPagesFree_eq (p := q) (i := e.base / 4096) (by omega)
      (fun _ => ⟨by omega, by omega⟩)
      (Nat.le_add_left (e.base / 4096 + e.length / 4096) (e.base / 4096))
    have hclear (k : ℕ) (hk : k ≤ p.numEntries + 1) (hfalse : bit m p.bitmap k = false) :
        G k ∧ k ∉ ([] : List ℕ) := by
      rw [← hB, hbit k, Bool.and_eq_false_iff, decide_eq_false_iff_not, not_not, hB] at hfalse
      refine ⟨?_, List.not_mem_nil⟩
      rcases hfalse with hfalse | hin
      · exact (hi.clear k hk hfalse).1
      · exact hG hu.1 hu.2 k (by simp only [frameSize]; omega) (by simp only [frameSize]; omega)
    simp only [initEntry, if_pos hu, frameSize, hm]
    split_ifs
    · refine ⟨hi.same, ?_, hclear, by simp, hi.cleared⟩
      simp only [add64, sub64]
      omega
    · exact ⟨hi.same, hi.cursor, hclear, by simp, hi.cleared⟩
  · rw [initEntry, if_neg hu]
    exact hi

theorem inv_initEntries {p : Pmm} {bmp : ℕ} (hm : MemmapOk memmap) (hl : Layout G p)
    (hle : ∀ e ∈ memmap, e.type = usablePage → (e.base + e.length) / frameSize ≤ p.numEntries + 1)
    (hG : ∀ f, Grantable memmap (some bmp) f → G f) {xs es : List MmapEntry} {q : Pmm}
    (hxs : memmap = xs ++ es) (hi : State.Inv G p ⟨q, []⟩) :
    State.Inv G p ⟨initEntries bmp xs.length es q, []⟩ := by
  induction es generalizing xs q with
  | nil => exact hi
  | cons e es ih =>
    have he : e ∈ memmap := by simp [hxs]
    have hget : memmap[xs.length]? = some e := by simp [hxs]
    have hstep := inv_initEntry (i := xs.length) hl hi
      (fun hu => (hm.aligned e he hu).1) (hle e he)
      (fun hu hne f hlo hhi => hG f ⟨xs.length, e, hget, by simpa using hne, hu, hlo, hhi⟩)
    have hrest := ih (show memmap = (xs ++ [e]) ++ es by simp [hxs]) hstep
    simpa [initEntries] using hrest

theorem sameMap_setPagesFree (endingPage fuel : ℕ) (i : ℤ) (p : Pmm) :
    SameMap p (setPagesFree endingPage fuel i p) := by
  induction fuel generalizing i p with
  | zero => exact ⟨rfl, rfl, rfl⟩
  | succ fuel ih =>
    rw [setPagesFree]
    split_ifs
    · exact SameMap.trans ⟨rfl, rfl, rfl⟩ (ih _ _)
    · exact ⟨rfl, rfl, rfl⟩

theorem sameMap_initEntries (bmp i : ℕ) (es : List MmapEntry) (p : Pmm) :
    SameMap p (initEntries bmp i es p) := by
  induction es generalizing i p with
  | nil => exact ⟨rfl, rfl, rfl⟩
  | cons e es ih =>
    have hfree := sameMap_setPagesFree (e.base / frameSize + e.length / frameSize)
      (e.base / frameSize + e.length / frameSize) (int32 ↑(e.base / frameSize)) p
    refine SameMap.trans ?_ (ih _ _)
    simp only [initEntry]
    split_ifs
    · exact hfree.trans ⟨rfl, rfl, rfl⟩
    · exact hfree
    · exact ⟨rfl, rfl, rfl⟩

/-- The static `PHYS_MEMORY_MAP` before `InitPmm`. -/
def boot (mem : Mem) : Pmm := ⟨mem, 0, 0, 0, 0, 0, []⟩

/-- A bitmap filled with ones. -/
theorem bit_memset_neg_one {mem : Mem} {a k i : ℕ} (hi : i < 8 * k) :
    bit (memset mem a (-1) k) a i = true := by
  have hbyte : memset mem a (-1) k (a + i / 8) = 255#8 := fill_of_mem (by omega)
  have hones : ∀ j < 8, (255#8).getLsbD j = true := by decide
  rw [bit, hbyte, hones _ (Nat.mod_lt _ (by decide))]

/-- The fields `InitPmm` computes from the map, with the bitmap in entry `bmp`, give a layout. -/
theorem layout_of_fields (hm : MemmapOk memmap) {q : Pmm} {bmp : ℕ} {eb : MmapEntry}
    (hget : memmap[bmp]? = some eb) (hlen : q.bitmapSize ≤ eb.length) (hub : eb.type = usablePage)
    (hB : q.bitmap = eb.base) (hN : q.numEntries = uppermostUsableAddr memmap / frameSize)
    (hbs : q.bitmapSize = roundToNearestMultiple
      (uppermostUsableAddr memmap / frameSize / 8 % 2 ^ 32) frameSize % 2 ^ 32)
    (hcover : q.numEntries + 1 < 8 * q.bitmapSize) :
    Layout (Grantable memmap (some bmp)) q ∧ ∀ e ∈ memmap, e.type = usablePage →
      (e.base + e.length) / frameSize ≤ q.numEntries + 1 := by
  have hmem := List.mem_of_getElem? hget
  obtain ⟨t, ht, htop, hbelow⟩ := uppermostUsableAddr_spec hm.apart hm.below hmem hub
  -- a map that ends at address 0 wraps to an empty bitmap
  have hpos : 0 < t := by
    rcases Nat.eq_zero_or_pos t with rfl | hpos
    · rw [htop, show roundToNearestMultiple (sub64 0 1 / frameSize / 8 % 2 ^ 32) frameSize % 2 ^ 32
        = 0 by decide +kernel] at hbs
      omega
    · exact hpos
  rw [htop, sub64_of_le (by omega) (by omega)] at hN
  have hb := hm.below eb hmem hub
  simp only [frameSize] at hN
  refine ⟨⟨by omega, by omega, hcover, ?_, ?_⟩, fun e he hu => ?_⟩
  · rintro f ⟨i, e, he, -, hu, -, hhi⟩
    have hle := hbelow e (List.mem_of_getElem? he) hu
    simp only [frameSize] at hhi
    omega
  · rintro f ⟨i, e, he, hne, hu, hlo, hhi⟩
    have hdis := EntriesApart.disjoint hm.apart he hget (by simpa using hne) hu hub
    omega
  · have hle := hbelow e he hu
    simp only [frameSize]
    omega

theorem State.Inv.congr {p p' : Pmm} {s : State} (hi : Inv G p s) (hs : SameMap p p') :
    Inv G p' s := by
  obtain ⟨hN, hZ, hB⟩ := hs
  refine ⟨?_, hN ▸ hi.cursor, hN ▸ hB ▸ hi.clear, hi.held, hB ▸ hZ ▸ hi.cleared⟩
  exact ⟨hi.same.1.trans hN.symm, hi.same.2.1.trans hZ.symm, hi.same.2.2.trans hB.symm⟩

/-- After a successful `InitPmm` with a large enough bitmap, the geometry is right and the
invariant holds with nothing handed out. -/
theorem initPmm_spec (hm : MemmapOk memmap) {mem : Mem} {p : Pmm}
    (hinit : initPmm (boot mem) memmap = (true, p)) (hcover : p.numEntries + 1 < 8 * p.bitmapSize) :
    Layout (Grantable memmap (findMemEntryBySize memmap p.bitmapSize)) p ∧
      State.Inv (Grantable memmap (findMemEntryBySize memmap p.bitmapSize)) p ⟨p, []⟩ := by
  simp only [initPmm] at hinit
  generalize hbs : roundToNearestMultiple (uppermostUsableAddr memmap / frameSize / 8 % 2 ^ 32)
    frameSize % 2 ^ 32 = bs at hinit
  cases hfind : findMemEntryBySize memmap bs with
  | none => simp [hfind] at hinit
  | some bmp =>
    obtain ⟨eb, hget, hlen, hub⟩ := findMemEntryBySize_spec hfind
    simp only [hfind, hget, Option.map_some, Option.getD_some, Prod.mk.injEq, true_and] at hinit
    -- the allocator before the entries are freed
    obtain ⟨q, hq, rfl⟩ : ∃ q : Pmm, q = { boot mem with
        numEntries := uppermostUsableAddr memmap / frameSize
        bitmapSize := bs
        uppermostAddr := uppermostUsableAddr memmap
        bitmap := eb.base
        mem := memset mem eb.base (-1) bs } ∧ initEntries bmp 0 memmap q = p := ⟨_, rfl, hinit⟩
    have hmap := sameMap_initEntries bmp 0 memmap q
    have hqs : q.bitmapSize = bs := by rw [hq]
    rw [hmap.1, hmap.2.1] at hcover
    obtain ⟨hl, hle⟩ := layout_of_fields hm hget (by rw [hqs]; exact hlen) hub (by rw [hq])
      (by rw [hq]) (by rw [hqs, hbs]) hcover
    have hi : State.Inv (Grantable memmap (some bmp)) q ⟨q, []⟩ := by
      refine ⟨⟨rfl, rfl, rfl⟩, ?_, fun i hin hbit => ?_, by simp, ?_⟩
      · rw [show q.lastUsed = 0 by rw [hq]; rfl, add64_of_lt (by decide)]
        omega
      · rw [show q.mem = memset mem q.bitmap (-1) q.bitmapSize by rw [hq],
          bit_memset_neg_one (by omega)] at hbit
        exact absurd hbit (by simp)
      · rw [show q.cleared = [] by rw [hq]; rfl]
        simp
    have hinv := inv_initEntries hm hl hle (fun _ h => h) (List.nil_append memmap).symm hi
    rw [hmap.2.1, hqs, hfind]
    exact ⟨hl.congr hmap, hinv.congr hmap⟩

end Init

/-- **Frames are never handed out twice.** After a successful `InitPmm` whose bitmap has a bit for
every index up to `num_entries + 1`, in every state that returning calls reach, a returning call
hands out frames of usable entries other than the bitmap's that nobody holds, and no byte of the
bitmap is in a range that this or an earlier call has zeroed. -/
theorem frames_handed_out_once {memmap : List MmapEntry} (hm : MemmapOk memmap) {mem : Mem}
    {p : Pmm} (hinit : initPmm (boot mem) memmap = (true, p))
    (hcover : p.numEntries + 1 < 8 * p.bitmapSize) {s s' : State}
    (hrun : Relation.ReflTransGen State.Step ⟨p, []⟩ s) {fuel : ℕ} {c : Call} {r : List ℕ}
    (hc : s.Allowed c) (hstep : s.step fuel c = some (r, s')) :
    (∀ f ∈ r, Grantable memmap (findMemEntryBySize memmap p.bitmapSize) f ∧ f ∉ s.live) ∧
      ∀ z ∈ s'.pmm.cleared, ∀ x, p.bitmap ≤ x → x < p.bitmap + p.bitmapSize →
        x < z.1 ∨ z.1 + z.2 ≤ x := by
  obtain ⟨hl, hi⟩ := initPmm_spec hm hinit hcover
  obtain ⟨hfresh, hi'⟩ := (hi.run hl hrun).step hl hc hstep
  exact ⟨hfresh, hi'.cleared⟩

/-- A map of two usable entries, and a contiguous allocation after a single one. -/
theorem frames_handed_out_once_small :
    ∃ s s' : State, State.Step
        ⟨(initPmm (boot fun _ => 0) [⟨0x1000, 0x1000, 1⟩, ⟨0x2000, 0x10000, 1⟩]).2, []⟩ s ∧
      s.step 20 (.allocContiguous 5000) = some ([3, 4], s') ∧ ∀ f ∈ [3, 4], f ∉ s.live := by
  obtain ⟨⟨r', s'⟩, hbind, hregion⟩ := Option.map_eq_some_iff.mp
    (show ((State.step 20 ⟨(initPmm (boot fun _ => 0)
        [⟨0x1000, 0x1000, 1⟩, ⟨0x2000, 0x10000, 1⟩]).2, []⟩ .allocFirstFrame).bind fun x =>
      x.2.step 20 (.allocContiguous 5000)).map Prod.fst = some [3, 4] by decide +kernel)
  obtain ⟨⟨r, s⟩, hfirst, hsecond⟩ := Option.bind_eq_some_iff.mp hbind
  obtain rfl : r' = [3, 4] := hregion
  have hrun : State.Step _ s := ⟨20, .allocFirstFrame, r, trivial, hfirst⟩
  have hmap : MemmapOk [⟨0x1000, 0x1000, 1⟩, ⟨0x2000, 0x10000, 1⟩] :=
    ⟨by decide, by decide, by decide, by decide, by decide⟩
  have hinit : (initPmm (boot fun _ => 0)
      [⟨0x1000, 0x1000, 1⟩, ⟨0x2000, 0x10000, 1⟩]).1 = true := by decide +kernel
  have hall := frames_handed_out_once hmap (Prod.ext hinit rfl) (by decide +kernel) (.single hrun)
    (c := .allocContiguous 5000) trivial hsecond
  exact ⟨s, s', hrun, hsecond, fun f hf => (hall.1 f hf).2⟩

end Vardar.Pmm
