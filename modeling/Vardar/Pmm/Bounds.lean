import Vardar.Pmm.Ownership

/-!
# Indices into the bitmap

The bitmap has a whole number of pages of bits for the last usable frame, rounded down to a byte
first. The searches pass the frame after the last one used, and a contiguous search passes the one
after a free run, so they can leave it if the last usable frame is at the end of the bitmap.

## Main definitions

* `Vardar.Pmm.initPmmIndices`, `Vardar.Pmm.State.indices`: the indices that are passed to
  `SetPageUsed`, `SetPageFree` and `PageIsUsed`.
* `Vardar.Pmm.StivaleMap`: a memory map of the boot loader.
* `Vardar.Pmm.Reached`, `Vardar.Pmm.Covered`: the frames that can be handed out, and the maps whose
  bitmap covers what is passed.
* `Vardar.Pmm.Kept`: what the calls keep.

## Main results

* `Vardar.Pmm.indices_in_bitmap`.
-/

namespace Vardar.Pmm

open ByteMemory Word Bitmap

/-! ### Indices -/

/-- The indices of the loop that frees the pages of one entry. -/
def setPagesFreeIndices (endingPage : ℕ) : ℕ → ℤ → List ℤ
  | 0, _ => []
  | fuel + 1, i =>
    if u64 i < endingPage then i :: setPagesFreeIndices endingPage fuel (int32 (i + 1)) else []

/-- The indices of the loop of `InitPmm` over the entries. -/
def initEntriesIndices (bmpInd : ℕ) : ℕ → List MmapEntry → List ℤ
  | _, [] => []
  | i, e :: es =>
    let startingPage := e.base / frameSize
    let endingPage := startingPage + e.length / frameSize
    (if e.type = usablePage ∧ i ≠ bmpInd then
      setPagesFreeIndices endingPage endingPage (int32 startingPage) else []) ++
    initEntriesIndices bmpInd (i + 1) es

/-- The size of the bitmap of a map. -/
def mapBitmapSize (memmap : List MmapEntry) : ℕ :=
  roundToNearestMultiple (uppermostUsableAddr memmap / frameSize / 8 % 2 ^ 32) frameSize % 2 ^ 32

/-- The indices of `InitPmm`. -/
def initPmmIndices (memmap : List MmapEntry) : List ℤ :=
  match findMemEntryBySize memmap (mapBitmapSize memmap) with
  | none => []
  | some bmpInd => initEntriesIndices bmpInd 0 memmap

/-- The indices of the loop of `AllocFirstFrame`. -/
def allocFirstFrameIndices : ℕ → ℤ → Pmm → List ℤ
  | 0, _, _ => []
  | fuel + 1, i, p =>
    if u64 i = p.lastUsed then []
    else if p.pageIsUsed i then
      if p.numEntries = 0 then [i]
      else i :: allocFirstFrameIndices fuel (int32 ↑(u64 (int32 (i + 1)) % p.numEntries)) p
    else [i, i]

/-- The indices of the inner loop of `AllocContiguous`. -/
def findChunkIndices (p : Pmm) (numPages head : ℕ) : ℕ → ℤ → List ℤ
  | 0, _ => []
  | fuel + 1, tail =>
    if sub64 (u64 tail) head ≤ numPages then
      if p.pageIsUsed tail then [tail]
      else tail :: findChunkIndices p numPages head fuel (int32 (tail + 1))
    else []

/-- The indices of the loop of `AllocContiguous` that marks the chunk. -/
def setPagesUsedIndices (tail : ℤ) : ℕ → ℤ → List ℤ
  | 0, _ => []
  | fuel + 1, i =>
    if i ≤ tail then i :: setPagesUsedIndices tail fuel (int32 (i + 1)) else []

/-- The indices of the outer loop of `AllocContiguous`. -/
def allocContiguousIndices (numPages inner : ℕ) : ℕ → ℕ → Pmm → List ℤ
  | 0, _, _ => []
  | fuel + 1, head, p =>
    if head = p.lastUsed then []
    else
      findChunkIndices p numPages head inner (int32 head) ++
        match findChunk p numPages head inner (int32 head) with
        | none => []
        | some (false, tail) =>
          if p.numEntries = 0 then []
          else allocContiguousIndices numPages inner fuel (add64 (u64 tail) 1 % p.numEntries) p
        | some (true, tail) => setPagesUsedIndices tail inner (int32 head)

/-- The indices of a call. -/
def State.indices (fuel : ℕ) (s : State) : Call → List ℤ
  | .allocFirstFrame => allocFirstFrameIndices fuel (int32 ↑(add64 s.pmm.lastUsed 1)) s.pmm
  | .allocContiguous size =>
    allocContiguousIndices (numPages size) fuel fuel (add64 s.pmm.lastUsed 1) s.pmm
  | .freeFrame frame => [int32 ↑(frame / frameSize)]

/-- The byte of an index is in the bitmap. -/
def InBitmap (p : Pmm) (i : ℤ) : Prop := 0 ≤ i ∧ i.tdiv 8 < p.bitmapSize

instance (p : Pmm) (i : ℤ) : Decidable (InBitmap p i) := inferInstanceAs (Decidable (_ ∧ _))

/-! ### Maps whose bitmap is large enough -/

/-- What the boot loader promises of a memory map. -/
structure StivaleMap (memmap : List MmapEntry) : Prop where
  sorted : memmap.Pairwise fun e e' => e.base ≤ e'.base
  aligned : ∀ e ∈ memmap, e.type = usablePage →
    e.base % frameSize = 0 ∧ e.length % frameSize = 0
  apart : EntriesApart memmap
  below : ∀ e ∈ memmap, e.type = usablePage → e.base + e.length ≤ 2 ^ 64
  frameZero : ∀ e ∈ memmap, e.type = usablePage → e.base = 0 → e.length = 0

/-- The frames that calls can hand out. A search passes the frames below `num_entries` and the one
after `last_used`, which begins as `start`. -/
def Reached (G : ℕ → Prop) (numEntries start f : ℕ) : Prop :=
  G f ∧ (f < numEntries ∨ f = add64 start 1 ∨ ∃ g, G g ∧ f = g + 1)

/-- The number of indices that are not negative as an `int` and have a bit. -/
def limit (p : Pmm) : ℕ := min (2 ^ 31) (8 * p.bitmapSize)

/-- The bitmap covers the frames below `num_entries`, those that are freed at first, and those after
the first `last_used` and after a frame that can be handed out. -/
structure Covered (G : ℕ → Prop) (start numEntries limit : ℕ) : Prop where
  entries : numEntries ≤ limit
  frames : ∀ f, G f → f < limit
  cursor : add64 start 1 < limit
  next : ∀ f, Reached G numEntries start f → f + 1 < limit

/-- The bitmap does not overlap the frames. -/
structure Apart (G : ℕ → Prop) (p : Pmm) : Prop where
  fits : p.bitmap + p.bitmapSize ≤ 2 ^ 64
  apart : ∀ f, G f →
    f * frameSize + frameSize ≤ p.bitmap ∨ p.bitmap + p.bitmapSize ≤ f * frameSize

variable {G : ℕ → Prop} {start : ℕ} {p p' : Pmm} {i : ℕ}

theorem limit_congr (hs : SameMap p p') : p'.limit = p.limit := by
  rw [limit, limit, hs.2.1]

theorem Covered.congr (h : Covered G start p.numEntries p.limit) (hs : SameMap p p') :
    Covered G start p'.numEntries p'.limit := by
  rw [limit_congr hs, hs.1]
  exact h

theorem Apart.congr (h : Apart G p) (hs : SameMap p p') : Apart G p' := by
  obtain ⟨-, hz, hb⟩ := hs
  exact ⟨hb ▸ hz ▸ h.fits, hb ▸ hz ▸ h.apart⟩

theorem inBitmap_of_lt (hi : i < p.limit) : InBitmap p i := by
  rw [limit, lt_min_iff] at hi
  refine ⟨Int.natCast_nonneg i, ?_⟩
  rw [show ((i : ℤ).tdiv 8) = ((i / 8 : ℕ) : ℤ) from rfl]
  omega

theorem Apart.byte_lt (h : Apart G p) (hi : i < p.limit) : p.bitmap + i / 8 < 2 ^ 64 := by
  have hfits := h.fits
  rw [limit, lt_min_iff] at hi
  omega

theorem lt_of_lt_limit (hi : i < p.limit) : i < 2 ^ 31 := (lt_min_iff.mp hi).1

/-- Clear bits belong to frames that may be handed out. -/
def ClearOk (G : ℕ → Prop) (p : Pmm) : Prop :=
  ∀ i < p.limit, bit p.mem p.bitmap i = false → G i

theorem ClearOk.setPageUsed (h : ClearOk G p) (ha : Apart G p) (hi : i < p.limit) :
    ClearOk G (p.setPageUsed i) := by
  rw [setPageUsed_natCast (ha.byte_lt hi)]
  intro k hk hbit
  rw [bit_setBit, Bool.or_eq_false_iff] at hbit
  exact h k hk hbit.1

theorem ClearOk.setPageFree (h : ClearOk G p) (ha : Apart G p) (hi : i < p.limit) (hG : G i) :
    ClearOk G (p.setPageFree i) := by
  rw [setPageFree_natCast (ha.byte_lt hi)]
  intro k hk hbit
  rw [bit_clearBit, Bool.and_eq_false_iff, decide_eq_false_iff_not, not_not] at hbit
  rcases hbit with hbit | rfl
  · exact h k hk hbit
  · exact hG

/-- Zeroing frames that may be handed out leaves the bitmap. -/
theorem Apart.bit_zero (ha : Apart G p) {a k : ℕ} (hG : ∀ j < k, G (a + j)) (hi : i < p.limit) :
    bit (memset p.mem (a * frameSize) 0 (frameSize * k)) p.bitmap i = bit p.mem p.bitmap i := by
  have hlt := (lt_min_iff.mp (show i < min (2 ^ 31) (8 * p.bitmapSize) from hi)).2
  have hout := notMem_of_apart ha.apart hG (x := p.bitmap + i / 8) (by omega) (by omega)
  exact bit_congr (fill_of_notMem hout)

theorem ClearOk.zero (h : ClearOk G p) (ha : Apart G p) {a k : ℕ} (hG : ∀ j < k, G (a + j)) :
    ClearOk G (p.zero (a * frameSize) (frameSize * k)) := fun n hn hbit =>
  h n hn ((ha.bit_zero hG hn).symm.trans hbit)

/-! ### The searches -/

section Search

/-- `last_used` is as `InitPmm` left it, or a frame that was handed out. -/
def CursorOk (G : ℕ → Prop) (start : ℕ) (p : Pmm) : Prop :=
  p.lastUsed = start ∨ Reached G p.numEntries start p.lastUsed

/-- The indices where a search can be. -/
def Passed (p : Pmm) (i : ℕ) : Prop := i < p.numEntries ∨ i = add64 p.lastUsed 1

variable (hc : Covered G start p.numEntries p.limit) (hcur : CursorOk G start p)

include hc hcur

theorem add64_lastUsed_lt : add64 p.lastUsed 1 < p.limit := by
  rcases hcur with hstart | hreached
  · rw [hstart]
    exact hc.cursor
  · have hnext := hc.next _ hreached
    have hlt := lt_of_lt_limit hnext
    rwa [add64_of_lt (by omega)]

theorem Passed.lt (hi : Passed p i) : i < p.limit := by
  rcases hi with hlt | rfl
  · exact hlt.trans_le hc.entries
  · exact add64_lastUsed_lt hc hcur

theorem Passed.reached (hi : Passed p i) (hG : G i) : Reached G p.numEntries start i := by
  refine ⟨hG, ?_⟩
  rcases hi with hlt | rfl
  · exact Or.inl hlt
  · rcases hcur with hstart | hreached
    · rw [hstart]
      exact Or.inr (Or.inl rfl)
    · have hlt := lt_of_lt_limit (hc.frames _ hreached.1)
      exact Or.inr (Or.inr ⟨p.lastUsed, hreached.1, add64_of_lt (by omega)⟩)

variable (ha : Apart G p) (hclear : ClearOk G p)

include ha hclear

/-- A search of `AllocFirstFrame` stays in the bitmap; it fails without effect, or takes a frame. -/
theorem allocFirstFrameFrom_bounds (fuel : ℕ) (hi : Passed p i) :
    (∀ k ∈ allocFirstFrameIndices fuel i p, InBitmap p k) ∧
      ∀ r p', allocFirstFrameFrom fuel i p = some (r, p') → (r = none ∧ p' = p) ∨
        ∃ j, Reached G p.numEntries start j ∧ r = some (j * frameSize) ∧
          p' = ({ p.setPageUsed j with lastUsed := j } : Pmm).zero (j * frameSize) frameSize := by
  induction fuel generalizing i with
  | zero => exact ⟨by simp [allocFirstFrameIndices], by simp [allocFirstFrameFrom]⟩
  | succ fuel ih =>
    have hlt := hi.lt hc hcur
    have h31 := lt_of_lt_limit hlt
    rw [allocFirstFrameIndices, allocFirstFrameFrom, u64_natCast (by omega)]
    by_cases hstop : i = p.lastUsed
    · rw [if_pos hstop, if_pos hstop]
      refine ⟨by simp, fun r p' hr => Or.inl ?_⟩
      obtain ⟨rfl, rfl⟩ := Prod.mk.inj (Option.some.inj hr)
      exact ⟨rfl, rfl⟩
    · rw [if_neg hstop, if_neg hstop]
      by_cases hused : p.pageIsUsed i
      · rw [if_pos hused, if_pos hused]
        by_cases hzero : p.numEntries = 0
        · rw [if_pos hzero, if_pos hzero]
          exact ⟨by simpa using inBitmap_of_lt hlt, by simp⟩
        · rw [if_neg hzero, if_neg hzero]
          have hmod := Nat.mod_lt (u64 (int32 ((i : ℤ) + 1))) (Nat.pos_of_ne_zero hzero)
          have hnext : Passed p (u64 (int32 ((i : ℤ) + 1)) % p.numEntries) := Or.inl hmod
          rw [int32_natCast (lt_of_lt_limit (hnext.lt hc hcur))]
          obtain ⟨hind, hres⟩ := ih hnext
          exact ⟨List.forall_mem_cons.mpr ⟨inBitmap_of_lt hlt, hind⟩, hres⟩
      · rw [if_neg hused, if_neg hused]
        refine ⟨by simpa using inBitmap_of_lt hlt, fun r p' hr => Or.inr ⟨i, ?_, ?_⟩⟩
        · rw [pageIsUsed_natCast (ha.byte_lt hlt), Bool.not_eq_true] at hused
          exact hi.reached hc hcur (hclear i hlt hused)
        · rw [Nat.mod_eq_of_lt (by simp only [frameSize]; omega)] at hr
          obtain ⟨rfl, rfl⟩ := Prod.mk.inj (Option.some.inj hr)
          exact ⟨rfl, rfl⟩

omit hcur in
/-- The inner loop of `AllocContiguous` stays in the bitmap, since the frame after one that can be
handed out has a bit. -/
theorem findChunk_bounds {numPages head t : ℕ} (fuel : ℕ) (hht : head ≤ t) (ht : t < p.limit)
    (htn : t ≤ head + numPages + 1) (hhead : G head → Reached G p.numEntries start head)
    (hrun : ∀ k, head ≤ k → k < t → Reached G p.numEntries start k) :
    (∀ k ∈ findChunkIndices p numPages head fuel t, InBitmap p k) ∧
      ∀ found tail, findChunk p numPages head fuel t = some (found, tail) →
        (found = false ∧ ∃ k < p.limit, tail = (k : ℤ)) ∨
        (found = true ∧ tail = ((head + numPages + 1 : ℕ) : ℤ) ∧ head + numPages + 1 < p.limit ∧
          ∀ k, head ≤ k → k ≤ head + numPages → Reached G p.numEntries start k) := by
  induction fuel generalizing t with
  | zero => exact ⟨by simp [findChunkIndices], by simp [findChunk]⟩
  | succ fuel ih =>
    have h31 := lt_of_lt_limit ht
    rw [findChunkIndices, findChunk, u64_natCast (by omega), sub64_of_le hht (by omega)]
    by_cases hle : t - head ≤ numPages
    · rw [if_pos hle, if_pos hle]
      by_cases hused : p.pageIsUsed t
      · rw [if_pos hused, if_pos hused]
        refine ⟨by simpa using inBitmap_of_lt ht, fun found tail hr => Or.inl ?_⟩
        obtain ⟨rfl, rfl⟩ := Prod.mk.inj (Option.some.inj hr)
        exact ⟨rfl, t, ht, rfl⟩
      · rw [if_neg hused, if_neg hused]
        rw [pageIsUsed_natCast (ha.byte_lt ht), Bool.not_eq_true] at hused
        have hG := hclear t ht hused
        have hreached : Reached G p.numEntries start t := by
          rcases hht.eq_or_lt with rfl | hlt
          · exact hhead hG
          · exact ⟨hG, Or.inr (Or.inr ⟨t - 1, (hrun (t - 1) (by omega) (by omega)).1, by omega⟩)⟩
        have hnext := hc.next t hreached
        rw [int32_natCast_add_one (lt_of_lt_limit hnext)]
        obtain ⟨hind, hres⟩ := ih (t := t + 1) (by omega) hnext (by omega) fun k hk hk' => by
          rcases Nat.lt_succ_iff_lt_or_eq.mp hk' with hlt | rfl
          · exact hrun k hk hlt
          · exact hreached
        exact ⟨List.forall_mem_cons.mpr ⟨inBitmap_of_lt ht, hind⟩, hres⟩
    · rw [if_neg hle, if_neg hle]
      refine ⟨by simp, fun found tail hr => Or.inr ?_⟩
      obtain ⟨rfl, rfl⟩ := Prod.mk.inj (Option.some.inj hr)
      have htail : t = head + numPages + 1 := by omega
      exact ⟨rfl, by rw [htail], by omega, fun k hk hk' => hrun k hk (by omega)⟩

omit hc hcur ha hclear in
/-- The marking loop does not end if its bound is the largest `int`. -/
theorem setPagesUsed_max (p : Pmm) {fuel : ℕ} {i : ℤ} (hi : i < 2 ^ 31) :
    setPagesUsed (2 ^ 31 - 1) fuel i p = none := by
  induction fuel generalizing i p with
  | zero => rfl
  | succ fuel ih =>
    rw [setPagesUsed, if_pos (by omega)]
    refine ih _ ?_
    rw [int32, Int.bmod_def]
    omega

omit hc hcur in
theorem setPagesUsed_bounds {fuel tail : ℕ} (ht : tail < p.limit)
    (hr : setPagesUsed tail fuel i p = some p') :
    (∀ k ∈ setPagesUsedIndices tail fuel i, InBitmap p k) ∧ ClearOk G p' ∧ SameMap p p' := by
  have hmax : tail < 2 ^ 31 - 1 ∨ i > tail := by
    by_contra hcon
    have h31 := lt_of_lt_limit ht
    have htail : (tail : ℤ) = 2 ^ 31 - 1 := by omega
    rw [htail, setPagesUsed_max p (by omega)] at hr
    exact absurd hr (Option.some_ne_none p').symm
  induction fuel generalizing i p with
  | zero => exact absurd hr (Option.some_ne_none p').symm
  | succ fuel ih =>
    rw [setPagesUsed] at hr
    rw [setPagesUsedIndices]
    by_cases hle : (i : ℤ) ≤ tail
    · have hi : i < p.limit := by omega
      rw [if_pos hle, int32_natCast_add_one (by omega)] at hr
      rw [if_pos hle, int32_natCast_add_one (by omega)]
      have hs : SameMap p (p.setPageUsed i) := ⟨rfl, rfl, rfl⟩
      obtain ⟨hind, hclear', hsame⟩ := ih (ha.congr hs) (hclear.setPageUsed ha hi)
        (show tail < (p.setPageUsed i).limit from ht) hr (by omega)
      exact ⟨List.forall_mem_cons.mpr ⟨inBitmap_of_lt hi, hind⟩, hclear', hs.trans hsame⟩
    · rw [if_neg hle] at hr
      rw [if_neg hle]
      obtain rfl := Option.some.inj hr
      exact ⟨by simp, hclear, rfl, rfl, rfl⟩

/-- `AllocContiguous` stays in the bitmap; it fails without effect, or takes a chunk. -/
theorem allocContiguousFrom_bounds {numPages inner fuel head : ℕ} (hhead : Passed p head)
    {r : Option ℕ} (hr : allocContiguousFrom numPages inner fuel head p = some (r, p')) :
    (∀ k ∈ allocContiguousIndices numPages inner fuel head p, InBitmap p k) ∧
      ((r = none ∧ p' = p) ∨ ∃ a, r = some (a * frameSize) ∧ SameMap p p' ∧ ClearOk G p' ∧
        p'.lastUsed = a + numPages ∧
        ∀ k, a ≤ k → k ≤ a + numPages → Reached G p.numEntries start k) := by
  induction fuel generalizing head with
  | zero => exact absurd hr (by simp [allocContiguousFrom])
  | succ fuel ih =>
    have hlt := hhead.lt hc hcur
    have h31 := lt_of_lt_limit hlt
    rw [allocContiguousFrom, int32_natCast h31] at hr
    rw [allocContiguousIndices, int32_natCast h31]
    by_cases hstop : head = p.lastUsed
    · rw [if_pos hstop] at hr
      rw [if_pos hstop]
      obtain ⟨rfl, rfl⟩ := Prod.mk.inj (Option.some.inj hr)
      exact ⟨by simp, Or.inl ⟨rfl, rfl⟩⟩
    · rw [if_neg hstop] at hr
      rw [if_neg hstop]
      obtain ⟨hind, hchunk⟩ := findChunk_bounds hc ha hclear inner le_rfl hlt
        (show head ≤ head + numPages + 1 by omega) (hhead.reached hc hcur)
        fun k hk hk' => absurd hk' (by omega)
      cases hfind : findChunk p numPages head inner head with
      | none => simp only [hfind, reduceCtorEq] at hr
      | some c =>
        obtain ⟨found, tail⟩ := c
        rcases hchunk found tail hfind with ⟨rfl, k, hk, rfl⟩ | ⟨rfl, rfl, htail, hrun⟩
        -- a used frame: the search goes on after it
        · simp only [hfind] at hr ⊢
          by_cases hzero : p.numEntries = 0
          · simp [hzero] at hr
          · rw [if_neg hzero] at hr ⊢
            have hmod := Nat.mod_lt (add64 (u64 (k : ℤ)) 1) (Nat.pos_of_ne_zero hzero)
            obtain ⟨hrest, hres⟩ := ih (Or.inl hmod) hr
            exact ⟨List.forall_mem_append.mpr ⟨hind, hrest⟩, hres⟩
        · simp only [hfind] at hr ⊢
          have htail31 := lt_of_lt_limit htail
          cases hset : setPagesUsed ((head + numPages + 1 : ℕ) : ℤ) inner head p with
          | none => simp only [hset, reduceCtorEq] at hr
          | some q =>
            obtain ⟨hmark, hclear', hsame⟩ := setPagesUsed_bounds ha hclear htail hset
            refine ⟨List.forall_mem_append.mpr ⟨hind, hmark⟩, Or.inr ⟨head, ?_⟩⟩
            simp only [hset] at hr
            rw [Nat.mod_eq_of_lt (a := head * frameSize) (by simp only [frameSize]; omega),
              Nat.mod_eq_of_lt (by simp only [frameSize]; omega), add64_of_lt (by omega)] at hr
            obtain ⟨rfl, rfl⟩ := Prod.mk.inj (Option.some.inj hr)
            have hzero := hclear'.zero (ha.congr hsame) (a := head) (k := numPages)
              fun j hj => (hrun (head + j) (by omega) (by omega)).1
            exact ⟨rfl, hsame.trans ⟨rfl, rfl, rfl⟩, hzero, rfl, hrun⟩

end Search

/-! ### Runs -/

/-- What the calls keep. -/
structure Kept (G : ℕ → Prop) (start : ℕ) (p : Pmm) (s : State) : Prop where
  same : SameMap p s.pmm
  cursor : CursorOk G start s.pmm
  clear : ClearOk G s.pmm
  held : ∀ f ∈ s.live, G f

namespace Kept

variable {s s' : State} (hk : Kept G start p s) (hc : Covered G start p.numEntries p.limit)
  (ha : Apart G p)

include hk hc ha

theorem allocFirstFrame {fuel : ℕ} {r : Option ℕ} {q : Pmm}
    (hr : s.pmm.allocFirstFrame fuel = some (r, q)) :
    (∀ i ∈ s.indices fuel .allocFirstFrame, InBitmap s.pmm i) ∧
      Kept G start p (s.grant 1 (r, q)).2 := by
  have hcs := hc.congr hk.same
  have has := ha.congr hk.same
  have hpassed : Passed s.pmm (add64 s.pmm.lastUsed 1) := Or.inr rfl
  have h31 := lt_of_lt_limit (hpassed.lt hcs hk.cursor)
  obtain ⟨hind, hres⟩ := allocFirstFrameFrom_bounds hcs hk.cursor has hk.clear fuel hpassed
  rw [Pmm.allocFirstFrame, int32_natCast h31] at hr
  refine ⟨by rw [State.indices, int32_natCast h31]; exact hind, ?_⟩
  rcases hres r q hr with ⟨rfl, rfl⟩ | ⟨j, hj, rfl, rfl⟩
  · exact hk
  · have hlt := hcs.frames j hj.1
    have hclear := (hk.clear.setPageUsed has hlt).zero (has.congr ⟨rfl, rfl, rfl⟩) (a := j) (k := 1)
      fun i hi => by
        obtain rfl : i = 0 := by omega
        exact hj.1
    refine ⟨hk.same.trans ⟨rfl, rfl, rfl⟩, Or.inr hj, hclear, fun f hf => ?_⟩
    rw [State.grant, frameSize, Nat.mul_div_cancel _ (by decide)] at hf
    rcases List.mem_append.mp hf with hf | hf
    · obtain rfl : f = j := by simpa using hf
      exact hj.1
    · exact hk.held f hf

theorem allocContiguous {fuel size : ℕ} {r : Option ℕ} {q : Pmm}
    (hr : s.pmm.allocContiguous fuel size = some (r, q)) :
    (∀ i ∈ s.indices fuel (.allocContiguous size), InBitmap s.pmm i) ∧
      Kept G start p (s.grant (numPages size) (r, q)).2 := by
  have hcs := hc.congr hk.same
  have has := ha.congr hk.same
  obtain ⟨hind, hres⟩ := allocContiguousFrom_bounds hcs hk.cursor has hk.clear (Or.inr rfl) hr
  refine ⟨hind, ?_⟩
  rcases hres with ⟨rfl, rfl⟩ | ⟨a, rfl, hsame, hclear, hlast, hrun⟩
  · exact hk
  · have hreached := hrun (a + numPages size) (by omega) le_rfl
    refine ⟨hk.same.trans hsame, Or.inr ?_, hclear, fun f hf => ?_⟩
    · change Reached G q.numEntries start q.lastUsed
      rw [hlast, hsame.1]
      exact hreached
    · rw [State.grant, frameSize, Nat.mul_div_cancel _ (by decide)] at hf
      rcases List.mem_append.mp hf with hf | hf
      · obtain ⟨j, hj, rfl⟩ := List.mem_range'.mp hf
        exact (hrun _ (by omega) (by omega)).1
      · exact hk.held f hf

theorem freeFrame {f : ℕ} (hf : f ∈ s.live) :
    InBitmap s.pmm (int32 ↑(f * frameSize / frameSize)) ∧
      Kept G start p ⟨s.pmm.freeFrame (f * frameSize),
        s.live.filter fun g => g ≠ f * frameSize / frameSize⟩ := by
  have has := ha.congr hk.same
  have hG := hk.held f hf
  have hlt := (hc.congr hk.same).frames f hG
  rw [frameSize, Nat.mul_div_cancel _ (by decide), int32_natCast (lt_of_lt_limit hlt)]
  refine ⟨inBitmap_of_lt hlt, hk.same.trans ⟨rfl, rfl, rfl⟩, hk.cursor, ?_, fun g hg => ?_⟩
  · have hz := hk.clear.zero has (a := f) (k := 1) fun i hi => by
      obtain rfl : i = 0 := by omega
      exact hG
    have hfree := hz.setPageFree (has.congr ⟨rfl, rfl, rfl⟩) hlt hG
    rw [Pmm.freeFrame, frameSize, Nat.mul_div_cancel _ (by decide),
      int32_natCast (lt_of_lt_limit hlt)]
    exact hfree
  · exact hk.held g (List.mem_of_mem_filter hg)

/-- A returning call passes indices in the bitmap and keeps the invariant. -/
theorem step {fuel : ℕ} {c : Call} {r : List ℕ} (hall : s.Allowed c)
    (hr : s.step fuel c = some (r, s')) :
    (∀ i ∈ s.indices fuel c, InBitmap s.pmm i) ∧ Kept G start p s' := by
  cases c with
  | allocFirstFrame =>
    obtain ⟨⟨o, q⟩, ho, hg⟩ := Option.map_eq_some_iff.mp hr
    have h := hk.allocFirstFrame hc ha ho
    rwa [hg] at h
  | allocContiguous size =>
    obtain ⟨⟨o, q⟩, ho, hg⟩ := Option.map_eq_some_iff.mp hr
    have h := hk.allocContiguous hc ha ho
    rwa [hg] at h
  | freeFrame frame =>
    obtain ⟨f, hf, rfl⟩ := hall
    obtain ⟨rfl, rfl⟩ := Prod.mk.inj (Option.some.inj hr)
    obtain ⟨hin, hkept⟩ := hk.freeFrame hc ha hf
    exact ⟨by simpa [State.indices] using hin, hkept⟩

theorem run (hrun : Relation.ReflTransGen State.Step s s') : Kept G start p s' := by
  induction hrun with
  | refl => exact hk
  | tail _ hstep ih =>
    obtain ⟨fuel, c, r, hall, hr⟩ := hstep
    exact (ih.step hc ha hall hr).2

end Kept

/-! ### What `InitPmm` establishes -/

section Init

variable {memmap : List MmapEntry}

/-- `last_used` after the loop of `InitPmm` over the entries, from entry `i` on. -/
def firstLastUsed (bmpInd : ℕ) : ℕ → List MmapEntry → ℕ → ℕ
  | _, [], lastUsed => lastUsed
  | i, e :: es, lastUsed =>
    firstLastUsed bmpInd (i + 1) es
      (if (e.type = usablePage ∧ i ≠ bmpInd) ∧ lastUsed = 0 then sub64 (e.base / frameSize) 1
      else lastUsed)

theorem lastUsed_setPagesFree (endingPage fuel : ℕ) (i : ℤ) (p : Pmm) :
    (setPagesFree endingPage fuel i p).lastUsed = p.lastUsed := by
  induction fuel generalizing i p with
  | zero => rfl
  | succ fuel ih =>
    rw [setPagesFree]
    split_ifs
    · exact ih _ _
    · rfl

theorem initEntry_eq (p : Pmm) {bmp i : ℕ} {e : MmapEntry} (hu : e.type = usablePage ∧ i ≠ bmp) :
    ∃ lastUsed, initEntry bmp p i e =
        { setPagesFree (e.base / frameSize + e.length / frameSize)
          (e.base / frameSize + e.length / frameSize) (int32 ↑(e.base / frameSize)) p with
          lastUsed := lastUsed } ∧
      lastUsed = if p.lastUsed = 0 then sub64 (e.base / frameSize) 1 else p.lastUsed := by
  refine ⟨_, ?_, rfl⟩
  rw [initEntry, if_pos hu]
  simp only [lastUsed_setPagesFree]
  by_cases hzero : p.lastUsed = 0
  · rw [if_pos hzero, if_pos hzero]
  · rw [if_neg hzero, if_neg hzero]
    conv_rhs => rw [← lastUsed_setPagesFree (e.base / frameSize + e.length / frameSize)
      (e.base / frameSize + e.length / frameSize) (int32 ↑(e.base / frameSize)) p]

theorem lastUsed_initEntries (bmp i : ℕ) (es : List MmapEntry) (p : Pmm) :
    (initEntries bmp i es p).lastUsed = firstLastUsed bmp i es p.lastUsed := by
  induction es generalizing i p with
  | nil => rfl
  | cons e es ih =>
    rw [initEntries, ih, firstLastUsed]
    congr 1
    by_cases hu : e.type = usablePage ∧ i ≠ bmp
    · obtain ⟨lastUsed, heq, hlast⟩ := initEntry_eq p hu
      rw [heq]
      by_cases hzero : p.lastUsed = 0
      · rw [if_pos ⟨hu, hzero⟩]
        exact hlast.trans (if_pos hzero)
      · rw [if_neg fun hcon => hzero hcon.2]
        exact hlast.trans (if_neg hzero)
    · rw [initEntry, if_neg hu, if_neg fun hcon => hu hcon.1]

/-- Freeing the frames of an entry stays in the bitmap. -/
theorem setPagesFreeIndices_inBitmap (hframes : ∀ f, G f → f < p.limit) {endingPage : ℕ} (fuel : ℕ)
    (hi : i < 2 ^ 32) (hG : ∀ k, i ≤ k → k < endingPage → G k) :
    ∀ k ∈ setPagesFreeIndices endingPage fuel (int32 i), InBitmap p k := by
  induction fuel generalizing i with
  | zero => simp [setPagesFreeIndices]
  | succ fuel ih =>
    rw [setPagesFreeIndices]
    by_cases hlt : u64 (int32 i) < endingPage
    · have hilt := hframes i (hG i le_rfl ((le_u64_int32 hi).trans_lt hlt))
      have h31 := lt_of_lt_limit hilt
      rw [if_pos hlt, int32_natCast h31]
      refine List.forall_mem_cons.mpr ⟨inBitmap_of_lt hilt, ?_⟩
      exact ih (i := i + 1) (by omega) fun k hk hk' => hG k (by omega) hk'
    · rw [if_neg hlt]
      simp

/-- The pages that the loop frees for an entry. -/
theorem StivaleMap.grantable (hm : StivaleMap memmap) {bmp j : ℕ} {e : MmapEntry}
    (hget : memmap[j]? = some e) (hu : e.type = usablePage ∧ j ≠ bmp) (k : ℕ)
    (hk : e.base / frameSize ≤ k) (hk' : k < e.base / frameSize + e.length / frameSize) :
    Grantable memmap (some bmp) k := by
  have halign := hm.aligned e (List.mem_of_getElem? hget) hu.1
  simp only [frameSize] at halign hk hk'
  refine ⟨j, e, hget, by simpa using hu.2, hu.1, ?_, ?_⟩
  · simp only [frameSize]
    omega
  · simp only [frameSize]
    omega

/-- One round of the loop over the entries clears the bits of the entry and no others. -/
theorem initEntry_bits (hm : StivaleMap memmap) {bmp j : ℕ} {e : MmapEntry}
    (hget : memmap[j]? = some e) (hu : e.type = usablePage ∧ j ≠ bmp)
    (hbase : e.base / frameSize < 2 ^ 32) (ha : Apart (Grantable memmap (some bmp)) p)
    (hframes : ∀ f, Grantable memmap (some bmp) f → f < p.limit) :
    SameMap p (initEntry bmp p j e) ∧
      ∀ k, bit (initEntry bmp p j e).mem p.bitmap k = (bit p.mem p.bitmap k &&
        decide (¬ (e.base / frameSize ≤ k ∧ k < e.base / frameSize + e.length / frameSize))) := by
  obtain ⟨lastUsed, heq, -⟩ := initEntry_eq p hu
  obtain ⟨m, hset, hbit⟩ := setPagesFree_eq (p := p) hbase (fun hlt => by
    have hlast := hframes _ (hm.grantable hget hu _ (Nat.le_sub_one_of_lt hlt)
      (Nat.sub_one_lt_of_lt hlt))
    have hbyte := ha.byte_lt hlast
    have h31 := lt_of_lt_limit hlast
    exact ⟨by omega, hbyte⟩) (Nat.le_add_left (e.base / frameSize + e.length / frameSize) _)
  rw [heq, hset]
  exact ⟨⟨rfl, rfl, rfl⟩, hbit⟩

theorem initEntries_bounds (hm : StivaleMap memmap) {bmp : ℕ}
    (hle : ∀ e ∈ memmap, e.type = usablePage → e.base / frameSize < 2 ^ 32)
    {xs es : List MmapEntry} (hxs : memmap = xs ++ es) (ha : Apart (Grantable memmap (some bmp)) p)
    (hclear : ClearOk (Grantable memmap (some bmp)) p)
    (hframes : ∀ f, Grantable memmap (some bmp) f → f < p.limit) :
    (∀ k ∈ initEntriesIndices bmp xs.length es, InBitmap p k) ∧
      ClearOk (Grantable memmap (some bmp)) (initEntries bmp xs.length es p) := by
  induction es generalizing xs p with
  | nil => exact ⟨by simp [initEntriesIndices], hclear⟩
  | cons e es ih =>
    have he : e ∈ memmap := by simp [hxs]
    have hget : memmap[xs.length]? = some e := by simp [hxs]
    have hrest : memmap = (xs ++ [e]) ++ es := by simp [hxs]
    have hlen : xs.length + 1 = (xs ++ [e]).length := by simp
    rw [initEntriesIndices, initEntries, hlen]
    by_cases hu : e.type = usablePage ∧ xs.length ≠ bmp
    · have hG := hm.grantable hget hu
      obtain ⟨hsame, hbit⟩ := initEntry_bits hm hget hu (hle e he hu.1) ha hframes
      have hlimit := limit_congr hsame
      have hkeep : ClearOk (Grantable memmap (some bmp)) (initEntry bmp p xs.length e) := by
        intro k hk hfalse
        rw [hsame.2.2, hbit, Bool.and_eq_false_iff, decide_eq_false_iff_not, not_not] at hfalse
        rcases hfalse with hfalse | ⟨hk, hk'⟩
        · exact hclear k (hlimit ▸ hk) hfalse
        · exact hG k hk hk'
      obtain ⟨htail, hdone⟩ := ih hrest (ha.congr hsame) hkeep (by rw [hlimit]; exact hframes)
      rw [if_pos hu]
      refine ⟨List.forall_mem_append.mpr ⟨?_, fun k hk => ?_⟩, hdone⟩
      · exact setPagesFreeIndices_inBitmap hframes _ (hle e he hu.1) hG
      · have hin := htail k hk
        rwa [InBitmap, hsame.2.1] at hin
    · rw [if_neg hu, initEntry, if_neg hu, List.nil_append]
      exact ih hrest ha hclear hframes

/-- The bitmap that a map gets covers the indices that are passed. -/
def BitmapCovers (memmap : List MmapEntry) : Prop :=
  Covered (Grantable memmap (findMemEntryBySize memmap (mapBitmapSize memmap)))
    (firstLastUsed ((findMemEntryBySize memmap (mapBitmapSize memmap)).getD 0) 0 memmap 0)
    (uppermostUsableAddr memmap / frameSize) (min (2 ^ 31) (8 * mapBitmapSize memmap))

/-- The bitmap lies in an entry of its own. -/
theorem apart_of_entry (hm : StivaleMap memmap) {bmp : ℕ} {eb : MmapEntry}
    (hget : memmap[bmp]? = some eb) (hub : eb.type = usablePage) (hB : p.bitmap = eb.base)
    (hlen : p.bitmapSize ≤ eb.length) : Apart (Grantable memmap (some bmp)) p := by
  have hbelow := hm.below eb (List.mem_of_getElem? hget) hub
  refine ⟨by omega, ?_⟩
  rintro f ⟨i, e, he, hne, hu, hlo, hhi⟩
  have hdis := hm.apart.disjoint he hget (by simpa using hne) hu hub
  omega

/-- Usable entries begin at frames whose numbers have 32 bits. -/
theorem base_lt_of_entries (hm : StivaleMap memmap) {eb : MmapEntry} (hmem : eb ∈ memmap)
    (hub : eb.type = usablePage) (hN : uppermostUsableAddr memmap / frameSize ≤ 2 ^ 31) :
    ∀ e ∈ memmap, e.type = usablePage → e.base / frameSize < 2 ^ 32 := by
  intro e he hu
  obtain ⟨t, ht, htop, hle⟩ := uppermostUsableAddr_spec hm.apart hm.below hmem hub
  have hend := hle e he hu
  simp only [htop, sub64, frameSize] at hN ⊢
  omega

/-- A successful `InitPmm` fills the bitmap, in an entry that is large enough, before it goes
through the entries. -/
theorem initPmm_eq {mem : Mem} (hinit : initPmm (boot mem) memmap = (true, p)) :
    ∃ bmp eb, findMemEntryBySize memmap (mapBitmapSize memmap) = some bmp ∧
      memmap[bmp]? = some eb ∧ mapBitmapSize memmap ≤ eb.length ∧ eb.type = usablePage ∧
      p = initEntries bmp 0 memmap ⟨memset mem eb.base (-1) (mapBitmapSize memmap),
        uppermostUsableAddr memmap / frameSize, 0, mapBitmapSize memmap, eb.base,
        uppermostUsableAddr memmap, []⟩ := by
  simp only [initPmm] at hinit
  have hsize : roundToNearestMultiple (uppermostUsableAddr memmap / frameSize / 8 % 2 ^ 32)
      frameSize % 2 ^ 32 = mapBitmapSize memmap := rfl
  rw [hsize] at hinit
  cases hfind : findMemEntryBySize memmap (mapBitmapSize memmap) with
  | none => simp [hfind] at hinit
  | some bmp =>
    obtain ⟨eb, hget, hlen, hub⟩ := findMemEntryBySize_spec hfind
    simp only [hfind, hget, Option.map_some, Option.getD_some, Prod.mk.injEq, true_and] at hinit
    exact ⟨bmp, eb, rfl, hget, hlen, hub, hinit.symm⟩

/-- The allocator before the entries are freed: all bits are set. -/
structure Prepared (memmap : List MmapEntry) (bmp : ℕ) (q : Pmm) : Prop where
  apart : Apart (Grantable memmap (some bmp)) q
  frames : ∀ f, Grantable memmap (some bmp) f → f < q.limit
  bases : ∀ e ∈ memmap, e.type = usablePage → e.base / frameSize < 2 ^ 32
  marked : ∀ i < q.limit, bit q.mem q.bitmap i = true

theorem initPmm_prepared (hm : StivaleMap memmap) {mem : Mem}
    (hinit : initPmm (boot mem) memmap = (true, p)) (hcov : BitmapCovers memmap) :
    ∃ bmp q, findMemEntryBySize memmap (mapBitmapSize memmap) = some bmp ∧
      q.bitmapSize = mapBitmapSize memmap ∧ p = initEntries bmp 0 memmap q ∧
      Prepared memmap bmp q ∧
      Covered (Grantable memmap (some bmp)) p.lastUsed q.numEntries q.limit := by
  obtain ⟨bmp, eb, hfind, hget, hlen, hub, hp⟩ := initPmm_eq hinit
  have hlast : p.lastUsed = firstLastUsed bmp 0 memmap 0 := by rw [hp, lastUsed_initEntries]
  simp only [BitmapCovers, hfind, Option.getD_some] at hcov
  rw [← hlast] at hcov
  refine ⟨bmp, _, hfind, rfl, hp, ⟨?_, hcov.frames, ?_, ?_⟩, hcov⟩
  · exact apart_of_entry hm hget hub rfl hlen
  · exact base_lt_of_entries hm (List.mem_of_getElem? hget) hub
      (hcov.entries.trans (min_le_left _ _))
  · exact fun i hi => bit_memset_neg_one (lt_min_iff.mp hi).2

/-- `InitPmm` stays in the bitmap and establishes the invariant. -/
theorem initPmm_bounds (hm : StivaleMap memmap) {mem : Mem}
    (hinit : initPmm (boot mem) memmap = (true, p)) (hcov : BitmapCovers memmap) :
    let G := Grantable memmap (findMemEntryBySize memmap p.bitmapSize)
    Covered G p.lastUsed p.numEntries p.limit ∧ Apart G p ∧ Kept G p.lastUsed p ⟨p, []⟩ ∧
      ∀ i ∈ initPmmIndices memmap, InBitmap p i := by
  obtain ⟨bmp, q, hfind, hsize, hp, hq, hc⟩ := initPmm_prepared hm hinit hcov
  have hmap : SameMap q p := hp ▸ sameMap_initEntries bmp 0 memmap q
  have hclear : ClearOk (Grantable memmap (some bmp)) q := fun i hi hbit =>
    absurd ((hq.marked i hi).symm.trans hbit) (by decide)
  obtain ⟨hind, hdone⟩ := initEntries_bounds hm hq.bases (List.nil_append memmap).symm hq.apart
    hclear hq.frames
  rw [List.length_nil, ← hp] at hdone
  rw [hmap.2.1, hsize, hfind]
  refine ⟨hc.congr hmap, hq.apart.congr hmap, ⟨⟨rfl, rfl, rfl⟩, Or.inl rfl, hdone, ?_⟩, ?_⟩
  · exact fun f hf => absurd hf List.not_mem_nil
  · rw [initPmmIndices, hfind]
    intro i hi
    have hin := hind i hi
    rwa [InBitmap, ← hmap.2.1] at hin

end Init

/-- **Bitmap accesses stay inside the bitmap** if it covers the indices that the searches pass: those
of `InitPmm`, and those of every returning call in every run after it. -/
theorem indices_in_bitmap {memmap : List MmapEntry} (hm : StivaleMap memmap) {mem : Mem}
    (hinit : initPmm (boot mem) memmap = (true, p)) (hcov : BitmapCovers memmap) :
    (∀ i ∈ initPmmIndices memmap, InBitmap p i) ∧
      ∀ s, Relation.ReflTransGen State.Step ⟨p, []⟩ s → ∀ s' fuel c r, s.Allowed c →
        s.step fuel c = some (r, s') → ∀ i ∈ s.indices fuel c, InBitmap p i := by
  obtain ⟨hc, ha, hk, hind⟩ := initPmm_bounds hm hinit hcov
  refine ⟨hind, fun s hrun s' fuel c r hall hr i hi => ?_⟩
  have hks := hk.run hc ha hrun
  have hin := (hks.step hc ha hall hr).1 i hi
  rwa [InBitmap, hks.same.2.1] at hin

/-- A map of 17 frames. -/
def smallMap : List MmapEntry := [⟨0x1000, 0x1000, 1⟩, ⟨0x2000, 0x10000, 1⟩]

theorem stivaleMap_smallMap : StivaleMap smallMap :=
  ⟨by decide, by decide, by simp only [EntriesApart]; decide, by decide, by decide⟩

/-- The bitmap of a map below 128 MiB is one page. -/
theorem bitmapCovers_of_le {memmap : List MmapEntry}
    (hend : ∀ e ∈ memmap, e.base + e.length ≤ 0x7FFF000) (hsize : mapBitmapSize memmap = 4096)
    (hN : uppermostUsableAddr memmap / frameSize ≤ 32768)
    (hcur : add64 (firstLastUsed ((findMemEntryBySize memmap 4096).getD 0) 0 memmap 0) 1 < 32768) :
    BitmapCovers memmap := by
  have hlt : ∀ o f, Grantable memmap o f → f < 32767 := by
    rintro o f ⟨i, e, he, -, -, -, hhi⟩
    have hle := hend e (List.mem_of_getElem? he)
    simp only [frameSize] at hhi
    omega
  rw [BitmapCovers, hsize]
  refine ⟨hN, fun f hf => ?_, hcur, fun f hf => ?_⟩
  · have hf := hlt _ f hf
    omega
  · have hf := hlt _ f hf.1
    omega

theorem bitmapCovers_smallMap : BitmapCovers smallMap :=
  bitmapCovers_of_le (by decide) (by decide +kernel) (by decide +kernel) (by decide +kernel)

theorem initPmm_smallMap : (initPmm (boot fun _ => 0) smallMap).1 = true := by decide +kernel

theorem indices_in_bitmap_small :
    BitmapCovers [⟨0x1000, 0x1000, 1⟩, ⟨0x2000, 0x10000, 1⟩] ∧
      ∀ i ∈ initPmmIndices [⟨0x1000, 0x1000, 1⟩, ⟨0x2000, 0x10000, 1⟩],
        InBitmap (initPmm (boot fun _ => 0) [⟨0x1000, 0x1000, 1⟩, ⟨0x2000, 0x10000, 1⟩]).2 i :=
  ⟨bitmapCovers_smallMap,
    (indices_in_bitmap stivaleMap_smallMap (Prod.ext initPmm_smallMap rfl) bitmapCovers_smallMap).1⟩

/-- With 128 MiB and one frame, the last frame has no bit. -/
theorem last_frame_not_in_bitmap :
    StivaleMap [⟨0x1000, 0x7FFF000, 1⟩, ⟨0x8000000, 0x1000, 1⟩] ∧
      (initPmm (boot fun _ => 0) [⟨0x1000, 0x7FFF000, 1⟩, ⟨0x8000000, 0x1000, 1⟩]).1 = true ∧
      ∃ i ∈ initPmmIndices [⟨0x1000, 0x7FFF000, 1⟩, ⟨0x8000000, 0x1000, 1⟩],
        ¬ InBitmap
          (initPmm (boot fun _ => 0) [⟨0x1000, 0x7FFF000, 1⟩, ⟨0x8000000, 0x1000, 1⟩]).2 i := by
  refine ⟨⟨by decide, by decide, by simp only [EntriesApart]; decide, by decide, by decide⟩,
    by decide +kernel, 32768, by decide +kernel, by decide +kernel⟩

end Vardar.Pmm
