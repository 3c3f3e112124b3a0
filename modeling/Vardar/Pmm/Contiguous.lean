import Vardar.Pmm.Scan

/-!
# What `AllocContiguous` finds and reserves

The inner loop of `AllocContiguous` runs up to and including `num_pages`, so it looks for one frame
more than it hands out. The marking loop runs up to and including the index after them, so it marks
that frame and the one after it as well.

## Main definitions

* `Vardar.Pmm.Reserves`: the state after a chunk has been handed out.
* `Vardar.Pmm.ChunkReached`, `Vardar.Pmm.ContiguousOk`: when the search finds a chunk, and when it
  does what it should.

## Main results

* `Vardar.Pmm.allocContiguous_complete_iff`.
-/

namespace Vardar.Pmm

open ByteMemory Word Bitmap RingSearch Relation

variable {G : ℕ → Prop} {start : ℕ} {p p' : Pmm} {head head' t k : ℕ}

/-! ### The loops -/

/-- The allocator after the chunk of `k` frames at `g` has been handed out. Two frames more are
marked. -/
structure Reserves (p : Pmm) (k g : ℕ) (q : Pmm) : Prop where
  same : SameMap p q
  lastUsed : q.lastUsed = g + k
  bits : ∀ i < p.limit,
    bit q.mem p.bitmap i = (bit p.mem p.bitmap i || decide (g ≤ i ∧ i ≤ g + k + 1))

section Loops

variable (hs : Scannable G start p) (hhead : Passed p head)

include hs hhead

/-- The index after free frames has a bit. -/
theorem lt_limit_of_run (hle : head ≤ t) (hfree : ∀ j, head ≤ j → j < t → Free G p j) :
    t < p.limit ∧ t ≤ p.numEntries + 1 := by
  rcases hle.eq_or_lt with rfl | hlt
  · exact ⟨hs.lt_limit hhead, hs.passed_le hhead⟩
  · have hG := (hfree (t - 1) (by omega) (by omega)).1
    have hreached : Reached G p.numEntries start (t - 1) := by
      by_cases hfirst : t - 1 = head
      · rw [hfirst] at hG ⊢
        exact hhead.reached hs.covered hs.cursorOk hG
      · exact ⟨hG, Or.inr (Or.inr ⟨t - 2, (hfree (t - 2) (by omega) (by omega)).1, by omega⟩)⟩
    have hnext := hs.covered.next _ hreached
    have hN := hs.le _ hG
    rw [Nat.sub_add_cancel (by omega)] at hnext
    exact ⟨hnext, by omega⟩

theorem findChunk_of_blocked (hb : Blocked (Free G p) k head t) (fuel : ℕ) {j : ℕ} (hj : head ≤ j)
    (hjt : j ≤ t) :
    findChunk p k head fuel j = if t < j + fuel then some (false, (t : ℤ)) else none := by
  have hsmall := hs.small
  induction fuel generalizing j with
  | zero => rw [findChunk, if_neg (by omega)]
  | succ fuel ih =>
    obtain ⟨hlt, hle⟩ := lt_limit_of_run hs hhead hj fun i hi hi' => hb.2.2.2 i hi (by omega)
    have htk := hb.2.1
    rw [findChunk, u64_natCast (by omega), sub64_of_le hj (by omega), if_pos (by omega)]
    rcases hjt.eq_or_lt with rfl | hne
    · rw [if_pos ((hs.used_iff hlt).mpr hb.2.2.1), if_pos (by omega)]
    · rw [if_neg (mt (hs.used_iff hlt).mp (not_not.mpr (hb.2.2.2 j hj hne))),
        int32_natCast_add_one (by omega), ih (by omega) (by omega),
        show j + 1 + fuel = j + (fuel + 1) by omega]

theorem findChunk_of_window (hw : Window (Free G p) k head) (fuel : ℕ) {j : ℕ} (hj : head ≤ j)
    (hjk : j ≤ head + k + 1) :
    findChunk p k head fuel j =
      if head + k + 1 < j + fuel then some (true, ((head + k + 1 : ℕ) : ℤ)) else none := by
  have hsmall := hs.small
  induction fuel generalizing j with
  | zero => rw [findChunk, if_neg (by omega)]
  | succ fuel ih =>
    obtain ⟨hlt, hle⟩ := lt_limit_of_run hs hhead hj fun i hi hi' => hw i hi (by omega)
    rw [findChunk, u64_natCast (by omega), sub64_of_le hj (by omega)]
    rcases hjk.eq_or_lt with rfl | hne
    · rw [if_neg (by omega), if_pos (by omega)]
    · rw [if_pos (by omega), if_neg (mt (hs.used_iff hlt).mp (not_not.mpr (hw j hj (by omega)))),
        int32_natCast_add_one (by omega), ih (by omega) (by omega),
        show j + 1 + fuel = j + (fuel + 1) by omega]

/-- A used frame: the search goes on after it. -/
theorem allocContiguousFrom_blocked (hne : head ≠ p.lastUsed) (hb : Blocked (Free G p) k head t)
    (inner fuel : ℕ) :
    allocContiguousFrom k inner (fuel + 1) head p =
      if t < head + inner then allocContiguousFrom k inner fuel ((t + 1) % p.numEntries) p
      else none := by
  have hfour := hs.four_le
  have hsmall := hs.small
  have hlehead := hs.passed_le hhead
  obtain ⟨hlt, hle⟩ := lt_limit_of_run hs hhead hb.1 hb.2.2.2
  rw [allocContiguousFrom, if_neg hne, int32_natCast (by omega),
    findChunk_of_blocked hs hhead hb inner le_rfl hb.1]
  by_cases hinner : t < head + inner
  · simp only [if_pos hinner]
    rw [if_neg (by omega), u64_natCast (by omega), add64_of_lt (by omega)]
  · simp only [if_neg hinner]

/-- A chunk: it is marked with two frames more, and zeroed. -/
theorem allocContiguousFrom_window (hne : head ≠ p.lastUsed) (hw : Window (Free G p) k head) :
    ∃ q, Reserves p k head q ∧ ∀ inner fuel,
      allocContiguousFrom k inner (fuel + 1) head p =
        if k + 2 < inner then some (some (head * frameSize), q) else none := by
  have hsmall := hs.small
  obtain ⟨hlt, hle⟩ := lt_limit_of_run hs hhead (t := head + k + 1) (by omega)
    fun j hj hj' => hw j hj (by omega)
  obtain ⟨m, hm, hbit⟩ := setPagesUsed_eq (i := head) (hs.apart.byte_lt hlt) (by omega) (by omega)
  have hG : ∀ j < k, G (head + j) := fun j hj => (hw (head + j) (by omega) (by omega)).1
  refine ⟨{ ({ p with mem := m } : Pmm).zero (head * frameSize) (frameSize * k) with
    lastUsed := head + k }, ⟨⟨rfl, rfl, rfl⟩, rfl, fun i hi => ?_⟩, fun inner fuel => ?_⟩
  · rw [← hbit]
    have ha : Apart G { p with mem := m } := hs.apart.congr ⟨rfl, rfl, rfl⟩
    exact ha.bit_zero hG hi
  · rw [allocContiguousFrom, if_neg hne, int32_natCast (by omega),
      findChunk_of_window hs hhead hw inner le_rfl (by omega)]
    by_cases hinner : k + 2 < inner
    · have hchunk : head + k + 1 < head + inner := by omega
      have hmark : head + k + 1 + 1 < head + inner := by omega
      simp only [if_pos hchunk, hm inner, if_pos hmark, if_pos hinner]
      rw [Nat.mod_eq_of_lt (by simp only [frameSize]; omega),
        Nat.mod_eq_of_lt (by simp only [frameSize]; omega), add64_of_lt (by omega)]
    · have hmark : ¬ head + k + 1 + 1 < head + inner := by omega
      by_cases hchunk : head + k + 1 < head + inner
      · simp only [if_pos hchunk, hm inner, if_neg hmark, if_neg hinner]
      · simp only [if_neg hchunk, if_neg hinner]

/-! ### The whole search -/

theorem allocContiguousFrom_reaches
    (hr : ReflTransGen (Next (Free G p) p.numEntries p.lastUsed k) head head') :
    ∃ n, ∀ inner > k, ∀ fuel,
      allocContiguousFrom k inner (fuel + n) head p = allocContiguousFrom k inner fuel head' p := by
  induction hr with
  | refl => exact ⟨0, fun inner _ fuel => rfl⟩
  | tail hr hnext ih =>
    obtain ⟨n, hn⟩ := ih
    obtain ⟨hne, t, hb, rfl⟩ := hnext
    refine ⟨n + 1, fun inner hinner fuel => ?_⟩
    have htk := hb.2.1
    rw [show fuel + (n + 1) = fuel + 1 + n by omega, hn inner hinner,
      allocContiguousFrom_blocked hs (hhead.of_reaches hs.toFramed hr) hne hb, if_pos (by omega)]

theorem allocContiguousFrom_of_finds {g : ℕ}
    (hfinds : Finds (Free G p) p.numEntries p.lastUsed k head g) :
    ∃ q, Reserves p k g q ∧ ∃ n, ∀ inner ≥ n, ∀ fuel ≥ n,
      allocContiguousFrom k inner fuel head p = some (some (g * frameSize), q) := by
  obtain ⟨hr, hne, hw⟩ := hfinds
  obtain ⟨n, hn⟩ := allocContiguousFrom_reaches hs hhead hr
  obtain ⟨q, hq, hfound⟩ := allocContiguousFrom_window hs (hhead.of_reaches hs.toFramed hr) hne hw
  refine ⟨q, hq, n + k + 3, fun inner hinner fuel hfuel => ?_⟩
  rw [show fuel = fuel - (n + 1) + 1 + n by omega, hn inner (by omega), hfound, if_pos (by omega)]

theorem allocContiguousFrom_of_stops
    (hstops : Stops (Free G p) p.numEntries p.lastUsed k head) :
    ∃ n, ∀ inner ≥ n, ∀ fuel ≥ n, allocContiguousFrom k inner fuel head p = some (none, p) := by
  obtain ⟨n, hn⟩ := allocContiguousFrom_reaches hs hhead hstops
  refine ⟨n + k + 1, fun inner hinner fuel hfuel => ?_⟩
  rw [show fuel = fuel - (n + 1) + 1 + n by omega, hn inner (by omega), allocContiguousFrom,
    if_pos rfl]

/-- A call that returns has found a chunk or met `last_used`. -/
theorem allocContiguousFrom_returns {inner fuel : ℕ} {r : Option ℕ}
    (hr : allocContiguousFrom k inner fuel head p = some (r, p')) :
    (r = none ∧ p' = p ∧ Stops (Free G p) p.numEntries p.lastUsed k head) ∨
      ∃ g, r = some (g * frameSize) ∧ Reserves p k g p' ∧
        Finds (Free G p) p.numEntries p.lastUsed k head g := by
  induction fuel generalizing head with
  | zero => exact absurd hr (by simp [allocContiguousFrom])
  | succ fuel ih =>
    by_cases hstop : head = p.lastUsed
    · rw [allocContiguousFrom, if_pos hstop] at hr
      obtain ⟨rfl, rfl⟩ := Prod.mk.inj (Option.some.inj hr)
      exact Or.inl ⟨rfl, rfl, hstop ▸ ReflTransGen.refl⟩
    rcases window_or_blocked (Free G p) k head with hw | ⟨t, hb⟩
    · obtain ⟨q, hq, hfound⟩ := allocContiguousFrom_window hs hhead hstop hw
      rw [hfound] at hr
      split_ifs at hr
      obtain ⟨rfl, rfl⟩ := Prod.mk.inj (Option.some.inj hr)
      exact Or.inr ⟨head, rfl, hq, ReflTransGen.refl, hstop, hw⟩
    · have hnext : Next (Free G p) p.numEntries p.lastUsed k head ((t + 1) % p.numEntries) :=
        ⟨hstop, t, hb, rfl⟩
      rw [allocContiguousFrom_blocked hs hhead hstop hb] at hr
      split_ifs at hr
      rcases ih (hhead.of_reaches hs.toFramed (ReflTransGen.single hnext)) hr with
        ⟨hnone, hsame, hstops⟩ | ⟨g, hres, hq, hfinds⟩
      · exact Or.inl ⟨hnone, hsame, ReflTransGen.head hnext hstops⟩
      · exact Or.inr ⟨g, hres, hq, hfinds.of_reaches (ReflTransGen.single hnext)⟩

end Loops

/-! ### Completeness -/

/-- There are `k` consecutive free frames. -/
def HasChunk (G : ℕ → Prop) (p : Pmm) (k : ℕ) : Prop := ∃ f, ∀ j < k, Free G p (f + j)

/-- `AllocContiguous` returns, and it returns a frame exactly if there are enough consecutive free
frames. -/
def ContiguousComplete (G : ℕ → Prop) (p : Pmm) (size : ℕ) : Prop :=
  ∃ n, ∀ fuel ≥ n, ∃ r p', p.allocContiguous fuel size = some (r, p') ∧
    (r ≠ none ↔ HasChunk G p (numPages size))

/-- One frame more than `num_pages` is free in a row that does not begin at `last_used`, and if it
begins at frame 1, the search comes there. -/
def ChunkReached (G : ℕ → Prop) (p : Pmm) (size : ℕ) : Prop :=
  ∃ f, f ≠ p.lastUsed ∧ (∀ j ≤ numPages size, Free G p (f + j)) ∧
    (f = 1 → ReachesOne (Free G p) p.numEntries p.lastUsed)

/-- The search meets `last_used`: it begins there after the last frame, or the frame before it is
used. -/
def LastUsedReached (G : ℕ → Prop) (p : Pmm) : Prop :=
  p.lastUsed < p.numEntries ∧ (p.lastUsed = reentry (Free G p) p.numEntries 0 ∨
    (reentry (Free G p) p.numEntries 0 < p.lastUsed ∧ ¬ Free G p (p.lastUsed - 1)))

/-- The search finds a chunk that is one frame longer, or there is no chunk and the search meets
`last_used`. -/
def ContiguousOk (G : ℕ → Prop) (p : Pmm) (size : ℕ) : Prop :=
  ChunkReached G p size ∨ (¬ HasChunk G p (numPages size) ∧ LastUsedReached G p)

theorem numPages_pos {size : ℕ} (h : 0 < size) : 0 < numPages size := by
  by_cases hrest : 0 < size % frameSize
  · rw [numPages, if_pos hrest]
    exact Nat.succ_pos _
  · rw [numPages, if_neg hrest, Nat.add_zero]
    simp only [frameSize] at hrest ⊢
    omega

theorem window_iff {f : ℕ} : Window (Free G p) k f ↔ ∀ j ≤ k, Free G p (f + j) := by
  refine ⟨fun hw j hj => hw (f + j) (by omega) (by omega), fun h j hj hj' => ?_⟩
  rw [show j = f + (j - f) by omega]
  exact h _ (by omega)

section Complete

variable (hs : Scannable G start p) {size : ℕ} (hsize : 0 < size)

include hs hsize

theorem exists_finds_iff_chunkReached :
    (∃ g, Finds (Free G p) p.numEntries p.lastUsed (numPages size) (add64 p.lastUsed 1) g) ↔
      ChunkReached G p size := by
  have hpos := numPages_pos hsize
  rw [exists_finds_iff hs.four_le hs.le_of_free hs.cursor hs.not_free_zero, ChunkReached]
  simp only [window_iff]
  refine exists_congr fun f => and_congr_right fun _ => ⟨And.right, fun h => ⟨Or.inr ?_, h⟩⟩
  have hle := hs.le_of_free _ (h.1 (numPages size) le_rfl)
  omega

omit hs hsize in
theorem hasChunk_of_finds {g : ℕ}
    (hfinds : Finds (Free G p) p.numEntries p.lastUsed (numPages size) (add64 p.lastUsed 1) g) :
    HasChunk G p (numPages size) :=
  ⟨g, fun j hj => window_iff.mp hfinds.2.2 j hj.le⟩

omit hsize in
theorem stops_iff_lastUsedReached (hno : ¬ HasChunk G p (numPages size)) :
    Stops (Free G p) p.numEntries p.lastUsed (numPages size) (add64 p.lastUsed 1) ↔
      LastUsedReached G p :=
  stops_iff hs.four_le hs.le_of_free hs.cursor fun g hw =>
    hno ⟨g, fun j hj => window_iff.mp hw j hj.le⟩

theorem contiguousComplete_iff : ContiguousComplete G p size ↔ ContiguousOk G p size := by
  constructor
  · rintro ⟨n, hn⟩
    obtain ⟨r, p', hr, hiff⟩ := hn n le_rfl
    rcases allocContiguousFrom_returns hs (Or.inr rfl) hr with
      ⟨rfl, -, hstops⟩ | ⟨g, rfl, -, hfinds⟩
    · have hno : ¬ HasChunk G p (numPages size) := fun hchunk => hiff.mpr hchunk rfl
      exact Or.inr ⟨hno, (stops_iff_lastUsedReached hs hno).mp hstops⟩
    · exact Or.inl ((exists_finds_iff_chunkReached hs hsize).mp ⟨g, hfinds⟩)
  · rintro (hchunk | ⟨hno, hlast⟩)
    · obtain ⟨g, hfinds⟩ := (exists_finds_iff_chunkReached hs hsize).mpr hchunk
      obtain ⟨q, -, n, hn⟩ := allocContiguousFrom_of_finds hs (Or.inr rfl) hfinds
      exact ⟨n, fun fuel hfuel => ⟨_, q, hn fuel hfuel fuel hfuel,
        iff_of_true (Option.some_ne_none _) (hasChunk_of_finds hfinds)⟩⟩
    · have hstops := (stops_iff_lastUsedReached hs hno).mpr hlast
      obtain ⟨n, hn⟩ := allocContiguousFrom_of_stops hs (Or.inr rfl) hstops
      exact ⟨n, fun fuel hfuel => ⟨none, p, hn fuel hfuel fuel hfuel,
        iff_of_false (fun h => h rfl) hno⟩⟩

end Complete

/-- **`AllocContiguous` is complete exactly where its search finds one frame more.** In every state
that returning calls reach after `InitPmm`, on a map whose bitmap covers the indices that are
passed, `AllocContiguous` returns, and a frame exactly if there are `num_pages` consecutive free
frames, if and only if `ContiguousOk` holds. -/
theorem allocContiguous_complete_iff {memmap : List MmapEntry} (hm : StivaleMap memmap) {mem : Mem}
    (hinit : initPmm (boot mem) memmap = (true, p)) (hcov : BitmapCovers memmap)
    (hsmall : p.numEntries + 2 < 2 ^ 31) {s : State}
    (hrun : ReflTransGen State.Step ⟨p, []⟩ s) {size : ℕ} (hsize : 0 < size) :
    let G := Grantable memmap (findMemEntryBySize memmap p.bitmapSize)
    ContiguousComplete G s.pmm size ↔ ContiguousOk G s.pmm size := by
  intro G
  obtain ⟨hc, ha, hk, -⟩ := initPmm_bounds hm hinit hcov
  have hf := initPmm_framed hm hinit hcov hsmall
  exact contiguousComplete_iff ((hk.run hc ha hrun).scannable hc ha hf rfl) hsize

/-- Two pages on a map of 17 frames. -/
theorem allocContiguous_complete_smallMap :
    ContiguousOk (Grantable smallMap (findMemEntryBySize smallMap 4096))
        (initPmm (boot fun _ => 0) smallMap).2 5000 ∧
      ContiguousComplete (Grantable smallMap (findMemEntryBySize smallMap 4096))
        (initPmm (boot fun _ => 0) smallMap).2 5000 := by
  have hsize : (initPmm (boot fun _ => 0) smallMap).2.bitmapSize = 4096 := by decide +kernel
  have hinit : initPmm (boot fun _ => 0) smallMap =
      (true, (initPmm (boot fun _ => 0) smallMap).2) := Prod.ext initPmm_smallMap rfl
  have hfree (j : ℕ) (hj : j ≤ 2) : Free (Grantable smallMap (findMemEntryBySize smallMap 4096))
      (initPmm (boot fun _ => 0) smallMap).2 (2 + j) := by
    have hiff := initPmm_free stivaleMap_smallMap hinit bitmapCovers_smallMap (f := 2 + j)
    rw [hsize] at hiff
    refine hiff.mpr ⟨1, ⟨0x2000, 0x10000, 1⟩, rfl, by decide +kernel, rfl, ?_, ?_⟩
    · simp only [frameSize]
      omega
    · simp only [frameSize]
      omega
  have hok : ContiguousOk (Grantable smallMap (findMemEntryBySize smallMap 4096))
      (initPmm (boot fun _ => 0) smallMap).2 5000 :=
    Or.inl ⟨2, by decide +kernel, hfree, fun h => absurd h (by decide)⟩
  have hiff := allocContiguous_complete_iff stivaleMap_smallMap hinit bitmapCovers_smallMap
    (by decide +kernel) ReflTransGen.refl (show 0 < 5000 by decide)
  rw [hsize] at hiff
  exact ⟨hok, hiff.mpr hok⟩

theorem bitmapCovers_gapMap : BitmapCovers gapMap :=
  bitmapCovers_of_le (by decide) (by decide +kernel) (by decide +kernel) (by decide +kernel)

theorem gapMap_frames {f : ℕ} (h : Grantable gapMap (findMemEntryBySize gapMap 4096) f) :
    f = 3 ∨ f = 9 := by
  obtain ⟨i, e, he, hne, -, hlo, hhi⟩ := h
  rw [show findMemEntryBySize gapMap 4096 = some 0 by decide +kernel] at hne
  obtain ⟨hi, rfl⟩ := List.getElem?_eq_some_iff.mp he
  have hlt : i < 3 := hi
  have hpos : i ≠ 0 := by simpa using hne
  obtain rfl | rfl : i = 1 ∨ i = 2 := by omega
  · simp only [gapMap, List.getElem_cons_succ, List.getElem_cons_zero, frameSize] at hlo hhi
    omega
  · simp only [gapMap, List.getElem_cons_succ, List.getElem_cons_zero, frameSize] at hlo hhi
    omega

/-- With the frames 3 and 9, one page is not found: frame 4 is not free. -/
theorem allocContiguous_misses_single_frame :
    StivaleMap gapMap ∧ (initPmm (boot fun _ => 0) gapMap).1 = true ∧
      (∃ q, (initPmm (boot fun _ => 0) gapMap).2.allocContiguous 20 4096 = some (none, q)) ∧
      HasChunk (Grantable gapMap (findMemEntryBySize gapMap 4096))
        (initPmm (boot fun _ => 0) gapMap).2 (numPages 4096) ∧
      ¬ ContiguousComplete (Grantable gapMap (findMemEntryBySize gapMap 4096))
        (initPmm (boot fun _ => 0) gapMap).2 4096 := by
  have hsize : (initPmm (boot fun _ => 0) gapMap).2.bitmapSize = 4096 := by decide +kernel
  have hchunk : HasChunk (Grantable gapMap (findMemEntryBySize gapMap 4096))
      (initPmm (boot fun _ => 0) gapMap).2 (numPages 4096) := by
    refine ⟨3, fun j hj => ?_⟩
    obtain rfl : j = 0 := by
      have hone : numPages 4096 = 1 := by decide
      omega
    exact ⟨⟨1, ⟨0x3000, 0x1000, 1⟩, rfl, by decide +kernel, rfl, by decide, by decide⟩,
      by decide +kernel⟩
  obtain ⟨hc, ha, hk, -⟩ := initPmm_bounds stivaleMap_gapMap (Prod.ext initPmm_gapMap rfl)
    bitmapCovers_gapMap
  have hf := initPmm_framed stivaleMap_gapMap (Prod.ext initPmm_gapMap rfl) bitmapCovers_gapMap
    (by decide +kernel)
  have hiff := contiguousComplete_iff (hk.scannable hc ha hf rfl) (show 0 < 4096 by decide)
  rw [hsize] at hiff
  refine ⟨stivaleMap_gapMap, initPmm_gapMap, ?_, hchunk, fun hcon => ?_⟩
  · obtain ⟨⟨o, q⟩, hq, rfl⟩ := Option.map_eq_some_iff.mp
      (show ((initPmm (boot fun _ => 0) gapMap).2.allocContiguous 20 4096).map Prod.fst = some none
        by decide +kernel)
    exact ⟨q, hq⟩
  · rcases hiff.mp hcon with ⟨f, -, hrow, -⟩ | ⟨hno, -⟩
    · have hone : numPages 4096 = 1 := by decide
      have hzero := gapMap_frames (hrow 0 (by omega)).1
      have hnext := gapMap_frames (hrow 1 (by omega)).1
      omega
    · exact hno hchunk

end Vardar.Pmm
