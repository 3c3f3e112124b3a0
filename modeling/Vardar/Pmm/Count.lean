import Mathlib.Data.Nat.Count
import Vardar.Pmm.Contiguous

/-!
# Counting free frames

`NumFreeFrames` counts the frames below `num_entries`, so it misses the last usable one, and
`AllocContiguous` marks up to two frames more than it hands out.

## Main definitions

* `Vardar.Pmm.ReservesExactly`: a chunk that is handed out is what is marked.
* `Vardar.Pmm.Tally`: a run with the numbers of frames handed out and freed.
* `Vardar.Pmm.CountOk`: the calls that keep the count.

## Main results

* `Vardar.Pmm.numFreeFrames_eq_of_run`.
-/

namespace Vardar.Pmm

open ByteMemory Word Bitmap RingSearch Relation

variable {G : ℕ → Prop} {start : ℕ} {p p' : Pmm}

/-! ### `NumFreeFrames` -/

open Classical in
/-- The free frames below `num_entries`. -/
noncomputable def freeBelow (G : ℕ → Prop) (p : Pmm) : Finset ℕ :=
  (Finset.range p.numEntries).filter (Free G p)

theorem mem_freeBelow {f : ℕ} : f ∈ freeBelow G p ↔ f < p.numEntries ∧ Free G p f := by
  classical
  rw [freeBelow, Finset.mem_filter, Finset.mem_range]

section Count

open Classical

variable (hs : Scannable G start p)

include hs

theorem countFreeFrames_eq {fuel i : ℕ} (hi : i + fuel = p.numEntries) :
    p.countFreeFrames fuel i (Nat.count (Free G p) i) = Nat.count (Free G p) p.numEntries := by
  have hsmall := hs.small
  induction fuel generalizing i with
  | zero =>
    rw [countFreeFrames, ← hi, Nat.add_zero]
  | succ fuel ih =>
    have hlt : i < p.limit := lt_of_lt_of_le (by omega) hs.covered.entries
    have hcount : Nat.count (Free G p) (i + 1) ≤ i + 1 := Nat.count_le _
    rw [countFreeFrames, u64_natCast (by omega), if_pos (by omega),
      int32_natCast_add_one (by omega), ← ih (i := i + 1) (by omega)]
    congr 1
    rw [Nat.count_succ] at hcount ⊢
    by_cases hfree : Free G p i
    · rw [if_pos hfree] at hcount ⊢
      rw [if_neg (mt (hs.used_iff hlt).mp (not_not.mpr hfree))]
      exact int32_natCast (n := Nat.count (Free G p) i + 1) (by omega)
    · rw [if_neg hfree, Nat.add_zero] at hcount ⊢
      rw [if_pos ((hs.used_iff hlt).mpr hfree), Int.add_zero]
      exact int32_natCast (by omega)

theorem numFreeFrames_eq : p.numFreeFrames = ((freeBelow G p).card : ℤ) := by
  have hcount := countFreeFrames_eq hs (Nat.zero_add p.numEntries)
  rw [Nat.count_zero] at hcount
  rw [numFreeFrames, freeBelow, ← Nat.count_eq_card_filter_range]
  exact hcount

end Count

/-! ### What the calls do to the count -/

section Effects

open Classical

variable (hs : Scannable G start p) {f g : ℕ}

include hs

theorem card_freeBelow_taken (hfree : Free G p g) (hlt : g < p.numEntries) :
    (freeBelow G (p.taken g)).card + 1 = (freeBelow G p).card := by
  have herase : freeBelow G (p.taken g) = (freeBelow G p).erase g := by
    ext f
    rw [Finset.mem_erase, mem_freeBelow, mem_freeBelow, free_taken hs hfree]
    exact ⟨fun ⟨hf, hff, hne⟩ => ⟨hne, hf, hff⟩, fun ⟨hne, hf, hff⟩ => ⟨hf, hff, hne⟩⟩
  rw [herase]
  exact Finset.card_erase_add_one (mem_freeBelow.mpr ⟨hlt, hfree⟩)

theorem free_freeFrame (hG : G g) :
    Free G (p.freeFrame (g * frameSize)) f ↔ Free G p f ∨ f = g := by
  have hlt := hs.covered.frames g hG
  have hcall : p.freeFrame (g * frameSize) =
      { p.zero (g * frameSize) frameSize with
        mem := clearBit (p.zero (g * frameSize) frameSize).mem p.bitmap g } := by
    rw [freeFrame, frameSize, Nat.mul_div_cancel _ (by decide), int32_natCast (lt_of_lt_limit hlt)]
    exact setPageFree_natCast (hs.apart.byte_lt hlt)
  have hbit (hf : G f) : bit (p.freeFrame (g * frameSize)).mem p.bitmap f =
      (bit p.mem p.bitmap f && decide (f ≠ g)) := by
    have hz := hs.apart.bit_zero (a := g) (k := 1) (fun j hj => by
      obtain rfl : j = 0 := by omega
      exact hG) (hs.covered.frames f hf)
    rw [hcall, bit_clearBit]
    exact congrArg (· && decide (f ≠ g)) hz
  constructor
  · rintro ⟨hf, hclear⟩
    have hand := (hbit hf).symm.trans hclear
    rw [Bool.and_eq_false_iff, decide_eq_false_iff_not, not_not] at hand
    exact hand.imp_left fun h => ⟨hf, h⟩
  · rintro (⟨hf, hclear⟩ | rfl)
    · exact ⟨hf, (hbit hf).trans (by rw [hclear, Bool.false_and])⟩
    · exact ⟨hG, (hbit hG).trans (by simp)⟩

theorem card_freeBelow_freeFrame (hG : G g) (hused : ¬ Free G p g) (hlt : g < p.numEntries) :
    (freeBelow G (p.freeFrame (g * frameSize))).card = (freeBelow G p).card + 1 := by
  have hinsert : freeBelow G (p.freeFrame (g * frameSize)) = insert g (freeBelow G p) := by
    ext f
    rw [Finset.mem_insert, mem_freeBelow, mem_freeBelow, free_freeFrame hs hG]
    constructor
    · rintro ⟨hf, hff | rfl⟩
      · exact Or.inr ⟨hf, hff⟩
      · exact Or.inl rfl
    · rintro (rfl | ⟨hf, hff⟩)
      · exact ⟨hlt, Or.inr rfl⟩
      · exact ⟨hf, Or.inl hff⟩
  rw [hinsert]
  exact Finset.card_insert_of_notMem fun hmem => hused (mem_freeBelow.mp hmem).2

end Effects

/-! ### What a chunk reserves -/

/-- If `AllocContiguous` returns a frame, the frames from it on were not marked, and of all bits of
the bitmap theirs are set and no others change. -/
def ReservesExactly (p : Pmm) (size : ℕ) : Prop :=
  ∀ fuel a q, p.allocContiguous fuel size = some (some a, q) →
    (∀ j < numPages size, bit p.mem p.bitmap (a / frameSize + j) = false) ∧
      ∀ i < 8 * p.bitmapSize, bit q.mem q.bitmap i = (bit p.mem p.bitmap i ||
        decide (a / frameSize ≤ i ∧ i < a / frameSize + numPages size))

/-- A chunk that is handed out has one more frame after it, which was free and is marked. -/
theorem Reserves.not_exact (hs : Scannable G start p) {k g : ℕ} {q : Pmm} (hq : Reserves p k g q)
    (hw : Window (Free G p) k g) :
    g + k < 8 * p.bitmapSize ∧ bit p.mem p.bitmap (g + k) = false ∧
      bit q.mem q.bitmap (g + k) = true := by
  have hfree := hw (g + k) (by omega) le_rfl
  have hlt := hs.covered.frames _ hfree.1
  refine ⟨(lt_min_iff.mp hlt).2, hfree.2, ?_⟩
  rw [hq.same.2.2, hq.bits _ hlt, decide_eq_true (by omega), Bool.or_true]

theorem reservesExactly_iff (hs : Scannable G start p) {size : ℕ} (hsize : 0 < size) :
    ReservesExactly p size ↔ ¬ ChunkReached G p size := by
  rw [← exists_finds_iff_chunkReached hs hsize]
  constructor
  · rintro hexact ⟨g, hfinds⟩
    obtain ⟨q, hq, n, hn⟩ := allocContiguousFrom_of_finds hs (Or.inr rfl) hfinds
    obtain ⟨-, hbits⟩ := hexact n _ q (hn n le_rfl n le_rfl)
    obtain ⟨hlt, hclear, hset⟩ := hq.not_exact hs hfinds.2.2
    have hbit := hbits _ hlt
    rw [frameSize, Nat.mul_div_cancel _ (by decide), hclear, hset,
      decide_eq_false (by omega)] at hbit
    exact absurd hbit (by decide)
  · rintro hno fuel a q hr
    rcases allocContiguousFrom_returns hs (Or.inr rfl) hr with ⟨hcon, -⟩ | ⟨g, -, -, hfinds⟩
    · exact absurd hcon (Option.some_ne_none _)
    · exact absurd ⟨g, hfinds⟩ hno

/-! ### Runs -/

/-- The number of frames that a call frees. -/
def Call.freed : Call → ℕ
  | .freeFrame _ => 1
  | _ => 0

/-- A state with the numbers of frames handed out and freed so far. -/
structure Tally where
  state : State
  handedOut : ℕ
  freed : ℕ

/-- One returning call that meets a condition on the state before it. -/
def Tally.Step (C : State → Call → Prop) (x y : Tally) : Prop :=
  ∃ fuel c r, x.state.Allowed c ∧ C x.state c ∧ x.state.step fuel c = some (r, y.state) ∧
    y.handedOut = x.handedOut + r.length ∧ y.freed = x.freed + c.freed

/-- `AllocFirstFrame` does not come to the last usable frame, which is not counted, and
`AllocContiguous` finds no chunk. -/
def CountOk (G : ℕ → Prop) (s : State) : Call → Prop
  | .allocFirstFrame =>
    ¬ (add64 s.pmm.lastUsed 1 = s.pmm.numEntries ∧ Free G s.pmm s.pmm.numEntries)
  | .allocContiguous size => 0 < size ∧ ¬ ChunkReached G s.pmm size
  | .freeFrame _ => True

/-- The invariant of such a run: the frames that are held are counted and marked, and the count is
right. -/
structure Tallied (G : ℕ → Prop) (start : ℕ) (p : Pmm) (x : Tally) : Prop where
  kept : Kept G start p x.state
  held : ∀ f ∈ x.state.live, f < p.numEntries ∧ ¬ Free G x.state.pmm f
  count : (freeBelow G x.state.pmm).card + x.handedOut = (freeBelow G p).card + x.freed

namespace Tallied

variable {x y : Tally} (ht : Tallied G start p x) (hs : Scannable G start x.state.pmm)
  (hkept : Kept G start p y.state)

include ht hs hkept

omit hs in
/-- A call that hands out nothing and frees nothing. -/
theorem of_eq (hy : y.state = x.state) (hhanded : y.handedOut = x.handedOut)
    (hfreed : y.freed = x.freed) : Tallied G start p y := by
  refine ⟨hkept, ?_, ?_⟩
  · rw [hy]
    exact ht.held
  · rw [hy, hhanded, hfreed]
    exact ht.count

theorem allocFirstFrame {fuel : ℕ} {o : Option ℕ} {q : Pmm}
    (hok : CountOk G x.state .allocFirstFrame)
    (hr : x.state.pmm.allocFirstFrame fuel = some (o, q))
    (hy : y.state = (x.state.grant 1 (o, q)).2)
    (hhanded : y.handedOut = x.handedOut + (x.state.grant 1 (o, q)).1.length)
    (hfreed : y.freed = x.freed) : Tallied G start p y := by
  have hN := ht.kept.same.1
  rcases allocFirstFrame_returns hs hr with ⟨rfl, rfl, -⟩ | ⟨g, rfl, rfl, hfinds⟩
  · exact ht.of_eq hkept hy hhanded hfreed
  · have hfree := hfinds.2.2 g le_rfl le_rfl
    have hfour := hs.four_le
    have hlt : g < x.state.pmm.numEntries := by
      have hle := hs.le_of_free g hfree
      rcases eq_or_lt_of_reaches (by omega) hfinds.1 with heq | hlt
      · refine hle.lt_of_ne fun hend => hok ⟨heq.symm.trans hend, ?_⟩
        rwa [← hend]
      · exact hlt
    have hcard := card_freeBelow_taken hs hfree hlt
    have hcount := ht.count
    rw [State.grant, frameSize, Nat.mul_div_cancel _ (by decide)] at hy hhanded
    refine ⟨hkept, fun f hf => ?_, ?_⟩
    · rw [hy] at hf ⊢
      rw [free_taken hs hfree]
      rcases List.mem_append.mp hf with hf | hf
      · obtain rfl : f = g := by simpa using hf
        exact ⟨hN ▸ hlt, fun h => h.2 rfl⟩
      · exact ⟨(ht.held f hf).1, fun h => (ht.held f hf).2 h.1⟩
    · rw [hy, hhanded, hfreed, List.length_range']
      change (freeBelow G (x.state.pmm.taken g)).card + _ = _
      omega

theorem allocContiguous {fuel size : ℕ} {o : Option ℕ} {q : Pmm}
    (hok : CountOk G x.state (.allocContiguous size))
    (hr : x.state.pmm.allocContiguous fuel size = some (o, q))
    (hy : y.state = (x.state.grant (numPages size) (o, q)).2)
    (hhanded : y.handedOut = x.handedOut + (x.state.grant (numPages size) (o, q)).1.length)
    (hfreed : y.freed = x.freed) : Tallied G start p y := by
  rcases allocContiguousFrom_returns hs (Or.inr rfl) hr with ⟨rfl, rfl, -⟩ | ⟨g, -, -, hfinds⟩
  · exact ht.of_eq hkept hy hhanded hfreed
  · exact absurd ((exists_finds_iff_chunkReached hs hok.1).mp ⟨g, hfinds⟩) hok.2

theorem freeFrame {f : ℕ} (hf : f ∈ x.state.live)
    (hy : y.state = ⟨x.state.pmm.freeFrame (f * frameSize),
      x.state.live.filter fun g => g ≠ f * frameSize / frameSize⟩)
    (hhanded : y.handedOut = x.handedOut) (hfreed : y.freed = x.freed + 1) :
    Tallied G start p y := by
  have hG := ht.kept.held f hf
  obtain ⟨hlt, hused⟩ := ht.held f hf
  have hcard := card_freeBelow_freeFrame hs hG hused (ht.kept.same.1.symm ▸ hlt)
  have hcount := ht.count
  rw [frameSize, Nat.mul_div_cancel _ (by decide)] at hy
  refine ⟨hkept, fun g hg => ?_, ?_⟩
  · rw [hy] at hg ⊢
    obtain ⟨hg, hne⟩ := List.mem_filter.mp hg
    refine ⟨(ht.held g hg).1, fun hfree => ?_⟩
    rcases (free_freeFrame hs hG).mp hfree with hfree | heq
    · exact (ht.held g hg).2 hfree
    · simp [heq] at hne
  · rw [hy, hhanded, hfreed]
    change (freeBelow G (x.state.pmm.freeFrame (f * frameSize))).card + _ = _
    omega

omit hs hkept in
theorem step (hc : Covered G start p.numEntries p.limit) (ha : Apart G p) (hf : Framed G p)
    (hstart : p.lastUsed = start) (hstep : Tally.Step (CountOk G) x y) : Tallied G start p y := by
  obtain ⟨fuel, c, r, hall, hok, hr, hhanded, hfreed⟩ := hstep
  have hs := ht.kept.scannable hc ha hf hstart
  have hkept := (ht.kept.step hc ha hall hr).2
  cases c with
  | allocFirstFrame =>
    obtain ⟨⟨o, q⟩, ho, hg⟩ := Option.map_eq_some_iff.mp hr
    obtain ⟨rfl, hy⟩ := Prod.mk.inj hg
    exact ht.allocFirstFrame hs hkept hok ho hy.symm hhanded hfreed
  | allocContiguous size =>
    obtain ⟨⟨o, q⟩, ho, hg⟩ := Option.map_eq_some_iff.mp hr
    obtain ⟨rfl, hy⟩ := Prod.mk.inj hg
    exact ht.allocContiguous hs hkept hok ho hy.symm hhanded hfreed
  | freeFrame frame =>
    obtain ⟨f, hf, rfl⟩ := hall
    obtain ⟨rfl, hy⟩ := Prod.mk.inj (Option.some.inj hr)
    exact ht.freeFrame hs hkept hf hy.symm hhanded hfreed

end Tallied

/-- **What `AllocContiguous` marks and what `NumFreeFrames` counts.** After `InitPmm`, on a map
whose bitmap covers the indices that are passed, in every state that returning calls reach a call of
`AllocContiguous` reserves exactly what it returns if and only if it finds no chunk. And along every
run whose calls meet `CountOk`, the number of free frames is the one after `InitPmm` less the frames
handed out and plus those freed. -/
theorem numFreeFrames_eq_of_run {memmap : List MmapEntry} (hm : StivaleMap memmap) {mem : Mem}
    (hinit : initPmm (boot mem) memmap = (true, p)) (hcov : BitmapCovers memmap)
    (hsmall : p.numEntries + 2 < 2 ^ 31) :
    let G := Grantable memmap (findMemEntryBySize memmap p.bitmapSize)
    (∀ s, ReflTransGen State.Step ⟨p, []⟩ s → ∀ size > 0,
      (ReservesExactly s.pmm size ↔ ¬ ChunkReached G s.pmm size)) ∧
    ∀ x, ReflTransGen (Tally.Step (CountOk G)) ⟨⟨p, []⟩, 0, 0⟩ x →
      x.state.pmm.numFreeFrames = p.numFreeFrames - x.handedOut + x.freed := by
  intro G
  obtain ⟨hc, ha, hk, -⟩ := initPmm_bounds hm hinit hcov
  have hf := initPmm_framed hm hinit hcov hsmall
  refine ⟨fun s hrun size hsize => ?_, fun x hrun => ?_⟩
  · exact reservesExactly_iff ((hk.run hc ha hrun).scannable hc ha hf rfl) hsize
  · have htallied : Tallied G p.lastUsed p x := by
      induction hrun with
      | refl => exact ⟨hk, fun f hf => absurd hf List.not_mem_nil, rfl⟩
      | tail _ hstep ih => exact ih.step hc ha hf rfl hstep
    have hcount := htallied.count
    rw [numFreeFrames_eq (htallied.kept.scannable hc ha hf rfl),
      numFreeFrames_eq (hk.scannable hc ha hf rfl)]
    change _ = ((freeBelow G p).card : ℤ) - _ + _
    omega

/-- On a map of 17 frames, 15 are counted at first and after one has been handed out and freed. -/
theorem numFreeFrames_eq_of_run_smallMap :
    ∃ x, ReflTransGen
        (Tally.Step (CountOk (Grantable smallMap (findMemEntryBySize smallMap 4096))))
        ⟨⟨(initPmm (boot fun _ => 0) smallMap).2, []⟩, 0, 0⟩ x ∧
      x.handedOut = 1 ∧ x.freed = 1 ∧ x.state.pmm.numFreeFrames = 15 := by
  have hsize : (initPmm (boot fun _ => 0) smallMap).2.bitmapSize = 4096 := by decide +kernel
  have hcount : (initPmm (boot fun _ => 0) smallMap).2.numFreeFrames = 15 := by decide +kernel
  obtain ⟨⟨r, s⟩, hfirst, hres⟩ := Option.map_eq_some_iff.mp
    (show (State.step 20 ⟨(initPmm (boot fun _ => 0) smallMap).2, []⟩ .allocFirstFrame).map
      (fun x => (x.1, x.2.live)) = some ([2], [2]) by decide +kernel)
  obtain ⟨rfl, hlive⟩ : r = [2] ∧ s.live = [2] := Prod.mk.inj hres
  have hok : CountOk (Grantable smallMap (findMemEntryBySize smallMap 4096))
      ⟨(initPmm (boot fun _ => 0) smallMap).2, []⟩ .allocFirstFrame :=
    fun h => absurd h.1 (by decide +kernel)
  have hrun : ReflTransGen
      (Tally.Step (CountOk (Grantable smallMap (findMemEntryBySize smallMap 4096))))
      ⟨⟨(initPmm (boot fun _ => 0) smallMap).2, []⟩, 0, 0⟩
      ⟨⟨s.pmm.freeFrame 0x2000, s.live.filter fun f => f ≠ 0x2000 / frameSize⟩, 1, 1⟩ :=
    (ReflTransGen.single (b := ⟨s, 1, 0⟩)
      ⟨20, .allocFirstFrame, [2], trivial, hok, hfirst, rfl, rfl⟩).tail
      ⟨0, .freeFrame 0x2000, [], ⟨2, by simp [hlive], rfl⟩, trivial, rfl, rfl, rfl⟩
  have hmain := (numFreeFrames_eq_of_run stivaleMap_smallMap (Prod.ext initPmm_smallMap rfl)
    bitmapCovers_smallMap (by decide +kernel)).2
  rw [hsize] at hmain
  refine ⟨_, hrun, rfl, rfl, ?_⟩
  rw [hmain _ hrun, hcount]
  rfl

/-- One page on a map of 17 frames marks three frames; and the only frame of a map is handed out
without being counted. -/
theorem allocContiguous_reserves_more :
    ((initPmm (boot fun _ => 0) smallMap).2.numFreeFrames = 15 ∧
      (∃ q, (initPmm (boot fun _ => 0) smallMap).2.allocContiguous 20 4096 =
        some (some 0x2000, q) ∧ q.numFreeFrames = 12) ∧
      ¬ ReservesExactly (initPmm (boot fun _ => 0) smallMap).2 4096) ∧
    (initPmm (boot fun _ => 0) [⟨0x1000, 0x1000, 1⟩, ⟨0x9000, 0x1000, 1⟩]).2.numFreeFrames = 0 ∧
      ∃ q, (initPmm (boot fun _ => 0)
        [⟨0x1000, 0x1000, 1⟩, ⟨0x9000, 0x1000, 1⟩]).2.allocFirstFrame 20 =
          some (some 0x9000, q) ∧ q.numFreeFrames = 0 := by
  obtain ⟨⟨o, q⟩, hq, hres⟩ := Option.map_eq_some_iff.mp
    (show ((initPmm (boot fun _ => 0) smallMap).2.allocContiguous 20 4096).map
      (fun x => (x.1, x.2.numFreeFrames, bit x.2.mem x.2.bitmap 3)) =
        some (some 0x2000, 12, true) by decide +kernel)
  obtain ⟨⟨o', q'⟩, hq', hres'⟩ := Option.map_eq_some_iff.mp
    (show ((initPmm (boot fun _ => 0)
        [⟨0x1000, 0x1000, 1⟩, ⟨0x9000, 0x1000, 1⟩]).2.allocFirstFrame 20).map
      (fun x => (x.1, x.2.numFreeFrames)) = some (some 0x9000, 0) by decide +kernel)
  simp only [Prod.mk.injEq] at hres hres'
  obtain ⟨rfl, hcount, hbit⟩ := hres
  obtain ⟨rfl, hcount'⟩ := hres'
  refine ⟨⟨by decide +kernel, ⟨q, hq, hcount⟩, fun hexact => ?_⟩, by decide +kernel, q', hq',
    hcount'⟩
  have hthree := (hexact 20 _ q hq).2 3 (by decide +kernel)
  rw [hbit] at hthree
  exact absurd hthree (by decide +kernel)

end Vardar.Pmm
