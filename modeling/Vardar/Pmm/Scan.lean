import Vardar.Lib.RingSearch
import Vardar.Pmm.Bounds

/-!
# What the searches find

`AllocFirstFrame` and `AllocContiguous` search the ring of the frames below `num_entries` from the
frame after `last_used` on. The last usable frame is number `num_entries`: it is not in the ring, so
it is found only from the frame before it, and if `last_used` is there, a search that finds nothing
does not end. The frame at `last_used` itself is not looked at.

## Main definitions

* `Vardar.Pmm.Free`: the frames that may be handed out and are marked free.
* `Vardar.Pmm.ScanOk`: when `AllocFirstFrame` sees what it needs.
* `Vardar.Pmm.Drains`: the frames of repeated calls.

## Main results

* `Vardar.Pmm.allocFirstFrame_complete_iff`.
-/

namespace Vardar.Pmm

open ByteMemory Word Bitmap RingSearch Relation

/-- Frame `f` may be handed out and is marked free. -/
def Free (G : ℕ → Prop) (p : Pmm) (f : ℕ) : Prop := G f ∧ bit p.mem p.bitmap f = false

/-- The allocator after it has handed out frame `g`. -/
def taken (p : Pmm) (g : ℕ) : Pmm :=
  ({ p.setPageUsed g with lastUsed := g } : Pmm).zero (g * frameSize) frameSize

/-- The frames that may be handed out lie in `1..num_entries`, there are at least four and the
number of the frame two after them is an `int`, and `last_used` is one of them, 0 or the number
before 0. -/
structure Framed (G : ℕ → Prop) (p : Pmm) : Prop where
  four_le : 4 ≤ p.numEntries
  small : p.numEntries + 2 < 2 ^ 31
  pos : ∀ f, G f → 0 < f
  le : ∀ f, G f → f ≤ p.numEntries
  cursor : Cursor p.numEntries p.lastUsed (add64 p.lastUsed 1)

variable {G : ℕ → Prop} {start : ℕ} {p p' : Pmm} {i i' g : ℕ}

namespace Framed

theorem not_free_zero (hf : Framed G p) : ¬ Free G p 0 := fun h => absurd (hf.pos 0 h.1) (by decide)

theorem le_of_free (hf : Framed G p) : ∀ i, Free G p i → i ≤ p.numEntries := fun i h => hf.le i h.1

theorem passed_le (hf : Framed G p) (hi : Passed p i) : i ≤ p.numEntries + 1 := by
  rcases hi with hlt | rfl
  · omega
  · exact hf.cursor.le.1

end Framed

/-- The index of a search that goes on is below `num_entries`. -/
theorem Passed.of_reaches {k : ℕ} (hf : Framed G p) (hi : Passed p i)
    (hr : ReflTransGen (Next (Free G p) p.numEntries p.lastUsed k) i i') : Passed p i' := by
  have hpos := hf.four_le
  rcases eq_or_lt_of_reaches (by omega) hr with rfl | hlt
  · exact hi
  · exact Or.inl hlt

/-- What the searches rely on. -/
structure Scannable (G : ℕ → Prop) (start : ℕ) (p : Pmm) : Prop extends Framed G p where
  covered : Covered G start p.numEntries p.limit
  cursorOk : CursorOk G start p
  apart : Apart G p
  clear : ClearOk G p

theorem Scannable.lt_limit (hs : Scannable G start p) (hi : Passed p i) : i < p.limit :=
  hi.lt hs.covered hs.cursorOk

theorem Scannable.used_iff (hs : Scannable G start p) (hi : i < p.limit) :
    p.pageIsUsed i = true ↔ ¬ Free G p i := by
  rw [pageIsUsed_natCast (hs.apart.byte_lt hi), Free, not_and, Bool.not_eq_false]
  refine ⟨fun h _ => h, fun h => ?_⟩
  by_contra hfree
  rw [Bool.not_eq_true] at hfree
  rw [h (hs.clear i hi hfree)] at hfree
  exact absurd hfree (by decide)

/-! ### The loop of `AllocFirstFrame` -/

section FirstFrame

variable (hs : Scannable G start p)

include hs

/-- A used frame: the loop goes on. -/
theorem allocFirstFrameFrom_next (hi : Passed p i)
    (hnext : Next (Free G p) p.numEntries p.lastUsed 0 i i') (fuel : ℕ) :
    allocFirstFrameFrom (fuel + 1) i p = allocFirstFrameFrom fuel i' p := by
  have hlt := hs.lt_limit hi
  have hle := hs.passed_le hi
  have hsmall := hs.small
  have hfour := hs.four_le
  obtain ⟨hne, t, ⟨hit, hti, hused, -⟩, rfl⟩ := hnext
  obtain rfl : t = i := by omega
  have hmod := Nat.mod_lt (t + 1) (show 0 < p.numEntries by omega)
  rw [allocFirstFrameFrom, u64_natCast (by omega), if_neg hne,
    if_pos ((hs.used_iff hlt).mpr hused), if_neg (by omega),
    int32_natCast_add_one (by omega), u64_natCast (by omega), int32_natCast (by omega)]

theorem allocFirstFrameFrom_found (hi : Passed p i) (hne : i ≠ p.lastUsed) (hfree : Free G p i)
    (fuel : ℕ) :
    allocFirstFrameFrom (fuel + 1) i p = some (some (i * frameSize), p.taken i) := by
  have hlt := hs.lt_limit hi
  have hle := hs.passed_le hi
  have hsmall := hs.small
  rw [allocFirstFrameFrom, u64_natCast (by omega), if_neg hne,
    if_neg (mt (hs.used_iff hlt).mp (not_not.mpr hfree))]
  rw [Nat.mod_eq_of_lt (by simp only [frameSize]; omega)]
  rfl

theorem allocFirstFrameFrom_reaches (hi : Passed p i)
    (hr : ReflTransGen (Next (Free G p) p.numEntries p.lastUsed 0) i i') :
    ∃ n, ∀ fuel, allocFirstFrameFrom (fuel + n) i p = allocFirstFrameFrom fuel i' p := by
  induction hr with
  | refl => exact ⟨0, fun fuel => rfl⟩
  | tail hr hnext ih =>
    obtain ⟨n, hn⟩ := ih
    refine ⟨n + 1, fun fuel => ?_⟩
    rw [show fuel + (n + 1) = fuel + 1 + n by omega, hn]
    exact allocFirstFrameFrom_next hs (hi.of_reaches hs.toFramed hr) hnext fuel

/-- A search that finds a frame hands it out. -/
theorem allocFirstFrameFrom_of_finds (hi : Passed p i)
    (hfinds : Finds (Free G p) p.numEntries p.lastUsed 0 i g) :
    ∃ n, ∀ fuel ≥ n, allocFirstFrameFrom fuel i p = some (some (g * frameSize), p.taken g) := by
  obtain ⟨hr, hne, hw⟩ := hfinds
  obtain ⟨n, hn⟩ := allocFirstFrameFrom_reaches hs hi hr
  refine ⟨n + 1, fun fuel hfuel => ?_⟩
  rw [show fuel = fuel - (n + 1) + 1 + n by omega, hn]
  exact allocFirstFrameFrom_found hs (hi.of_reaches hs.toFramed hr) hne
    (hw g le_rfl le_rfl) _

theorem allocFirstFrameFrom_of_stops (hi : Passed p i)
    (hstops : Stops (Free G p) p.numEntries p.lastUsed 0 i) :
    ∃ n, ∀ fuel ≥ n, allocFirstFrameFrom fuel i p = some (none, p) := by
  obtain ⟨n, hn⟩ := allocFirstFrameFrom_reaches hs hi hstops
  have hle := hs.passed_le (hi.of_reaches hs.toFramed hstops)
  have hsmall := hs.small
  refine ⟨n + 1, fun fuel hfuel => ?_⟩
  rw [show fuel = fuel - (n + 1) + 1 + n by omega, hn, allocFirstFrameFrom, u64_natCast (by omega),
    if_pos rfl]

/-- A call that returns has found a frame or met `last_used`. -/
theorem allocFirstFrameFrom_returns {fuel : ℕ} {r : Option ℕ} (hi : Passed p i)
    (hr : allocFirstFrameFrom fuel i p = some (r, p')) :
    (r = none ∧ p' = p ∧ Stops (Free G p) p.numEntries p.lastUsed 0 i) ∨
      ∃ g, r = some (g * frameSize) ∧ p' = p.taken g ∧
        Finds (Free G p) p.numEntries p.lastUsed 0 i g := by
  induction fuel generalizing i with
  | zero => exact absurd hr (by simp [allocFirstFrameFrom])
  | succ fuel ih =>
    by_cases hstop : i = p.lastUsed
    · have hle := hs.passed_le hi
      have hsmall := hs.small
      rw [allocFirstFrameFrom, u64_natCast (by omega), if_pos hstop] at hr
      obtain ⟨rfl, rfl⟩ := Prod.mk.inj (Option.some.inj hr)
      exact Or.inl ⟨rfl, rfl, hstop ▸ ReflTransGen.refl⟩
    rcases window_or_blocked (Free G p) 0 i with hw | ⟨t, hb⟩
    · rw [allocFirstFrameFrom_found hs hi hstop (hw i le_rfl le_rfl)] at hr
      obtain ⟨rfl, rfl⟩ := Prod.mk.inj (Option.some.inj hr)
      exact Or.inr ⟨i, rfl, rfl, ReflTransGen.refl, hstop, hw⟩
    · have hnext : Next (Free G p) p.numEntries p.lastUsed 0 i ((t + 1) % p.numEntries) :=
        ⟨hstop, t, hb, rfl⟩
      rw [allocFirstFrameFrom_next hs hi hnext] at hr
      rcases ih (hi.of_reaches hs.toFramed (ReflTransGen.single hnext)) hr with
        ⟨hnone, hsame, hs⟩ | ⟨g, hres, htaken, hfinds⟩
      · exact Or.inl ⟨hnone, hsame, ReflTransGen.head hnext hs⟩
      · exact Or.inr ⟨g, hres, htaken, hfinds.of_reaches (ReflTransGen.single hnext)⟩

end FirstFrame

/-! ### Completeness -/

/-- `AllocFirstFrame` returns, and it returns `NULL` exactly if no frame is free. -/
def FirstFrameComplete (G : ℕ → Prop) (p : Pmm) : Prop :=
  ∃ n, ∀ fuel ≥ n, ∃ r p', p.allocFirstFrame fuel = some (r, p') ∧
    (r = none ↔ ∀ f, ¬ Free G p f)

/-- A frame is free that the search looks at: the one after `last_used`, or one below `num_entries`
other than `last_used`. Or none is free and the search meets `last_used`. -/
def ScanOk (G : ℕ → Prop) (p : Pmm) : Prop :=
  (∃ i, (i = add64 p.lastUsed 1 ∨ (i < p.numEntries ∧ i ≠ p.lastUsed)) ∧ Free G p i) ∨
    (p.lastUsed < p.numEntries ∧ ∀ f, ¬ Free G p f)

section Complete

variable (hs : Scannable G start p)

include hs

theorem allocFirstFrame_eq (fuel : ℕ) :
    p.allocFirstFrame fuel = allocFirstFrameFrom fuel ↑(add64 p.lastUsed 1) p := by
  have hlt := lt_of_lt_limit (hs.lt_limit (Or.inr rfl))
  rw [allocFirstFrame, int32_natCast hlt]

/-- What `AllocFirstFrame` returns, and when. -/
theorem allocFirstFrame_returns {fuel : ℕ} {r : Option ℕ}
    (hr : p.allocFirstFrame fuel = some (r, p')) :
    (r = none ∧ p' = p ∧ Stops (Free G p) p.numEntries p.lastUsed 0 (add64 p.lastUsed 1)) ∨
      ∃ g, r = some (g * frameSize) ∧ p' = p.taken g ∧
        Finds (Free G p) p.numEntries p.lastUsed 0 (add64 p.lastUsed 1) g := by
  rw [allocFirstFrame_eq hs] at hr
  exact allocFirstFrameFrom_returns hs (Or.inr rfl) hr

theorem exists_finds_iff_scanned :
    (∃ g, Finds (Free G p) p.numEntries p.lastUsed 0 (add64 p.lastUsed 1) g) ↔
      ∃ i, (i = add64 p.lastUsed 1 ∨ (i < p.numEntries ∧ i ≠ p.lastUsed)) ∧ Free G p i :=
  exists_finds_zero_iff hs.four_le hs.le_of_free hs.cursor hs.not_free_zero

theorem stops_iff_lastUsed_lt (hno : ∀ f, ¬ Free G p f) :
    Stops (Free G p) p.numEntries p.lastUsed 0 (add64 p.lastUsed 1) ↔
      p.lastUsed < p.numEntries :=
  stops_iff_of_forall_not hs.four_le hs.le_of_free hs.cursor hno

theorem firstFrameComplete_iff : FirstFrameComplete G p ↔ ScanOk G p := by
  constructor
  · rintro ⟨n, hn⟩
    obtain ⟨r, p', hr, hnone⟩ := hn n le_rfl
    rcases allocFirstFrame_returns hs hr with ⟨rfl, -, hstops⟩ | ⟨g, -, -, hfinds⟩
    · have hno := hnone.mp rfl
      exact Or.inr ⟨(stops_iff_lastUsed_lt hs hno).mp hstops, hno⟩
    · exact Or.inl ((exists_finds_iff_scanned hs).mp ⟨g, hfinds⟩)
  · rintro (hscan | ⟨hlt, hno⟩)
    · obtain ⟨g, hfinds⟩ := (exists_finds_iff_scanned hs).mpr hscan
      obtain ⟨n, hn⟩ := allocFirstFrameFrom_of_finds hs (Or.inr rfl) hfinds
      refine ⟨n, fun fuel hfuel => ⟨_, _, (allocFirstFrame_eq hs fuel).trans (hn fuel hfuel), ?_⟩⟩
      refine iff_of_false (Option.some_ne_none _) fun hno => ?_
      exact hno g (hfinds.2.2 g le_rfl le_rfl)
    · have hstops := (stops_iff_lastUsed_lt hs hno).mpr hlt
      obtain ⟨n, hn⟩ := allocFirstFrameFrom_of_stops hs (Or.inr rfl) hstops
      exact ⟨n, fun fuel hfuel => ⟨_, _, (allocFirstFrame_eq hs fuel).trans (hn fuel hfuel),
        iff_of_true rfl hno⟩⟩

end Complete

/-! ### Handing out a frame -/

theorem Framed.cursor_of_mem (hf : Framed G p) (hG : G g) : Cursor p.numEntries g (add64 g 1) := by
  have hle := hf.le g hG
  have hsmall := hf.small
  exact Or.inl ⟨add64_of_lt (by omega), hle⟩

section Taken

variable (hs : Scannable G start p) (hfree : Free G p g)

include hs hfree

theorem bit_taken (hi : i < p.limit) :
    bit (p.taken g).mem p.bitmap i = (bit p.mem p.bitmap i || decide (i = g)) := by
  have hlt := hs.covered.frames g hfree.1
  have ha : Apart G (p.setPageUsed g) := hs.apart.congr ⟨rfl, rfl, rfl⟩
  have hz := ha.bit_zero (a := g) (k := 1) (fun j hj => by
    obtain rfl : j = 0 := by omega
    exact hfree.1) hi
  rw [← bit_setBit]
  refine Eq.trans hz ?_
  rw [setPageUsed_natCast (hs.apart.byte_lt hlt)]

theorem free_taken (f : ℕ) : Free G (p.taken g) f ↔ Free G p f ∧ f ≠ g := by
  have hbit (hf : G f) := bit_taken hs hfree (hs.covered.frames f hf)
  constructor
  · rintro ⟨hG, hclear⟩
    have hor := (hbit hG).symm.trans hclear
    rw [Bool.or_eq_false_iff, decide_eq_false_iff_not] at hor
    exact ⟨⟨hG, hor.1⟩, hor.2⟩
  · rintro ⟨⟨hG, hclear⟩, hne⟩
    refine ⟨hG, (hbit hG).trans ?_⟩
    rw [hclear, decide_eq_false hne, Bool.or_false]

theorem Scannable.taken (hpass : Passed p g) : Scannable G start (p.taken g) := by
  have hreached := hpass.reached hs.covered hs.cursorOk hfree.1
  refine ⟨⟨hs.four_le, hs.small, hs.pos, hs.le, hs.cursor_of_mem hfree.1⟩, hs.covered,
    Or.inr hreached, hs.apart.congr ⟨rfl, rfl, rfl⟩, fun i hi hbit => ?_⟩
  have hor := (bit_taken hs hfree hi).symm.trans hbit
  rw [Bool.or_eq_false_iff] at hor
  exact hs.clear i hi hor.1

end Taken

theorem Kept.scannable {s : State} (hk : Kept G start p s)
    (hc : Covered G start p.numEntries p.limit) (ha : Apart G p) (hf : Framed G p)
    (hstart : p.lastUsed = start) : Scannable G start s.pmm := by
  obtain ⟨hN, -, -⟩ := id hk.same
  refine ⟨⟨hN ▸ hf.four_le, hN ▸ hf.small, hf.pos, hN ▸ hf.le, ?_⟩, hc.congr hk.same, hk.cursor,
    ha.congr hk.same, hk.clear⟩
  rw [hN]
  rcases hk.cursor with hlast | hreached
  · rw [hlast, ← hstart]
    exact hf.cursor
  · exact hf.cursor_of_mem hreached.1

/-! ### Repeated calls -/

/-- The addresses that repeated calls of `AllocFirstFrame` return before the first `NULL`. -/
inductive Drains : Pmm → List ℕ → Prop
  | done {p p' : Pmm} {fuel : ℕ} (h : p.allocFirstFrame fuel = some (none, p')) : Drains p []
  | next {p p' : Pmm} {fuel a : ℕ} {as : List ℕ} (h : p.allocFirstFrame fuel = some (some a, p'))
      (hs : Drains p' as) : Drains p (a :: as)

/-- Repeated calls hand out the frames of `G`, each once, and then `NULL`. -/
def HandsOut (G : ℕ → Prop) (p : Pmm) : Prop :=
  ∃ as, Drains p as ∧ as.Nodup ∧ ∀ a, a ∈ as ↔ ∃ f, G f ∧ a = f * frameSize

/-- A call of `AllocFirstFrame` that returns. -/
def FirstFrameStep (p p' : Pmm) : Prop := ∃ fuel r, p.allocFirstFrame fuel = some (r, p')

theorem allocFirstFrameFrom_succ {fuel : ℕ} {i : ℤ} {x : Option ℕ × Pmm}
    (h : allocFirstFrameFrom fuel i p = some x) : allocFirstFrameFrom (fuel + 1) i p = some x := by
  induction fuel generalizing i with
  | zero => exact absurd h (by simp [allocFirstFrameFrom])
  | succ fuel ih =>
    rw [allocFirstFrameFrom] at h ⊢
    split_ifs at h ⊢
    · exact h
    · exact ih h
    · exact h

/-- The bound on the rounds does not change what a call returns. -/
theorem allocFirstFrame_unique {fuel fuel' : ℕ} {x x' : Option ℕ × Pmm}
    (h : p.allocFirstFrame fuel = some x) (h' : p.allocFirstFrame fuel' = some x') : x = x' := by
  have hmono (n : ℕ) {fuel : ℕ} {x : Option ℕ × Pmm} (h : p.allocFirstFrame fuel = some x) :
      p.allocFirstFrame (fuel + n) = some x := by
    induction n with
    | zero => exact h
    | succ n ih => exact allocFirstFrameFrom_succ ih
  have hx := hmono fuel' h
  have hx' := hmono fuel h'
  rw [Nat.add_comm] at hx'
  exact Option.some.inj (hx.symm.trans hx')

theorem mul_frameSize_inj {f f' : ℕ} : f * frameSize = f' * frameSize ↔ f = f' :=
  Nat.mul_left_inj (by decide)

section Repeated

variable (hs : Scannable G start p)

include hs

/-- Frames are handed out from a state exactly if they are after one of them has been taken. -/
theorem handsOut_taken_iff (hfree : Free G p g) {fuel : ℕ}
    (hcall : p.allocFirstFrame fuel = some (some (g * frameSize), p.taken g)) :
    HandsOut (Free G (p.taken g)) (p.taken g) ↔ HandsOut (Free G p) p := by
  have hcons (as : List ℕ) :
      (g * frameSize :: as).Nodup ∧
          (∀ a, a ∈ g * frameSize :: as ↔ ∃ f, Free G p f ∧ a = f * frameSize) ↔
        as.Nodup ∧ ∀ a, a ∈ as ↔ ∃ f, Free G (p.taken g) f ∧ a = f * frameSize := by
    simp only [free_taken hs hfree, List.nodup_cons, List.mem_cons]
    constructor
    · rintro ⟨⟨hnot, hnodup⟩, hmem⟩
      refine ⟨hnodup, fun a => ⟨fun ha => ?_, ?_⟩⟩
      · obtain ⟨f, hf, rfl⟩ := (hmem a).mp (Or.inr ha)
        exact ⟨f, ⟨hf, fun hfg => hnot (hfg ▸ ha)⟩, rfl⟩
      · rintro ⟨f, ⟨hf, hne⟩, rfl⟩
        exact ((hmem _).mpr ⟨f, hf, rfl⟩).resolve_left fun heq => hne (mul_frameSize_inj.mp heq)
    · rintro ⟨hnodup, hmem⟩
      refine ⟨⟨fun hg => ?_, hnodup⟩, fun a => ?_⟩
      · obtain ⟨f, ⟨-, hne⟩, heq⟩ := (hmem _).mp hg
        exact hne (mul_frameSize_inj.mp heq).symm
      · rw [hmem]
        constructor
        · rintro (rfl | ⟨f, hf, rfl⟩)
          · exact ⟨g, hfree, rfl⟩
          · exact ⟨f, hf.1, rfl⟩
        · rintro ⟨f, hf, rfl⟩
          by_cases hfg : f = g
          · exact Or.inl (by rw [hfg])
          · exact Or.inr ⟨f, ⟨hf, hfg⟩, rfl⟩
  constructor
  · rintro ⟨as, hdrain, hall⟩
    exact ⟨_, Drains.next hcall hdrain, (hcons as).mpr hall⟩
  · rintro ⟨as, hdrain, hall⟩
    cases hdrain with
    | done h => exact absurd (congrArg Prod.fst (allocFirstFrame_unique hcall h)) (by simp)
    | next h hdrain =>
      obtain ⟨ha, rfl⟩ := Prod.mk.inj (allocFirstFrame_unique hcall h)
      obtain rfl := Option.some.inj ha
      exact ⟨_, hdrain, (hcons _).mp hall⟩

theorem handsOut_of_scanOk (hall : ∀ q, ReflTransGen FirstFrameStep p q → ScanOk G q) :
    HandsOut (Free G p) p := by
  classical
  -- by induction on the number of free frames
  induction hm : ((Finset.range (p.numEntries + 1)).filter (Free G p)).card using
    Nat.strong_induction_on generalizing p with
  | _ m ih =>
    rcases hall p ReflTransGen.refl with hscan | ⟨hlt, hno⟩
    · obtain ⟨g, hfinds⟩ := (exists_finds_iff_scanned hs).mpr hscan
      have hfree := hfinds.2.2 g le_rfl le_rfl
      have hpass : Passed p g := Passed.of_reaches hs.toFramed (Or.inr rfl) hfinds.1
      obtain ⟨n, hn⟩ := allocFirstFrameFrom_of_finds hs (Or.inr rfl) hfinds
      have hcall := (allocFirstFrame_eq hs n).trans (hn n le_rfl)
      have hfewer : ((Finset.range ((p.taken g).numEntries + 1)).filter
          (Free G (p.taken g))).card < m := by
        rw [← hm]
        refine Finset.card_lt_card ((Finset.ssubset_iff_of_subset fun f hf => ?_).mpr ⟨g, ?_, ?_⟩)
        · rw [Finset.mem_filter] at hf ⊢
          exact ⟨hf.1, ((free_taken hs hfree f).mp hf.2).1⟩
        · rw [Finset.mem_filter, Finset.mem_range]
          exact ⟨Nat.lt_succ_of_le (hs.le g hfree.1), hfree⟩
        · rw [Finset.mem_filter]
          exact fun hg => ((free_taken hs hfree g).mp hg.2).2 rfl
      refine (handsOut_taken_iff hs hfree hcall).mp (ih _ hfewer (hs.taken hfree hpass) ?_ rfl)
      exact fun q hq => hall q (ReflTransGen.head ⟨n, _, hcall⟩ hq)
    · have hstops := (stops_iff_lastUsed_lt hs hno).mpr hlt
      obtain ⟨n, hn⟩ := allocFirstFrameFrom_of_stops hs (Or.inr rfl) hstops
      refine ⟨[], Drains.done ((allocFirstFrame_eq hs n).trans (hn n le_rfl)), List.nodup_nil, ?_⟩
      exact fun a => iff_of_false List.not_mem_nil fun ⟨f, hf, _⟩ => hno f hf

theorem HandsOut.scanOk (hout : HandsOut (Free G p) p) : ScanOk G p := by
  obtain ⟨as, hdrain, -, hmem⟩ := hout
  cases hdrain with
  | done h =>
    have hno : ∀ f, ¬ Free G p f := fun f hf => List.not_mem_nil ((hmem _).mpr ⟨f, hf, rfl⟩)
    rcases allocFirstFrame_returns hs h with ⟨-, -, hstops⟩ | ⟨g, hcon, -⟩
    · exact Or.inr ⟨(stops_iff_lastUsed_lt hs hno).mp hstops, hno⟩
    · exact absurd hcon (Option.some_ne_none _).symm
  | next h hdrain =>
    rcases allocFirstFrame_returns hs h with ⟨hcon, -⟩ | ⟨g, -, -, hfinds⟩
    · exact absurd hcon (Option.some_ne_none _)
    · exact Or.inl ((exists_finds_iff_scanned hs).mp ⟨g, hfinds⟩)

theorem HandsOut.step (hout : HandsOut (Free G p) p) (hstep : FirstFrameStep p p') :
    Scannable G start p' ∧ HandsOut (Free G p') p' := by
  obtain ⟨fuel, r, hr⟩ := hstep
  rcases allocFirstFrame_returns hs hr with ⟨-, rfl, -⟩ | ⟨g, rfl, rfl, hfinds⟩
  · exact ⟨hs, hout⟩
  · have hfree := hfinds.2.2 g le_rfl le_rfl
    have hpass : Passed p g := Passed.of_reaches hs.toFramed (Or.inr rfl) hfinds.1
    exact ⟨hs.taken hfree hpass, (handsOut_taken_iff hs hfree hr).mpr hout⟩

/-- Repeated calls hand out the free frames exactly if every one of them sees what it needs. -/
theorem handsOut_iff_scanOk :
    HandsOut (Free G p) p ↔ ∀ q, ReflTransGen FirstFrameStep p q → ScanOk G q := by
  refine ⟨fun hout q hq => ?_, handsOut_of_scanOk hs⟩
  have hkeep : Scannable G start q ∧ HandsOut (Free G q) q := by
    induction hq with
    | refl => exact ⟨hs, hout⟩
    | tail _ hstep ih => exact ih.2.step ih.1 hstep
  exact hkeep.2.scanOk hkeep.1

end Repeated

/-! ### What `InitPmm` leaves to the searches -/

section Init

variable {memmap : List MmapEntry}

/-- The loop over the entries clears the bits of the frames in the entries that are left. -/
theorem initEntries_clears (hm : StivaleMap memmap) {bmp k : ℕ}
    (hle : ∀ e ∈ memmap, e.type = usablePage → e.base / frameSize < 2 ^ 32)
    {xs es : List MmapEntry} (hxs : memmap = xs ++ es) (ha : Apart (Grantable memmap (some bmp)) p)
    (hframes : ∀ f, Grantable memmap (some bmp) f → f < p.limit)
    (hk : bit p.mem p.bitmap k = false ∨ ∃ j e, memmap[j]? = some e ∧ xs.length ≤ j ∧ j ≠ bmp ∧
      e.type = usablePage ∧ e.base ≤ k * frameSize ∧
      k * frameSize + frameSize ≤ e.base + e.length) :
    bit (initEntries bmp xs.length es p).mem p.bitmap k = false := by
  induction es generalizing xs p with
  | nil =>
    refine hk.resolve_right ?_
    rintro ⟨j, e, hget, hj, -⟩
    have hlt := (List.getElem?_eq_some_iff.mp hget).1
    simp only [hxs, List.append_nil] at hlt
    omega
  | cons e es ih =>
    have he : e ∈ memmap := by simp [hxs]
    have hget : memmap[xs.length]? = some e := by simp [hxs]
    have hrest : memmap = (xs ++ [e]) ++ es := by simp [hxs]
    have hlen : xs.length + 1 = (xs ++ [e]).length := by simp
    rw [initEntries, hlen]
    by_cases hu : e.type = usablePage ∧ xs.length ≠ bmp
    · have halign := hm.aligned e he hu.1
      obtain ⟨hsame, hbit⟩ := initEntry_bits hm hget hu (hle e he hu.1) ha hframes
      have hlimit := limit_congr hsame
      rw [← hsame.2.2]
      refine ih hrest (ha.congr hsame) (by rw [hlimit]; exact hframes) ?_
      rw [hsame.2.2, hbit, Bool.and_eq_false_iff, decide_eq_false_iff_not, not_not]
      rcases hk with hk | ⟨j, e', hget', hj, hne, hu', hlo, hhi⟩
      · exact Or.inl (Or.inl hk)
      rcases hj.eq_or_lt with rfl | hlt
      · obtain rfl := Option.some.inj (hget'.symm.trans hget)
        simp only [frameSize] at halign hlo hhi ⊢
        exact Or.inl (Or.inr (by omega))
      · exact Or.inr ⟨j, e', hget', hlen ▸ hlt, hne, hu', hlo, hhi⟩
    · rw [initEntry, if_neg hu]
      refine ih hrest ha hframes (hk.imp_right ?_)
      rintro ⟨j, e', hget', hj, hne, hu', hin⟩
      refine ⟨j, e', hget', ?_, hne, hu', hin⟩
      rw [← hlen]
      refine Nat.lt_of_le_of_ne hj ?_
      rintro rfl
      obtain rfl := Option.some.inj (hget'.symm.trans hget)
      exact hu ⟨hu', hne⟩

/-- After `InitPmm` all frames that may be handed out are free. -/
theorem initPmm_free (hm : StivaleMap memmap) {mem : Mem}
    (hinit : initPmm (boot mem) memmap = (true, p)) (hcov : BitmapCovers memmap) {f : ℕ} :
    Free (Grantable memmap (findMemEntryBySize memmap p.bitmapSize)) p f ↔
      Grantable memmap (findMemEntryBySize memmap p.bitmapSize) f := by
  refine ⟨And.left, fun hG => ⟨hG, ?_⟩⟩
  obtain ⟨bmp, q, hfind, hsize, hp, hq, -⟩ := initPmm_prepared hm hinit hcov
  have hmap : SameMap q p := hp ▸ sameMap_initEntries bmp 0 memmap q
  rw [hmap.2.1, hsize, hfind] at hG
  obtain ⟨j, e, hj, hne, hin⟩ := hG
  have hdone := initEntries_clears hm hq.bases (List.nil_append memmap).symm hq.apart hq.frames
    (Or.inr ⟨j, e, hj, Nat.zero_le j, by simpa using hne, hin⟩)
  rwa [List.length_nil, ← hp, ← hmap.2.2] at hdone

/-- `last_used` begins as 0 or the number before the first page of a usable entry. -/
theorem firstLastUsed_eq (bmp i : ℕ) (es : List MmapEntry) (lastUsed : ℕ) :
    firstLastUsed bmp i es lastUsed = lastUsed ∨
      ∃ e ∈ es, e.type = usablePage ∧
        firstLastUsed bmp i es lastUsed = sub64 (e.base / frameSize) 1 := by
  induction es generalizing i lastUsed with
  | nil => exact Or.inl rfl
  | cons e es ih =>
    rw [firstLastUsed]
    rcases ih (i + 1) (if (e.type = usablePage ∧ i ≠ bmp) ∧ lastUsed = 0 then
        sub64 (e.base / frameSize) 1 else lastUsed) with heq | ⟨e', he', hu, heq⟩
    · rw [heq]
      split_ifs with hset
      · exact Or.inr ⟨e, List.mem_cons_self, hset.1.1, rfl⟩
      · exact Or.inl rfl
    · exact Or.inr ⟨e', List.mem_cons_of_mem e he', hu, heq⟩

/-- A bitmap that is not empty has a bit for at least eight frames. -/
theorem eight_le_of_mapBitmapSize (h : mapBitmapSize memmap ≠ 0) :
    8 ≤ uppermostUsableAddr memmap / frameSize := by
  by_contra hlt
  refine h ?_
  rw [mapBitmapSize, Nat.div_eq_of_lt (not_le.mp hlt)]
  decide +kernel

/-- The frames of a map whose bitmap covers them. -/
theorem initPmm_framed (hm : StivaleMap memmap) {mem : Mem}
    (hinit : initPmm (boot mem) memmap = (true, p)) (hcov : BitmapCovers memmap)
    (hsmall : p.numEntries + 2 < 2 ^ 31) :
    Framed (Grantable memmap (findMemEntryBySize memmap p.bitmapSize)) p := by
  obtain ⟨bmp, eb, hfind, hget, -, hub, hp⟩ := initPmm_eq hinit
  have hmap : SameMap _ p := hp ▸ sameMap_initEntries bmp 0 memmap _
  have hN : p.numEntries = uppermostUsableAddr memmap / frameSize := hmap.1
  have hlast : p.lastUsed = firstLastUsed bmp 0 memmap 0 := by rw [hp, lastUsed_initEntries]
  obtain ⟨t, ht, htop, hle⟩ :=
    uppermostUsableAddr_spec hm.apart hm.below (List.mem_of_getElem? hget) hub
  have height : 8 ≤ p.numEntries := by
    rw [hN]
    refine eight_le_of_mapBitmapSize fun hzero => ?_
    have hcursor := hcov.cursor
    rw [hzero] at hcursor
    exact absurd hcursor (by simp)
  have hNt : p.numEntries = (t - 1) / 4096 ∧ 0 < t := by
    rw [htop] at hN
    simp only [sub64, frameSize] at hN
    omega
  refine ⟨by omega, hsmall, ?_, ?_, ?_⟩
  · rintro f ⟨j, e, hj, -, hu, hlo, hhi⟩
    refine Nat.pos_of_ne_zero ?_
    rintro rfl
    have hzero := hm.frameZero e (List.mem_of_getElem? hj) hu (by omega)
    simp only [frameSize] at hhi
    omega
  · rintro f ⟨j, e, hj, -, hu, -, hhi⟩
    have hend := hle e (List.mem_of_getElem? hj) hu
    simp only [frameSize] at hhi
    omega
  · rw [hlast]
    rcases firstLastUsed_eq bmp 0 memmap 0 with heq | ⟨e, he, hu, heq⟩
    · rw [heq, add64_of_lt (by decide)]
      exact Or.inl ⟨rfl, Nat.zero_le _⟩
    · have hend := hle e he hu
      have hbase : e.base / 4096 ≤ p.numEntries + 1 := by omega
      rw [heq, Cursor]
      simp only [add64, sub64, frameSize]
      omega

end Init

/-- **`AllocFirstFrame` is complete exactly where its search passes what it needs.** In every state
that returning calls reach after `InitPmm`, on a map whose bitmap covers the indices that are
passed, `AllocFirstFrame` returns, and `NULL` exactly if no frame is free, if and only if `ScanOk`
holds. And repeated calls after `InitPmm` hand out every frame once and then return `NULL` if and
only if `ScanOk` holds before each of them. -/
theorem allocFirstFrame_complete_iff {memmap : List MmapEntry} (hm : StivaleMap memmap) {mem : Mem}
    (hinit : initPmm (boot mem) memmap = (true, p)) (hcov : BitmapCovers memmap)
    (hsmall : p.numEntries + 2 < 2 ^ 31) :
    let G := Grantable memmap (findMemEntryBySize memmap p.bitmapSize)
    (∀ s, ReflTransGen State.Step ⟨p, []⟩ s → (FirstFrameComplete G s.pmm ↔ ScanOk G s.pmm)) ∧
      (HandsOut G p ↔ ∀ q, ReflTransGen FirstFrameStep p q → ScanOk G q) := by
  intro G
  obtain ⟨hc, ha, hk, -⟩ := initPmm_bounds hm hinit hcov
  have hf := initPmm_framed hm hinit hcov hsmall
  refine ⟨fun s hrun => ?_, ?_⟩
  · exact firstFrameComplete_iff ((hk.run hc ha hrun).scannable hc ha hf rfl)
  · have hfree : Free G p = G := by
      funext f
      exact propext (initPmm_free hm hinit hcov)
    have hiff := handsOut_iff_scanOk (hk.scannable hc ha hf rfl)
    rwa [hfree] at hiff

/-- On a map of 17 frames the first call returns a frame. -/
theorem allocFirstFrame_complete_smallMap :
    ScanOk (Grantable smallMap (findMemEntryBySize smallMap 4096))
        (initPmm (boot fun _ => 0) smallMap).2 ∧
      FirstFrameComplete (Grantable smallMap (findMemEntryBySize smallMap 4096))
        (initPmm (boot fun _ => 0) smallMap).2 := by
  have hsize : (initPmm (boot fun _ => 0) smallMap).2.bitmapSize = 4096 := by decide +kernel
  have hinit : initPmm (boot fun _ => 0) smallMap =
      (true, (initPmm (boot fun _ => 0) smallMap).2) := Prod.ext initPmm_smallMap rfl
  have hG : Grantable smallMap (findMemEntryBySize smallMap 4096) 2 :=
    ⟨1, ⟨0x2000, 0x10000, 1⟩, rfl, by decide +kernel, rfl, by decide, by decide⟩
  have hscan : ScanOk (Grantable smallMap (findMemEntryBySize smallMap 4096))
      (initPmm (boot fun _ => 0) smallMap).2 :=
    Or.inl ⟨2, Or.inl (by decide +kernel), hG, by decide +kernel⟩
  have hiff := (allocFirstFrame_complete_iff stivaleMap_smallMap hinit bitmapCovers_smallMap
    (by decide +kernel)).1 _ ReflTransGen.refl
  rw [hsize] at hiff
  exact ⟨hscan, hiff.mpr hscan⟩

/-- A map with the frames 3 and 9. -/
def gapMap : List MmapEntry := [⟨0x1000, 0x1000, 1⟩, ⟨0x3000, 0x1000, 1⟩, ⟨0x9000, 0x1000, 1⟩]

theorem stivaleMap_gapMap : StivaleMap gapMap :=
  ⟨by decide, by decide, by simp only [EntriesApart]; decide, by decide, by decide⟩

theorem initPmm_gapMap : (initPmm (boot fun _ => 0) gapMap).1 = true := by decide +kernel

/-- The last frame is not looked at after frame 3 has been handed out: the second call returns
`NULL`. -/
theorem allocFirstFrame_misses_last_frame :
    StivaleMap gapMap ∧ (initPmm (boot fun _ => 0) gapMap).1 = true ∧
      ∃ s, State.Step ⟨(initPmm (boot fun _ => 0) gapMap).2, []⟩ s ∧
        (∃ q, s.pmm.allocFirstFrame 20 = some (none, q)) ∧
        Free (Grantable gapMap (findMemEntryBySize gapMap 4096)) s.pmm 9 ∧
        ¬ FirstFrameComplete (Grantable gapMap (findMemEntryBySize gapMap 4096)) s.pmm := by
  refine ⟨stivaleMap_gapMap, initPmm_gapMap, ?_⟩
  obtain ⟨⟨r, s⟩, hfirst, hres⟩ := Option.map_eq_some_iff.mp
    (show (State.step 20 ⟨(initPmm (boot fun _ => 0) gapMap).2, []⟩ .allocFirstFrame).map
        (fun x => ((x.2.pmm.allocFirstFrame 20).map Prod.fst,
          bit x.2.pmm.mem x.2.pmm.bitmap 9)) = some (some none, false) by decide +kernel)
  obtain ⟨hsecond, hbit⟩ := Prod.mk.inj hres
  obtain ⟨⟨o, q⟩, hq, rfl⟩ := Option.map_eq_some_iff.mp hsecond
  have hfree : Free (Grantable gapMap (findMemEntryBySize gapMap 4096)) s.pmm 9 :=
    ⟨⟨2, ⟨0x9000, 0x1000, 1⟩, rfl, by decide +kernel, rfl, by decide, by decide⟩, hbit⟩
  refine ⟨s, ⟨20, .allocFirstFrame, r, trivial, hfirst⟩, ⟨q, hq⟩, hfree, ?_⟩
  rintro ⟨n, hn⟩
  obtain ⟨o, q', hr, hnone⟩ := hn n le_rfl
  have ho : o = none := congrArg Prod.fst (allocFirstFrame_unique hr hq)
  exact hnone.mp ho 9 hfree

end Vardar.Pmm
