import Mathlib.Data.List.ReduceOption
import Vardar.Pmm.Ownership

/-!
# Starting the other processors

The loop of `startup_aps` gives each processor but the first a frame of the allocator and passes the
address of the frame as the top of its stack. A stack grows to lower addresses, so the first word
that the processor pushes is in the frame before.

The model begins at the loop: before it, `startup_aps` enables the local APIC, which need not return,
and waits for the interval timer.

## Main definitions

* `Vardar.Cpus.startupFrom`: the loop.
* `Vardar.Cpus.allocFrames`: calls of `AllocFirstFrame` one after the other.
* `Vardar.Cpus.firstPush`: where a processor writes first.

## Main results

* `Vardar.Cpus.startupFrom_eq`: the loop makes one call of `AllocFirstFrame` for each processor.
* `Vardar.Cpus.stacks_of_startupFrom`: every stack is a frame of its own, and the first word goes
  into another one.
* `Vardar.Cpus.pushes_of_startupFrom`: the stacks if the next frames are free.
-/

namespace Vardar.Cpus

open Word Bitmap Pmm

/-- The fields of `stivale2_smp_info` that are used. -/
structure Stivale2SmpInfo where
  lapicId : BitVec 32
  targetStack : ℕ
  gotoAddress : ℕ

/-- What the loop of `startup_aps` leaves. -/
structure Started where
  cpus : List Stivale2SmpInfo
  pmm : Pmm

/-- The loop of `startup_aps`, over the processors from some index on. -/
def startupFrom (fuel : ℕ) (bspLapicId : BitVec 32) (apEntry : ℕ) :
    List Stivale2SmpInfo → Pmm → Option Started
  | [], p => some ⟨[], p⟩
  | c :: cs, p =>
    if c.lapicId ≠ bspLapicId then
      (p.allocFirstFrame fuel).bind fun x =>
        let c := { c with targetStack := x.1.getD 0, gotoAddress := apEntry }
        (startupFrom fuel bspLapicId apEntry cs x.2).map fun r => { r with cpus := c :: r.cpus }
    else (startupFrom fuel bspLapicId apEntry cs p).map fun r => { r with cpus := c :: r.cpus }

/-- Calls of `AllocFirstFrame` one after the other, with their results. -/
def allocFrames (fuel : ℕ) : ℕ → Pmm → Option (List (Option ℕ) × Pmm)
  | 0, p => some ([], p)
  | n + 1, p => (p.allocFirstFrame fuel).bind fun x =>
      (allocFrames fuel n x.2).map fun y => (x.1 :: y.1, y.2)

/-- The number of processors other than the first. -/
def others (bspLapicId : BitVec 32) (cpus : List Stivale2SmpInfo) : ℕ :=
  cpus.countP fun c => c.lapicId ≠ bspLapicId

/-- The processors when those other than the first have the results as their stacks, in order. -/
def giveStacks (bspLapicId : BitVec 32) (apEntry : ℕ) :
    List Stivale2SmpInfo → List (Option ℕ) → List Stivale2SmpInfo
  | [], _ => []
  | c :: cs, results =>
    if c.lapicId = bspLapicId then c :: giveStacks bspLapicId apEntry cs results
    else ⟨c.lapicId, results.head?.join.getD 0, apEntry⟩ ::
      giveStacks bspLapicId apEntry cs results.tail

/-- The processors with a stack, other than the first. -/
def withStack (bspLapicId : BitVec 32) (cpus : List Stivale2SmpInfo) : List Stivale2SmpInfo :=
  cpus.filter fun c => c.lapicId ≠ bspLapicId ∧ c.targetStack ≠ 0

/-- The address of the first word that a processor pushes. -/
def firstPush (c : Stivale2SmpInfo) : ℕ := sub64 c.targetStack 8

variable {G : ℕ → Prop} {p : Pmm} {s : State} {fuel : ℕ} {bsp : BitVec 32} {apEntry : ℕ}
  {c : Stivale2SmpInfo} {cs : List Stivale2SmpInfo} {r : Started}

theorem withStack_cons_bsp (hc : c.lapicId = bsp) : withStack bsp (c :: cs) = withStack bsp cs :=
  List.filter_cons_of_neg (by simp [hc])

theorem withStack_cons_of_stack (hc : c.lapicId ≠ bsp) (hs : c.targetStack ≠ 0) :
    withStack bsp (c :: cs) = c :: withStack bsp cs :=
  List.filter_cons_of_pos (by simp [hc, hs])

theorem withStack_cons_of_null (hs : c.targetStack = 0) :
    withStack bsp (c :: cs) = withStack bsp cs :=
  List.filter_cons_of_neg (by simp [hs])

theorem others_cons_bsp (hc : c.lapicId = bsp) : others bsp (c :: cs) = others bsp cs :=
  List.countP_cons_of_neg (by simp [hc])

theorem others_cons_of_ne (hc : c.lapicId ≠ bsp) : others bsp (c :: cs) = others bsp cs + 1 :=
  List.countP_cons_of_pos (by simp [hc])

/-- The loop makes one call of `AllocFirstFrame` for each processor but the first, in order, and the
results are their stacks. -/
theorem startupFrom_eq (fuel : ℕ) (bsp : BitVec 32) (apEntry : ℕ) (cs : List Stivale2SmpInfo)
    (p : Pmm) : startupFrom fuel bsp apEntry cs p = (allocFrames fuel (others bsp cs) p).map
      fun x => ⟨giveStacks bsp apEntry cs x.1, x.2⟩ := by
  induction cs generalizing p with
  | nil => rfl
  | cons c cs ih =>
    by_cases hc : c.lapicId = bsp
    · rw [startupFrom, if_neg (not_not.mpr hc), ih, others_cons_bsp hc, Option.map_map]
      refine congrArg (Option.map · _) (funext fun x => ?_)
      simp [giveStacks, hc]
    · rw [startupFrom, if_pos hc, others_cons_of_ne hc, allocFrames, Option.map_bind]
      refine congrArg (Option.bind _) (funext fun x => ?_)
      simp [ih, giveStacks, hc, Option.map_map, Function.comp_def]

theorem length_allocFrames {n : ℕ} {q : Pmm} {results : List (Option ℕ)}
    (h : allocFrames fuel n p = some (results, q)) : results.length = n := by
  induction n generalizing p results with
  | zero =>
    obtain ⟨rfl, -⟩ := Prod.mk.inj (Option.some.inj h)
    rfl
  | succ n ih =>
    obtain ⟨x, -, hx⟩ := Option.bind_eq_some_iff.mp h
    obtain ⟨⟨rest, q'⟩, hrest, heq⟩ := Option.map_eq_some_iff.mp hx
    obtain ⟨rfl, rfl⟩ := Prod.mk.inj heq
    rw [List.length_cons, ih hrest]

section GiveStacks

variable {results : List (Option ℕ)}

theorem lapicId_giveStacks (bsp : BitVec 32) (apEntry : ℕ) (cs : List Stivale2SmpInfo)
    (results : List (Option ℕ)) :
    (giveStacks bsp apEntry cs results).map Stivale2SmpInfo.lapicId =
      cs.map Stivale2SmpInfo.lapicId := by
  induction cs generalizing results with
  | nil => rfl
  | cons c cs ih =>
    rw [giveStacks]
    split_ifs
    · rw [List.map_cons, ih, List.map_cons]
    · rw [List.map_cons, ih, List.map_cons]

/-- The stacks that are not null are the frames that were found. -/
theorem withStack_giveStacks (hlen : results.length = others bsp cs)
    (hpos : ∀ a, some a ∈ results → a ≠ 0) :
    (withStack bsp (giveStacks bsp apEntry cs results)).map Stivale2SmpInfo.targetStack =
      results.reduceOption := by
  induction cs generalizing results with
  | nil =>
    obtain rfl := List.length_eq_zero_iff.mp hlen
    rfl
  | cons c cs ih =>
    by_cases hc : c.lapicId = bsp
    · rw [others_cons_bsp hc] at hlen
      rw [giveStacks, if_pos hc, withStack_cons_bsp hc, ih hlen hpos]
    · rw [others_cons_of_ne hc] at hlen
      obtain ⟨o, results, rfl⟩ := List.exists_cons_of_length_eq_add_one hlen
      have hrest := ih (Nat.succ.inj hlen) fun a ha => hpos a (List.mem_cons_of_mem o ha)
      rw [giveStacks, if_neg hc]
      cases o with
      | none => exact (congrArg _ (withStack_cons_of_null rfl)).trans hrest
      | some a =>
        have hcons : withStack bsp (⟨c.lapicId, a, apEntry⟩ :: giveStacks bsp apEntry cs results) =
            ⟨c.lapicId, a, apEntry⟩ :: withStack bsp (giveStacks bsp apEntry cs results) :=
          withStack_cons_of_stack hc (hpos a List.mem_cons_self)
        refine (congrArg (List.map Stivale2SmpInfo.targetStack) hcons).trans ?_
        rw [List.map_cons, hrest, List.reduceOption_cons_of_some]

end GiveStacks

/-! ### A frame for each processor -/

theorem allocFirstFrame_some (hl : Layout G p) (hi : s.Inv G p) {a : ℕ} {q : Pmm}
    (h : s.pmm.allocFirstFrame fuel = some (some a, q)) :
    ∃ f, a = f * frameSize ∧ G f ∧ f ∉ s.live ∧ State.Inv G p ⟨q, f :: s.live⟩ := by
  have hsmall := hl.small
  have hcursor := hi.cursor
  have hstart := h
  rw [Pmm.allocFirstFrame, int32_natCast (by omega)] at hstart
  rcases allocFirstFrameFrom_spec (hl.congr hi.same) (by rw [hi.same.1]; exact hcursor) hstart with
    ⟨hnone, -⟩ | ⟨f, -, -, ha, -⟩
  · exact absurd hnone.symm (Option.some_ne_none a).symm
  · obtain rfl := Option.some.inj ha
    obtain ⟨hnew, hi'⟩ := hi.allocFirstFrame hl h
    have hgrant : s.grant 1 (some (f * frameSize), q) = ([f], ⟨q, f :: s.live⟩) := by
      rw [State.grant, Nat.mul_div_cancel _ (by decide)]
      rfl
    rw [hgrant] at hnew hi'
    obtain ⟨hG, hfree⟩ := hnew f (List.mem_singleton_self f)
    exact ⟨f, rfl, hG, hfree, hi'⟩

/-- The frames that a sequence of calls finds are distinct, grantable and held by nobody. -/
theorem allocFrames_spec (hl : Layout G p) (hi : s.Inv G p) {n : ℕ} {q : Pmm}
    {results : List (Option ℕ)} (h : allocFrames fuel n s.pmm = some (results, q)) :
    ∃ frames : List ℕ, results.reduceOption = frames.map (· * frameSize) ∧ frames.Nodup ∧
      ∀ f ∈ frames, G f ∧ f ∉ s.live := by
  induction n generalizing s results with
  | zero =>
    obtain ⟨rfl, -⟩ := Prod.mk.inj (Option.some.inj h)
    exact ⟨[], rfl, List.nodup_nil, by simp⟩
  | succ n ih =>
    obtain ⟨⟨o, p'⟩, halloc, hx⟩ := Option.bind_eq_some_iff.mp h
    obtain ⟨⟨rest, q'⟩, hrest, heq⟩ := Option.map_eq_some_iff.mp hx
    obtain ⟨rfl, rfl⟩ := Prod.mk.inj heq
    cases o with
    | none =>
      obtain ⟨frames, hframes, hnodup, hfresh⟩ := ih (hi.allocFirstFrame hl halloc).2 hrest
      exact ⟨frames, hframes, hnodup, hfresh⟩
    | some a =>
      obtain ⟨f, rfl, hG, hfree, hi'⟩ := allocFirstFrame_some hl hi halloc
      obtain ⟨frames, hframes, hnodup, hfresh⟩ := ih hi' hrest
      refine ⟨f :: frames, ?_, List.nodup_cons.mpr ⟨fun hmem => ?_, hnodup⟩, fun g hg => ?_⟩
      · rw [List.reduceOption_cons_of_some, hframes, List.map_cons]
      · exact (hfresh f hmem).2 List.mem_cons_self
      · rcases List.mem_cons.mp hg with rfl | hg
        · exact ⟨hG, hfree⟩
        · exact ⟨(hfresh g hg).1, fun hlive => (hfresh g hg).2 (List.mem_cons_of_mem f hlive)⟩

theorem not_grantable_zero {memmap : List MmapEntry} (hm : MemmapOk memmap) (bmpInd : Option ℕ) :
    ¬ Grantable memmap bmpInd 0 := by
  rintro ⟨i, e, hget, -, htype, hlo, hhi⟩
  have hlen := hm.frameZero e (List.mem_of_getElem? hget) htype (by omega)
  simp only [frameSize] at hhi
  omega

/-- The first word that is pushed is in the frame before. -/
theorem firstPush_div {f : ℕ} (hf : f ≠ 0) (hc : c.targetStack = f * frameSize)
    (hlt : f * frameSize < 2 ^ 64) : firstPush c / frameSize = f - 1 := by
  rw [firstPush, hc]
  simp only [frameSize] at hlt ⊢
  rw [sub64_of_le (by omega) (by omega)]
  omega

/-- The frames of the first words, for stacks at the starts of frames. -/
theorem map_firstPush (hl : Layout G p) {stacked : List Stivale2SmpInfo} {frames : List ℕ}
    (hstacks : stacked.map Stivale2SmpInfo.targetStack = frames.map (· * frameSize))
    (hframes : ∀ f ∈ frames, f ≠ 0 ∧ f ≤ p.numEntries) :
    stacked.map (firstPush · / frameSize) = frames.map (· - 1) := by
  have hsmall := hl.small
  have hpush : ∀ c ∈ stacked, firstPush c / frameSize = c.targetStack / frameSize - 1 := by
    intro c hc
    obtain ⟨f, hf, hstack⟩ := List.mem_map.mp (hstacks ▸ List.mem_map_of_mem hc)
    obtain ⟨hpos, hle⟩ := hframes f hf
    rw [firstPush_div hpos hstack.symm (by rw [frameSize]; omega), ← hstack,
      Nat.mul_div_cancel _ (by decide)]
  calc stacked.map (firstPush · / frameSize)
      = (stacked.map Stivale2SmpInfo.targetStack).map (· / frameSize - 1) := by
        rw [List.map_map]
        exact List.map_congr_left hpush
    _ = frames.map (· - 1) := by
        rw [hstacks, List.map_map]
        refine List.map_congr_left fun f _ => ?_
        simp [frameSize]

section Boot

variable {memmap : List MmapEntry} (hm : MemmapOk memmap) {mem : ByteMemory.Mem}
  (hinit : initPmm (boot mem) memmap = (true, p)) (hcover : p.numEntries + 1 < 8 * p.bitmapSize)
  (hrun : Relation.ReflTransGen State.Step ⟨p, []⟩ s)

include hm hinit hcover hrun

/-- **Stacks of the other processors.** After `InitPmm` and any run of the allocator, the loop of
`startup_aps` makes one call of `AllocFirstFrame` for each processor but the first, whose results
are the stacks in order. The stacks that are not null are frames that nobody holds, each of them
once, and the first word that a processor pushes is in the frame before its own. -/
theorem stacks_of_startupFrom (h : startupFrom fuel bsp apEntry cs s.pmm = some r) :
    ∃ (results : List (Option ℕ)) (frames : List ℕ),
      allocFrames fuel (others bsp cs) s.pmm = some (results, r.pmm) ∧
      r.cpus = giveStacks bsp apEntry cs results ∧
      r.cpus.map Stivale2SmpInfo.lapicId = cs.map Stivale2SmpInfo.lapicId ∧
      results.reduceOption = frames.map (· * frameSize) ∧ frames.Nodup ∧
      (∀ f ∈ frames, Grantable memmap (findMemEntryBySize memmap p.bitmapSize) f ∧ f ∉ s.live) ∧
      (withStack bsp r.cpus).map Stivale2SmpInfo.targetStack = frames.map (· * frameSize) ∧
      (withStack bsp r.cpus).map (firstPush · / frameSize) = frames.map (· - 1) := by
  obtain ⟨hl, hi⟩ := initPmm_spec hm hinit hcover
  have hzero := not_grantable_zero hm (findMemEntryBySize memmap p.bitmapSize)
  rw [startupFrom_eq] at h
  obtain ⟨⟨results, q⟩, halloc, rfl⟩ := Option.map_eq_some_iff.mp h
  obtain ⟨frames, hframes, hnodup, hfresh⟩ := allocFrames_spec hl (hi.run hl hrun) halloc
  have hpos : ∀ f ∈ frames, f ≠ 0 := fun f hf hz => hzero (hz ▸ (hfresh f hf).1)
  have hnull : ∀ a, some a ∈ results → a ≠ 0 := by
    intro a ha
    have hmem : a ∈ frames.map (· * frameSize) := hframes ▸ List.reduceOption_mem_iff.mpr ha
    obtain ⟨f, hf, rfl⟩ := List.mem_map.mp hmem
    exact Nat.mul_ne_zero (hpos f hf) (by decide)
  have hgiven : (withStack bsp (giveStacks bsp apEntry cs results)).map
      Stivale2SmpInfo.targetStack = results.reduceOption :=
    withStack_giveStacks (length_allocFrames halloc) hnull
  have hstacks := hgiven.trans hframes
  exact ⟨results, frames, halloc, rfl, lapicId_giveStacks .., hframes, hnodup, hfresh, hstacks,
    map_firstPush hl hstacks fun f hf => ⟨hpos f hf, hl.le f (hfresh f hf).1⟩⟩

end Boot

/-- A map of two usable entries. -/
def smallMemmap : List MmapEntry := [⟨0x1000, 0x1000, 1⟩, ⟨0x2000, 0x10000, 1⟩]

/-- Two processors, of which the first has id 0. -/
def twoCpus : List Stivale2SmpInfo := [⟨0, 0, 0⟩, ⟨1, 0, 0⟩]

theorem smallMemmap_ok : MemmapOk smallMemmap :=
  ⟨by decide, by decide, by decide, by decide, by decide⟩

theorem initPmm_smallMemmap : initPmm (boot fun _ => 0) smallMemmap =
    (true, (initPmm (boot fun _ => 0) smallMemmap).2) :=
  Prod.ext (by decide +kernel) rfl

/-- Frame 2 has been handed out when the processors are started, and frame 3 is free. -/
theorem step_smallMemmap : ∃ s : State,
    State.Step ⟨(initPmm (boot fun _ => 0) smallMemmap).2, []⟩ s ∧ s.live = [2] ∧
      s.pmm.lastUsed = 2 ∧ bit s.pmm.mem s.pmm.bitmap 3 = false ∧
      (startupFrom 20 0 0x8000 twoCpus s.pmm).isSome = true := by
  obtain ⟨⟨r, s⟩, hstep, hs⟩ := Option.map_eq_some_iff.mp
    (show (State.step 20 ⟨(initPmm (boot fun _ => 0) smallMemmap).2, []⟩ .allocFirstFrame).map
      (fun x => (x.2.live, x.2.pmm.lastUsed, bit x.2.pmm.mem x.2.pmm.bitmap 3,
        (startupFrom 20 0 0x8000 twoCpus x.2.pmm).isSome)) = some ([2], 2, false, true) by
      decide +kernel)
  simp only [Prod.mk.injEq] at hs
  exact ⟨s, ⟨20, .allocFirstFrame, r, trivial, hstep⟩, hs⟩

/-- Processor 1 does not get frame 2. -/
theorem stacks_of_startupFrom_two : ∃ (s : State) (r : Started), s.live = [2] ∧
    startupFrom 20 0 0x8000 twoCpus s.pmm = some r ∧
    ∀ c ∈ withStack 0 r.cpus, c.targetStack ≠ 2 * frameSize := by
  obtain ⟨s, hstep, hlive, -, -, hsome⟩ := step_smallMemmap
  obtain ⟨r, hr⟩ := Option.isSome_iff_exists.mp hsome
  obtain ⟨results, frames, -, -, -, -, -, hfresh, hstacks, -⟩ := stacks_of_startupFrom
    smallMemmap_ok initPmm_smallMemmap (by decide +kernel) (.single hstep) hr
  refine ⟨s, r, hlive, hr, fun c hc htwo => ?_⟩
  obtain ⟨f, hf, hstack⟩ := List.mem_map.mp (hstacks ▸ List.mem_map_of_mem hc)
  have hpos : 0 < frameSize := by decide
  obtain rfl : f = 2 := Nat.eq_of_mul_eq_mul_right hpos (hstack.trans htwo)
  exact (hfresh 2 hf).2 (hlive ▸ List.mem_singleton_self 2)

/-! ### Frames one after the other -/

/-- If the frame after the last one handed out is free, `AllocFirstFrame` returns it. -/
theorem allocFirstFrame_next (hl : Layout G p) (hi : s.Inv G p)
    (hle : s.pmm.lastUsed + 1 ≤ p.numEntries)
    (hfree : bit s.pmm.mem s.pmm.bitmap (s.pmm.lastUsed + 1) = false) (fuel : ℕ) :
    ∃ q, s.pmm.allocFirstFrame (fuel + 1) = some (some ((s.pmm.lastUsed + 1) * frameSize), q) ∧
      State.Inv G p ⟨q, (s.pmm.lastUsed + 1) :: s.live⟩ ∧ q.lastUsed = s.pmm.lastUsed + 1 ∧
      ∀ i ≤ p.numEntries, i ≠ s.pmm.lastUsed + 1 →
        bit q.mem q.bitmap i = bit s.pmm.mem s.pmm.bitmap i := by
  have hls := hl.congr hi.same
  have hsmall := hl.small
  obtain ⟨hN, -, hB⟩ := hi.same
  have hG : G (s.pmm.lastUsed + 1) := (hi.clear _ (by omega) (hB ▸ hfree)).1
  have hpos : 0 < frameSize := by decide
  have hmod : (s.pmm.lastUsed + 1) * frameSize % 2 ^ 64 = (s.pmm.lastUsed + 1) * frameSize := by
    refine Nat.mod_eq_of_lt ?_
    rw [frameSize]
    omega
  have hcall : s.pmm.allocFirstFrame (fuel + 1) = some (some ((s.pmm.lastUsed + 1) * frameSize),
      ({ s.pmm with
        mem := setBit s.pmm.mem s.pmm.bitmap (s.pmm.lastUsed + 1)
        lastUsed := s.pmm.lastUsed + 1 } : Pmm).zero ((s.pmm.lastUsed + 1) * frameSize)
          frameSize) := by
    rw [Pmm.allocFirstFrame, add64_of_lt (by omega), int32_natCast (by omega), allocFirstFrameFrom,
      u64_natCast (by omega), hls.used_eq (by omega), hls.setUsed_eq (by omega), hfree,
      if_neg (by omega), if_neg Bool.false_ne_true, hmod]
  obtain ⟨f, hf, -, -, hi'⟩ := allocFirstFrame_some hl hi hcall
  obtain rfl : s.pmm.lastUsed + 1 = f := Nat.eq_of_mul_eq_mul_right hpos hf
  refine ⟨_, hcall, hi', rfl, fun i hin hne => ?_⟩
  have hlm : Layout G { s.pmm with mem := setBit s.pmm.mem s.pmm.bitmap (s.pmm.lastUsed + 1) } :=
    hls.congr ⟨rfl, rfl, rfl⟩
  have hzero := hlm.bit_zero (a := s.pmm.lastUsed + 1) (k := 1) (i := i)
    (fun j hj => by rwa [Nat.lt_one_iff.mp hj]) (by simp only; omega)
  rw [Nat.mul_one] at hzero
  refine hzero.trans ?_
  rw [bit_setBit, decide_eq_false hne, Bool.or_false]

/-- Free frames after the last one handed out become the stacks, in order. -/
theorem startupFrom_consecutive (hl : Layout G p) (hi : s.Inv G p)
    (hfree : ∀ j < others bsp cs, s.pmm.lastUsed + 1 + j ≤ p.numEntries ∧
      bit s.pmm.mem s.pmm.bitmap (s.pmm.lastUsed + 1 + j) = false) (fuel : ℕ) :
    ∃ r, startupFrom (fuel + 1) bsp apEntry cs s.pmm = some r ∧
      (withStack bsp r.cpus).map Stivale2SmpInfo.targetStack =
        (List.range' (s.pmm.lastUsed + 1) (others bsp cs)).map (· * frameSize) := by
  induction cs generalizing s with
  | nil => exact ⟨_, rfl, rfl⟩
  | cons c cs ih =>
    by_cases hc : c.lapicId = bsp
    · rw [others_cons_bsp hc] at hfree ⊢
      obtain ⟨r, hr, hstacks⟩ := ih hi hfree
      refine ⟨⟨c :: r.cpus, r.pmm⟩, ?_, ?_⟩
      · rw [startupFrom, if_neg (not_not.mpr hc), hr]
        rfl
      · rw [withStack_cons_bsp hc, hstacks]
    · rw [others_cons_of_ne hc] at hfree ⊢
      obtain ⟨hle, hbit⟩ := hfree 0 (Nat.succ_pos _)
      obtain ⟨q, halloc, hi', hlast, hsame⟩ := allocFirstFrame_next hl hi hle hbit fuel
      obtain ⟨r, hr, hstacks⟩ := ih hi' fun j hj => by
        obtain ⟨hle', hbit'⟩ := hfree (j + 1) (by omega)
        dsimp only
        rw [hlast, hsame _ (by omega) (by omega)]
        exact ⟨by omega, by rwa [Nat.add_right_comm _ 1 j]⟩
      have hstack : (s.pmm.lastUsed + 1) * frameSize ≠ 0 :=
        Nat.mul_ne_zero (Nat.succ_ne_zero _) (by decide)
      refine ⟨⟨⟨c.lapicId, (s.pmm.lastUsed + 1) * frameSize, apEntry⟩ :: r.cpus, r.pmm⟩, ?_, ?_⟩
      · rw [startupFrom, if_pos hc, halloc, Option.bind_some]
        exact Option.map_eq_some_iff.mpr ⟨r, hr, rfl⟩
      · have hcons : withStack bsp (⟨c.lapicId, (s.pmm.lastUsed + 1) * frameSize, apEntry⟩ ::
            r.cpus) = ⟨c.lapicId, (s.pmm.lastUsed + 1) * frameSize, apEntry⟩ ::
              withStack bsp r.cpus := withStack_cons_of_stack hc hstack
        refine (congrArg (List.map Stivale2SmpInfo.targetStack) hcons).trans ?_
        rw [List.map_cons, hstacks, hlast, List.range'_succ]
        rfl

section Boot

variable {memmap : List MmapEntry} (hm : MemmapOk memmap) {mem : ByteMemory.Mem}
  (hinit : initPmm (boot mem) memmap = (true, p)) (hcover : p.numEntries + 1 < 8 * p.bitmapSize)
  (hrun : Relation.ReflTransGen State.Step ⟨p, []⟩ s)

include hm hinit hcover hrun

/-- **Stacks overlap.** If the frames after the last one handed out are free, the loop of
`startup_aps` ends and the processors get them in order. The first of them then pushes its first word
into the last frame that was handed out before, and each other one into the stack frame of the one
before it. -/
theorem pushes_of_startupFrom (hfree : ∀ j < others bsp cs, s.pmm.lastUsed + 1 + j ≤ p.numEntries ∧
      bit s.pmm.mem s.pmm.bitmap (s.pmm.lastUsed + 1 + j) = false) (fuel : ℕ) :
    ∃ r, startupFrom (fuel + 1) bsp apEntry cs s.pmm = some r ∧
      (withStack bsp r.cpus).map Stivale2SmpInfo.targetStack =
        (List.range' (s.pmm.lastUsed + 1) (others bsp cs)).map (· * frameSize) ∧
      (withStack bsp r.cpus).map (firstPush · / frameSize) =
        List.range' s.pmm.lastUsed (others bsp cs) := by
  obtain ⟨hl, hi⟩ := initPmm_spec hm hinit hcover
  obtain ⟨r, hr, hstacks⟩ := startupFrom_consecutive hl (hi.run hl hrun) hfree fuel
  refine ⟨r, hr, hstacks, ?_⟩
  rw [map_firstPush hl hstacks fun f hf => ?_, List.map_sub_range' (by omega), Nat.add_sub_cancel]
  obtain ⟨j, hj, rfl⟩ := List.mem_range'.mp hf
  have hle := (hfree j hj).1
  omega

end Boot

/-- Processor 1 pushes its first word into frame 2, which has another owner. -/
theorem pushes_of_startupFrom_two : ∃ (s : State) (r : Started), s.live = [2] ∧
    startupFrom 20 0 0x8000 twoCpus s.pmm = some r ∧
    (withStack 0 r.cpus).map (firstPush · / frameSize) = [2] := by
  obtain ⟨s, hstep, hlive, hlast, hbit, -⟩ := step_smallMemmap
  have hfree : ∀ j < others 0 twoCpus,
      s.pmm.lastUsed + 1 + j ≤ (initPmm (boot fun _ => 0) smallMemmap).2.numEntries ∧
        bit s.pmm.mem s.pmm.bitmap (s.pmm.lastUsed + 1 + j) = false := by
    intro j hj
    obtain rfl : j = 0 := Nat.lt_one_iff.mp hj
    rw [hlast, hbit]
    decide +kernel
  obtain ⟨r, hr, -, hpush⟩ := pushes_of_startupFrom smallMemmap_ok initPmm_smallMemmap
    (by decide +kernel) (.single hstep) hfree 19
  refine ⟨s, r, hlive, hr, hpush.trans ?_⟩
  rw [hlast]
  decide

end Vardar.Cpus
