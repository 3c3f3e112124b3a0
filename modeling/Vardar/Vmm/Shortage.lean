import Vardar.Vmm.Unmap

/-!
# What `MapKernelPmrs` reports when frames run out

`MapKernelPmrs` is a sequence of calls of `MapMultiple`, and only the results of some of them count:
those for the protected memory ranges and for the memory above 4 GiB. A call that runs out of frames
stops. If its result is ignored, the failure shows only if a later call that counts needs a table
that does not exist; calls that find all their tables succeed without a frame.

## Main definitions

* `Vardar.Vmm.Call`, `Vardar.Vmm.plan`: the calls of `MapKernelPmrs` in order.
* `Vardar.Vmm.Visit`: a page that a sequence of calls visits, with its place in the sequence.
* `Vardar.Vmm.Covered`: there are frames for the tables of a page and of all pages before it.

## Main results

* `Vardar.Vmm.runCalls_supply`: a sequence of calls adds all tables, or runs out at some page.
* `Vardar.Vmm.mapKernelPmrs_reports_iff`: when the result of `MapKernelPmrs` can be relied on.
-/

namespace Vardar.Vmm

open ByteMemory Word LastWrite

/-! ### The calls of `MapKernelPmrs` -/

/-- The virtual address of round `k`. -/
def Range.vaddr (q : Range) (k : ℕ) : ℕ := add64 (q.addr k) q.offset

/-- A call of `MapMultiple`, and whether its result counts. -/
structure Call where
  range : Range
  checked : Bool

/-- The calls for a memory-map entry. -/
def entryCalls (e : MmapEntry) : List Call :=
  (if e.type = framebuffer ∨ e.type = bootloaderReclaimable then [⟨entryRange e 0, false⟩]
    else []) ++
  (if e.type = framebuffer then [⟨entryRange e kernelData, false⟩] else []) ++
  (if add64 e.base e.length ≤ 0x100000000 then []
    else [⟨entryRange e 0, true⟩, ⟨entryRange e kernelData, true⟩])

/-- The calls of `MapKernelPmrs`, in order. -/
def plan (info : BootInfo) : List Call :=
  ⟨lowRange kernelData, false⟩ ::
    (info.pmrs.map fun pmr => ⟨pmrRange info pmr, true⟩) ++ info.memmap.flatMap entryCalls

/-- The calls in order, with the results that count accumulated. -/
def runCalls (fuel root : ℕ) : List Call → Bool → Machine → Option (Bool × Machine)
  | [], success, s => some (success, s)
  | c :: cs, success, s => do
    let (b, s) ← c.range.call root fuel s
    runCalls fuel root cs (success && (b || !c.checked)) s

variable (fuel root : ℕ)

theorem runCalls_append (cs cs' : List Call) (success : Bool) (s : Machine) :
    runCalls fuel root (cs ++ cs') success s =
      (runCalls fuel root cs success s).bind fun x => runCalls fuel root cs' x.1 x.2 := by
  induction cs generalizing success s with
  | nil => rfl
  | cons c cs ih =>
    simp only [List.cons_append, runCalls, Option.bind_eq_bind, Option.bind_assoc, ih]

/-- A call whose result is ignored, made if the condition holds. -/
theorem runCalls_mapIf (c : Prop) [Decidable c] (q : Range) (success : Bool) (s : Machine) :
    runCalls fuel root (if c then [⟨q, false⟩] else []) success s =
      (mapIf c fuel root q.base q.bound q.offset q.flags s).map fun s => (success, s) := by
  rw [mapIf]
  split_ifs
  · change (q.call root fuel s).bind _ = _
    rw [Range.call]
    cases mapMultiple root q.bound q.offset q.flags fuel q.base s with
    | none => rfl
    | some x => simp [runCalls]
  · rfl

theorem runCalls_pmrs (info : BootInfo) (pmrs : List Pmr) (success : Bool) (s : Machine) :
    runCalls fuel root (pmrs.map fun pmr => ⟨pmrRange info pmr, true⟩) success s =
      mapPmrs fuel info root pmrs success s := by
  induction pmrs generalizing success s with
  | nil => rfl
  | cons pmr pmrs ih =>
    simp only [List.map_cons, runCalls, mapPmrs, ih, Bool.not_true, Bool.or_false]
    rfl

theorem runCalls_entries (es : List MmapEntry) (success : Bool) (s : Machine) :
    runCalls fuel root (es.flatMap entryCalls) success s =
      mapEntries fuel root es success s := by
  induction es generalizing success s with
  | nil => rfl
  | cons e es ih =>
    have hid : (entryRange e 0).flags = kernelPage &&& executable := kernelPage_executable.symm
    have hdata : (entryRange e kernelData).flags = kernelPage &&& executable :=
      kernelPage_executable.symm
    rw [List.flatMap_cons, entryCalls, runCalls_append, runCalls_append, runCalls_append,
      runCalls_mapIf, hid]
    simp only [mapEntries, Option.bind_eq_bind, Option.bind_map, Option.bind_assoc]
    refine congrArg (Option.bind _) (funext fun s₁ => ?_)
    simp only [Function.comp_apply, runCalls_mapIf, hdata, Option.bind_map]
    refine congrArg (Option.bind _) (funext fun s₂ => ?_)
    split_ifs with hlow
    · exact ih success s₂
    · simp only [runCalls, Option.bind_eq_bind, Option.bind_assoc, Option.bind_some, Bool.not_true,
        Bool.or_false, ih]
      rfl

/-- `MapKernelPmrs` makes the calls of its plan. -/
theorem mapKernelPmrs_eq_runCalls (info : BootInfo) (s : Machine) :
    mapKernelPmrs fuel info root s = runCalls fuel root (plan info) true s := by
  have hlow := runCalls_mapIf fuel root True (lowRange kernelData) true s
  rw [if_pos trivial] at hlow
  rw [plan, ← List.singleton_append, List.append_assoc, runCalls_append, hlow]
  simp only [mapKernelPmrs, Option.bind_eq_bind, Option.bind_map, runCalls_append, runCalls_pmrs,
    runCalls_entries, Function.comp_def]
  rfl

/-! ### Ranges and frames -/

namespace Range

/-- The tables of the pages before round `n`. -/
def pathsBelow (q : Range) (n : ℕ) : Set (List (Fin 512)) :=
  {p | ∃ k < n, p ∈ tablePaths (q.vaddr k)}

/-- The tables of all pages of the range. -/
def paths (q : Range) : Set (List (Fin 512)) := {p | ∃ k, q.Visits k ∧ p ∈ tablePaths (q.vaddr k)}

theorem next_vaddr (q : Range) (k : ℕ) : q.next.vaddr k = q.vaddr (k + 1) := by
  rw [vaddr, next_addr]
  rfl

theorem pathsBelow_succ (q : Range) (n : ℕ) :
    q.pathsBelow (n + 1) = tablePaths (q.vaddr 0) ∪ q.next.pathsBelow n := by
  ext p
  simp only [pathsBelow, Set.mem_ofPred_eq, Set.mem_union, next_vaddr]
  constructor
  · rintro ⟨k, hk, hp⟩
    cases k with
    | zero => exact .inl hp
    | succ k => exact .inr ⟨k, by omega, hp⟩
  · rintro (hp | ⟨k, hk, hp⟩)
    · exact ⟨0, by omega, hp⟩
    · exact ⟨k + 1, by omega, hp⟩

theorem paths_eq {q : Range} (hlt : q.addr 0 < q.bound) :
    q.paths = tablePaths (q.vaddr 0) ∪ q.next.paths := by
  ext p
  simp only [paths, Set.mem_ofPred_eq, Set.mem_union, next_vaddr, next_visits hlt]
  constructor
  · rintro ⟨k, hk, hp⟩
    cases k with
    | zero => exact .inl hp
    | succ k => exact .inr ⟨k, hk, hp⟩
  · rintro (hp | ⟨k, hk, hp⟩)
    · exact ⟨0, fun j hj => by rwa [Nat.le_zero.mp hj], hp⟩
    · exact ⟨k + 1, hk, hp⟩

theorem paths_of_le {q : Range} (hle : q.bound ≤ q.addr 0) : q.paths = ∅ := by
  ext p
  simp only [paths, Set.mem_ofPred_eq, Set.mem_empty_iff_false, iff_false]
  rintro ⟨k, hk, -⟩
  have h0 := hk 0 (Nat.zero_le k)
  omega

theorem pathsBelow_zero (q : Range) : q.pathsBelow 0 = ∅ := by
  ext p
  simp [pathsBelow]

end Range

section Calls

variable {fuel : ℕ} {R : Set ℕ} {r : ℕ} {s s' s'' : Machine} {q : Range} {b success : Bool}

/-- `MapMultiple` adds the tables of its pages, or runs out of frames at one of them. -/
theorem Ok.call_supply (h : Ok R s) (hr : r ∈ R) (h64 : q.base < 2 ^ 64)
    (hflags : q.flags = kernelPage) (hcall : q.call r fuel s = some (b, s')) :
    (b = true ∧ Grows R r s s' q.paths) ∨
    (b = false ∧ ∃ k s₁, q.Visits k ∧ Grows R r s s₁ (q.pathsBelow k) ∧
      RunsOut R r s₁ s' (tablePaths (q.vaddr k)) (indices (q.vaddr k))) := by
  induction fuel generalizing s q with
  | zero => simp [Range.call, Vmm.mapMultiple] at hcall
  | succ fuel ih =>
    rw [Range.call_succ] at hcall
    have haddr := Range.addr_zero h64
    have hvaddr : q.vaddr 0 = add64 q.base q.offset := by rw [Range.vaddr, haddr]
    by_cases hlt : q.base < q.bound
    · have hlt0 : q.addr 0 < q.bound := haddr ▸ hlt
      rw [if_pos hlt] at hcall
      rcases h.mapPage_supply hr (add64 q.base q.offset) h64 (hflags ▸ kernelPage_lt)
        (hflags ▸ kernelPage_odd) with ⟨s₁, hmap, hgrow⟩ | ⟨s₁, hmap, hout⟩
      · rw [hmap] at hcall
        rw [← hvaddr] at hgrow
        rcases ih hgrow.keeps.ok (q := q.next) (add64_lt _ _) hflags hcall with
          ⟨rfl, hgrow'⟩ | ⟨rfl, k, s₂, hk, hgrow', hout⟩
        · rw [Range.paths_eq hlt0]
          exact .inl ⟨rfl, hgrow.trans hr hgrow'⟩
        · rw [Range.next_vaddr] at hout
          refine .inr ⟨rfl, k + 1, s₂, (Range.next_visits hlt0 k).mp hk, ?_, hout⟩
          rw [Range.pathsBelow_succ]
          exact hgrow.trans hr hgrow'
      · rw [hmap] at hcall
        obtain ⟨rfl, rfl⟩ := Prod.mk.inj (Option.some.inj hcall)
        rw [← hvaddr] at hout
        refine .inr ⟨rfl, 0, s, fun j hj => by rwa [Nat.le_zero.mp hj], ?_, hout⟩
        rw [Range.pathsBelow_zero]
        exact Grows.refl h
    · rw [if_neg hlt] at hcall
      obtain ⟨rfl, rfl⟩ := Prod.mk.inj (Option.some.inj hcall)
      rw [Range.paths_of_le (by omega)]
      exact .inl ⟨rfl, Grows.refl h⟩

/-! ### Without frames -/

/-- `AllocFirstFrame` returns null from now on. -/
def Dry (s : Machine) : Prop := ∀ n, s.next ≤ n → s.frames n = none

/-- Null once means null from then on. -/
def NullForever (s : Machine) : Prop :=
  ∀ n k, s.next ≤ n → s.frames n = none → n ≤ k → s.frames k = none

theorem NullForever.keeps (h : NullForever s) (hk : Keeps R s s') : NullForever s' := by
  intro n k hn hnone hle
  rw [hk.frames] at hnone ⊢
  exact h n k (hk.next.trans hn) hnone hle

theorem RunsOut.dry {A : Set (List (Fin 512))} {path : List (Fin 512)} (h : NullForever s)
    (hout : RunsOut R r s s' A path) : Dry s' := by
  obtain ⟨n, hn, hn', hnone⟩ := hout.fails
  intro k hk
  rw [hout.keeps.frames]
  exact h n k hn hnone (by omega)

theorem Dry.keeps (h : Dry s) (hk : Keeps R s s') : Dry s' := by
  intro n hn
  rw [hk.frames]
  exact h n (hk.next.trans hn)

/-- Without frames no table is added. -/
theorem Dry.subset_known {A : Set (List (Fin 512))} (h : Dry s) (hgrow : Grows R r s s' A) :
    A ⊆ known s.mem r := by
  have hcard : (A \ known s.mem r).ncard = 0 := by
    by_contra hne
    exact hgrow.enough s.next le_rfl (by omega) (h s.next le_rfl)
  rwa [Set.ncard_eq_zero hgrow.upper.finite.sdiff, Set.sdiff_eq_empty] at hcard

/-- The last-level tables of the root stay. -/
def SameTables (r : ℕ) (s s' : Machine) : Prop :=
  ∀ p, p.length = 3 → (p ∈ known s'.mem r ↔ p ∈ known s.mem r)

theorem Dry.sameTables {A : Set (List (Fin 512))} (h : Dry s) (hr : r ∈ R)
    (hgrow : Grows R r s s' A) : SameTables r s s' := by
  intro p hp
  rw [hgrow.known_iff hr hp.le]
  exact or_iff_left_of_imp fun hpA => h.subset_known hgrow hpA

/-- Without frames `MapMultiple` succeeds if and only if all the tables of its pages exist. -/
theorem Dry.call (hd : Dry s) (h : Ok R s) (hr : r ∈ R) (h64 : q.base < 2 ^ 64)
    (hflags : q.flags = kernelPage) (hcall : q.call r fuel s = some (b, s')) :
    Keeps R s s' ∧ SameTables r s s' ∧
      (b = true ↔ ∀ k, q.Visits k → indices (q.vaddr k) ∈ known s.mem r) := by
  rcases h.call_supply hr h64 hflags hcall with ⟨rfl, hgrow⟩ | ⟨rfl, k, s₁, hk, hgrow, hout⟩
  · refine ⟨hgrow.keeps, hd.sameTables hr hgrow, iff_of_true rfl fun k hk => ?_⟩
    exact hd.subset_known hgrow ⟨k, hk, indices_mem_tablePaths _⟩
  · have hsame := hd.sameTables hr hgrow
    refine ⟨hgrow.keeps.trans hout.keeps, fun p hp => ?_, iff_of_false (by simp) fun hall => ?_⟩
    · rw [hout.tables r hr p hp, hsame p hp]
    · have hknown := hall k hk
      rw [← hsame _ (length_indices _), ← hout.tables r hr _ (length_indices _)] at hknown
      exact hout.missing hknown

/-- The arguments of a call are words, and it maps kernel pages. -/
def Call.Ok (c : Call) : Prop := c.range.base < 2 ^ 64 ∧ c.range.flags = kernelPage

/-- Without frames the calls that count must find all their tables. -/
theorem Dry.runCalls (hd : Dry s) (h : Ok R s) (hr : r ∈ R) {cs : List Call}
    (hcs : ∀ c ∈ cs, c.Ok) (hcall : Vmm.runCalls fuel r cs success s = some (b, s')) :
    SameTables r s s' ∧ (b = true ↔ success = true ∧ ∀ c ∈ cs, c.checked = true →
      ∀ k, c.range.Visits k → indices (c.range.vaddr k) ∈ known s.mem r) := by
  induction cs generalizing success s with
  | nil =>
    obtain ⟨rfl, rfl⟩ := Prod.mk.inj (Option.some.inj hcall)
    exact ⟨fun _ _ => Iff.rfl, by simp⟩
  | cons c cs ih =>
    obtain ⟨⟨b₁, s₁⟩, hfirst, hrest⟩ := Option.bind_eq_some_iff.mp hcall
    obtain ⟨h64, hflags⟩ := hcs c List.mem_cons_self
    obtain ⟨hkeep, hsame, hb⟩ := hd.call h hr h64 hflags hfirst
    obtain ⟨hsame', hb'⟩ := ih (hd.keeps hkeep) hkeep.ok
      (fun c hc => hcs c (List.mem_cons_of_mem _ hc)) hrest
    refine ⟨fun p hp => (hsame' p hp).trans (hsame p hp), ?_⟩
    have htables : ∀ v, indices v ∈ known s₁.mem r ↔ indices v ∈ known s.mem r :=
      fun v => hsame _ (length_indices v)
    simp only [htables] at hb'
    rw [hb', List.forall_mem_cons, ← hb]
    cases c.checked <;> simp [and_assoc]

/-! ### Places in a sequence of calls -/

/-- Round `k` of call `i` visits the page of `v`. -/
def Visit (cs : List Call) (i k v : ℕ) : Prop :=
  ∃ c, cs[i]? = some c ∧ c.range.Visits k ∧ c.range.vaddr k = v

/-- The tables of the pages visited before round `k` of call `i`. -/
def before (cs : List Call) (i k : ℕ) : Set (List (Fin 512)) :=
  {p | ∃ j n v, (j < i ∨ j = i ∧ n < k) ∧ Visit cs j n v ∧ p ∈ tablePaths v}

/-- The tables of the pages visited up to and including round `k` of call `i`. -/
def upTo (cs : List Call) (i k : ℕ) : Set (List (Fin 512)) := before cs i (k + 1)

/-- The tables of all pages. -/
def allPaths (cs : List Call) : Set (List (Fin 512)) :=
  {p | ∃ j n v, Visit cs j n v ∧ p ∈ tablePaths v}

/-- `AllocFirstFrame` has frames for the tables that are missing for the page at this place and all
pages before it. -/
def Covered (s : Machine) (r : ℕ) (cs : List Call) (i k : ℕ) : Prop :=
  Enough s (upTo cs i k \ known s.mem r).ncard

theorem upper_before (cs : List Call) (i k : ℕ) : Upper (before cs i k) := by
  rintro p ⟨-, -, v, -, -, hp⟩
  exact upper_tablePaths v p hp

theorem visit_cons_succ (c : Call) (cs : List Call) (i k v : ℕ) :
    Visit (c :: cs) (i + 1) k v ↔ Visit cs i k v := by
  simp [Visit]

theorem visit_cons_zero (c : Call) (cs : List Call) (k v : ℕ) :
    Visit (c :: cs) 0 k v ↔ c.range.Visits k ∧ c.range.vaddr k = v := by
  simp [Visit]

theorem before_cons_succ (c : Call) (cs : List Call) (i k : ℕ) :
    before (c :: cs) (i + 1) k = c.range.paths ∪ before cs i k := by
  ext p
  constructor
  · rintro ⟨j, n, v, hlt, hv, hp⟩
    cases j with
    | zero =>
      obtain ⟨hn, rfl⟩ := (visit_cons_zero c cs n v).mp hv
      exact .inl ⟨n, hn, hp⟩
    | succ j => exact .inr ⟨j, n, v, by omega, (visit_cons_succ c cs j n v).mp hv, hp⟩
  · rintro (⟨n, hn, hp⟩ | ⟨j, n, v, hlt, hv, hp⟩)
    · exact ⟨0, n, _, .inl (by omega), (visit_cons_zero c cs n _).mpr ⟨hn, rfl⟩, hp⟩
    · exact ⟨j + 1, n, v, by omega, (visit_cons_succ c cs j n v).mpr hv, hp⟩

theorem before_cons_zero (c : Call) (cs : List Call) {k : ℕ} (hk : c.range.Visits k) :
    before (c :: cs) 0 k = c.range.pathsBelow k := by
  ext p
  constructor
  · rintro ⟨j, n, v, hlt, hv, hp⟩
    obtain ⟨rfl, hn⟩ : j = 0 ∧ n < k := by omega
    obtain ⟨-, rfl⟩ := (visit_cons_zero c cs n v).mp hv
    exact ⟨n, hn, hp⟩
  · rintro ⟨n, hn, hp⟩
    refine ⟨0, n, _, .inr ⟨rfl, hn⟩, (visit_cons_zero c cs n _).mpr ⟨fun j hj => ?_, rfl⟩, hp⟩
    exact hk j (by omega)

theorem allPaths_cons (c : Call) (cs : List Call) :
    allPaths (c :: cs) = c.range.paths ∪ allPaths cs := by
  ext p
  constructor
  · rintro ⟨j, n, v, hv, hp⟩
    cases j with
    | zero =>
      obtain ⟨hn, rfl⟩ := (visit_cons_zero c cs n v).mp hv
      exact .inl ⟨n, hn, hp⟩
    | succ j => exact .inr ⟨j, n, v, (visit_cons_succ c cs j n v).mp hv, hp⟩
  · rintro (⟨n, hn, hp⟩ | ⟨j, n, v, hv, hp⟩)
    · exact ⟨0, n, _, (visit_cons_zero c cs n _).mpr ⟨hn, rfl⟩, hp⟩
    · exact ⟨j + 1, n, v, (visit_cons_succ c cs j n v).mpr hv, hp⟩

/-- What is visited up to a place, and the page there. -/
theorem upTo_eq {cs : List Call} {i k v : ℕ} (hv : Visit cs i k v) :
    upTo cs i k = before cs i k ∪ tablePaths v := by
  ext p
  constructor
  · rintro ⟨j, n, w, hlt, hw, hp⟩
    by_cases heq : j = i ∧ n = k
    · obtain ⟨rfl, rfl⟩ := heq
      obtain ⟨c, hc, -, rfl⟩ := hv
      obtain ⟨c', hc', -, rfl⟩ := hw
      obtain rfl := Option.some.inj (hc.symm.trans hc')
      exact .inr hp
    · exact .inl ⟨j, n, w, by omega, hw, hp⟩
  · rintro (⟨j, n, w, hlt, hw, hp⟩ | hp)
    · exact ⟨j, n, w, by omega, hw, hp⟩
    · exact ⟨i, k, v, by omega, hv, hp⟩

theorem before_mono {cs : List Call} {i k i' k' : ℕ} (h : i < i' ∨ i = i' ∧ k ≤ k') :
    before cs i k ⊆ before cs i' k' := by
  rintro p ⟨j, n, v, hlt, hv, hp⟩
  exact ⟨j, n, v, by omega, hv, hp⟩

/-- A sequence of calls adds all its tables; or it runs out of frames at some page, and then the
calls that count after this must find all their tables. -/
theorem runCalls_supply (h : Ok R s) (hnull : NullForever s) (hr : r ∈ R) {cs : List Call}
    (hcs : ∀ c ∈ cs, c.Ok) (hcall : runCalls fuel r cs success s = some (b, s')) :
    (b = success ∧ Grows R r s s' (allPaths cs)) ∨
    ∃ i c k s₁ s₂, cs[i]? = some c ∧ c.range.Visits k ∧ Grows R r s s₁ (before cs i k) ∧
      RunsOut R r s₁ s₂ (tablePaths (c.range.vaddr k)) (indices (c.range.vaddr k)) ∧
      SameTables r s₂ s' ∧ (b = true ↔ success = true ∧ c.checked = false ∧
        ∀ j c', i < j → cs[j]? = some c' → c'.checked = true →
          ∀ n, c'.range.Visits n → indices (c'.range.vaddr n) ∈ known s₂.mem r) := by
  induction cs generalizing success s with
  | nil =>
    obtain ⟨rfl, rfl⟩ := Prod.mk.inj (Option.some.inj hcall)
    refine .inl ⟨rfl, ?_⟩
    rw [show allPaths [] = ∅ by ext; simp [allPaths, Visit]]
    exact Grows.refl h
  | cons c cs ih =>
    obtain ⟨⟨b₁, s₁⟩, hfirst, hrest⟩ := Option.bind_eq_some_iff.mp hcall
    obtain ⟨h64, hflags⟩ := hcs c List.mem_cons_self
    have hcs' : ∀ c ∈ cs, c.Ok := fun c hc => hcs c (List.mem_cons_of_mem _ hc)
    rcases h.call_supply hr h64 hflags hfirst with ⟨rfl, hgrow⟩ | ⟨rfl, k, s₀, hk, hgrow, hout⟩
    · simp only [Bool.true_or, Bool.and_true] at hrest
      rcases ih hgrow.keeps.ok (hnull.keeps hgrow.keeps) hcs' hrest with
        ⟨hb, hgrow'⟩ | ⟨i, c', k, s₂, s₃, hi, hk, hgrow', hout, hsame, hb⟩
      · rw [allPaths_cons]
        exact .inl ⟨hb, hgrow.trans hr hgrow'⟩
      · refine .inr ⟨i + 1, c', k, s₂, s₃, by simpa using hi, hk, ?_, hout, hsame, hb.trans ?_⟩
        · rw [before_cons_succ]
          exact hgrow.trans hr hgrow'
        · refine and_congr_right fun _ => and_congr_right fun _ =>
            ⟨fun hall j => ?_, fun hall j => ?_⟩
          · cases j with
            | zero => intro _ hj; omega
            | succ j => exact fun c' hj hc' => hall j c' (by omega) (by simpa using hc')
          · exact fun c' hj hc' => hall (j + 1) c' (by omega) (by simpa using hc')
    · have hdry := hout.dry (hnull.keeps hgrow.keeps)
      obtain ⟨hsame, hb⟩ := hdry.runCalls hout.keeps.ok hr hcs' hrest
      refine .inr ⟨0, c, k, s₀, s₁, rfl, hk, ?_, hout, hsame, hb.trans ?_⟩
      · rw [before_cons_zero c cs hk]
        exact hgrow
      · rw [Bool.false_or, Bool.and_eq_true, and_assoc, Bool.not_eq_true']
        refine and_congr_right fun _ => and_congr_right fun _ => ⟨fun hall j c' hj hc' => ?_, ?_⟩
        · cases j with
          | zero => omega
          | succ j => exact hall c' (List.mem_of_getElem? (by simpa using hc'))
        · intro hall c' hc'
          obtain ⟨j, hj⟩ := List.mem_iff_getElem?.mp hc'
          exact hall (j + 1) c' (by omega) (by simpa using hj)

/-! ### The result of `MapKernelPmrs` -/

/-- A page without its last-level table is not mapped. -/
theorem not_isMapped_of_missing {m : Mem} {v : ℕ} (h : indices v ∉ known m r) :
    ¬ IsMapped m r v := by
  simp only [known, Set.mem_ofPred_eq, not_not] at h
  rw [IsMapped, leaf, word, RadixTree.word_of_walk_none h]
  decide

/-- The pages of a completed range are mapped. -/
theorem Serves.isMapped {tried full : Set Range} (h : Serves R r s s' tried full) (hr : r ∈ R)
    (hodd : ∀ q ∈ tried, q.flags % 2 = 1) (hq : q ∈ full) {k : ℕ} (hk : q.Visits k) :
    IsMapped s'.mem r (q.vaddr k) := by
  obtain ⟨ws, hm, hsound, hfull⟩ := h
  obtain ⟨w, hw, -, hval⟩ :=
    last_of_exists (leaf s.mem r (q.vaddr k)) ⟨q.write k, (hfull q hq).2 k hk, rfl⟩
  obtain ⟨q', hq', k', -, rfl⟩ := hsound w hw
  rw [IsMapped, getPageFlag_present, hm.leaf_eq r hr, if_pos rfl]
  refine (congrArg (· % 2) hval).trans ?_
  exact Nat.or_mod_two_eq_one.mpr (.inr (hodd q' hq'))

variable {info : BootInfo}

theorem mem_entryCalls {e : MmapEntry} {c : Call} (hc : c ∈ entryCalls e) :
    c.range ∈ entryRanges e := by
  simp only [entryCalls, List.mem_append, List.mem_ite_nil_right, List.mem_ite_nil_left,
    List.mem_cons, List.not_mem_nil, or_false] at hc
  rcases hc with (⟨htype, rfl⟩ | ⟨htype, rfl⟩) | ⟨hhigh, rfl | rfl⟩
  · exact .inl ⟨htype, rfl⟩
  · exact .inr (.inl ⟨htype, rfl⟩)
  · exact .inr (.inr ⟨hhigh, .inl rfl⟩)
  · exact .inr (.inr ⟨hhigh, .inr rfl⟩)

theorem range_mem_kernelRanges {c : Call} (hc : c ∈ plan info) : c.range ∈ kernelRanges info := by
  simp only [plan, List.cons_append, List.mem_cons, List.mem_append, List.mem_map,
    List.mem_flatMap] at hc
  rcases hc with rfl | ⟨pmr, hpmr, rfl⟩ | ⟨e, he, hc⟩
  · exact .inl rfl
  · exact .inr (.inl ⟨pmr, hpmr, rfl⟩)
  · exact .inr (.inr ⟨e, he, mem_entryCalls hc⟩)

theorem kernelRanges_ok (hes : ∀ e ∈ info.memmap, e.base < 2 ^ 64) (hq : q ∈ kernelRanges info) :
    q.base < 2 ^ 64 ∧ q.flags = kernelPage := by
  rcases hq with rfl | ⟨pmr, -, rfl⟩ | ⟨e, he, hq⟩
  · exact ⟨by decide, rfl⟩
  · exact ⟨add64_lt _ _, rfl⟩
  · rcases hq with ⟨-, rfl⟩ | ⟨-, rfl⟩ | ⟨-, rfl | rfl⟩ <;> exact ⟨hes e he, rfl⟩

/-- The page at which frames run out is the first one that is not covered. -/
theorem covered_iff {cs : List Call} {i k v : ℕ} {s₁ s₂ : Machine} (hr : r ∈ R)
    (hgrow : Grows R r s s₁ (before cs i k))
    (hout : RunsOut R r s₁ s₂ (tablePaths v) (indices v)) (hv : Visit cs i k v) (i' k' : ℕ) :
    Covered s r cs i' k' ↔ i' < i ∨ i' = i ∧ k' < k := by
  constructor
  · intro hcov
    by_contra hge
    have hsub : upTo cs i k ⊆ upTo cs i' k' := before_mono (by omega)
    have hle : (upTo cs i k \ known s.mem r).ncard ≤ (upTo cs i' k' \ known s.mem r).ncard :=
      Set.ncard_le_ncard (Set.sdiff_subset_sdiff_left hsub) (upper_before _ _ _).finite.sdiff
    have hshort := hout.short
    have henough := Enough.mono hcov hle
    rw [upTo_eq hv, Grows.ncard_union hgrow.upper (upper_tablePaths v)
      fun p hp => hgrow.known_iff hr hp] at henough
    exact hshort (henough.step hgrow.keeps.frames hgrow.keeps.next hgrow.next.le)
  · intro hlt
    have hsub : upTo cs i' k' ⊆ before cs i k := before_mono (by omega)
    exact hgrow.enough.mono
      (Set.ncard_le_ncard (Set.sdiff_subset_sdiff_left hsub) hgrow.upper.finite.sdiff)

/-- A last-level table after the frames have run out was there before the calls, or is that of a
covered page. -/
theorem known_iff_covered {cs : List Call} {i k v : ℕ} {s₁ s₂ : Machine} (hr : r ∈ R)
    (hgrow : Grows R r s s₁ (before cs i k))
    (hout : RunsOut R r s₁ s₂ (tablePaths v) (indices v)) (hv : Visit cs i k v) (w : ℕ) :
    indices w ∈ known s₂.mem r ↔ indices w ∈ known s.mem r ∨
      ∃ i' k' v', Visit cs i' k' v' ∧ Covered s r cs i' k' ∧ region v' = region w := by
  have hcov := covered_iff hr hgrow hout hv
  rw [hout.tables r hr _ (length_indices w), hgrow.known_iff hr (length_indices w).le]
  refine or_congr_right ⟨?_, ?_⟩
  · rintro ⟨j, n, v', hlt, hv', hp⟩
    exact ⟨j, n, v', hv', (hcov j n).mpr hlt, (indices_mem_tablePaths_iff w v').mp hp⟩
  · rintro ⟨j, n, v', hv', hc, hregion⟩
    exact ⟨j, n, v', (hcov j n).mp hc, hv', (indices_mem_tablePaths_iff w v').mpr hregion⟩

/-- After the frames have run out at a page, the shortage is reported if and only if some call that
counts visits a page without a table. -/
theorem reported_iff {cs : List Call} {i k : ℕ} {c : Call} {s₁ s₂ : Machine} (hr : r ∈ R)
    (hgrow : Grows R r s s₁ (before cs i k))
    (hout : RunsOut R r s₁ s₂ (tablePaths (c.range.vaddr k)) (indices (c.range.vaddr k)))
    (hi : cs[i]? = some c) (hk : c.range.Visits k) :
    ¬ (c.checked = false ∧ ∀ j c', i < j → cs[j]? = some c' → c'.checked = true →
        ∀ n, c'.range.Visits n → indices (c'.range.vaddr n) ∈ known s₂.mem r) ↔
      ∃ c' ∈ cs, c'.checked = true ∧
        ∃ n, c'.range.Visits n ∧ indices (c'.range.vaddr n) ∉ known s₂.mem r := by
  have hv : Visit cs i k (c.range.vaddr k) := ⟨c, hi, hk, rfl⟩
  constructor
  · intro hfalse
    by_contra hno
    push Not at hno
    refine hfalse ⟨?_, fun j c' _ hj hc' n hn => hno c' (List.mem_of_getElem? hj) hc' n hn⟩
    by_contra hchecked
    exact hout.missing (hno c (List.mem_of_getElem? hi) (Bool.not_eq_false _ ▸ hchecked) k hk)
  · rintro ⟨c', hc', hchecked, n, hn, hno⟩ ⟨hc, hafter⟩
    obtain ⟨j, hj⟩ := List.mem_iff_getElem?.mp hc'
    rcases Nat.lt_trichotomy j i with hlt | rfl | hlt
    · -- the pages of the calls before are covered
      have hcov := (covered_iff hr hgrow hout hv j n).mpr (.inl hlt)
      exact hno ((known_iff_covered hr hgrow hout hv _).mpr
        (.inr ⟨j, n, _, ⟨c', hj, hn, rfl⟩, hcov, rfl⟩))
    · obtain rfl := Option.some.inj (hi.symm.trans hj)
      simp [hc] at hchecked
    · exact hno (hafter j c' hlt hj hchecked n hn)

end Calls

variable {R : Set ℕ} {r fuel : ℕ} {s s' : Machine} {info : BootInfo} {b : Bool}

/-- **When `MapKernelPmrs` reports every failure.** Suppose `AllocFirstFrame` returns null for ever
once it has returned null. Then a result of true means that every page of every call is mapped if
and only if there are frames for all tables that are missing, or some call that counts visits a page
in 2 MiB that have neither a last-level table before the call nor a page that is covered. -/
theorem mapKernelPmrs_reports_iff (h : Ok R s) (hr : r ∈ R) (hnull : NullForever s)
    (hes : ∀ e ∈ info.memmap, e.base < 2 ^ 64)
    (hcall : mapKernelPmrs fuel info r s = some (b, s')) :
    (b = true → ∀ c ∈ plan info, ∀ k, c.range.Visits k → IsMapped s'.mem r (c.range.vaddr k)) ↔
      (∀ i k v, Visit (plan info) i k v → Covered s r (plan info) i k) ∨
      ∃ c ∈ plan info, c.checked = true ∧ ∃ k, c.range.Visits k ∧
        indices (c.range.vaddr k) ∉ known s.mem r ∧
        ∀ i k' v, Visit (plan info) i k' v → Covered s r (plan info) i k' →
          region v ≠ region (c.range.vaddr k) := by
  have hrun := hcall
  rw [mapKernelPmrs_eq_runCalls] at hrun
  have hok : ∀ c ∈ plan info, c.Ok := fun c hc => kernelRanges_ok hes (range_mem_kernelRanges hc)
  rcases runCalls_supply h hnull hr hok hrun with
    ⟨rfl, hgrow⟩ | ⟨i, c, k, s₁, s₂, hi, hk, hgrow, hout, hsame, hb⟩
  · -- no allocation fails
    obtain ⟨full, hserves, -, hfull⟩ := mapKernelPmrs_spec h hr hes hcall
    refine iff_of_true (fun _ c hc k hk => ?_) (.inl fun i k v hv => ?_)
    · refine hserves.isMapped hr (fun q hq => ?_)
        ((hfull hgrow.noFail).2 (range_mem_kernelRanges hc)) hk
      rw [(kernelRanges_ok hes hq).2]
      rfl
    · have hsub : upTo (plan info) i k ⊆ allPaths (plan info) := by
        rintro p ⟨j, n, w, -, hw, hp⟩
        exact ⟨j, n, w, hw, hp⟩
      exact hgrow.enough.mono
        (Set.ncard_le_ncard (Set.sdiff_subset_sdiff_left hsub) hgrow.upper.finite.sdiff)
  · have hv : Visit (plan info) i k (c.range.vaddr k) := ⟨c, hi, hk, rfl⟩
    have hmissing : ¬ IsMapped s'.mem r (c.range.vaddr k) := by
      refine not_isMapped_of_missing fun hknown => ?_
      exact hout.missing ((hsame _ (length_indices _)).mp hknown)
    have hleft : (b = true → ∀ c ∈ plan info, ∀ k, c.range.Visits k →
        IsMapped s'.mem r (c.range.vaddr k)) ↔ ¬ b = true :=
      ⟨fun hall hb => hmissing (hall hb c (List.mem_of_getElem? hi) k hk),
        fun hb hb' => absurd hb' hb⟩
    have hall : ¬ ∀ i k v, Visit (plan info) i k v → Covered s r (plan info) i k := by
      intro hall
      have hik := (covered_iff hr hgrow hout hv i k).mp (hall i k _ hv)
      omega
    have hunknown : ∀ v, (indices v ∉ known s.mem r ∧ ∀ i' k' v', Visit (plan info) i' k' v' →
        Covered s r (plan info) i' k' → region v' ≠ region v) ↔ indices v ∉ known s₂.mem r := by
      intro v
      rw [known_iff_covered hr hgrow hout hv]
      push Not
      rfl
    rw [hleft, or_iff_right hall, hb]
    simp only [hunknown, true_and]
    exact reported_iff hr hgrow hout hi hk

/-- A root at 4096 and no frame for a table. -/
def noFrames : Machine := ⟨fun _ => 0, fun _ => none, 0⟩

theorem start_noFrames : Start {4096} noFrames := by
  refine ⟨?_, fun n f _ hf => ?_, fun n k f _ _ hn _ => ?_⟩
  · rintro r rfl
    exact ⟨rfl, by decide, fun _ _ _ => rfl⟩
  · exact absurd hf (by simp [noFrames])
  · exact absurd hn (by simp [noFrames])

theorem unknown_noFrames (v : ℕ) : indices v ∉ known noFrames.mem 4096 := by
  simp [known, indices, start_noFrames.walk_cons rfl]

theorem not_covered_noFrames {cs : List Call} {i k v : ℕ} (hv : Visit cs i k v) :
    ¬ Covered noFrames 4096 cs i k := by
  intro hcov
  refine hcov 0 le_rfl ?_ rfl
  rw [show noFrames.next = 0 from rfl, Nat.zero_add, upTo,
    Set.ncard_pos (upper_before cs i (k + 1)).finite.sdiff]
  exact ⟨indices v, ⟨i, k, v, .inr ⟨rfl, Nat.lt_succ_self k⟩, hv, indices_mem_tablePaths v⟩,
    unknown_noFrames v⟩

/-- Without frames, a page of kernel code makes `MapKernelPmrs` return false. -/
theorem mapKernelPmrs_reports_pmr :
    let info : BootInfo := ⟨[], 0x200000, 0xffffffff80000000, [⟨0xffffffff80000000, 0x1000⟩]⟩
    ∃ b s', mapKernelPmrs 2 info 4096 noFrames = some (b, s') ∧ (b = true → ∀ c ∈ plan info,
      ∀ k, c.range.Visits k → IsMapped s'.mem 4096 (c.range.vaddr k)) := by
  intro info
  obtain ⟨⟨b, s'⟩, hcall, -⟩ := Option.map_eq_some_iff.mp
    (show (mapKernelPmrs 2 info 4096 noFrames).map Prod.fst = some false by decide +kernel)
  refine ⟨b, s', hcall, (mapKernelPmrs_reports_iff start_noFrames.ok rfl (fun _ _ _ _ _ => rfl)
    (by simp [info]) hcall).mpr (.inr ⟨⟨pmrRange info ⟨0xffffffff80000000, 0x1000⟩, true⟩,
      by simp [plan, info], rfl, 0, fun j hj => ?_, unknown_noFrames _, ?_⟩)⟩
  · obtain rfl := Nat.le_zero.mp hj
    decide +kernel
  · exact fun i k v hv hcov => absurd hcov (not_covered_noFrames hv)

/-- Without frames and without kernel code, `MapKernelPmrs` returns true, and the first page of the
window is not mapped. -/
theorem mapKernelPmrs_silent :
    let info : BootInfo := ⟨[⟨0x1000, 0x1000, bootloaderReclaimable⟩], 0, 0, []⟩
    ∃ s', mapKernelPmrs 2 info 4096 noFrames = some (true, s') ∧
      ⟨lowRange kernelData, false⟩ ∈ plan info ∧ (lowRange kernelData).Visits 0 ∧
      ¬ IsMapped s'.mem 4096 ((lowRange kernelData).vaddr 0) := by
  intro info
  obtain ⟨⟨b, s'⟩, hcall, heq⟩ := Option.map_eq_some_iff.mp
    (show (mapKernelPmrs 2 info 4096 noFrames).map (fun x =>
      (x.1, decide (IsMapped x.2.mem 4096 ((lowRange kernelData).vaddr 0)))) = some (true, false) by
        decide +kernel)
  simp only [Prod.mk.injEq, decide_eq_false_iff_not] at heq
  obtain ⟨rfl, hno⟩ := heq
  refine ⟨s', hcall, List.mem_cons_self, fun j hj => ?_, hno⟩
  obtain rfl := Nat.le_zero.mp hj
  decide +kernel

end Vardar.Vmm
