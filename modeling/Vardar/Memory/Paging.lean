import Mathlib.Data.List.ReduceOption
import Vardar.Memory.Frames
import Vardar.Vmm.Refinement

/-!
# Page tables on the bitmap allocator

`MapPage` takes the frames of new tables from `AllocFirstFrame`, and the bitmap that this reads and
writes is in the same memory as the tables. The functions here are those of `Vardar.Vmm.Vmm` on that
memory, with the allocator in place of a supply of frames. A call of the allocator may run forever,
so they take a bound on its rounds.

Every call acts as it does on a supply that returns what the allocator has returned, except for the
bytes of the bitmap.

## Main definitions

* `Vardar.Paging.mapPage`, `Vardar.Paging.unmapPage`, and the functions they call.
* `Vardar.Paging.Sound`: the page tables are a tree of frames that the allocator has handed out.
* `Vardar.Paging.Acts`: a call acts as it does on a supply of frames.

## Main results

* `Vardar.Paging.Sound.mapPage`, `Vardar.Paging.Sound.unmapPage`.
-/

namespace Vardar.Paging

open ByteMemory Word Vmm Pmm

/-! ### The functions -/

/-- A 64-bit store. -/
def storeWord (p : Pmm) (a w : ℕ) : Pmm := { p with mem := store p.mem a 8 w }

/-- `GetOrCreatePageTable`. -/
def getOrCreatePageTable (fuel : ℕ) (p : Pmm) (parent : ℕ) (index : Fin 512) (flags : ℕ) :
    Option (Option ℕ × Pmm) :=
  if getPageFlag (entry p.mem parent index) present then
    some (nonNull (entry p.mem parent index &&& addressMask), p)
  else
    match p.allocFirstFrame fuel with
    | none => none
    | some (none, p) => some (none, p)
    | some (some f, p) => some (some f, storeWord p (slot parent index) (f ||| flags))

/-- The loop of `CreatePage` over the given levels. -/
def createTables (fuel vaddr flags : ℕ) : List ℕ → ℕ → Pmm → Option (Option ℕ × Pmm)
  | [], parent, p => some (some parent, p)
  | i :: levels, parent, p =>
    match getOrCreatePageTable fuel p parent (vAddrIndex vaddr i) flags with
    | none => none
    | some (none, p) => some (none, p)
    | some (some child, p) => createTables fuel vaddr flags levels child p

/-- `CreatePage`: the address of the entry. -/
def createPage (fuel : ℕ) (p : Pmm) (root vaddr flags : ℕ) : Option (Option ℕ × Pmm) :=
  (createTables fuel vaddr flags [4, 3, 2] root p).map fun r =>
    (r.1.map fun table => slot table (vAddrIndex vaddr 1), r.2)

/-- `MapPage`. -/
def mapPage (fuel : ℕ) (p : Pmm) (root vaddr paddr flags : ℕ) : Option (Bool × Pmm) :=
  match createPage fuel p root vaddr flags with
  | none => none
  | some (none, p) => some (false, p)
  | some (some e, p) => some (true, storeWord p e (paddr ||| flags))

/-- `UnmapPage`. -/
def unmapPage (p : Pmm) (root vaddr : ℕ) : Bool × Pmm :=
  match getPage p.mem root vaddr with
  | none => (false, p)
  | some e => (true, storeWord p e 0)

/-! ### A supply of frames -/

/-- The supply that returns the given frames, by their numbers. -/
def supply (rs : List (Option ℕ)) (n : ℕ) : Option ℕ := (rs[n]?).join.map (· * frameSize)

/-- The next results of a supply are the given frames. -/
def Supplies (frames : ℕ → Option ℕ) (next : ℕ) (rs : List (Option ℕ)) : Prop :=
  ∀ k < rs.length, frames (next + k) = supply rs k

/-- The frames held after some have been handed out. -/
def granted (rs : List (Option ℕ)) (live : List ℕ) : List ℕ := rs.reduceOption.reverse ++ live

theorem granted_append (rs rs' : List (Option ℕ)) (live : List ℕ) :
    granted (rs ++ rs') live = granted rs' (granted rs live) := by
  simp [granted, List.reduceOption_append]

theorem supply_append_left {rs : List (Option ℕ)} {k : ℕ} (hk : k < rs.length)
    (rs' : List (Option ℕ)) : supply (rs ++ rs') k = supply rs k := by
  rw [supply, supply, List.getElem?_append_left hk]

theorem supply_append_right (rs rs' : List (Option ℕ)) (k : ℕ) :
    supply (rs ++ rs') (rs.length + k) = supply rs' k := by
  rw [supply, supply, List.getElem?_append_right (Nat.le_add_right _ _), Nat.add_sub_cancel_left]

theorem supplies_append {frames : ℕ → Option ℕ} {next : ℕ} {rs rs' : List (Option ℕ)} :
    Supplies frames next (rs ++ rs') ↔
      Supplies frames next rs ∧ Supplies frames (next + rs.length) rs' := by
  constructor
  · intro h
    refine ⟨fun k hk => ?_, fun k hk => ?_⟩
    · rw [h k (by rw [List.length_append]; omega), supply_append_left hk]
    · rw [Nat.add_assoc, h _ (by rw [List.length_append]; omega), supply_append_right]
  · rintro ⟨h, h'⟩ k hk
    rw [List.length_append] at hk
    by_cases hlt : k < rs.length
    · rw [h k hlt, supply_append_left hlt]
    · obtain ⟨d, rfl⟩ := Nat.exists_eq_add_of_le (Nat.le_of_not_lt hlt)
      rw [← Nat.add_assoc, h' d (by omega), supply_append_right]

theorem supplies_self (rs : List (Option ℕ)) : Supplies (supply rs) 0 rs := by
  intro k _
  rw [Nat.zero_add]

theorem exists_of_supply {rs : List (Option ℕ)} {n f : ℕ} (h : supply rs n = some f) :
    ∃ j, rs[n]? = some (some j) ∧ j ∈ rs.reduceOption ∧ f = j * frameSize := by
  obtain ⟨j, hj, rfl⟩ := Option.map_eq_some_iff.mp h
  have hget : rs[n]? = some (some j) := Option.join_eq_some_iff.mp hj
  exact ⟨j, hget, List.reduceOption_mem_iff.mpr (List.mem_of_getElem? hget), rfl⟩

/-- A frame that is handed out once is returned once. -/
theorem eq_of_getElem? {rs : List (Option ℕ)} (h : rs.reduceOption.Nodup) {n k j : ℕ}
    (hn : rs[n]? = some (some j)) (hk : rs[k]? = some (some j)) : n = k := by
  obtain ⟨hn', hn⟩ := List.getElem?_eq_some_iff.mp hn
  obtain ⟨hk', hk⟩ := List.getElem?_eq_some_iff.mp hk
  have hpair := List.pairwise_iff_getElem.mp (List.pairwise_filterMap.mp h)
  rcases Nat.lt_trichotomy n k with hlt | heq | hlt
  · exact absurd rfl (hpair n k hn' hk' hlt j (by rw [hn]; rfl) j (by rw [hk]; rfl))
  · exact heq
  · exact absurd rfl (hpair k n hk' hn' hlt j (by rw [hk]; rfl) j (by rw [hn]; rfl))

/-! ### The invariant -/

/-- The allocator keeps its invariant, no frame is held twice, and the page tables of the roots in
`R` are a tree of frames that are held. -/
structure Sound (G : ℕ → Prop) (p₀ : Pmm) (R : Set ℕ) (s : Pmm.State) : Prop where
  alloc : State.Inv G p₀ s
  nodup : s.live.Nodup
  tree : Ok R ⟨s.pmm.mem, fun _ => none, 0⟩
  held : ∀ t ∈ tables R s.pmm.mem, t / frameSize ∈ s.live

/-- A call on the allocator with the result `x` acts like the call `a` on a supply, which returns
the frames `rs`. -/
structure Acts {α : Type*} (G : ℕ → Prop) (p₀ : Pmm) (R : Set ℕ) (s : Pmm.State)
    (a : Machine → α × Machine) (x : α) (q : Pmm) (rs : List (Option ℕ)) : Prop where
  sound : Sound G p₀ R ⟨q, granted rs s.live⟩
  acts : ∀ m frames next, SameOff p₀ m s.pmm.mem → Supplies frames next rs →
    ∃ m', a ⟨m, frames, next⟩ = (x, ⟨m', frames, next + rs.length⟩) ∧ SameOff p₀ m' q.mem

/-- The layout of an allocator that does not hand out frame 0. -/
structure Geometry (G : ℕ → Prop) (p₀ : Pmm) : Prop where
  layout : Layout G p₀
  frameZero : ¬ G 0

variable {G : ℕ → Prop} {p₀ q : Pmm} {R : Set ℕ} {s : Pmm.State} {r t : ℕ}

namespace Sound

/-- The tables are outside the bitmap. -/
theorem off (h : Sound G p₀ R s) (hg : Geometry G p₀) {x : ℕ}
    (hx : x / 4096 * 4096 ∈ tables R s.pmm.mem) : p₀.Off x := by
  have hlive := h.held _ hx
  rw [frameSize, Nat.mul_div_cancel _ (by decide)] at hlive
  exact hg.layout.off (h.alloc.held _ hlive) rfl

theorem off_slot (h : Sound G p₀ R s) (hg : Geometry G p₀) (ht : t ∈ tables R s.pmm.mem)
    (i : Fin 512) {x : ℕ} (hx : slot t i ≤ x) (hx' : x < slot t i + 8) : p₀.Off x := by
  obtain ⟨hal, h64⟩ := h.tree.table t ht
  have hi := i.isLt
  rw [slot_eq hal h64] at hx hx'
  refine h.off hg ?_
  rwa [show x / 4096 * 4096 = t by omega]

/-- A write to a table keeps the invariant of the allocator. -/
theorem inv_storeWord (h : Sound G p₀ R s) (hg : Geometry G p₀) (ht : t ∈ tables R s.pmm.mem)
    (i : Fin 512) (w : ℕ) {live : List ℕ} (hinv : State.Inv G p₀ ⟨q, live⟩) :
    State.Inv G p₀ ⟨storeWord q (slot t i) w, live⟩ := by
  refine hinv.write hg.layout fun x hx hx' => store_of_notMem ?_
  by_contra hin
  have hoff := h.off_slot hg ht i (x := x) (by omega) (by omega)
  rw [Pmm.Off] at hoff
  omega

/-- Entries of tables do not depend on the bitmap. -/
theorem entry_eq (h : Sound G p₀ R s) (hg : Geometry G p₀) (ht : t ∈ tables R s.pmm.mem) {m : Mem}
    (hm : SameOff p₀ m s.pmm.mem) (i : Fin 512) : entry m t i = entry s.pmm.mem t i :=
  hm.load_eq fun _ hx hx' => h.off_slot hg ht i hx hx'

/-- The page tables on a supply of frames that are not held. -/
theorem ok_supply (h : Sound G p₀ R s) (hg : Geometry G p₀) (rs : List (Option ℕ))
    (hG : ∀ f ∈ rs.reduceOption, G f) (hnodup : (granted rs s.live).Nodup) :
    Ok R ⟨s.pmm.mem, supply rs, 0⟩ := by
  obtain ⟨hrs, -, hdisj⟩ := List.nodup_append.mp hnodup
  refine ⟨h.tree.sep, h.tree.table, h.tree.linked, fun n f _ hf => ?_, fun n k f _ _ hn hk => ?_⟩
  · obtain ⟨j, -, hj, rfl⟩ := exists_of_supply hf
    have hsmall := hg.layout.small
    have hle := hg.layout.le j (hG j hj)
    have hpos : j ≠ 0 := fun h0 => hg.frameZero (h0 ▸ hG j hj)
    simp only [frameSize]
    refine ⟨by omega, by omega, by omega, fun hmem => ?_⟩
    have hlive := h.held _ hmem
    rw [frameSize, Nat.mul_div_cancel _ (by decide)] at hlive
    exact hdisj j (List.mem_reverse.mpr hj) j hlive rfl
  · obtain ⟨j, hj, -, rfl⟩ := exists_of_supply hn
    obtain ⟨j', hj', -, heq⟩ := exists_of_supply hk
    obtain rfl : j = j' := Nat.eq_of_mul_eq_mul_right (by decide) heq
    exact eq_of_getElem? (List.nodup_reverse.mp hrs) hj hj'

/-- After a call on the supply, every table is a frame that is held. -/
theorem held_after (h : Sound G p₀ R s) {rs : List (Option ℕ)} {s' : Machine}
    (hkeep : Keeps R ⟨s.pmm.mem, supply rs, 0⟩ s') (ht : t ∈ tables R s'.mem) :
    t / frameSize ∈ granted rs s.live := by
  by_contra hnot
  have hframe : t / frameSize * 4096 = t := by
    have hal := (hkeep.ok.table t ht).1
    simp only [frameSize]
    omega
  rw [granted, List.mem_append, List.mem_reverse, not_or] at hnot
  have hspare : Spare R ⟨s.pmm.mem, supply rs, 0⟩ (t / frameSize) := by
    refine ⟨fun hmem => hnot.2 (h.held t (hframe ▸ hmem)), fun n _ hn => ?_⟩
    obtain ⟨j, -, hj, heq⟩ := exists_of_supply hn
    obtain rfl : t / frameSize = j := Nat.eq_of_mul_eq_mul_right (by decide) heq
    exact hnot.1 hj
  exact (hkeep.spare _ hspare).1 (hframe.symm ▸ ht)

/-- The memory of the allocator agrees with that of the supply on the tables. -/
theorem agree (h : Sound G p₀ R s) (hg : Geometry G p₀) {rs : List (Option ℕ)} {s' : Machine}
    (hkeep : Keeps R ⟨s.pmm.mem, supply rs, 0⟩ s')
    (hinv : State.Inv G p₀ ⟨q, granted rs s.live⟩) (hq : SameOff p₀ s'.mem q.mem) (x : ℕ)
    (hx : x / 4096 * 4096 ∈ tables R s'.mem) : q.mem x = s'.mem x := by
  have hlive := h.held_after hkeep hx
  rw [frameSize, Nat.mul_div_cancel _ (by decide)] at hlive
  exact (hq x (hg.layout.off (hinv.held _ hlive) rfl)).symm

/-- A call that acts like one on the supply keeps the invariant. -/
theorem after (h : Sound G p₀ R s) (hg : Geometry G p₀) (rs : List (Option ℕ)) {s' : Machine}
    (hkeep : Keeps R ⟨s.pmm.mem, supply rs, 0⟩ s')
    (hinv : State.Inv G p₀ ⟨q, granted rs s.live⟩) (hnodup : (granted rs s.live).Nodup)
    (hq : SameOff p₀ s'.mem q.mem) : Sound G p₀ R ⟨q, granted rs s.live⟩ := by
  have hagree := h.agree hg hkeep hinv hq
  have hok := hkeep.ok.outside hagree
  refine ⟨hinv, hnodup, ⟨hok.sep, hok.table, hok.linked, by simp, by simp⟩, fun t ht => ?_⟩
  rw [hkeep.ok.tables_outside hagree] at ht
  exact h.held_after hkeep ht

end Sound

/-! ### The calls -/

namespace Acts

variable {α : Type*} {a : Machine → α × Machine} {x : α} {rs : List (Option ℕ)}

/-- A call that does nothing. -/
theorem pure (h : Sound G p₀ R s)
    (ha : ∀ m frames next, SameOff p₀ m s.pmm.mem → a ⟨m, frames, next⟩ = (x, ⟨m, frames, next⟩)) :
    Acts G p₀ R s a x s.pmm [] :=
  ⟨h, fun m frames next hm _ => ⟨m, ha m frames next hm, hm⟩⟩

/-- The call on the supply of exactly the frames that were handed out. -/
theorem run (h : Acts G p₀ R s a x q rs) : ∃ m', a ⟨s.pmm.mem, supply rs, 0⟩ =
    (x, ⟨m', supply rs, rs.length⟩) ∧ SameOff p₀ m' q.mem := by
  have hrun := h.acts s.pmm.mem (supply rs) 0 (SameOff.refl _ _) (supplies_self rs)
  rwa [Nat.zero_add] at hrun

/-- The page tables of the state before the call, on that supply. -/
theorem ok (h : Acts G p₀ R s a x q rs) (hs : Sound G p₀ R s) (hg : Geometry G p₀) :
    Ok R ⟨s.pmm.mem, supply rs, 0⟩ := by
  refine hs.ok_supply hg rs (fun f hf => h.sound.alloc.held f ?_) h.sound.nodup
  exact List.mem_append_left _ (List.mem_reverse.mpr hf)

end Acts

section Calls

variable {fuel flags : ℕ} {path : List (Fin 512)}

/-- Linking a new table into an entry that is not present. -/
theorem getOrCreatePageTable_of_take {m : Mem} {frames : ℕ → Option ℕ} {next : ℕ} {i : Fin 512}
    {o : Option ℕ} (he : ¬ getPageFlag (entry m t i) present = true) (hf : frames next = o) :
    Vmm.getOrCreatePageTable ⟨m, frames, next⟩ t i flags =
      linkTable ((⟨m, frames, next⟩ : Machine).take o) t i flags o := by
  rw [Vmm.getOrCreatePageTable, if_neg he, ← hf]
  rfl

theorem Sound.getOrCreatePageTable (h : Sound G p₀ R s) (hg : Geometry G p₀) (hr : r ∈ R)
    (hlen : path.length < 3) (hw : walk s.pmm.mem r path = some t) {i : Fin 512}
    (hflags : flags < 512) (hodd : flags % 2 = 1) {o : Option ℕ}
    (hcall : Paging.getOrCreatePageTable fuel s.pmm t i flags = some (o, q)) :
    ∃ rs, Acts G p₀ R s (fun s => Vmm.getOrCreatePageTable s t i flags) o q rs ∧
      ∀ t' ∈ o, walk q.mem r (path ++ [i]) = some t' := by
  have ht : t ∈ tables R s.pmm.mem := RadixTree.mem_tables hr hlen.le hw
  have hentry {m : Mem} (hm : SameOff p₀ m s.pmm.mem) : entry m t i = entry s.pmm.mem t i :=
    h.entry_eq hg ht hm i
  rw [Paging.getOrCreatePageTable] at hcall
  by_cases hpres : getPageFlag (entry s.pmm.mem t i) present = true
  · rw [if_pos hpres] at hcall
    obtain ⟨rfl, rfl⟩ := Prod.mk.inj (Option.some.inj hcall)
    refine ⟨[], Acts.pure h fun m frames next hm => ?_, fun t' ht' => ?_⟩
    · rw [Vmm.getOrCreatePageTable, hentry hm, if_pos hpres]
    · obtain ⟨o, s', hget, -, -, hwalk, -⟩ := h.tree.getOrCreatePageTable hr hlen hw i hflags hodd
      rw [Vmm.getOrCreatePageTable, if_pos hpres] at hget
      obtain ⟨rfl, rfl⟩ := Prod.mk.inj hget
      exact hwalk t' ht'
  · rw [if_neg hpres] at hcall
    cases halloc : s.pmm.allocFirstFrame fuel with
    | none => simp [halloc] at hcall
    | some x =>
      obtain ⟨o', q'⟩ := x
      rcases h.alloc.takeFrame hg.layout halloc with
        ⟨rfl, rfl⟩ | ⟨j, rfl, hG, hfresh, hinv, hmem⟩
      · rw [halloc] at hcall
        obtain ⟨rfl, rfl⟩ := Prod.mk.inj (Option.some.inj hcall)
        refine ⟨[none], ⟨h, fun m frames next hm hrs => ⟨m, ?_, hm⟩⟩, by simp⟩
        have hnone : frames next = none := hrs 0 Nat.one_pos
        rw [getOrCreatePageTable_of_take (by rwa [hentry hm]) hnone]
        rfl
      · rw [halloc] at hcall
        obtain ⟨rfl, rfl⟩ := Prod.mk.inj (Option.some.inj hcall)
        have hnodup : (granted [some j] s.live).Nodup := List.nodup_cons.mpr ⟨hfresh, h.nodup⟩
        have hinv' := h.inv_storeWord hg ht i (j * frameSize ||| flags) hinv
        have hmachine {m : Mem} {frames : ℕ → Option ℕ} {next : ℕ} (hm : SameOff p₀ m s.pmm.mem)
            (hrs : Supplies frames next [some j]) :
            Vmm.getOrCreatePageTable ⟨m, frames, next⟩ t i flags = (some (j * frameSize),
              ⟨store (memset m (j * frameSize) 0 frameSize) (slot t i) 8 (j * frameSize ||| flags),
                frames, next + 1⟩) := by
          have hsome : frames next = some (j * frameSize) := hrs 0 Nat.one_pos
          rw [getOrCreatePageTable_of_take (by rwa [hentry hm]) hsome]
          rfl
        have hsame {m : Mem} (hm : SameOff p₀ m s.pmm.mem) : SameOff p₀
            (store (memset m (j * frameSize) 0 frameSize) (slot t i) 8 (j * frameSize ||| flags))
            (storeWord q' (slot t i) (j * frameSize ||| flags)).mem :=
          ((hm.fill _ _ _).trans hmem.symm).store _ _ _
        have hok := h.ok_supply hg [some j] (by simpa using hG) hnodup
        obtain ⟨o, s', hget, hkeep, -, hwalk, -⟩ :=
          hok.getOrCreatePageTable hr hlen hw i hflags hodd
        rw [hmachine (SameOff.refl _ _) (supplies_self _)] at hget
        obtain ⟨rfl, rfl⟩ := Prod.mk.inj hget
        have hq := hsame (SameOff.refl p₀ s.pmm.mem)
        refine ⟨[some j], ⟨h.after hg [some j] hkeep hinv' hnodup hq,
          fun m frames next hm hrs => ⟨_, hmachine hm hrs, hsame hm⟩⟩, fun t' ht' => ?_⟩
        rw [← hwalk t' ht']
        refine RadixTree.walk_congr (fun t ht => ?_) hr (d := 3) (by simp; omega)
        exact hkeep.ok.entry_outside (h.agree hg hkeep hinv' hq) ht

theorem Sound.createTables (h : Sound G p₀ R s) (hg : Geometry G p₀) (hr : r ∈ R)
    (path : List (Fin 512)) {vaddr : ℕ}
    (hflags : flags < 512) (hodd : flags % 2 = 1) {levels : List ℕ}
    (hlen : path.length + levels.length ≤ 3) (hw : walk s.pmm.mem r path = some t) {o : Option ℕ}
    (hcall : Paging.createTables fuel vaddr flags levels t s.pmm = some (o, q)) :
    ∃ rs, Acts G p₀ R s (Vmm.createTables vaddr flags levels t) o q rs ∧
      ∀ t' ∈ o, walk q.mem r (path ++ levels.map (vAddrIndex vaddr)) = some t' := by
  induction levels generalizing s path t with
  | nil =>
    obtain ⟨rfl, rfl⟩ := Prod.mk.inj (Option.some.inj hcall)
    refine ⟨[], Acts.pure h fun _ _ _ _ => rfl, fun t' ht' => ?_⟩
    rw [← Option.some.inj ht', List.map_nil, List.append_nil, hw]
  | cons l levels ih =>
    rw [List.length_cons] at hlen
    rw [Paging.createTables] at hcall
    cases hget : Paging.getOrCreatePageTable fuel s.pmm t (vAddrIndex vaddr l) flags with
    | none => simp [hget] at hcall
    | some x =>
      obtain ⟨o', q'⟩ := x
      obtain ⟨rs, hacts, hwalk⟩ := h.getOrCreatePageTable hg hr (by omega) hw hflags hodd hget
      rw [hget] at hcall
      cases o' with
      | none =>
        obtain ⟨rfl, rfl⟩ := Prod.mk.inj (Option.some.inj hcall)
        refine ⟨rs, ⟨hacts.sound, fun m frames next hm hrs => ?_⟩, by simp⟩
        obtain ⟨m', hrun, hm'⟩ := hacts.acts m frames next hm hrs
        exact ⟨m', by rw [Vmm.createTables, hrun], hm'⟩
      | some c =>
        obtain ⟨rs', hacts', hwalk'⟩ := ih hacts.sound (path ++ [vAddrIndex vaddr l])
          (by rw [List.length_append, List.length_singleton]; omega) (hwalk c rfl) hcall
        refine ⟨rs ++ rs', ⟨?_, fun m frames next hm hrs => ?_⟩, fun t' ht' => ?_⟩
        · rw [granted_append]
          exact hacts'.sound
        · obtain ⟨hrs, hrs'⟩ := supplies_append.mp hrs
          obtain ⟨m₁, hrun, hm₁⟩ := hacts.acts m frames next hm hrs
          obtain ⟨m₂, hrest, hm₂⟩ := hacts'.acts m₁ frames _ hm₁ hrs'
          refine ⟨m₂, ?_, hm₂⟩
          rw [Vmm.createTables, hrun]
          refine hrest.trans ?_
          rw [List.length_append, Nat.add_assoc]
        · rw [← hwalk' t' ht', List.map_cons, List.append_assoc, List.singleton_append]

/-- `MapPage` acts as it does on a supply of frames. -/
theorem Sound.mapPage_acts (h : Sound G p₀ R s) (hg : Geometry G p₀) (hr : r ∈ R)
    {vaddr paddr : ℕ} (hflags : flags < 512) (hodd : flags % 2 = 1) {b : Bool}
    (hp : paddr < 2 ^ 64)
    (hcall : Paging.mapPage fuel s.pmm r vaddr paddr flags = some (b, q)) :
    ∃ rs, Acts G p₀ R s (fun s => Vmm.mapPage s r vaddr paddr flags) b q rs := by
  rw [Paging.mapPage, Paging.createPage] at hcall
  cases hcreate : Paging.createTables fuel vaddr flags [4, 3, 2] r s.pmm with
  | none => simp [hcreate] at hcall
  | some x =>
    obtain ⟨o, q'⟩ := x
    obtain ⟨rs, hacts, hwalk⟩ :=
      h.createTables hg hr [] hflags hodd (by decide) rfl hcreate
    simp only [hcreate, Option.map_some] at hcall
    cases o with
    | none =>
      obtain ⟨rfl, rfl⟩ := Prod.mk.inj (Option.some.inj hcall)
      refine ⟨rs, hacts.sound, fun m frames next hm hrs => ?_⟩
      obtain ⟨m', hrun, hm'⟩ := hacts.acts m frames next hm hrs
      exact ⟨m', by simp only [Vmm.mapPage, Vmm.createPage, hrun, Option.map_none], hm'⟩
    | some t =>
      obtain ⟨rfl, rfl⟩ := Prod.mk.inj (Option.some.inj hcall)
      have hw : walk q'.mem r (indices vaddr) = some t := hwalk t rfl
      have ht : t ∈ tables R q'.mem := RadixTree.mem_tables hr le_rfl hw
      have hlt : paddr ||| flags < 2 ^ 64 := Nat.or_lt_two_pow hp (by omega)
      have hinv := hacts.sound.inv_storeWord hg ht (vAddrIndex vaddr 1) (paddr ||| flags)
        hacts.sound.alloc
      refine ⟨rs, ?_, fun m frames next hm hrs => ?_⟩
      · obtain ⟨hkeep, -⟩ := (hacts.sound.ok_supply hg [] (by simp)
          hacts.sound.nodup).writeLeaf (i := vAddrIndex vaddr 1) hr (length_indices vaddr) hw hlt
        exact hacts.sound.after hg [] hkeep hinv hacts.sound.nodup (SameOff.refl _ _)
      · obtain ⟨m', hrun, hm'⟩ := hacts.acts m frames next hm hrs
        refine ⟨store m' (slot t (vAddrIndex vaddr 1)) 8 (paddr ||| flags), ?_, hm'.store _ _ _⟩
        simp only [Vmm.mapPage, Vmm.createPage, hrun, Option.map_some]

/-- `UnmapPage` acts as it does on a supply of frames, and takes none. -/
theorem Sound.unmapPage_acts (h : Sound G p₀ R s) (hg : Geometry G p₀) (hr : r ∈ R) (vaddr : ℕ) :
    Acts G p₀ R s (fun s => Vmm.unmapPage s r vaddr) (Paging.unmapPage s.pmm r vaddr).1
      (Paging.unmapPage s.pmm r vaddr).2 [] := by
  have hok := h.ok_supply hg [] (by simp) h.nodup
  have hgetTables (m : Mem) : getPage m r vaddr =
      (walk m r (indices vaddr)).map fun table => slot table (vAddrIndex vaddr 1) := by
    rw [getPage, getTables_eq_walk]
    rfl
  have hwalk {m : Mem} (hm : SameOff p₀ m s.pmm.mem) :
      walk m r (indices vaddr) = walk s.pmm.mem r (indices vaddr) :=
    RadixTree.walk_congr (fun t ht i => h.entry_eq hg ht hm i) hr (d := 3) (by simp)
  cases hw : walk s.pmm.mem r (indices vaddr) with
  | none =>
    have hnone : getPage s.pmm.mem r vaddr = none := by rw [hgetTables, hw, Option.map_none]
    simp only [Paging.unmapPage, hnone]
    refine Acts.pure h fun m frames next hm => ?_
    rw [Vmm.unmapPage, hgetTables, hwalk hm, hw, Option.map_none]
  | some t =>
    have hsome : getPage s.pmm.mem r vaddr = some (slot t (vAddrIndex vaddr 1)) := by
      rw [hgetTables, hw, Option.map_some]
    have ht : t ∈ tables R s.pmm.mem := RadixTree.mem_tables hr le_rfl hw
    have hinv := h.inv_storeWord hg ht (vAddrIndex vaddr 1) 0 h.alloc
    simp only [Paging.unmapPage, hsome]
    refine ⟨?_, fun m frames next hm _ => ?_⟩
    · obtain ⟨hkeep, -⟩ := hok.writeLeaf (i := vAddrIndex vaddr 1) (w := 0) hr
        (length_indices vaddr) hw (by decide)
      exact h.after hg [] hkeep hinv h.nodup (SameOff.refl _ _)
    · refine ⟨store m (slot t (vAddrIndex vaddr 1)) 8 0, ?_, hm.store _ _ _⟩
      rw [Vmm.unmapPage, hgetTables, hwalk hm, hw, Option.map_some]
      rfl

end Calls

/-! ### Effects -/

/-- What a call that acts on the page tables leaves alone: the frames that are held and are no
tables keep their bytes and do not become tables. -/
structure Frame (R : Set ℕ) (s : Pmm.State) (q : Pmm) : Prop where
  bytes : ∀ x, x / frameSize ∈ s.live → x / frameSize * frameSize ∉ tables R s.pmm.mem →
    q.mem x = s.pmm.mem x
  tables : ∀ t ∈ tables R q.mem, t ∈ tables R s.pmm.mem ∨ t / frameSize ∉ s.live

/-- A call that keeps the page tables on a supply of frames, on the allocator. -/
theorem Acts.effect {α : Type*} {a : Machine → α × Machine} {x : α} {rs : List (Option ℕ)}
    (hacts : Acts G p₀ R s a x q rs) (h : Sound G p₀ R s) (hg : Geometry G p₀)
    (hkeep : Keeps R ⟨s.pmm.mem, supply rs, 0⟩ (a ⟨s.pmm.mem, supply rs, 0⟩).2) :
    Frame R s q ∧ ∀ r ∈ R, ∀ p i, p.length ≤ 3 →
      word q.mem r p i = word (a ⟨s.pmm.mem, supply rs, 0⟩).2.mem r p i := by
  obtain ⟨m', hrun, hq⟩ := hacts.run
  rw [hrun] at hkeep ⊢
  have hagree := h.agree hg hkeep hacts.sound.alloc hq
  have hspare {g : ℕ} (hlive : g ∈ s.live) (hnot : g * frameSize ∉ tables R s.pmm.mem) :
      Spare R ⟨s.pmm.mem, supply rs, 0⟩ g := by
    refine ⟨hnot, fun n _ hn => ?_⟩
    obtain ⟨j, -, hj, heq⟩ := exists_of_supply hn
    obtain rfl : g = j := Nat.eq_of_mul_eq_mul_right (by decide) heq
    exact (List.nodup_append.mp hacts.sound.nodup).2.2 g (List.mem_reverse.mpr hj) g hlive rfl
  refine ⟨⟨fun x hlive hnot => ?_, fun t ht => ?_⟩,
    fun r hr p i hp => hkeep.ok.word_outside hagree hr hp i⟩
  · have hoff := hg.layout.off (h.alloc.held _ hlive) rfl
    exact (hq x hoff).symm.trans (hkeep.bytes x (hspare hlive hnot))
  · by_cases hlive : t / frameSize ∈ s.live
    · refine .inl ?_
      by_contra hnot
      rw [hkeep.ok.tables_outside hagree] at ht
      have hframe : t / frameSize * frameSize = t := by
        have hal := (hkeep.ok.table t ht).1
        simp only [frameSize]
        omega
      have hno := (hkeep.spare _ (hspare hlive (hframe.symm ▸ hnot))).1
      exact hno (by rwa [← frameSize, hframe])
    · exact .inr hlive

/-- `MapPage` keeps the invariant, holds more frames, and sets one last-level word at most. -/
theorem Sound.mapPage (h : Sound G p₀ R s) (hg : Geometry G p₀) (hr : r ∈ R) {fuel flags : ℕ}
    {vaddr paddr : ℕ} (hp : paddr < 2 ^ 64) (hflags : flags < 512) (hodd : flags % 2 = 1) {b : Bool}
    (hcall : Paging.mapPage fuel s.pmm r vaddr paddr flags = some (b, q)) :
    ∃ rs, Sound G p₀ R ⟨q, granted rs s.live⟩ ∧ Frame R s q ∧ ∀ r' ∈ R, ∀ v,
      leaf q.mem r' v = if b = true ∧ r' = r ∧ pageNumber v = pageNumber vaddr then paddr ||| flags
        else leaf s.pmm.mem r' v := by
  obtain ⟨rs, hacts⟩ := h.mapPage_acts hg hr hflags hodd hp hcall
  obtain ⟨b', s', hmap, hkeep, -, hleaf, -⟩ :=
    (hacts.ok h hg).mapPage hr vaddr hp hflags hodd
  obtain ⟨m', hrun, -⟩ := hacts.run
  obtain ⟨rfl, rfl⟩ := Prod.mk.inj (hmap.symm.trans hrun)
  obtain ⟨hframe, hwords⟩ := hacts.effect h hg (by rw [hrun]; exact hkeep)
  rw [hrun] at hwords
  refine ⟨rs, hacts.sound, hframe, fun r' hr' v => ?_⟩
  rw [leaf, hwords r' hr' _ _ (length_indices v).le]
  exact hleaf r' hr' v

/-- `UnmapPage` keeps the invariant and clears one last-level word. -/
theorem Sound.unmapPage (h : Sound G p₀ R s) (hg : Geometry G p₀) (hr : r ∈ R) (vaddr : ℕ) :
    Sound G p₀ R ⟨(Paging.unmapPage s.pmm r vaddr).2, s.live⟩ ∧
      Frame R s (Paging.unmapPage s.pmm r vaddr).2 ∧ ∀ r' ∈ R, ∀ v,
        leaf (Paging.unmapPage s.pmm r vaddr).2.mem r' v =
          if r' = r ∧ pageNumber v = pageNumber vaddr then 0 else leaf s.pmm.mem r' v := by
  have hacts := h.unmapPage_acts hg hr vaddr
  obtain ⟨b', s', hunmap, hkeep, -, hleaf, -⟩ := (hacts.ok h hg).unmapPage hr vaddr
  obtain ⟨m', hrun, -⟩ := hacts.run
  obtain ⟨-, rfl⟩ := Prod.mk.inj (hunmap.symm.trans hrun)
  obtain ⟨hframe, hwords⟩ := hacts.effect h hg (by rw [hrun]; exact hkeep)
  rw [hrun] at hwords
  refine ⟨hacts.sound, hframe, fun r' hr' v => ?_⟩
  rw [leaf, hwords r' hr' _ _ (length_indices v).le]
  exact hleaf r' hr' v

end Vardar.Paging
