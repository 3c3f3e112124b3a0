import Mathlib.Data.Set.Card
import Mathlib.Data.Set.Finite.List
import Vardar.Vmm.Boot

/-!
# Page tables and the frames they take

A page needs three tables below the root. `MapPage` takes one frame for each of them that does not
exist, from the top down, and fails when `AllocFirstFrame` does: the last of the three then does
not exist, and no last-level table has been added. Tables are never taken out of the tree, so what
a call can do depends on the tables that exist and on the number of frames that are left.

## Main definitions

* `Vardar.Vmm.known`: the tables that exist, by the paths that lead to them.
* `Vardar.Vmm.tablePaths`: the tables a page needs.
* `Vardar.Vmm.Grows`: a step that adds tables, one frame for each.

## Main results

* `Vardar.Vmm.Ok.mapPage_supply`: `MapPage` adds the tables of the page, or runs out of frames.
* `Vardar.Vmm.Ok.unmapPage_supply`: `UnmapPage` adds no table.
-/

namespace Vardar.Vmm

open ByteMemory Word RadixTree

/-- The tables that exist below a root, by the paths that lead to them. -/
def known (m : Mem) (r : ℕ) : Set (List (Fin 512)) := {p | walk m r p ≠ none}

/-- The tables on the way along `path` below the table at `q`. -/
def between (q path : List (Fin 512)) : Set (List (Fin 512)) := {p | q <+: p ∧ p ≠ q ∧ p <+: path}

/-- The tables a page needs. -/
def tablePaths (vaddr : ℕ) : Set (List (Fin 512)) := between [] (indices vaddr)

/-- The paths of a step's tables are not longer than the tree is deep. -/
def Upper (A : Set (List (Fin 512))) : Prop := ∀ p ∈ A, p.length ≤ 3

variable {R : Set ℕ} {r t flags : ℕ} {s s' s'' : Machine} {q : List (Fin 512)}
  {A B : Set (List (Fin 512))}

theorem Upper.finite (h : Upper A) : A.Finite :=
  (List.finite_length_le (Fin 512) 3).subset h

theorem Upper.union (h : Upper A) (h' : Upper B) : Upper (A ∪ B) := by
  rintro p (hp | hp)
  · exact h p hp
  · exact h' p hp

theorem upper_between {path : List (Fin 512)} (h : path.length ≤ 3) : Upper (between q path) :=
  fun _ hp => hp.2.2.length_le.trans h

theorem upper_tablePaths (vaddr : ℕ) : Upper (tablePaths vaddr) := upper_between le_rfl

theorem indices_mem_tablePaths (vaddr : ℕ) : indices vaddr ∈ tablePaths vaddr :=
  ⟨List.nil_prefix, by simp [indices], List.prefix_rfl⟩

/-- The only last-level table a page needs is its own. -/
theorem eq_indices_of_mem {vaddr : ℕ} {p : List (Fin 512)} (hp : p ∈ tablePaths vaddr)
    (hlen : p.length = 3) : p = indices vaddr :=
  hp.2.2.eq_of_length hlen

theorem between_self (q : List (Fin 512)) : between q q = ∅ := by
  ext p
  simp only [between, Set.mem_ofPred_eq, Set.mem_empty_iff_false, iff_false]
  rintro ⟨hq, hne, hp⟩
  exact hne (hp.eq_of_length_le hq.length_le)

theorem between_cons (q : List (Fin 512)) (i : Fin 512) (rest : List (Fin 512)) :
    between q (q ++ i :: rest) = {q ++ [i]} ∪ between (q ++ [i]) (q ++ i :: rest) := by
  ext p
  simp only [between, Set.mem_ofPred_eq, Set.mem_union, Set.mem_singleton_iff]
  constructor
  · rintro ⟨⟨u, rfl⟩, hne, hp⟩
    rw [List.prefix_append_right_inj] at hp
    cases u with
    | nil => simp at hne
    | cons j u =>
      obtain ⟨rfl, -⟩ := List.cons_prefix_cons.mp hp
      by_cases hu : u = []
      · exact .inl (by rw [hu])
      · refine .inr ⟨⟨u, by simp⟩, by simpa using hu, ?_⟩
        rwa [List.prefix_append_right_inj]
  · rintro (rfl | ⟨hq, -, hp⟩)
    · refine ⟨List.prefix_append _ _, by simp, ?_⟩
      rw [List.prefix_append_right_inj]
      exact ⟨rest, rfl⟩
    · refine ⟨(List.prefix_append _ _).trans hq, ?_, hp⟩
      rintro rfl
      simpa using hq.length_le

/-! ### Walks and words -/

theorem walk_concat (m : Mem) (r : ℕ) (p : List (Fin 512)) (i : Fin 512) :
    walk m r (p ++ [i]) = tableOf (word m r p i) :=
  walk_concat_eq_child tableOf_zero

/-- A walk that ends early does not come to a longer path. -/
theorem walk_append_none {m : Mem} {p : List (Fin 512)} (h : walk m r p = none)
    (u : List (Fin 512)) : walk m r (p ++ u) = none := by
  rw [walk, RadixTree.walk_append]
  exact (congrArg (Option.bind · _) h).trans rfl

/-- Walks read the words above the last level. -/
theorem walk_eq_of_words {m m' : Mem}
    (h : ∀ p i, p.length ≤ 2 → word m' r p i = word m r p i) {p : List (Fin 512)}
    (hp : p.length ≤ 3) : walk m' r p = walk m r p := by
  rcases List.eq_nil_or_concat p with rfl | ⟨p, i, rfl⟩
  · rw [walk, walk, RadixTree.walk, RadixTree.walk]
  · rw [List.concat_eq_append, List.length_append, List.length_singleton] at hp
    rw [List.concat_eq_append, walk_concat, walk_concat, h p i (by omega)]

/-! ### Steps that add tables -/

/-- The step adds the tables `A` below the root `r`, with one frame for each of them that did not
exist, and no allocation fails. -/
structure Grows (R : Set ℕ) (r : ℕ) (s s' : Machine) (A : Set (List (Fin 512))) : Prop where
  keeps : Keeps R s s'
  upper : Upper A
  tables : ∀ r' ∈ R, ∀ p, p.length ≤ 3 → (p ∈ known s'.mem r' ↔ p ∈ known s.mem r' ∨ r' = r ∧ p ∈ A)
  next : s'.next = s.next + (A \ known s.mem r).ncard
  noFail : NoFail s s'

namespace Grows

/-- A step that takes no frame and changes no word above the last level. -/
theorem of_words (h : Keeps R s s') (hnext : s'.next = s.next)
    (hw : ∀ r' ∈ R, ∀ p i, p.length ≤ 2 → word s'.mem r' p i = word s.mem r' p i) :
    Grows R r s s' ∅ := by
  refine ⟨h, by simp [Upper], fun r' hr' p hp => ?_, by simpa using hnext, ?_⟩
  · simp [known, walk_eq_of_words (hw r' hr') hp]
  · intro n hn hn'
    omega

theorem refl (h : Ok R s) : Grows R r s s ∅ := of_words (Keeps.refl h) rfl fun _ _ _ _ _ => rfl

/-- The frames for two sets of tables, the second after the first. -/
theorem ncard_union (hA : Upper A) (hB : Upper B) {K K' : Set (List (Fin 512))}
    (hK : ∀ p, p.length ≤ 3 → (p ∈ K' ↔ p ∈ K ∨ p ∈ A)) :
    ((A ∪ B) \ K).ncard = (A \ K).ncard + (B \ K').ncard := by
  have hset : (A ∪ B) \ K = A \ K ∪ B \ K' := by
    ext p
    simp only [Set.mem_sdiff, Set.mem_union]
    constructor
    · rintro ⟨hp | hp, hno⟩
      · exact .inl ⟨hp, hno⟩
      · by_cases hpA : p ∈ A
        · exact .inl ⟨hpA, hno⟩
        · exact .inr ⟨hp, fun h => ((hK p (hB p hp)).mp h).elim hno hpA⟩
    · rintro (⟨hp, hno⟩ | ⟨hp, hno⟩)
      · exact ⟨.inl hp, hno⟩
      · exact ⟨.inr hp, fun h => hno ((hK p (hB p hp)).mpr (.inl h))⟩
  have hdisj : Disjoint (A \ K) (B \ K') := by
    rw [Set.disjoint_left]
    rintro p ⟨hp, -⟩ ⟨-, hno⟩
    exact hno ((hK p (hA p hp)).mpr (.inr hp))
  rw [hset, Set.ncard_union_eq hdisj hA.finite.sdiff hB.finite.sdiff]

theorem trans (hr : r ∈ R) (h : Grows R r s s' A) (h' : Grows R r s' s'' B) :
    Grows R r s s'' (A ∪ B) := by
  refine ⟨h.keeps.trans h'.keeps, h.upper.union h'.upper, fun r' hr' p hp => ?_, ?_, ?_⟩
  · rw [h'.tables r' hr' p hp, h.tables r' hr' p hp, Set.mem_union]
    tauto
  · have hknown : ∀ p, p.length ≤ 3 → (p ∈ known s'.mem r ↔ p ∈ known s.mem r ∨ p ∈ A) :=
      fun p hp => by simp [h.tables r hr p hp]
    rw [h'.next, h.next, ncard_union h.upper h'.upper hknown]
    omega
  · intro n hn hn'
    by_cases hlt : n < s'.next
    · exact h.noFail n hn hlt
    · rw [← h.keeps.frames]
      exact h'.noFail n (by omega) hn'

/-- The tables of the root itself. -/
theorem known_iff (hr : r ∈ R) (h : Grows R r s s' A) {p : List (Fin 512)} (hp : p.length ≤ 3) :
    p ∈ known s'.mem r ↔ p ∈ known s.mem r ∨ p ∈ A := by
  simp [h.tables r hr p hp]

/-- There were frames for all the tables. -/
theorem enough (h : Grows R r s s' A) : Enough s (A \ known s.mem r).ncard := by
  intro n hn hn'
  exact h.noFail n hn (h.next ▸ hn')

end Grows

namespace Ok

/-- Nothing is done for a table that exists. -/
theorem grows_of_known (h : Ok R s) {path : List (Fin 512)} (hlen : path.length ≤ 3)
    (hknown : path ∈ known s.mem r) : Grows R r s s {path} := by
  refine ⟨Keeps.refl h, ?_, fun r' _ p _ => ?_, ?_, ?_⟩
  · rintro p rfl
    exact hlen
  · refine (or_iff_left_of_imp ?_).symm
    rintro ⟨rfl, rfl⟩
    exact hknown
  · rw [Set.sdiff_eq_empty.mpr (Set.singleton_subset_iff.mpr hknown), Set.ncard_empty]
    rfl
  · intro n hn hn'
    omega

/-- A table that did not exist takes one frame. -/
theorem grows_graft (h : Ok R s) (hr : r ∈ R) (hq : q.length < 3) (hw : walk s.mem r q = some t)
    {i : Fin 512} (heven : word s.mem r q i % 2 = 0) {f : ℕ} (hf : s.frames s.next = some f)
    (hflags : flags < 512) (hodd : flags % 2 = 1) (hunknown : q ++ [i] ∉ known s.mem r) :
    Grows R r s { s.take (some f) with
      mem := store (s.take (some f)).mem (slot t i) 8 (f ||| flags) } {q ++ [i]} := by
  obtain ⟨hkeep, -, hwords⟩ := h.graft (i := i) hr hq hw heven hf hflags hodd
  refine ⟨hkeep, ?_, fun r' hr' p hp => ?_, ?_, ?_⟩
  · rintro p rfl
    rw [List.length_append, List.length_singleton]
    omega
  · rcases List.eq_nil_or_concat p with rfl | ⟨p, j, rfl⟩
    · simp [known, walk, RadixTree.walk]
    · rw [List.concat_eq_append, List.length_append, List.length_singleton] at hp
      simp only [List.concat_eq_append, known, Set.mem_ofPred_eq, walk_concat,
        hwords r' hr' p j (by omega), Set.mem_singleton_iff, List.append_singleton_inj]
      split_ifs with heq
      · obtain ⟨hfal, hf0, hf64, -⟩ := h.frame s.next f le_rfl hf
        exact iff_of_true (by simp [tableOf_lor hfal hf0 hf64 hflags hodd]) (.inr heq)
      · exact (or_iff_left heq).symm
  · rw [sdiff_eq_left.mpr (Set.disjoint_singleton_left.mpr hunknown), Set.ncard_singleton]
    rfl
  · intro n hn hn'
    obtain rfl : n = s.next := Nat.le_antisymm (Nat.lt_succ_iff.mp hn') hn
    simp [hf]

/-- `GetOrCreatePageTable` adds the table, or there is no frame for it. -/
theorem getOrCreatePageTable_supply (h : Ok R s) (hr : r ∈ R) (hq : q.length < 3)
    (hw : walk s.mem r q = some t) (i : Fin 512) (hflags : flags < 512) (hodd : flags % 2 = 1) :
    (∃ c s', Vmm.getOrCreatePageTable s t i flags = (some c, s') ∧
      walk s'.mem r (q ++ [i]) = some c ∧ Grows R r s s' {q ++ [i]}) ∨
    (Vmm.getOrCreatePageTable s t i flags = (none, s.take none) ∧ s.frames s.next = none ∧
      q ++ [i] ∉ known s.mem r) := by
  have hentry : entry s.mem t i = word s.mem r q i := (word_of_walk hw).symm
  have hwalk := walk_concat s.mem r q i
  by_cases hpres : word s.mem r q i % 2 = 1
  · obtain ⟨c, hc⟩ := Option.ne_none_iff_exists'.mp (h.linked r hr q i (by omega) hpres)
    have hlen : (q ++ [i]).length ≤ 3 := by
      rw [List.length_append, List.length_singleton]
      omega
    refine .inl ⟨c, s, ?_, hwalk.trans hc, h.grows_of_known hlen (by simp [known, hwalk, hc])⟩
    have hflag := (getPageFlag_present _).mpr hpres
    rw [tableOf, if_pos hflag] at hc
    rw [Vmm.getOrCreatePageTable, hentry, if_pos hflag, hc]
  · have hflag : ¬ getPageFlag (word s.mem r q i) present = true := by
      rw [getPageFlag_present]
      exact hpres
    have hunknown : q ++ [i] ∉ known s.mem r := by
      simp [known, hwalk, tableOf_of_even (w := word s.mem r q i) (by omega)]
    rw [Vmm.getOrCreatePageTable, hentry, if_neg hflag, Machine.allocFirstFrame]
    cases hf : s.frames s.next with
    | none => exact .inr ⟨rfl, rfl, hunknown⟩
    | some f =>
      have heven : word s.mem r q i % 2 = 0 := by omega
      obtain ⟨-, hgraft, -⟩ := h.graft (i := i) hr hq hw heven hf hflags hodd
      exact .inl ⟨f, _, rfl, hgraft, h.grows_graft hr hq hw heven hf hflags hodd hunknown⟩

/-- `CreatePage` along the levels that are left adds the tables on the way, or adds some of them
and finds no frame for the next one. -/
theorem createTables_supply (h : Ok R s) (hr : r ∈ R) (vaddr : ℕ) (hflags : flags < 512)
    (hodd : flags % 2 = 1) {levels : List ℕ} (hq : q.length + levels.length ≤ 3)
    (hw : walk s.mem r q = some t) :
    let path := q ++ levels.map (vAddrIndex vaddr)
    (∃ c s', Vmm.createTables vaddr flags levels t s = (some c, s') ∧
      walk s'.mem r path = some c ∧ Grows R r s s' (between q path)) ∨
    ∃ s₁ A, Grows R r s s₁ A ∧ A ⊆ between q path ∧ s₁.frames s₁.next = none ∧
      (∃ p ∈ between q path, p ∉ known s₁.mem r) ∧
      Vmm.createTables vaddr flags levels t s = (none, s₁.take none) := by
  induction levels generalizing s q t with
  | nil =>
    simp only [List.map_nil, List.append_nil, between_self]
    exact .inl ⟨t, s, rfl, hw, Grows.refl h⟩
  | cons l levels ih =>
    intro path
    have hpath : path = (q ++ [vAddrIndex vaddr l]) ++ levels.map (vAddrIndex vaddr) := by
      simp [path]
    have hbetween : between q path =
        {q ++ [vAddrIndex vaddr l]} ∪ between (q ++ [vAddrIndex vaddr l]) path :=
      between_cons q (vAddrIndex vaddr l) _
    rw [List.length_cons] at hq
    rw [hbetween]
    rcases h.getOrCreatePageTable_supply hr (by omega) hw (vAddrIndex vaddr l) hflags hodd with
      ⟨c, s₁, hget, hwalk, hgrow⟩ | ⟨hget, hnone, hmissing⟩
    · rcases ih hgrow.keeps.ok (q := q ++ [vAddrIndex vaddr l]) (by simp; omega) hwalk with
        ⟨c', s₂, hrest, hwalk', hgrow'⟩ | ⟨s₂, A, hgrow', hA, hnone, ⟨p, hp, hmissing⟩, hrest⟩
      · rw [← hpath] at hwalk' hgrow'
        exact .inl ⟨c', s₂, by simp only [Vmm.createTables, hget, hrest], hwalk',
          hgrow.trans hr hgrow'⟩
      · rw [← hpath] at hA hp
        exact .inr ⟨s₂, _, hgrow.trans hr hgrow', Set.union_subset_union_right _ hA, hnone,
          ⟨p, .inr hp, hmissing⟩, by simp only [Vmm.createTables, hget, hrest]⟩
    · exact .inr ⟨s, ∅, Grows.refl h, Set.empty_subset _, hnone, ⟨_, .inl rfl, hmissing⟩,
        by simp only [Vmm.createTables, hget]⟩

end Ok

/-- The step runs out of frames on the way to the tables `A`, before the last-level table at
`path`; it adds no last-level table. -/
structure RunsOut (R : Set ℕ) (r : ℕ) (s s' : Machine) (A : Set (List (Fin 512)))
    (path : List (Fin 512)) : Prop where
  keeps : Keeps R s s'
  tables : ∀ r' ∈ R, ∀ p, p.length = 3 → (p ∈ known s'.mem r' ↔ p ∈ known s.mem r')
  missing : path ∉ known s'.mem r
  short : ¬ Enough s (A \ known s.mem r).ncard
  fails : ∃ n, s.next ≤ n ∧ n < s'.next ∧ s.frames n = none

/-- No frame for the next of the tables. -/
theorem Grows.runsOut {s₁ : Machine} {path : List (Fin 512)} (hr : r ∈ R)
    (h : Grows R r s s₁ A) (hA : A ⊆ between [] path) (hlen : path.length = 3)
    (hnone : s₁.frames s₁.next = none) {p : List (Fin 512)} (hp : p ∈ between [] path)
    (hmissing : p ∉ known s₁.mem r) : RunsOut R r s (s₁.take none) (between [] path) path := by
  have hupper : Upper (between [] path) := upper_between hlen.le
  have hpath : path ∉ known s₁.mem r := by
    obtain ⟨u, rfl⟩ := hp.2.2
    simp only [known, Set.mem_ofPred_eq, not_not] at hmissing ⊢
    exact walk_append_none hmissing u
  have hp' : p ∉ known s.mem r ∧ p ∉ A := by
    rwa [h.known_iff hr (hupper p hp), not_or] at hmissing
  refine ⟨h.keeps.trans h.keeps.ok.take_none, fun r' hr' x hx => ?_, hpath, fun henough => ?_, ?_⟩
  · refine (h.tables r' hr' x hx.le).trans (or_iff_left ?_)
    rintro ⟨rfl, hxA⟩
    obtain rfl : x = path := (hA hxA).2.2.eq_of_length (hx.trans hlen.symm)
    exact hpath ((h.known_iff hr hx.le).mpr (.inr hxA))
  · have hlt : (A \ known s.mem r).ncard < (between [] path \ known s.mem r).ncard := by
      refine Set.ncard_lt_ncard ⟨fun x hx => ⟨hA hx.1, hx.2⟩, fun hsub => ?_⟩ hupper.finite.sdiff
      exact hp'.2 (hsub ⟨hp, hp'.1⟩).1
    have hnext := h.next
    rw [h.keeps.frames] at hnone
    exact henough s₁.next (by omega) (by omega) hnone
  · rw [h.keeps.frames] at hnone
    exact ⟨s₁.next, h.keeps.next, Nat.lt_succ_self _, hnone⟩

namespace Ok

/-- `MapPage` adds the tables of the page, or runs out of frames. -/
theorem mapPage_supply (h : Ok R s) (hr : r ∈ R) (vaddr : ℕ) {paddr : ℕ} (hp : paddr < 2 ^ 64)
    (hflags : flags < 512) (hodd : flags % 2 = 1) :
    (∃ s', Vmm.mapPage s r vaddr paddr flags = (true, s') ∧ Grows R r s s' (tablePaths vaddr)) ∨
    ∃ s', Vmm.mapPage s r vaddr paddr flags = (false, s') ∧
      RunsOut R r s s' (tablePaths vaddr) (indices vaddr) := by
  rcases h.createTables_supply hr vaddr hflags hodd
      (show ([] : List (Fin 512)).length + [4, 3, 2].length ≤ 3 from le_rfl)
      (show walk s.mem r [] = some r from rfl) with
    ⟨c, s₁, hcreate, hwalk, hgrow⟩ | ⟨s₁, A, hgrow, hA, hnone, ⟨p, hp, hmissing⟩, hcreate⟩
  · have hlt : paddr ||| flags < 2 ^ 64 := Nat.or_lt_two_pow hp (by omega)
    obtain ⟨hkeep, hwords⟩ :=
      hgrow.keeps.ok.writeLeaf (i := vAddrIndex vaddr 1) hr (length_indices vaddr) hwalk hlt
    have hwrite : Grows R r s₁
        { s₁ with mem := store s₁.mem (slot c (vAddrIndex vaddr 1)) 8 (paddr ||| flags) } ∅ := by
      refine Grows.of_words hkeep rfl fun r' hr' p j hp => ?_
      rw [hwords r' hr' p j (by omega), if_neg]
      rintro ⟨-, rfl, -⟩
      simp at hp
    have hboth := hgrow.trans hr hwrite
    rw [Set.union_empty] at hboth
    exact .inl ⟨_, by simp only [Vmm.mapPage, createPage, hcreate, Option.map_some], hboth⟩
  · exact .inr ⟨_, by simp only [Vmm.mapPage, createPage, hcreate, Option.map_none],
      hgrow.runsOut hr hA (length_indices vaddr) hnone hp hmissing⟩

/-- `UnmapPage` returns true if and only if the last-level table of the page exists, and adds no
table. -/
theorem unmapPage_supply (h : Ok R s) (hr : r ∈ R) (vaddr : ℕ) :
    ((Vmm.unmapPage s r vaddr).1 = true ↔ indices vaddr ∈ known s.mem r) ∧
      Grows R r s (Vmm.unmapPage s r vaddr).2 ∅ := by
  have hget := getTables_eq_walk s.mem vaddr [4, 3, 2] r
  cases hw : walk s.mem r (indices vaddr) with
  | none =>
    have hnone : getPage s.mem r vaddr = none := by
      rw [getPage, hget.trans hw]
      rfl
    simp only [Vmm.unmapPage, hnone]
    exact ⟨iff_of_false (by simp) (by simp [known, hw]), Grows.refl h⟩
  | some c =>
    have hsome : getPage s.mem r vaddr = some (slot c (vAddrIndex vaddr 1)) := by
      rw [getPage, hget.trans hw]
      rfl
    obtain ⟨hkeep, hwords⟩ :=
      h.writeLeaf (i := vAddrIndex vaddr 1) (w := 0) hr (length_indices vaddr) hw (by decide)
    simp only [Vmm.unmapPage, hsome]
    refine ⟨iff_of_true trivial (by simp [known, hw]),
      Grows.of_words hkeep rfl fun r' hr' p j hp => ?_⟩
    rw [hwords r' hr' p j (by omega), if_neg]
    rintro ⟨-, rfl, -⟩
    simp at hp

end Ok

end Vardar.Vmm
