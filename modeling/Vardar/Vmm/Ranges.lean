import Vardar.Lib.LastWrite
import Vardar.Vmm.Refinement

/-!
# Mapping ranges of addresses

`MapMultiple` walks a physical range in steps of a frame, with addresses modulo `2 ^ 64`, and maps
each address it visits. A sequence of such calls leaves in each last-level word the value of the
last write to it. Calls whose result is ignored may stop early; what they have written by then is
still part of the sequence.

## Main definitions

* `Vardar.Vmm.Range`: the arguments of a `MapMultiple`, and what it writes.
* `Vardar.Vmm.Serves`: a step that tries some ranges and completes some of them.

## Main results

* `Vardar.Vmm.Ok.mapMultiple`, `Vardar.Vmm.mapMultiple_total`.
* `Vardar.Vmm.Serves.leaf_eq`, `Vardar.Vmm.Serves.leaf_unchanged`: the words after such a step.
-/

namespace Vardar.Vmm

open ByteMemory Word LastWrite

/-! ### Ranges -/

/-- The arguments of a `MapMultiple`. -/
structure Range where
  base : ℕ
  bound : ℕ
  offset : ℕ
  flags : ℕ

namespace Range

/-- The address in round `k`. -/
@[irreducible] def addr (q : Range) (k : ℕ) : ℕ := (q.base + frameSize * k) % 2 ^ 64

/-- The loop gets to round `k`. -/
def Visits (q : Range) (k : ℕ) : Prop := ∀ j ≤ k, q.addr j < q.bound

/-- The loop ends after `n` rounds. -/
def Rounds (q : Range) (n : ℕ) : Prop := (∀ k < n, q.addr k < q.bound) ∧ q.bound ≤ q.addr n

/-- The page and the word that round `k` writes. -/
def write (q : Range) (k : ℕ) : ℕ × ℕ :=
  (pageNumber (add64 (q.addr k) q.offset), q.addr k ||| q.flags)

/-- The range from the next address on. -/
def next (q : Range) : Range := { q with base := add64 q.base frameSize }

theorem addr_zero {q : Range} (h : q.base < 2 ^ 64) : q.addr 0 = q.base := by
  simp only [addr, frameSize]
  omega

theorem next_addr (q : Range) (k : ℕ) : q.next.addr k = q.addr (k + 1) := by
  simp only [addr, next, add64, frameSize]
  omega

theorem next_write (q : Range) (k : ℕ) : q.next.write k = q.write (k + 1) := by
  rw [write, next_addr]
  rfl

theorem next_visits {q : Range} (hlt : q.addr 0 < q.bound) (k : ℕ) :
    q.next.Visits k ↔ q.Visits (k + 1) := by
  constructor
  · intro h j hj
    cases j with
    | zero => exact hlt
    | succ j =>
      rw [← next_addr]
      exact h j (by omega)
  · intro h j hj
    rw [next_addr]
    exact h (j + 1) (by omega)

/-- Rounds of a range that does not wrap. -/
theorem addr_of_lt {q : Range} {k : ℕ} (h : q.base + frameSize * k < 2 ^ 64) :
    q.addr k = q.base + frameSize * k := by
  rw [addr, Nat.mod_eq_of_lt h]

theorem visits_of_lt {q : Range} {k : ℕ} (hb : q.bound < 2 ^ 64)
    (h : q.base + frameSize * k < q.bound) : q.Visits k := by
  intro j hj
  have hle : frameSize * j ≤ frameSize * k := Nat.mul_le_mul_left _ hj
  rw [addr_of_lt (by omega)]
  omega

/-- A range with room for one more frame below `2 ^ 64` does not wrap. -/
theorem lt_of_visits {q : Range} {k : ℕ} (h0 : q.base < 2 ^ 64)
    (hb : q.bound + frameSize ≤ 2 ^ 64) (h : q.Visits k) : q.base + frameSize * k < q.bound := by
  induction k with
  | zero =>
    have hk := h 0 le_rfl
    rw [addr_zero h0] at hk
    simpa using hk
  | succ k ih =>
    have hprev := ih fun j hj => h j (by omega)
    have hk := h (k + 1) le_rfl
    have hsucc : frameSize * (k + 1) = frameSize * k + frameSize := Nat.mul_succ _ _
    rw [addr_of_lt (by omega)] at hk
    exact hk

end Range

/-! ### Sequences of writes to one root -/

/-- The step writes the last-level words `ws` of the root `r`, in this order, and no others. -/
structure Maps (R : Set ℕ) (r : ℕ) (s s' : Machine) (ws : List (ℕ × ℕ)) : Prop where
  keeps : Keeps R s s'
  leaf_eq : ∀ r' ∈ R, ∀ v, leaf s'.mem r' v =
    if r' = r then last ws (pageNumber v) (leaf s.mem r' v) else leaf s.mem r' v

/-- No `AllocFirstFrame` between the two states has failed. -/
def NoFail (s s' : Machine) : Prop := ∀ n, s.next ≤ n → n < s'.next → s.frames n ≠ none

/-- The step tries the ranges in `tried`, and completes those in `full`. -/
def Serves (R : Set ℕ) (r : ℕ) (s s' : Machine) (tried full : Set Range) : Prop :=
  ∃ ws, Maps R r s s' ws ∧ (∀ w ∈ ws, ∃ q ∈ tried, ∃ k, q.Visits k ∧ w = q.write k) ∧
    ∀ q ∈ full, (∃ n, q.bound ≤ q.addr n) ∧ ∀ k, q.Visits k → q.write k ∈ ws

variable {R : Set ℕ} {r : ℕ} {s s' s'' : Machine}

theorem NoFail.left (h : NoFail s s'') (h' : s'.next ≤ s''.next) : NoFail s s' :=
  fun n hn hn' => h n hn (by omega)

theorem NoFail.right (h : NoFail s s'') (hf : s'.frames = s.frames) (hle : s.next ≤ s'.next) :
    NoFail s' s'' := fun n hn hn' => hf ▸ h n (by omega) hn'

theorem Maps.refl (h : Ok R s) : Maps R r s s [] :=
  ⟨Keeps.refl h, fun r' _ v => by split_ifs <;> rfl⟩

theorem Maps.trans {ws ws' : List (ℕ × ℕ)} (h : Maps R r s s' ws) (h' : Maps R r s' s'' ws') :
    Maps R r s s'' (ws ++ ws') := by
  refine ⟨h.keeps.trans h'.keeps, fun r' hr' v => ?_⟩
  rw [h'.leaf_eq r' hr' v, h.leaf_eq r' hr' v]
  split_ifs
  · rw [last_append]
  · rfl

/-- A call of `MapPage` writes one last-level word, or none if it fails. -/
theorem Maps.of_leaf {b : Bool} {vaddr w : ℕ} (hkeep : Keeps R s s')
    (hleaf : ∀ r' ∈ R, ∀ v, leaf s'.mem r' v =
      if b = true ∧ r' = r ∧ pageNumber v = pageNumber vaddr then w else leaf s.mem r' v) :
    Maps R r s s' (if b then [(pageNumber vaddr, w)] else []) := by
  refine ⟨hkeep, fun r' hr' v => ?_⟩
  rw [hleaf r' hr' v]
  cases b with
  | false => simp
  | true =>
    simp only [if_true, true_and, last_cons, last_nil, eq_comm (a := pageNumber v)]
    by_cases hr1 : r' = r
    · simp [hr1]
    · simp [hr1]

namespace Serves

variable {tried tried' full full' : Set Range}

theorem refl (h : Ok R s) : Serves R r s s ∅ ∅ :=
  ⟨[], Maps.refl h, by simp, by simp⟩

theorem keeps (h : Serves R r s s' tried full) : Keeps R s s' := by
  obtain ⟨ws, hm, -⟩ := h
  exact hm.keeps

theorem trans (h : Serves R r s s' tried full) (h' : Serves R r s' s'' tried' full') :
    Serves R r s s'' (tried ∪ tried') (full ∪ full') := by
  obtain ⟨ws, hm, hsound, hfull⟩ := h
  obtain ⟨ws', hm', hsound', hfull'⟩ := h'
  refine ⟨ws ++ ws', hm.trans hm', fun w hw => ?_, ?_⟩
  · rcases List.mem_append.mp hw with hw | hw
    · obtain ⟨q, hq, hrest⟩ := hsound w hw
      exact ⟨q, .inl hq, hrest⟩
    · obtain ⟨q, hq, hrest⟩ := hsound' w hw
      exact ⟨q, .inr hq, hrest⟩
  · rintro q (hq | hq)
    · exact ⟨(hfull q hq).1, fun k hk => List.mem_append_left _ ((hfull q hq).2 k hk)⟩
    · exact ⟨(hfull' q hq).1, fun k hk => List.mem_append_right _ ((hfull' q hq).2 k hk)⟩

/-- If no allocation fails and both parts then complete what they try, so does the whole. -/
theorem union_subset_of_noFail (h : Serves R r s s' tried full)
    (hsub : NoFail s s' → tried ⊆ full) (h' : Serves R r s' s'' tried' full')
    (hsub' : NoFail s' s'' → tried' ⊆ full') (hnf : NoFail s s'') :
    tried ∪ tried' ⊆ full ∪ full' :=
  Set.union_subset_union (hsub (hnf.left h'.keeps.next))
    (hsub' (hnf.right h.keeps.frames h.keeps.next))

theorem mono (h : Serves R r s s' tried full) (ht : tried ⊆ tried') (hf : full' ⊆ full) :
    Serves R r s s' tried' full' := by
  obtain ⟨ws, hm, hsound, hfull⟩ := h
  refine ⟨ws, hm, fun w hw => ?_, fun q hq => hfull q (hf hq)⟩
  obtain ⟨q, hq, hrest⟩ := hsound w hw
  exact ⟨q, ht hq, hrest⟩

/-- Completed ranges come to an end. -/
theorem ends (h : Serves R r s s' tried full) {q : Range} (hq : q ∈ full) :
    ∃ n, q.bound ≤ q.addr n := by
  obtain ⟨ws, -, -, hfull⟩ := h
  exact (hfull q hq).1

theorem other (h : Serves R r s s' tried full) {r' : ℕ} (hr' : r' ∈ R) (hne : r' ≠ r) (v : ℕ) :
    leaf s'.mem r' v = leaf s.mem r' v := by
  obtain ⟨ws, hm, -⟩ := h
  rw [hm.leaf_eq r' hr' v, if_neg hne]

/-- A word is as it was, or as some range that was tried writes it. -/
theorem leaf_cases (h : Serves R r s s' tried full) (hr : r ∈ R) (v : ℕ) :
    leaf s'.mem r v = leaf s.mem r v ∨ ∃ q ∈ tried, ∃ k, q.Visits k ∧
      (q.write k).1 = pageNumber v ∧ leaf s'.mem r v = (q.write k).2 := by
  obtain ⟨ws, hm, hsound, -⟩ := h
  rw [hm.leaf_eq r hr v, if_pos rfl]
  rcases last_cases ws (pageNumber v) (leaf s.mem r v) with heq | ⟨w, hw, hk, heq⟩
  · exact .inl heq
  · obtain ⟨q, hq, k, hv, rfl⟩ := hsound w hw
    exact .inr ⟨q, hq, k, hv, hk, heq⟩

theorem leaf_unchanged (h : Serves R r s s' tried full) (hr : r ∈ R) {v : ℕ}
    (hno : ∀ q ∈ tried, ∀ k, q.Visits k → (q.write k).1 ≠ pageNumber v) :
    leaf s'.mem r v = leaf s.mem r v := by
  rcases h.leaf_cases hr v with heq | ⟨q, hq, k, hv, hk, -⟩
  · exact heq
  · exact absurd hk (hno q hq k hv)

/-- A word that a completed range writes, when all ranges tried agree about it. -/
theorem leaf_eq (h : Serves R r s s' tried full) (hr : r ∈ R) {v w : ℕ} {q : Range} (hq : q ∈ full)
    {k : ℕ} (hk : q.Visits k) (hkey : (q.write k).1 = pageNumber v)
    (hval : ∀ q ∈ tried, ∀ k, q.Visits k → (q.write k).1 = pageNumber v → (q.write k).2 = w) :
    leaf s'.mem r v = w := by
  obtain ⟨ws, hm, hsound, hfull⟩ := h
  rw [hm.leaf_eq r hr v, if_pos rfl]
  refine last_eq_of_forall (fun w' hw' hkey' => ?_) ⟨_, (hfull q hq).2 k hk, hkey⟩
  obtain ⟨q', hq', k', hk', rfl⟩ := hsound w' hw'
  exact hval q' hq' k' hk' hkey'

end Serves

/-! ### `MapMultiple` -/

/-- `MapMultiple` on a range. -/
def Range.call (q : Range) (root fuel : ℕ) (s : Machine) : Option (Bool × Machine) :=
  Vmm.mapMultiple root q.bound q.offset q.flags fuel q.base s

theorem Range.call_succ (q : Range) (root fuel : ℕ) (s : Machine) :
    q.call root (fuel + 1) s = if q.base < q.bound then
      match Vmm.mapPage s root (add64 q.base q.offset) q.base q.flags with
      | (false, s) => some (false, s)
      | (true, s) => q.next.call root fuel s
    else some (true, s) := rfl

/-- A range is served by the write of its first frame and then by what serves the rest of it. -/
theorem Serves.of_next {q : Range} {b : Bool} (hlt : q.addr 0 < q.bound)
    (hfirst : Maps R r s s' [q.write 0])
    (hnext : Serves R r s' s'' {q.next} {q' | q' = q.next ∧ b = true}) :
    Serves R r s s'' {q} {q' | q' = q ∧ b = true} := by
  obtain ⟨ws, hm, hsound, hfull⟩ := hnext
  refine ⟨_, hfirst.trans hm, fun w hw => ⟨q, rfl, ?_⟩, ?_⟩
  · rcases List.mem_cons.mp hw with rfl | hw
    · exact ⟨0, fun j hj => by rwa [Nat.le_zero.mp hj], rfl⟩
    · obtain ⟨q', rfl, k, hv, rfl⟩ := hsound w hw
      exact ⟨k + 1, (Range.next_visits hlt k).mp hv, Range.next_write q k⟩
  · rintro q' ⟨rfl, rfl⟩
    obtain ⟨⟨n, hn⟩, hall⟩ := hfull q'.next ⟨rfl, rfl⟩
    refine ⟨⟨n + 1, Range.next_addr q' n ▸ hn⟩, fun k hk => ?_⟩
    cases k with
    | zero => exact List.mem_cons_self
    | succ k =>
      rw [← Range.next_write]
      exact List.mem_cons_of_mem _ (hall k ((Range.next_visits hlt k).mpr hk))

/-- `MapMultiple` writes what it visits; it fails only if an allocation fails. -/
theorem Ok.mapMultiple (h : Ok R s) (hr : r ∈ R) {q : Range} (h64 : q.base < 2 ^ 64)
    (hflags : q.flags < 512) (hodd : q.flags % 2 = 1) {fuel : ℕ} {b : Bool}
    (hcall : q.call r fuel s = some (b, s')) :
    Serves R r s s' {q} {q' | q' = q ∧ b = true} ∧ (NoFail s s' → b = true) := by
  induction fuel generalizing s q with
  | zero => simp [Range.call, Vmm.mapMultiple] at hcall
  | succ fuel ih =>
    rw [Range.call_succ] at hcall
    have haddr := Range.addr_zero h64
    by_cases hlt : q.base < q.bound
    · rw [if_pos hlt] at hcall
      obtain ⟨b₁, s₁, hmap, hkeep, -, hleaf, -, -, hfail⟩ :=
        h.mapPage hr (add64 q.base q.offset) h64 hflags hodd
      have hmaps := Maps.of_leaf hkeep hleaf
      rw [hmap] at hcall
      cases b₁ with
      | false =>
        obtain ⟨rfl, rfl⟩ := Prod.mk.inj (Option.some.inj hcall)
        refine ⟨⟨[], hmaps, by simp, by simp⟩, fun hno => ?_⟩
        obtain ⟨n, hn, hn', hnone⟩ := hfail rfl
        exact absurd hnone (hno n hn hn')
      | true =>
        obtain ⟨hnext, hno⟩ := ih hkeep.ok (q := q.next) (add64_lt _ _) hflags hodd hcall
        have hfirst : Maps R r s s₁ [q.write 0] := by
          rw [Range.write, haddr]
          exact hmaps
        exact ⟨Serves.of_next (haddr ▸ hlt) hfirst hnext,
          fun hnf => hno (hnf.right hkeep.frames hkeep.next)⟩
    · rw [if_neg hlt] at hcall
      obtain ⟨rfl, rfl⟩ := Prod.mk.inj (Option.some.inj hcall)
      refine ⟨⟨[], Maps.refl h, by simp, ?_⟩, fun _ => rfl⟩
      rintro q' ⟨rfl, -⟩
      refine ⟨⟨0, by omega⟩, fun k hk => ?_⟩
      have h0 := hk 0 (Nat.zero_le k)
      omega

/-- `MapMultiple` returns true on a range of `n` frames with three frames to allocate for each. -/
theorem mapMultiple_total (h : Ok R s) (hr : r ∈ R) {q : Range} (h64 : q.base < 2 ^ 64)
    (hflags : q.flags < 512) (hodd : q.flags % 2 = 1) {n fuel : ℕ}
    (hn : q.Rounds n) (hfuel : n < fuel)
    (hframes : ∀ k, s.next ≤ k → k < s.next + 3 * n → s.frames k ≠ none) :
    ∃ s', q.call r fuel s = some (true, s') ∧ s'.next ≤ s.next + 3 * n := by
  have haddr := Range.addr_zero h64
  obtain ⟨hvisit, hend⟩ := hn
  induction n generalizing s q fuel with
  | zero =>
    cases fuel with
    | zero => omega
    | succ fuel =>
      rw [Range.call_succ, if_neg (by omega)]
      exact ⟨s, rfl, by omega⟩
  | succ n ih =>
    cases fuel with
    | zero => omega
    | succ fuel =>
      have hlt := hvisit 0 (by omega)
      rw [Range.call_succ, if_pos (by omega)]
      obtain ⟨b, s₁, hmap, hkeep, hnext, -, -, -, hfail⟩ :=
        h.mapPage hr (add64 q.base q.offset) h64 hflags hodd
      have hb : b = true := by
        by_contra hb
        obtain ⟨k, hk, hk', hnone⟩ := hfail (by simpa using hb)
        exact hframes k hk (by omega) hnone
      obtain ⟨s', hcall, hle⟩ := ih hkeep.ok (q := q.next) (add64_lt _ _) hflags hodd
        (show n < fuel by omega)
        (fun k hk hk' => hkeep.frames ▸ hframes k (hkeep.next.trans hk) (by omega))
        (Range.addr_zero (add64_lt _ _))
        (fun k hk => Range.next_addr q k ▸ hvisit (k + 1) (by omega))
        (Range.next_addr q n ▸ hend)
      rw [hmap, hb]
      exact ⟨s', hcall, by omega⟩

end Vardar.Vmm
