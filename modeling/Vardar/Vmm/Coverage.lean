import Vardar.Vmm.Ranges
import Vardar.Vmm.Translation

/-!
# The pages of a range

`MapMultiple` is documented to map the physical addresses in `[base, bound)`. It starts at `base`,
strides by a frame and stores the address it has reached together with the flags. If `base` is not
aligned, its low bits are stored with the flags, and a last page that begins after the last stride
is not visited.

## Main definitions

* `Vardar.Vmm.Range.Covered`: every page of the range is mapped, and no other page has changed.
* `Vardar.Vmm.Range.Aligns`: the condition on the range and on its last page.

## Main results

* `Vardar.Vmm.mapMultiple_covered_iff`: when `MapMultiple` maps the whole range.
-/

namespace Vardar.Vmm

open ByteMemory Word

namespace Range

variable {R : Set ℕ} {r : ℕ} {s s' : Machine} {q : Range}

/-- The page of every address in `[base, bound)`, moved by the offset, is mapped to the frame of the
address, and the words of all other pages are as before. -/
def Covered (R : Set ℕ) (s s' : Machine) (r : ℕ) (q : Range) : Prop :=
  (∀ a, q.base ≤ a → a < q.bound →
    leaf s'.mem r (add64 a q.offset) = a / frameSize * frameSize ||| q.flags) ∧
  ∀ r' ∈ R, ∀ v,
    (r' = r → ∀ a, q.base ≤ a → a < q.bound → pageNumber v ≠ pageNumber (add64 a q.offset)) →
    leaf s'.mem r' v = leaf s.mem r' v

/-- The range is empty; or its low bits are within the flags, and the stride from `base` gets to
the page of the last address or finds it mapped already. -/
def Aligns (s : Machine) (r : ℕ) (q : Range) : Prop :=
  q.base = q.bound ∨ (q.base % frameSize ≤ q.flags ∧
    (q.base % frameSize ≤ (q.bound - 1) % frameSize ∨
      leaf s.mem r (add64 (q.bound - 1) q.offset) =
        (q.bound - 1) / frameSize * frameSize ||| q.flags))

/-- A range below `2 ^ 47`, moved by whole pages, with the flags of a kernel or user page. -/
structure Low (q : Range) : Prop where
  le : q.base ≤ q.bound
  bound_lt : q.bound < 2 ^ 47
  offset : q.offset % frameSize = 0
  flags : q.flags = kernelPage ∨ q.flags = userPage

theorem pageNumber_add64 {a offset : ℕ} (ho : offset % frameSize = 0) :
    pageNumber (add64 a offset) = (a / frameSize + offset / frameSize) % 2 ^ 36 := by
  simp only [pageNumber, add64, frameSize] at *
  omega

/-- Addresses below `2 ^ 47` are moved to one page only if they are on one page. -/
theorem pageNumber_add64_eq_iff {a b offset : ℕ} (ha : a < 2 ^ 47) (hb : b < 2 ^ 47)
    (ho : offset % frameSize = 0) :
    pageNumber (add64 a offset) = pageNumber (add64 b offset) ↔
      a / frameSize = b / frameSize := by
  rw [pageNumber_add64 ho, pageNumber_add64 ho]
  simp only [frameSize]
  omega

/-- The flags swallow the low bits of an address if these are not beyond them. -/
theorem lor_flags_eq_iff {a flags : ℕ} (h : flags = kernelPage ∨ flags = userPage) :
    a ||| flags = a / frameSize * frameSize ||| flags ↔ a % frameSize ≤ flags := by
  obtain ⟨hlt, -⟩ := flags_bounds h
  have hsum : a / frameSize * frameSize ||| flags = a / frameSize * frameSize + flags :=
    lor_flags (by simp only [frameSize]; omega) hlt
  constructor
  · intro heq
    have hle : a ≤ a ||| flags := Nat.left_le_or
    have hdiv := Nat.div_add_mod a frameSize
    rw [Nat.mul_comm] at hdiv
    omega
  · intro hle
    have hlow : ∀ d ≤ flags, d ||| flags = flags := by
      rcases h with rfl | rfl
      · decide
      · decide
    have hsplit : a = a / frameSize * frameSize ||| a % frameSize := by
      have hdvd : 2 ^ 12 ∣ a / frameSize * frameSize := Nat.dvd_mul_left _ _
      have hlt : a % frameSize < 2 ^ 12 := Nat.mod_lt a (by decide)
      rw [lor_of_dvd hdvd hlt, Nat.div_add_mod']
    calc a ||| flags = (a / frameSize * frameSize ||| a % frameSize) ||| flags := by rw [← hsplit]
      _ = a / frameSize * frameSize ||| flags := by rw [Nat.or_assoc, hlow _ hle]

namespace Low

variable (h : q.Low)

include h

/-- The rounds of the range are the multiples of a frame below the bound. -/
theorem visits_iff (k : ℕ) : q.Visits k ↔ q.base + frameSize * k < q.bound := by
  have hle := h.le
  have hlt := h.bound_lt
  constructor
  · exact lt_of_visits (by omega) (by simp only [frameSize]; omega)
  · exact visits_of_lt (by omega)

theorem addr_eq {k : ℕ} (hk : q.Visits k) : q.addr k = q.base + frameSize * k := by
  have hlt := h.bound_lt
  have hvisit := (h.visits_iff k).mp hk
  exact addr_of_lt (by omega)

/-- The page that a round writes is that of the address it has reached. -/
theorem write_fst_eq_iff {k a : ℕ} (hk : q.Visits k) (ha : a < q.bound) :
    (q.write k).1 = pageNumber (add64 a q.offset) ↔
      a / frameSize = q.base / frameSize + k := by
  have hlt := h.bound_lt
  have hvisit := (h.visits_iff k).mp hk
  rw [write, h.addr_eq hk, pageNumber_add64_eq_iff (by omega) (by omega) h.offset]
  simp only [frameSize]
  omega

theorem write_snd {k : ℕ} (hk : q.Visits k) :
    (q.write k).2 = q.base + frameSize * k ||| q.flags := by
  rw [write, h.addr_eq hk]

/-- A page of the range that no round gets to is the last one, with low bits below those of the
base. -/
theorem exists_visits_or {a : ℕ} (ha : q.base ≤ a) (hlt : a < q.bound) :
    (∃ k, q.Visits k ∧ a / frameSize = q.base / frameSize + k) ∨
      ((q.bound - 1) % frameSize < q.base % frameSize ∧
        a / frameSize = (q.bound - 1) / frameSize ∧
        ∀ k, q.Visits k → a / frameSize ≠ q.base / frameSize + k) := by
  by_cases hk : q.base + frameSize * (a / frameSize - q.base / frameSize) < q.bound
  · refine .inl ⟨_, (h.visits_iff _).mpr hk, ?_⟩
    simp only [frameSize] at *
    omega
  · right
    simp only [h.visits_iff, frameSize] at *
    refine ⟨by omega, by omega, fun k hvisit => by omega⟩

end Low

end Range

variable {R : Set ℕ} {r : ℕ} {s s' : Machine} {q : Range}

/-- Addresses on one page have one word. -/
theorem leaf_congr {m : Mem} {v v' : ℕ} (h : pageNumber v = pageNumber v') :
    leaf m r v = leaf m r v' := by
  obtain ⟨hind, hlast⟩ := (pageNumber_eq_iff v v').mp h
  rw [leaf, leaf, hind, hlast]

/-- What a call that returns true leaves in the word of an address of the range. -/
theorem leaf_of_mapMultiple (hserve : Serves R r s s' {q} {q}) (h : q.Low) (hr : r ∈ R) {a : ℕ}
    (ha : q.base ≤ a) (hlt : a < q.bound) :
    (∃ b < q.bound, q.base % frameSize = b % frameSize ∧ a / frameSize = b / frameSize ∧
        leaf s'.mem r (add64 a q.offset) = b ||| q.flags) ∨
      ((q.bound - 1) % frameSize < q.base % frameSize ∧
        a / frameSize = (q.bound - 1) / frameSize ∧
        leaf s'.mem r (add64 a q.offset) = leaf s.mem r (add64 a q.offset)) := by
  rcases h.exists_visits_or ha hlt with ⟨k, hk, hpage⟩ | ⟨hlow, hlast, hno⟩
  · refine .inl ⟨q.base + frameSize * k, (h.visits_iff k).mp hk, by simp, ?_, ?_⟩
    · rw [Nat.add_mul_div_left _ _ (by decide : 0 < frameSize)]
      exact hpage
    · refine hserve.leaf_eq hr rfl hk ((h.write_fst_eq_iff hk hlt).mpr hpage) ?_
      rintro q' rfl k' hk' hkey
      have hpage' := (h.write_fst_eq_iff hk' hlt).mp hkey
      obtain rfl : k' = k := by omega
      exact h.write_snd hk'
  · refine .inr ⟨hlow, hlast, hserve.leaf_unchanged hr ?_⟩
    rintro q' rfl k hk hkey
    exact hno k hk ((h.write_fst_eq_iff hk hlt).mp hkey)

/-- Pages outside the range keep their words. -/
theorem leaf_outside_of_mapMultiple (hserve : Serves R r s s' {q} {q}) (h : q.Low) {r' v : ℕ}
    (hr' : r' ∈ R) (hout : r' = r → ∀ a, q.base ≤ a → a < q.bound →
      pageNumber v ≠ pageNumber (add64 a q.offset)) :
    leaf s'.mem r' v = leaf s.mem r' v := by
  by_cases heq : r' = r
  · subst heq
    refine hserve.leaf_unchanged hr' ?_
    rintro q' rfl k hk hkey
    have hvisit := (h.visits_iff k).mp hk
    refine hout rfl (q'.base + frameSize * k) (by omega) hvisit ?_
    rw [← hkey, Range.write, h.addr_eq hk]
  · exact hserve.other hr' heq v

/-- **When `MapMultiple` maps the whole range.** On any tree of page tables and any range of
physical addresses below `2 ^ 47`, a call that returns true has mapped the page of every address of
the range, and changed no other page, if and only if the range is empty, or the low bits of `base`
are within the flags and the page of the last address is not left out, unless it was mapped so
before. -/
theorem mapMultiple_covered_iff (hok : Ok R s) (hr : r ∈ R) (h : q.Low) {fuel : ℕ}
    (hcall : q.call r fuel s = some (true, s')) :
    Range.Covered R s s' r q ↔ Range.Aligns s r q := by
  obtain ⟨hlt, hpres⟩ := flags_bounds h.flags
  have hle := h.le
  have h47 := h.bound_lt
  obtain ⟨hserve, -⟩ := hok.mapMultiple hr (by omega) hlt (odd_of_present hpres) hcall
  replace hserve : Serves R r s s' {q} {q} := hserve.mono le_rfl fun q' hq' => ⟨hq', rfl⟩
  constructor
  · rintro ⟨hrange, -⟩
    by_cases hempty : q.base = q.bound
    · exact .inl hempty
    have hfirst := hrange q.base le_rfl (by omega)
    have hlast := hrange (q.bound - 1) (by omega) (by omega)
    refine .inr ⟨?_, ?_⟩
    · rcases leaf_of_mapMultiple hserve h hr le_rfl (show q.base < q.bound by omega) with
        ⟨b, hb, hmod, hdiv, hleaf⟩ | ⟨hlow, hpage, -⟩
      · obtain rfl : b = q.base := by
          simp only [frameSize] at hmod hdiv
          omega
        rw [hleaf] at hfirst
        exact (Range.lor_flags_eq_iff h.flags).mp hfirst
      · simp only [frameSize] at hlow hpage
        omega
    · rcases leaf_of_mapMultiple hserve h hr (show q.base ≤ q.bound - 1 by omega)
        (show q.bound - 1 < q.bound by omega) with ⟨b, hb, hmod, hdiv, hleaf⟩ | ⟨-, -, hleaf⟩
      · left
        simp only [frameSize] at hmod hdiv ⊢
        omega
      · exact .inr (hleaf ▸ hlast)
  · intro haligns
    refine ⟨fun a ha hlt' => ?_, fun r' hr' v hout => leaf_outside_of_mapMultiple hserve h hr' hout⟩
    rcases haligns with hempty | ⟨hbase, hlast⟩
    · omega
    · rcases leaf_of_mapMultiple hserve h hr ha hlt' with
        ⟨b, hb, hmod, hdiv, hleaf⟩ | ⟨hlow, hpage, hleaf⟩
      · rw [hleaf, hdiv]
        exact (Range.lor_flags_eq_iff h.flags).mpr (hmod ▸ hbase)
      · rw [hleaf, hpage]
        rw [leaf_congr ((Range.pageNumber_add64_eq_iff (by omega) (by omega) h.offset).mpr hpage)]
        exact hlast.resolve_left (by omega)

/-- Two whole pages are mapped. -/
theorem mapMultiple_covered_iff_two_pages :
    ∃ s', (Range.mk 0x1000 0x3000 0 kernelPage).call 4096 4 threeFrames = some (true, s') ∧
      Range.Covered {4096} threeFrames s' 4096 (Range.mk 0x1000 0x3000 0 kernelPage) := by
  have hrun : ((Range.mk 0x1000 0x3000 0 kernelPage).call 4096 4 threeFrames).map Prod.fst =
      some true := by decide +kernel
  obtain ⟨⟨b, s'⟩, hcall, rfl⟩ := Option.map_eq_some_iff.mp hrun
  exact ⟨s', hcall, (mapMultiple_covered_iff start_threeFrames.ok rfl
    ⟨by decide, by decide, rfl, .inl rfl⟩ hcall).mpr (.inr ⟨by decide, .inl (by decide)⟩)⟩

/-- Half of page 1 and half of page 2: the low bits of the base end up in the word of page 1, and
page 2 is not mapped. -/
theorem mapMultiple_not_covered :
    ∃ s', (Range.mk 0x1800 0x2800 0 kernelPage).call 4096 4 threeFrames = some (true, s') ∧
      leaf s'.mem 4096 0x1800 = 0x1803 ∧ leaf s'.mem 4096 0x2000 = 0 ∧
      ¬ Range.Covered {4096} threeFrames s' 4096 (Range.mk 0x1800 0x2800 0 kernelPage) := by
  have hrun : ((Range.mk 0x1800 0x2800 0 kernelPage).call 4096 4 threeFrames).map
      (fun x => (x.1, leaf x.2.mem 4096 0x1800, leaf x.2.mem 4096 0x2000)) =
      some (true, 0x1803, 0) := by decide +kernel
  obtain ⟨⟨b, s'⟩, hcall, heq⟩ := Option.map_eq_some_iff.mp hrun
  simp only [Prod.mk.injEq] at heq
  obtain ⟨rfl, hfirst, hlast⟩ := heq
  refine ⟨s', hcall, hfirst, hlast, fun hcov => ?_⟩
  have hword := hcov.1 0x2000 (by decide) (by decide)
  rw [add64_of_lt (by decide), Nat.add_zero, hlast] at hword
  exact absurd hword (by decide)

end Vardar.Vmm
