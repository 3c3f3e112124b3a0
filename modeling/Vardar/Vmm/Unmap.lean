import Vardar.Vmm.Rights
import Vardar.Vmm.Supply

/-!
# What `UnmapPage` reports

`UnmapPage` clears the last-level word of a page and returns true whenever the table with this word
exists; it does not look whether the word was present. The table is there from the first `MapPage`
that succeeds for a page of the same 2 MiB on, and it is never removed. So the result says that the
neighbourhood of the page has been mapped at some time, not that the page was mapped.

## Main definitions

* `Vardar.Vmm.IsMapped`: the page of an address is mapped.
* `Vardar.Vmm.Touched`: a `MapPage` for the same 2 MiB has succeeded.

## Main results

* `Vardar.Vmm.Session.Records.unmapPage`: the result of `UnmapPage`, read off the log.
* `Vardar.Vmm.unmapPage_truthful_iff`: when the result tells whether the page was mapped.
-/

namespace Vardar.Vmm

open ByteMemory RadixTree

/-- The page of an address is mapped: its last-level word is present. -/
def IsMapped (m : Mem) (root vaddr : ℕ) : Prop := getPageFlag (leaf m root vaddr) present = true

instance (m : Mem) (root vaddr : ℕ) : Decidable (IsMapped m root vaddr) :=
  inferInstanceAs (Decidable (_ = true))

/-- The 2 MiB of an address, bits 21 to 47. -/
def region (vaddr : ℕ) : ℕ := vaddr / 2 ^ 21 % 2 ^ 27

/-- The operation is on a root in `R`, its address is a 64-bit word, and its flags are nine bits
with `PRESENT` among them. -/
def Op.Legal (R : Set ℕ) : Op → Prop
  | .map root _ paddr flags => root ∈ R ∧ paddr < 2 ^ 64 ∧ flags < 512 ∧ flags &&& present ≠ 0
  | .unmap root _ => root ∈ R

/-- Some `MapPage` on the root for a page in the 2 MiB of the address has returned true. -/
def Touched (r vaddr : ℕ) (log : List (Op × Bool)) : Prop :=
  ∃ v paddr flags, (Op.map r v paddr flags, true) ∈ log ∧ region v = region vaddr

/-- The machine is a tree whose last-level tables are those of the successful calls in the log. -/
def Session.Records (R : Set ℕ) (x : Session) : Prop :=
  Ok R x.machine ∧ ∀ r ∈ R, ∀ v, indices v ∈ known x.machine.mem r ↔ Touched r v x.log

variable {R : Set ℕ} {r : ℕ} {s : Machine} {x : Session}

/-- Pages have the same tables if and only if they are in the same 2 MiB. -/
theorem region_eq_iff (v v' : ℕ) : region v = region v' ↔ indices v = indices v' := by
  simp only [indices, List.map_cons, List.map_nil, List.cons.injEq, and_true, Fin.ext_iff,
    vAddrIndex_val, region]
  norm_num
  omega

theorem indices_mem_tablePaths_iff (v v' : ℕ) :
    indices v ∈ tablePaths v' ↔ region v' = region v := by
  rw [region_eq_iff]
  constructor
  · intro h
    exact (eq_indices_of_mem h (length_indices v)).symm
  · intro h
    rw [← h]
    exact indices_mem_tablePaths v'

/-! ### The log and the tables -/

theorem touched_map (root vaddr paddr flags r v : ℕ) (b : Bool) (log : List (Op × Bool)) :
    Touched r v ((.map root vaddr paddr flags, b) :: log) ↔
      Touched r v log ∨ b = true ∧ r = root ∧ region vaddr = region v := by
  constructor
  · rintro ⟨v', paddr', flags', hmem, hregion⟩
    rcases List.mem_cons.mp hmem with heq | hmem
    · simp only [Prod.mk.injEq, Op.map.injEq] at heq
      obtain ⟨⟨rfl, rfl, -⟩, rfl⟩ := heq
      exact .inr ⟨rfl, rfl, hregion⟩
    · exact .inl ⟨v', paddr', flags', hmem, hregion⟩
  · rintro (⟨v', paddr', flags', hmem, hregion⟩ | ⟨rfl, rfl, hregion⟩)
    · exact ⟨v', paddr', flags', List.mem_cons_of_mem _ hmem, hregion⟩
    · exact ⟨vaddr, paddr, flags, List.mem_cons_self, hregion⟩

theorem touched_unmap (root vaddr r v : ℕ) (b : Bool) (log : List (Op × Bool)) :
    Touched r v ((.unmap root vaddr, b) :: log) ↔ Touched r v log := by
  constructor
  · rintro ⟨v', paddr, flags, hmem, hregion⟩
    rcases List.mem_cons.mp hmem with heq | hmem
    · simp at heq
    · exact ⟨v', paddr, flags, hmem, hregion⟩
  · rintro ⟨v', paddr, flags, hmem, hregion⟩
    exact ⟨v', paddr, flags, List.mem_cons_of_mem _ hmem, hregion⟩

namespace Session.Records

theorem start (hs : Start R s) : Session.Records R ⟨s, []⟩ := by
  refine ⟨hs.ok, fun r hr v => iff_of_false ?_ ?_⟩
  · simp [known, indices, hs.walk_cons hr]
  · rintro ⟨_, _, _, hmem, -⟩
    exact List.not_mem_nil hmem

theorem step {op : Op} (h : x.Records R) (hop : op.Legal R) : (x.step op).Records R := by
  obtain ⟨hok, htables⟩ := h
  cases op with
  | map root vaddr paddr flags =>
    obtain ⟨hr, hp, hflags, hpres⟩ := hop
    rcases hok.mapPage_supply hr vaddr hp hflags (odd_of_present hpres) with
      ⟨s', hcall, hgrow⟩ | ⟨s', hcall, hout⟩
    · simp only [Session.step, Op.call, hcall]
      refine ⟨hgrow.keeps.ok, fun r hr' v => ?_⟩
      rw [touched_map, hgrow.tables r hr' _ (length_indices v).le, htables r hr' v,
        indices_mem_tablePaths_iff]
      simp
    · simp only [Session.step, Op.call, hcall]
      refine ⟨hout.keeps.ok, fun r hr' v => ?_⟩
      rw [touched_map, hout.tables r hr' _ (length_indices v), htables r hr' v]
      simp
  | unmap root vaddr =>
    obtain ⟨-, hgrow⟩ := hok.unmapPage_supply hop vaddr
    refine ⟨hgrow.keeps.ok, fun r hr' v => ?_⟩
    rw [Session.step, touched_unmap, ← htables r hr' v]
    simpa [Op.call] using hgrow.tables r hr' _ (length_indices v).le

/-- `UnmapPage` returns true if and only if the 2 MiB of the address have been touched, and so does
a second one. -/
theorem unmapPage (h : x.Records R) (hr : r ∈ R) (v : ℕ) :
    ((Vmm.unmapPage x.machine r v).1 = true ↔ Touched r v x.log) ∧
      ((Vmm.unmapPage (Vmm.unmapPage x.machine r v).2 r v).1 = true ↔ Touched r v x.log) := by
  have hfirst := h.1.unmapPage_supply hr v
  have hstep : (x.step (.unmap r v)).Records R := h.step hr
  have hsecond := hstep.1.unmapPage_supply hr v
  refine ⟨hfirst.1.trans (h.2 r hr v), ?_⟩
  rw [← touched_unmap r v r v (Vmm.unmapPage x.machine r v).1 x.log]
  exact hsecond.1.trans (hstep.2 r hr v)

/-- Mapped pages are in 2 MiB that have been touched. -/
theorem touched_of_isMapped (h : x.Records R) (hr : r ∈ R) {v : ℕ}
    (hv : IsMapped x.machine.mem r v) : Touched r v x.log := by
  rw [← h.2 r hr v]
  intro hnone
  rw [IsMapped, leaf, word, word_of_walk_none hnone] at hv
  exact absurd hv (by decide)

end Session.Records

/-! ### The result of `UnmapPage` -/

/-- **When `UnmapPage` reports truthfully.** After any sequence of `MapPage` and `UnmapPage` on
zeroed roots, whatever `AllocFirstFrame` returns, the result of `UnmapPage` tells whether the page
was mapped if and only if the page is mapped or no `MapPage` in its 2 MiB has succeeded. Two calls
in a row do not both return true if and only if no `MapPage` in its 2 MiB has succeeded. -/
theorem unmapPage_truthful_iff (hs : Start R s) (ops : List Op) (hops : ∀ op ∈ ops, op.Legal R)
    (hr : r ∈ R) (v : ℕ) :
    let x := ops.foldl Session.step ⟨s, []⟩
    let first := unmapPage x.machine r v
    let second := unmapPage first.2 r v
    ((first.1 = true ↔ IsMapped x.machine.mem r v) ↔
      IsMapped x.machine.mem r v ∨ ¬ Touched r v x.log) ∧
    (¬ (first.1 = true ∧ second.1 = true) ↔ ¬ Touched r v x.log) := by
  intro x first second
  have hx : x.Records R :=
    (Run.along_of_forall hops).invariant (fun _ _ h hop => h.step hop) (.start hs)
  obtain ⟨hfirst, hsecond⟩ := hx.unmapPage hr v
  refine ⟨⟨fun h => ?_, fun h => ?_⟩, ?_⟩
  · rw [← hfirst, h]
    exact em _
  · rw [hfirst]
    refine ⟨fun htouched => h.resolve_right (not_not.mpr htouched), hx.touched_of_isMapped hr⟩
  · exact not_congr ((and_congr hfirst hsecond).trans (and_self_iff))

/-- One page is mapped and another 2 MiB is not touched: both reports are truthful. -/
theorem unmapPage_truthful_mapped :
    let x := [Op.map 4096 0x400000 0x70000 3].foldl Session.step ⟨threeFrames, []⟩
    ((unmapPage x.machine 4096 0x400000).1 = true ↔ IsMapped x.machine.mem 4096 0x400000) ∧
      ((unmapPage x.machine 4096 0x800000).1 = true ↔ IsMapped x.machine.mem 4096 0x800000) := by
  intro x
  have hops : ∀ op ∈ [Op.map 4096 0x400000 0x70000 3], op.Legal {4096} := by
    simp [Op.Legal, present]
  constructor
  · refine (unmapPage_truthful_iff start_threeFrames _ hops rfl 0x400000).1.mpr (.inl ?_)
    decide +kernel
  · refine (unmapPage_truthful_iff start_threeFrames _ hops rfl 0x800000).1.mpr (.inr ?_)
    rintro ⟨v, paddr, flags, hmem, hregion⟩
    obtain ⟨⟨rfl, -⟩, -⟩ : (v = 0x400000 ∧ _) ∧ _ := by
      simpa [x, Session.step] using hmem
    simp [region] at hregion

/-- `UnmapPage` returns true for the neighbour of a mapped page, which was never mapped, and twice
in a row for the page itself. -/
theorem unmapPage_neighbour :
    let x := [Op.map 4096 0x400000 0x70000 3].foldl Session.step ⟨threeFrames, []⟩
    Start {4096} threeFrames ∧
      ¬ ((unmapPage x.machine 4096 0x401000).1 = true ↔ IsMapped x.machine.mem 4096 0x401000) ∧
      (unmapPage x.machine 4096 0x400000).1 = true ∧
      (unmapPage (unmapPage x.machine 4096 0x400000).2 4096 0x400000).1 = true :=
  ⟨start_threeFrames, by decide +kernel, by decide +kernel, by decide +kernel⟩

end Vardar.Vmm
