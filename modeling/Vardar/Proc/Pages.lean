import Vardar.Proc.Elf
import Vardar.Vmm.Advance
import Vardar.Vmm.Boot
import Vardar.Vmm.Rights

/-!
# The user pages of a process

Each round of the loader puts a frame with its bytes at a page of the new address space. As long
as the loader's own allocations succeed, the frames are fresh, so later rounds and the kernel's
mappings change neither their bytes nor the links above them.

## Main definitions

* `Vardar.Elf.Placement`, `Vardar.Elf.Placed`: frames put at pages for the user.
* `Vardar.Elf.pagePlan`, `Vardar.Elf.segmentPlan`: what the loops over pages and headers load.

## Main results

* `Vardar.Elf.loadSegments_spec`: the placements of the loops.
* `Vardar.Elf.parseElf_spec`: the stages of `parse_elf`.
-/

namespace Vardar.Elf

open ByteMemory Word Vmm LastWrite

/-! ### Results of the loader's allocations -/

/-- The step uses up results of `AllocFirstFrame` and records some of them. -/
def Traces (x x' : Load) : Prop :=
  Advances x.machine x'.machine ∧ ∃ new, x'.pages = new ++ x.pages ∧
    ∀ o ∈ new, ∃ n, x.machine.next ≤ n ∧ n < x'.machine.next ∧ x.machine.frames n = o

variable {img : Image} {root phdrs vaddr off : ℕ} {x x' x'' : Load} {ph : Phdr}

theorem Traces.refl (x : Load) : Traces x x := ⟨Advances.refl _, [], rfl, by simp⟩

theorem Traces.trans (h : Traces x x') (h' : Traces x' x'') : Traces x x'' := by
  obtain ⟨hadv, new, hnew, hfrom⟩ := h
  obtain ⟨hadv', new', hnew', hfrom'⟩ := h'
  refine ⟨hadv.trans hadv', new' ++ new, by rw [hnew', hnew, List.append_assoc], fun o ho => ?_⟩
  rcases List.mem_append.mp ho with ho | ho
  · obtain ⟨n, hn, hn', hf⟩ := hfrom' o ho
    exact ⟨n, hadv.2.trans hn, hn', hadv.1 ▸ hf⟩
  · obtain ⟨n, hn, hn', hf⟩ := hfrom o ho
    exact ⟨n, hn, hn'.trans_le hadv'.2, hf⟩

theorem Traces.mem (h : Traces x x') {o : Option ℕ} (ho : o ∈ x.pages) : o ∈ x'.pages := by
  obtain ⟨-, new, hnew, -⟩ := h
  rw [hnew]
  exact List.mem_append_right _ ho

/-- An allocation for a page, followed by steps that only use up results. -/
theorem Traces.alloc {s : Machine} (h : Advances x.machine.allocFirstFrame.2 s) :
    Traces x ⟨s, x.machine.allocFirstFrame.1 :: x.pages⟩ := by
  refine ⟨(allocFirstFrame_advances _).trans h, [x.machine.allocFirstFrame.1], rfl, fun o ho => ?_⟩
  obtain rfl := List.mem_singleton.mp ho
  have hnext : x.machine.allocFirstFrame.2.next = x.machine.next + 1 := by
    rw [Machine.allocFirstFrame]
    cases x.machine.frames x.machine.next with
    | none => rfl
    | some f => rfl
  have hle := h.2
  rw [hnext] at hle
  exact ⟨x.machine.next, le_rfl, hle, rfl⟩

theorem loadPage_traces (img : Image) (root vaddr off : ℕ) (x : Load) :
    Traces x (loadPage img root vaddr off x) := by
  have hcopy : Advances x.machine.allocFirstFrame.2 { x.machine.allocFirstFrame.2 with
    mem := copyPage img x.machine.allocFirstFrame.2.mem x.allocPage.1 off } := ⟨rfl, le_rfl⟩
  exact Traces.alloc (hcopy.trans (mapPage_advances _ root vaddr x.allocPage.1 userProcPage))

theorem mapStack_traces (root : ℕ) (x : Load) : Traces x (mapStack root x) :=
  Traces.alloc (mapPage_advances _ _ _ _ _)

theorem loadPages_traces {fuel off : ℕ} (hcall : loadPages img root ph fuel off x = some x') :
    Traces x x' := by
  induction fuel generalizing off x with
  | zero => simp [loadPages] at hcall
  | succ fuel ih =>
    rw [loadPages] at hcall
    split_ifs at hcall
    · exact (loadPage_traces img root _ _ x).trans (ih hcall)
    · obtain rfl := Option.some.inj hcall
      exact Traces.refl x

theorem loadSegment_traces {fuel : ℕ} (hcall : loadSegment img root fuel ph x = some x') :
    Traces x x' := by
  rw [loadSegment] at hcall
  split_ifs at hcall
  · exact loadPages_traces hcall
  · obtain rfl := Option.some.inj hcall
    exact Traces.refl x

theorem loadSegments_traces {pageFuel fuel i : ℕ}
    (hcall : loadSegments img root phdrs pageFuel fuel i x = some x') : Traces x x' := by
  induction fuel generalizing i x with
  | zero => simp [loadSegments] at hcall
  | succ fuel ih =>
    rw [loadSegments] at hcall
    split_ifs at hcall
    · obtain ⟨x₁, hpages, hrest⟩ := Option.bind_eq_some_iff.mp hcall
      exact (loadSegment_traces hpages).trans (ih hrest)
    · obtain rfl := Option.some.inj hcall
      exact Traces.refl x

/-! ### Placements -/

/-- A frame with its bytes, put at a page. -/
structure Placement where
  vaddr : ℕ
  frame : ℕ
  bytes : ℕ → BitVec 8

/-- The page and the last-level word of a placement. -/
def Placement.write (p : Placement) : ℕ × ℕ := (pageNumber p.vaddr, p.frame ||| userProcPage)

/-- All links below the root are open to the user. -/
def UserLinks (m : Mem) (r : ℕ) : Prop :=
  ∀ p i, p.length ≤ 2 → word m r p i % 2 = 1 → word m r p i % 512 = userProcPage

/-- The step makes the placements `ps` in this order, in frames that nothing else uses. -/
structure Placed (R : Set ℕ) (r : ℕ) (s s' : Machine) (ps : List Placement) : Prop where
  maps : Maps R r s s' (ps.map Placement.write)
  frame : ∀ p ∈ ps, p.frame % 4096 = 0 ∧ 0 < p.frame ∧ p.frame < 2 ^ 64 ∧
    Spare R s' (p.frame / 4096)
  bytes : ∀ p ∈ ps, ∀ j < 4096, s'.mem (p.frame + j) = p.bytes j
  path : ∀ p ∈ ps, ∀ q i, q ++ [i] <+: indices p.vaddr → word s'.mem r q i % 2 = 1
  links : UserLinks s.mem r → UserLinks s'.mem r

variable {R : Set ℕ} {r : ℕ} {s s' s'' : Machine} {ps ps' : List Placement}

namespace Placed

theorem refl (h : Ok R s) : Placed R r s s [] :=
  ⟨Maps.refl h, by simp, by simp, by simp, id⟩

theorem keeps (h : Placed R r s s' ps) : Keeps R s s' := h.maps.keeps

/-- Steps on the page tables leave the frames, their bytes and the links as they are. -/
theorem frame_of_keeps (h : Placed R r s s' ps) (hr : r ∈ R) (hk : Keeps R s' s'') :
    (∀ p ∈ ps, p.frame % 4096 = 0 ∧ 0 < p.frame ∧ p.frame < 2 ^ 64 ∧
      Spare R s'' (p.frame / 4096)) ∧
    (∀ p ∈ ps, ∀ j < 4096, s''.mem (p.frame + j) = p.bytes j) ∧
    ∀ p ∈ ps, ∀ q i, q ++ [i] <+: indices p.vaddr → word s''.mem r q i % 2 = 1 := by
  refine ⟨fun p hp => ?_, fun p hp j hj => ?_, fun p hp q i hpre => ?_⟩
  · obtain ⟨hal, h0, h64, hspare⟩ := h.frame p hp
    exact ⟨hal, h0, h64, hk.spare _ hspare⟩
  · obtain ⟨hal, h0, h64, hspare⟩ := h.frame p hp
    have hframe : (p.frame + j) / 4096 = p.frame / 4096 := by omega
    rw [hk.bytes _ (hframe ▸ hspare)]
    exact h.bytes p hp j hj
  · have hlen := hpre.length_le
    simp only [List.length_append, List.length_singleton, length_indices] at hlen
    have hodd := h.path p hp q i hpre
    rw [hk.links r hr q i (by omega) hodd]
    exact hodd

theorem trans (h : Placed R r s s' ps) (hr : r ∈ R) (h' : Placed R r s' s'' ps') :
    Placed R r s s'' (ps ++ ps') := by
  obtain ⟨hframe, hbytes, hpath⟩ := h.frame_of_keeps hr h'.keeps
  refine ⟨?_, fun p hp => ?_, fun p hp => ?_, fun p hp => ?_, fun hl => h'.links (h.links hl)⟩
  · rw [List.map_append]
    exact h.maps.trans h'.maps
  · exact (List.mem_append.mp hp).elim (hframe p) (h'.frame p)
  · exact (List.mem_append.mp hp).elim (hbytes p) (h'.bytes p)
  · exact (List.mem_append.mp hp).elim (hpath p) (h'.path p)

end Placed

theorem userProcPage_lt : userProcPage < 512 := by decide

theorem userProcPage_odd : userProcPage % 2 = 1 := rfl

/-- A frame that is allocated and filled is spare, and the words are as they were. -/
theorem takeWith (h : Ok R s) {f : ℕ} (hf : s.frames s.next = some f) {m : Mem}
    (hm : ∀ a, a / 4096 * 4096 ≠ f → m a = (s.take (some f)).mem a) :
    Keeps R s { s.take (some f) with mem := m } ∧
      Spare R { s.take (some f) with mem := m } (f / 4096) ∧
      ∀ r ∈ R, ∀ p i, p.length ≤ 3 → word m r p i = word s.mem r p i := by
  obtain ⟨hkeep, hspare, hwords⟩ := h.take hf
  obtain ⟨hal, -, -, -⟩ := h.frame s.next f le_rfl hf
  have hframe : f / 4096 * 4096 = f := by omega
  have hout : ∀ a, a / 4096 * 4096 ∈ tables R (s.take (some f)).mem →
      m a = (s.take (some f)).mem a := by
    intro a ha
    refine hm a fun heq => hspare.1 ?_
    rw [heq] at ha
    rw [hframe]
    exact ha
  have htab : tables R m = tables R (s.take (some f)).mem := hkeep.ok.tables_outside hout
  have hword : ∀ r ∈ R, ∀ p i, p.length ≤ 3 → word m r p i = word s.mem r p i :=
    fun r hr p i hp => (hkeep.ok.word_outside hout hr hp i).trans (hwords r hr p i hp)
  refine ⟨⟨hkeep.ok.outside hout, rfl, hkeep.next, fun r hr p i hp _ => hword r hr p i (by omega),
    fun g hg => ⟨?_, (hkeep.spare g hg).2⟩, fun a ha => ?_⟩, ⟨?_, hspare.2⟩, hword⟩
  · rw [htab]
    exact (hkeep.spare g hg).1
  · have hne : a / 4096 * 4096 ≠ f := fun heq => ha.2 s.next le_rfl (heq ▸ hf)
    exact (hm a hne).trans (hkeep.bytes a ha)
  · rw [htab]
    exact hspare.1

/-- Allocating a frame, filling it and mapping it for the user. -/
theorem place (h : Ok R s) (hr : r ∈ R) {f : ℕ} (hf : s.frames s.next = some f) {m : Mem}
    (hm : ∀ a, a / 4096 * 4096 ≠ f → m a = (s.take (some f)).mem a) (vaddr : ℕ) :
    ∃ b s', mapPage { s.take (some f) with mem := m } r vaddr f userProcPage = (b, s') ∧
      Placed R r s s' (if b then [⟨vaddr, f, fun j => m (f + j)⟩] else []) ∧
      (NoFail s s' → b = true) ∧ s'.next ≤ s.next + 4 := by
  obtain ⟨hal, h0, h64, -⟩ := h.frame s.next f le_rfl hf
  obtain ⟨hkeep, hspare, hwords⟩ := takeWith h hf hm
  obtain ⟨b, s', hmap, hkeep', hnext, hleaf, hupper, hpres, hfail⟩ :=
    hkeep.ok.mapPage hr vaddr h64 userProcPage_lt userProcPage_odd
  have hleaf₀ (r' : ℕ) (hr' : r' ∈ R) (v : ℕ) : leaf m r' v = leaf s.mem r' v :=
    hwords r' hr' _ _ (by simp)
  have hlinks : UserLinks s.mem r → UserLinks s'.mem r := by
    intro hl p i hp hodd
    rcases hupper r hr p i hp with heq | ⟨-, -, -, hflags⟩
    · rw [heq, hwords r hr p i (by omega)] at hodd ⊢
      exact hl p i hp hodd
    · exact hflags
  have hmaps := Maps.of_leaf (hkeep.trans hkeep') fun r' hr' v => by
    rw [hleaf r' hr' v, show leaf m r' v = _ from hleaf₀ r' hr' v]
  refine ⟨b, s', hmap, ?_, fun hno => ?_, ?_⟩
  · cases b with
    | false =>
      rw [if_neg (by simp)]
      exact ⟨hmaps, by simp, by simp, by simp, hlinks⟩
    | true =>
      rw [if_pos rfl]
      refine ⟨hmaps, ?_, ?_, ?_, hlinks⟩
      · rintro p hp
        obtain rfl := List.mem_singleton.mp hp
        exact ⟨hal, h0, h64, hkeep'.spare _ hspare⟩
      · rintro p hp j hj
        obtain rfl := List.mem_singleton.mp hp
        have hframe : (f + j) / 4096 = f / 4096 := by omega
        exact hkeep'.bytes _ (hframe.symm ▸ hspare)
      · rintro p hp q i hpre
        obtain rfl := List.mem_singleton.mp hp
        exact hpres rfl q i hpre
  · by_contra hb
    obtain ⟨n, hn, hn', hnone⟩ := hfail (by simpa using hb)
    exact hno n (hkeep.next.trans hn) hn' (hkeep.frames ▸ hnone)
  · have htake : (s.take (some f)).next = s.next + 1 := rfl
    change s'.next ≤ (s.take (some f)).next + 3 at hnext
    omega

/-! ### The loops -/

theorem roundUp_bounds (n : ℕ) : roundUp n % 4096 = 0 ∧ roundUp n + 4096 ≤ 2 ^ 64 := by
  have hlt : sub64 (add64 n (1 <<< 12)) 1 < 2 ^ 64 := by
    rw [sub64]
    exact Nat.mod_lt _ (by decide)
  rw [roundUp, Nat.shiftLeft_eq, Nat.shiftRight_eq_div_pow]
  omega

/-- The page that round `i` of the loop over the pages of a segment maps, and the offset of its
bytes in the image. -/
def pageAt (ph : Phdr) (i : ℕ) : ℕ × ℕ := (add64 ph.vaddr (4096 * i), add64 ph.offset (4096 * i))

/-- The pages of a segment from round `i` on. -/
def pagePlan (ph : Phdr) (i : ℕ) : List (ℕ × ℕ) :=
  (List.range' i (ph.segBound / 4096 - i)).map (pageAt ph)

/-- The loadable segments from header `i` on. -/
def segmentsFrom (raw : ℕ → BitVec 8) (phdrs i : ℕ) : List Phdr :=
  ((List.range' i (phdrNumEntries raw - i)).map (phdr raw phdrs)).filter
    fun ph => ph.type = elfPhdrLoad

/-- The pages of all loadable segments, in the order in which they are loaded. -/
def segmentPlan (raw : ℕ → BitVec 8) (phdrs i : ℕ) : List (ℕ × ℕ) :=
  (segmentsFrom raw phdrs i).flatMap fun ph => pagePlan ph 0

/-- The placement of a page with bytes from the image. -/
def Fits (raw : ℕ → BitVec 8) (page : ℕ × ℕ) (p : Placement) : Prop :=
  p.vaddr = page.1 ∧ ∀ j < 4096, p.bytes j = raw (page.2 + j)

theorem range'_step {i n : ℕ} (h : i < n) :
    List.range' i (n - i) = i :: List.range' (i + 1) (n - (i + 1)) := by
  rw [show n - i = n - (i + 1) + 1 by omega, List.range'_succ]

theorem loadPage_eq {f : ℕ} (hf : x.machine.frames x.machine.next = some f) (img : Image)
    (r vaddr off : ℕ) : loadPage img r vaddr off x = ⟨(mapPage { x.machine.take (some f) with
      mem := copyPage img (x.machine.take (some f)).mem f off } r vaddr f userProcPage).2,
      some f :: x.pages⟩ := by
  simp only [loadPage, Load.allocPage, Machine.allocFirstFrame, hf, Option.getD_some]

/-- A round of the loop over the pages. -/
theorem loadPage_spec (h : Ok R x.machine) (hr : r ∈ R)
    (hnone : none ∉ (loadPage img r vaddr off x).pages) :
    ∃ ps, Placed R r x.machine (loadPage img r vaddr off x).machine ps ∧
      (∀ p ∈ ps, some p.frame ∈ (loadPage img r vaddr off x).pages) ∧
      (NoFail x.machine (loadPage img r vaddr off x).machine → ∀ raw, (∀ m, img m = raw) →
        List.Forall₂ (Fits raw) [(vaddr, off)] ps) := by
  cases hf : x.machine.frames x.machine.next with
  | none =>
    refine absurd ?_ hnone
    simp [loadPage, Load.allocPage, Machine.allocFirstFrame, hf]
  | some f =>
    rw [loadPage_eq hf]
    have hm : ∀ a, a / 4096 * 4096 ≠ f → copyPage img (x.machine.take (some f)).mem f off a =
        (x.machine.take (some f)).mem a := by
      intro a ha
      obtain ⟨hal, -⟩ := h.frame _ f le_rfl hf
      exact if_neg (by omega)
    obtain ⟨b, s', hmap, hplaced, hno, -⟩ := place h hr hf hm vaddr
    rw [hmap]
    refine ⟨_, hplaced, fun p hp => ?_, fun hnf raw hraw => ?_⟩
    · cases b with
      | false => simp at hp
      | true =>
        obtain rfl := List.mem_singleton.mp hp
        exact List.mem_cons_self
    · rw [if_pos (hno hnf)]
      refine List.Forall₂.cons ⟨rfl, fun j hj => ?_⟩ List.Forall₂.nil
      dsimp only
      rw [copyPage, if_pos (by omega), hraw, Nat.add_sub_cancel_left]

/-- The loop over the pages of a segment. -/
theorem loadPages_spec (h : Ok R x.machine) (hr : r ∈ R) {fuel i : ℕ} (hi : 4096 * i ≤ ph.segBound)
    (hcall : loadPages img r ph fuel (4096 * i) x = some x') (hnone : none ∉ x'.pages) :
    ∃ ps, Placed R r x.machine x'.machine ps ∧ (∀ p ∈ ps, some p.frame ∈ x'.pages) ∧
      (NoFail x.machine x'.machine → ∀ raw, (∀ m, img m = raw) →
        List.Forall₂ (Fits raw) (pagePlan ph i) ps) := by
  obtain ⟨hal, hroom⟩ := roundUp_bounds (add64 ph.vaddr ph.memSize)
  change ph.segBound % 4096 = 0 at hal
  change ph.segBound + 4096 ≤ 2 ^ 64 at hroom
  induction fuel generalizing i x with
  | zero => simp [loadPages] at hcall
  | succ fuel ih =>
    rw [loadPages] at hcall
    split_ifs at hcall with hlt
    · have hsucc : add64 (4096 * i) 0x1000 = 4096 * (i + 1) := add64_of_lt (by omega)
      rw [hsucc] at hcall
      have htraces := loadPages_traces hcall
      obtain ⟨ps₁, hplaced₁, hmem₁, hfits₁⟩ := loadPage_spec h hr (fun hn => hnone (htraces.mem hn))
      obtain ⟨ps₂, hplaced₂, hmem₂, hfits₂⟩ := ih hplaced₁.keeps.ok (by omega) hcall
      refine ⟨ps₁ ++ ps₂, hplaced₁.trans hr hplaced₂, fun p hp => ?_, fun hnf raw hraw => ?_⟩
      · rcases List.mem_append.mp hp with hp | hp
        · exact htraces.mem (hmem₁ p hp)
        · exact hmem₂ p hp
      · have hfits₁ := hfits₁ (hnf.left hplaced₂.keeps.next) raw hraw
        have hfits₂ := hfits₂ (hnf.right hplaced₁.keeps.frames hplaced₁.keeps.next) raw hraw
        rw [pagePlan, range'_step (by omega), List.map_cons, ← List.singleton_append]
        exact List.rel_append hfits₁ hfits₂
    · obtain rfl := Option.some.inj hcall
      refine ⟨[], Placed.refl h, by simp, fun _ raw _ => ?_⟩
      rw [pagePlan, show ph.segBound / 4096 - i = 0 by omega]
      exact List.Forall₂.nil

/-- The loop over the program headers. -/
theorem loadSegments_spec (h : Ok R x.machine) (hr : r ∈ R) {pageFuel fuel i : ℕ}
    (hcall : loadSegments img r phdrs pageFuel fuel i x = some x') (hnone : none ∉ x'.pages) :
    ∃ ps, Placed R r x.machine x'.machine ps ∧ (∀ p ∈ ps, some p.frame ∈ x'.pages) ∧
      (NoFail x.machine x'.machine → ∀ raw, (∀ m, img m = raw) →
        List.Forall₂ (Fits raw) (segmentPlan raw phdrs i) ps) := by
  induction fuel generalizing i x with
  | zero => simp [loadSegments] at hcall
  | succ fuel ih =>
    rw [loadSegments] at hcall
    split_ifs at hcall with hlt
    · obtain ⟨x₁, hseg, hrest⟩ := Option.bind_eq_some_iff.mp hcall
      have htraces := loadSegments_traces hrest
      have hnone₁ : none ∉ x₁.pages := fun hn => hnone (htraces.mem hn)
      rw [loadSegment] at hseg
      split_ifs at hseg with htype
      · obtain ⟨ps₁, hplaced₁, hmem₁, hfits₁⟩ :=
          loadPages_spec h hr (Nat.zero_le _) (i := 0) hseg hnone₁
        obtain ⟨ps₂, hplaced₂, hmem₂, hfits₂⟩ := ih hplaced₁.keeps.ok hrest
        refine ⟨ps₁ ++ ps₂, hplaced₁.trans hr hplaced₂, fun p hp => ?_, fun hnf raw hraw => ?_⟩
        · rcases List.mem_append.mp hp with hp | hp
          · exact htraces.mem (hmem₁ p hp)
          · exact hmem₂ p hp
        · have hfits₁ := hfits₁ (hnf.left hplaced₂.keeps.next) raw hraw
          have hfits₂ := hfits₂ (hnf.right hplaced₁.keeps.frames hplaced₁.keeps.next) raw hraw
          rw [hraw] at hlt htype hfits₁
          rw [segmentPlan, segmentsFrom, range'_step hlt, List.map_cons,
            List.filter_cons_of_pos (by simpa using htype), List.flatMap_cons]
          exact List.rel_append hfits₁ hfits₂
      · obtain rfl := Option.some.inj hseg
        obtain ⟨ps, hplaced, hmem, hfits⟩ := ih h hrest
        refine ⟨ps, hplaced, hmem, fun hnf raw hraw => ?_⟩
        rw [hraw] at hlt htype
        rw [segmentPlan, segmentsFrom, range'_step hlt, List.map_cons,
          List.filter_cons_of_neg (by simpa using htype)]
        exact hfits hnf raw hraw
    · obtain rfl := Option.some.inj hcall
      refine ⟨[], Placed.refl h, by simp, fun _ raw hraw => ?_⟩
      rw [hraw] at hlt
      rw [segmentPlan, segmentsFrom, show phdrNumEntries raw - i = 0 by omega]
      exact List.Forall₂.nil

/-- The stack. -/
theorem mapStack_spec (h : Ok R x.machine) (hr : r ∈ R) (hnone : none ∉ (mapStack r x).pages) :
    ∃ ps, Placed R r x.machine (mapStack r x).machine ps ∧
      (∀ p ∈ ps, some p.frame ∈ (mapStack r x).pages) ∧
      (NoFail x.machine (mapStack r x).machine →
        ps.map Placement.vaddr = [defaultStackBase]) := by
  cases hf : x.machine.frames x.machine.next with
  | none =>
    refine absurd ?_ hnone
    simp [mapStack, Load.allocPage, Machine.allocFirstFrame, hf]
  | some f =>
    have heq : mapStack r x = ⟨(mapPage (x.machine.take (some f)) r defaultStackBase f
        userProcPage).2, some f :: x.pages⟩ := by
      simp only [mapStack, Load.allocPage, Machine.allocFirstFrame, hf, Option.getD_some]
    obtain ⟨b, s', hmap, hplaced, hno, -⟩ := place h hr hf (fun _ _ => rfl) defaultStackBase
    rw [heq]
    change mapPage (x.machine.take (some f)) r defaultStackBase f userProcPage = (b, s') at hmap
    rw [hmap]
    refine ⟨_, hplaced, fun p hp => ?_, fun hnf => ?_⟩
    · cases b with
      | false => simp at hp
      | true =>
        obtain rfl := List.mem_singleton.mp hp
        exact List.mem_cons_self
    · rw [if_pos (hno hnf)]
      rfl

/-! ### `parse_elf` -/

/-- The range of the heap. -/
def heapRange (k : Kernel) (m : Mem) : Range :=
  ⟨vAddrToPAddr m k.root k.heapStart, add64 (vAddrToPAddr m k.root k.heapStart)
    (roundUp k.heapSize), kernelData, kernelPage⟩

theorem vAddrToPAddr_lt (m : Mem) (r v : ℕ) : vAddrToPAddr m r v < 2 ^ 64 := by
  rw [vAddrToPAddr_eq]
  exact Nat.lt_of_le_of_lt Nat.and_le_right (by decide)

theorem mapHeap_spec (h : Ok R s) (hr : r ∈ R) {fuel : ℕ} {k : Kernel}
    (hcall : mapHeap fuel k r s = some s') :
    ∃ full, Serves R r s s' {heapRange k s.mem} full := by
  obtain ⟨full, hserves, -⟩ :=
    mapIf_spec (q := heapRange k s.mem) h hr (vAddrToPAddr_lt _ _ _) rfl hcall
  refine ⟨full, hserves.mono ?_ subset_rfl⟩
  rintro q ⟨-, rfl⟩
  rfl

variable {k : Kernel} {pcb pcb' : Pcb} {fuel : ℕ}

/-- The stages of a `parse_elf` that returns 0. -/
theorem parseElf_cases (hcall : parseElf fuel k img pcb s = some (0, pcb', x)) :
    ∃ x₁ b s₂, loadSegments img (s.allocFirstFrame.1.getD 0)
        (phdrOffset (img s.allocFirstFrame.2.mem)) fuel fuel 0 ⟨s.allocFirstFrame.2, []⟩ =
          some x₁ ∧
      mapKernelPmrs fuel k.info pcb'.pagemap (mapStack pcb'.pagemap x₁).machine = some (b, s₂) ∧
      mapHeap fuel k pcb'.pagemap s₂ = some x.machine ∧
      pcb'.pagemap = s.allocFirstFrame.1.getD 0 ∧ x.pages = (mapStack pcb'.pagemap x₁).pages := by
  simp only [parseElf] at hcall
  split_ifs at hcall
  · simp at hcall
  · obtain ⟨x₁, hload, hcall⟩ := Option.bind_eq_some_iff.mp hcall
    obtain ⟨⟨b, s₂⟩, hmap, hcall⟩ := Option.bind_eq_some_iff.mp hcall
    obtain ⟨s₃, hheap, hcall⟩ := Option.bind_eq_some_iff.mp hcall
    simp only [Option.some.injEq, Prod.mk.injEq, true_and] at hcall
    obtain ⟨rfl, rfl⟩ := hcall
    exact ⟨x₁, b, s₂, hload, hmap, hheap, rfl, rfl⟩

/-- If no allocation fails, the loader's own allocations do not. -/
theorem parseElf_noFail (hcall : parseElf fuel k img pcb s = some (0, pcb', x))
    (hno : NoFail s x.machine) : s.frames s.next ≠ none ∧ none ∉ x.pages := by
  obtain ⟨x₁, b, s₂, hload, hmap, hheap, -, hpages⟩ := parseElf_cases hcall
  have htraces := (loadSegments_traces hload).trans (mapStack_traces pcb'.pagemap x₁)
  have hend := (mapKernelPmrs_advances hmap).trans (mapIf_advances hheap)
  obtain ⟨hadv, new, hnew, hfrom⟩ := htraces
  have hfirst := allocFirstFrame_advances s
  have hnext : s.next < s.allocFirstFrame.2.next := by
    rw [Machine.allocFirstFrame]
    cases s.frames s.next with
    | none => exact Nat.lt_succ_self _
    | some f => exact Nat.lt_succ_self _
  refine ⟨hno s.next le_rfl (hnext.trans_le (hadv.2.trans hend.2)), fun hmem => ?_⟩
  rw [hpages, hnew, List.append_nil] at hmem
  obtain ⟨n, hn, hn', hf⟩ := hfrom none hmem
  exact hno n (hfirst.2.trans hn) (hn'.trans_le hend.2) (hfirst.1 ▸ hf)

/-- The words of the other address spaces do not change while the kernel's ranges are mapped after
the user's pages. -/
theorem leaf_other (h : Ok R s) {root : ℕ} (hroot : s.frames s.next = some root)
    {tried full : Set Range} (hplaced : Placed (insert root R) root (s.take (some root)) s' ps)
    (hserves : Serves (insert root R) root s' s'' tried full) {r' : ℕ} (hr' : r' ∈ R) (v : ℕ) :
    leaf s''.mem r' v = leaf s.mem r' v := by
  have hne : r' ≠ root := by
    rintro rfl
    exact (h.frame s.next r' le_rfl hroot).2.2.2 (RadixTree.root_mem_tables hr')
  have hmem : r' ∈ insert root R := Set.mem_insert_of_mem _ hr'
  rw [hserves.other hmem hne, hplaced.maps.leaf_eq _ hmem, if_neg hne]
  exact (h.take hroot).2.2 r' hr' _ _ le_rfl

/-- A `parse_elf` whose own allocations succeed places frames for the user and then tries the
kernel's ranges and the heap. -/
theorem parseElf_spec (h : Ok R s) {root : ℕ} (hroot : s.frames s.next = some root)
    (hes : ∀ e ∈ k.info.memmap, e.base < 2 ^ 64)
    (hcall : parseElf fuel k img pcb s = some (0, pcb', x)) (hnone : none ∉ x.pages) :
    pcb'.pagemap = root ∧ ∃ s₁ s₂ ps qs full full',
      Placed (insert root R) root (s.take (some root)) s₁ (ps ++ qs) ∧
      (∀ p ∈ ps ++ qs, some p.frame ∈ x.pages) ∧
      Serves (insert root R) root s₁ s₂ (kernelRanges k.info) full ∧
      Serves (insert root R) root s₂ x.machine {heapRange k s₂.mem} full' ∧
      (NoFail s x.machine → kernelRanges k.info ⊆ full ∧
        qs.map Placement.vaddr = [defaultStackBase] ∧ ∀ raw, (∀ m, img m = raw) →
          List.Forall₂ (Fits raw) (segmentPlan raw (phdrOffset raw) 0) ps) := by
  obtain ⟨x₁, b, s₂, hload, hmap, hheap, hpagemap, hpages⟩ := parseElf_cases hcall
  rw [Machine.allocFirstFrame, hroot] at hload hpagemap
  simp only [Option.getD_some] at hload hpagemap
  rw [hpagemap] at hmap hheap hpages
  have htraces := mapStack_traces root x₁
  obtain ⟨hok, -, -⟩ := h.newRoot hroot
  have hr : root ∈ insert root R := Set.mem_insert _ _
  rw [hpages] at hnone
  obtain ⟨ps, hps, hmem, hfits⟩ := loadSegments_spec hok hr hload fun hn => hnone (htraces.mem hn)
  obtain ⟨qs, hqs, hmem', hstack⟩ := mapStack_spec hps.keeps.ok hr hnone
  have hplaced := hps.trans hr hqs
  obtain ⟨full, hserves, -, hfull⟩ := mapKernelPmrs_spec hplaced.keeps.ok hr hes hmap
  obtain ⟨full', hserves'⟩ := mapHeap_spec hserves.keeps.ok hr hheap
  refine ⟨hpagemap, _, s₂, ps, qs, full, full', hplaced, fun p hp => ?_, hserves, hserves',
    fun hno => ?_⟩
  · rw [hpages]
    rcases List.mem_append.mp hp with hp | hp
    · exact htraces.mem (hmem p hp)
    · exact hmem' p hp
  · have hno₂ := hno.left hserves'.keeps.next
    have hnos : NoFail (s.take (some root)) s₂ := hno₂.right rfl (Nat.le_succ _)
    have hno₁ := hnos.left hserves.keeps.next
    refine ⟨(hfull (hnos.right hplaced.keeps.frames hplaced.keeps.next)).2,
      hstack (hno₁.right hps.keeps.frames hps.keeps.next), fun raw hraw => ?_⟩
    have hplan := hfits (hno₁.left hqs.keeps.next) raw hraw
    rw [hraw] at hplan
    exact hplan

end Vardar.Elf
