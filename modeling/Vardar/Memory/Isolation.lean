import Mathlib.Logic.Relation
import Vardar.Memory.Paging

/-!
# The memory subsystem

The frame allocator, the page tables and the owners of page frames share one memory. Its users see
an ideal memory: frames that are owned once, with contents that only their owner changes, and
address spaces that map pages to physical addresses. In every run after `InitPmm` the memory
implements the ideal one, as long as its users free and write only what they own.

## Main definitions

* `Vardar.Paging.Ideal`: frames with owners, their contents, and the address spaces.
* `Vardar.Paging.Call`, `Vardar.Paging.Event`, `Vardar.Paging.System.Step`: runs.
* `Vardar.Paging.System.Faithful`: the memory implements the ideal one.

## Main results

* `Vardar.Paging.faithful_of_run`.
-/

namespace Vardar.Paging

open ByteMemory Word Vmm Pmm

/-! ### The ideal memory -/

/-- Frames that are owned, the bytes in them, the roots of address spaces and what they map. -/
structure Ideal where
  owned : List ℕ
  contents : ℕ → BitVec 8
  roots : List ℕ
  space : ℕ → ℕ → ℕ

/-- What a call has done. -/
inductive Event
  | granted (region : List ℕ)
  | newRoot (root : Option ℕ)
  | freed (f : ℕ)
  | mapped (root vaddr paddr : ℕ) (b : Bool)
  | unmapped (root vaddr : ℕ)
  | wrote (a : ℕ) (v : BitVec 8)

namespace Ideal

/-- Nothing is owned. -/
def empty : Ideal := ⟨[], fun _ => 0, [], fun _ _ => 0⟩

/-- The ideal memory after an event. -/
def apply (i : Ideal) : Event → Ideal
  | .granted region =>
    { i with
      owned := region ++ i.owned
      contents := fun x => if x / frameSize ∈ region then 0 else i.contents x }
  | .newRoot none => i
  | .newRoot (some r) =>
    { i with
      roots := r :: i.roots
      space := Function.update i.space r fun _ => 0 }
  | .freed f => { i with owned := i.owned.filter fun g => g ≠ f }
  | .mapped _ _ _ false => i
  | .mapped root vaddr paddr true =>
    { i with
      space := fun r page => if r = root ∧ page = pageNumber vaddr then paddr else i.space r page }
  | .unmapped root vaddr =>
    { i with
      space := fun r page => if r = root ∧ page = pageNumber vaddr then 0 else i.space r page }
  | .wrote a v => { i with contents := Function.update i.contents a v }

/-- The roots as a set. -/
def rootSet (i : Ideal) : Set ℕ := {r | r ∈ i.roots}

end Ideal

/-! ### Calls -/

/-- The calls on the memory subsystem. A root is a frame that serves as the first table of an
address space, and a write is made by the owner of a frame. -/
inductive Call
  | allocFirstFrame
  | newRoot
  | allocContiguous (size : ℕ)
  | freeFrame (frame : ℕ)
  | mapPage (root vaddr paddr flags : ℕ)
  | unmapPage (root vaddr : ℕ)
  | write (a : ℕ) (v : BitVec 8)

namespace Call

/-- The frames of a region of `n` frames at an address, if there is one. -/
def region (n : ℕ) : Option ℕ → List ℕ
  | none => []
  | some a => List.range' (a / frameSize) n

/-- Make a call, with at most `fuel` rounds of the loops of the allocator. -/
def run (fuel : ℕ) (p : Pmm) : Call → Option (Event × Pmm)
  | .allocFirstFrame => (p.allocFirstFrame fuel).map fun r => (.granted (region 1 r.1), r.2)
  | .newRoot => (p.allocFirstFrame fuel).map fun r => (.newRoot r.1, r.2)
  | .allocContiguous size =>
    (p.allocContiguous fuel size).map fun r => (.granted (region (numPages size) r.1), r.2)
  | .freeFrame frame => some (.freed (frame / frameSize), p.freeFrame frame)
  | .mapPage root vaddr paddr flags =>
    (Paging.mapPage fuel p root vaddr paddr flags).map fun r => (.mapped root vaddr paddr r.1, r.2)
  | .unmapPage root vaddr => some (.unmapped root vaddr, (Paging.unmapPage p root vaddr).2)
  | .write a v => some (.wrote a v, { p with mem := Function.update p.mem a v })

/-- Users free and write frames they own, and map aligned addresses in address spaces that exist. -/
def Allowed (i : Ideal) : Call → Prop
  | .freeFrame frame => ∃ f ∈ i.owned, frame = f * frameSize
  | .mapPage root _ paddr flags => root ∈ i.roots ∧ paddr % frameSize = 0 ∧ paddr < 2 ^ 64 ∧
      flags < 512 ∧ flags &&& present ≠ 0
  | .unmapPage root _ => root ∈ i.roots
  | .write a _ => a / frameSize ∈ i.owned
  | _ => True

instance (i : Ideal) : (c : Call) → Decidable (c.Allowed i)
  | .allocFirstFrame => instDecidableTrue
  | .newRoot => instDecidableTrue
  | .allocContiguous _ => instDecidableTrue
  | .freeFrame frame => inferInstanceAs (Decidable (∃ f ∈ i.owned, frame = f * frameSize))
  | .mapPage root _ paddr flags => inferInstanceAs (Decidable (root ∈ i.roots ∧
      paddr % frameSize = 0 ∧ paddr < 2 ^ 64 ∧ flags < 512 ∧ flags &&& present ≠ 0))
  | .unmapPage root _ => inferInstanceAs (Decidable (root ∈ i.roots))
  | .write a _ => inferInstanceAs (Decidable (a / frameSize ∈ i.owned))

end Call

/-- The memory of the machine, and the ideal memory its users see. -/
structure System where
  pmm : Pmm
  ideal : Ideal

namespace System

/-- A call, and what its users see of it. -/
def step (fuel : ℕ) (x : System) (c : Call) : Option System :=
  (c.run fuel x.pmm).map fun r => ⟨r.2, x.ideal.apply r.1⟩

/-- Calls in order, none if one of them is not allowed or does not return. -/
def steps (fuel : ℕ) : System → List Call → Option System
  | x, [] => some x
  | x, c :: cs =>
    if c.Allowed x.ideal then (x.step fuel c).bind fun x' => steps fuel x' cs else none

/-- One returning call. -/
def Step (x x' : System) : Prop := ∃ fuel c, Call.Allowed x.ideal c ∧ x.step fuel c = some x'

/-- The memory implements the ideal one: frames that are owned are grantable, marked as used and no
page tables; page tables are grantable frames marked as used; the bytes of owned frames are what
their owners have written, and the page tables translate addresses as the address spaces do. -/
structure Faithful (G : ℕ → Prop) (x : System) : Prop where
  owned : ∀ f ∈ x.ideal.owned, G f ∧ x.pmm.pageIsUsed f = true ∧
    f * frameSize ∉ tables x.ideal.rootSet x.pmm.mem
  once : x.ideal.owned.Nodup
  tables : ∀ t ∈ tables x.ideal.rootSet x.pmm.mem, t % frameSize = 0 ∧ G (t / frameSize) ∧
    x.pmm.pageIsUsed ((t / frameSize : ℕ) : ℤ) = true
  contents : ∀ a, a / frameSize ∈ x.ideal.owned → x.pmm.mem a = x.ideal.contents a
  space : ∀ r ∈ x.ideal.roots, ∀ v,
    vAddrToPAddr x.pmm.mem r v = x.ideal.space r (pageNumber v)

/-- The invariant of a run: with the frames the allocator has handed out. -/
structure Inv (G : ℕ → Prop) (p₀ : Pmm) (live : List ℕ) (x : System) : Prop where
  sound : Sound G p₀ x.ideal.rootSet ⟨x.pmm, live⟩
  owned : ∀ f ∈ x.ideal.owned, f ∈ live ∧ f * frameSize ∉ tables x.ideal.rootSet x.pmm.mem
  once : x.ideal.owned.Nodup
  contents : ∀ a, a / frameSize ∈ x.ideal.owned → x.pmm.mem a = x.ideal.contents a
  space : ∀ r ∈ x.ideal.roots, ∀ v,
    vAddrToPAddr x.pmm.mem r v = x.ideal.space r (pageNumber v)

variable {G : ℕ → Prop} {p₀ q : Pmm} {live live' : List ℕ} {x : System} {fuel : ℕ}

theorem Inv.faithful (h : x.Inv G p₀ live) (hg : Geometry G p₀) : x.Faithful G := by
  refine ⟨fun f hf => ?_, h.once, fun t ht => ?_, h.contents, h.space⟩
  · obtain ⟨hlive, hnot⟩ := h.owned f hf
    exact ⟨h.sound.alloc.held f hlive, h.sound.alloc.bit_of_live hg.layout hlive, hnot⟩
  · have hlive := h.sound.held t ht
    exact ⟨(h.sound.tree.table t ht).1, h.sound.alloc.held _ hlive,
      h.sound.alloc.bit_of_live hg.layout hlive⟩

/-! ### Calls that leave the page tables alone -/

/-- A frame that is owned is apart from the tables. -/
theorem Inv.notMem_tables (h : x.Inv G p₀ live) {a : ℕ} (ha : a / frameSize ∈ x.ideal.owned) :
    a / 4096 * 4096 ∉ Vmm.tables x.ideal.rootSet x.pmm.mem :=
  (h.owned _ ha).2

/-- The state after a call of the allocator, or a write, that changes no byte of a table. -/
theorem Inv.outside (h : x.Inv G p₀ live)
    (hmem : ∀ a, a / 4096 * 4096 ∈ Vmm.tables x.ideal.rootSet x.pmm.mem → q.mem a = x.pmm.mem a)
    (hinv : State.Inv G p₀ ⟨q, live'⟩) (hnodup : live'.Nodup)
    (hheld : ∀ t ∈ Vmm.tables x.ideal.rootSet x.pmm.mem, t / frameSize ∈ live') {i : Ideal}
    (hroots : i.roots = x.ideal.roots) (hspace : i.space = x.ideal.space)
    (howned : ∀ f ∈ i.owned, f ∈ live' ∧ f * frameSize ∉ Vmm.tables x.ideal.rootSet x.pmm.mem)
    (honce : i.owned.Nodup) (hcontents : ∀ a, a / frameSize ∈ i.owned → q.mem a = i.contents a) :
    Inv G p₀ live' ⟨q, i⟩ := by
  have htree := h.sound.tree
  have hset : i.rootSet = x.ideal.rootSet := by rw [Ideal.rootSet, Ideal.rootSet, hroots]
  have htables := htree.tables_outside hmem
  have hok := htree.outside hmem
  rw [← hset] at htables hok
  refine ⟨⟨hinv, hnodup, ⟨hok.sep, hok.table, hok.linked, by simp, by simp⟩, fun t ht => ?_⟩,
    fun f hf => ?_, honce, hcontents, fun r hr v => ?_⟩
  · refine hheld t ?_
    rwa [← hset, ← htables]
  · dsimp only
    rw [htables, hset]
    exact howned f hf
  · have hr' : r ∈ x.ideal.roots := hroots ▸ hr
    dsimp only
    rw [vAddrToPAddr_eq, hspace, ← h.space r hr' v, vAddrToPAddr_eq, leaf, leaf,
      htree.word_outside hmem hr' (length_indices v).le]

/-- Frames that are handed out. -/
theorem Inv.granted (h : x.Inv G p₀ live) (hg : Geometry G p₀) {a n : ℕ}
    (hfresh : ∀ f ∈ List.range' a n, G f ∧ f ∉ live)
    (hinv : State.Inv G p₀ ⟨q, List.range' a n ++ live⟩)
    (hmem : SameOff p₀ q.mem (memset x.pmm.mem (a * frameSize) 0 (frameSize * n))) :
    Inv G p₀ (List.range' a n ++ live) ⟨q, x.ideal.apply (.granted (List.range' a n))⟩ := by
  have hnodup : (List.range' a n ++ live).Nodup := by
    refine List.nodup_append.mpr ⟨List.nodup_range', h.sound.nodup, fun f hf g hg' heq => ?_⟩
    exact (hfresh f hf).2 (heq ▸ hg')
  have hold {b : ℕ} (hlive : b / frameSize ∈ live) : q.mem b = x.pmm.mem b := by
    have hnot : b / frameSize ∉ List.range' a n := fun hin => (hfresh _ hin).2 hlive
    rw [hmem b (hg.layout.off (h.sound.alloc.held _ hlive) rfl)]
    refine fill_of_notMem ?_
    rw [List.mem_range'_1] at hnot
    simp only [frameSize] at hnot ⊢
    omega
  refine h.outside (fun b hb => hold ?_) hinv hnodup (fun t ht => ?_) rfl rfl (fun f hf => ?_) ?_
    fun b hb => ?_
  · have hlive := h.sound.held _ hb
    rwa [show b / 4096 * 4096 / frameSize = b / frameSize by simp only [frameSize]; omega] at hlive
  · exact List.mem_append_right _ (h.sound.held t ht)
  · rcases List.mem_append.mp hf with hf | hf
    · refine ⟨List.mem_append_left _ hf, fun ht => ?_⟩
      have hlive := h.sound.held _ ht
      rw [Nat.mul_div_cancel _ (by decide)] at hlive
      exact (hfresh f hf).2 hlive
    · exact ⟨List.mem_append_right _ (h.owned f hf).1, (h.owned f hf).2⟩
  · refine List.nodup_append.mpr ⟨List.nodup_range', h.once, fun f hf g hg' heq => ?_⟩
    exact (hfresh f hf).2 (heq ▸ (h.owned g hg').1)
  · simp only [Ideal.apply] at hb ⊢
    split_ifs with hin
    · rw [hmem b (hg.layout.off (hfresh _ hin).1 rfl)]
      refine fill_of_mem ?_
      rw [List.mem_range'_1] at hin
      simp only [frameSize] at hin ⊢
      omega
    · have hb := (List.mem_append.mp hb).resolve_left hin
      rw [hold (h.owned _ hb).1, h.contents b hb]

/-- A call that hands nothing out. -/
theorem Inv.granted_nil (h : x.Inv G p₀ live) :
    Inv G p₀ live ⟨x.pmm, x.ideal.apply (.granted [])⟩ := by
  refine ⟨h.sound, h.owned, h.once, fun a ha => ?_, h.space⟩
  simpa [Ideal.apply] using h.contents a ha

theorem Inv.freed (h : x.Inv G p₀ live) (hg : Geometry G p₀) {f : ℕ} (hf : f ∈ x.ideal.owned) :
    Inv G p₀ (live.filter fun g => g ≠ f) ⟨x.pmm.freeFrame (f * frameSize),
      x.ideal.apply (.freed f)⟩ := by
  obtain ⟨hlive, hnot⟩ := h.owned f hf
  obtain ⟨hinv, hmem⟩ := h.sound.alloc.giveFrame hg.layout hlive
  have hold {b : ℕ} (hb : b / frameSize ∈ live) (hne : b / frameSize ≠ f) :
      (x.pmm.freeFrame (f * frameSize)).mem b = x.pmm.mem b := by
    rw [hmem b (hg.layout.off (h.sound.alloc.held _ hb) rfl)]
    refine fill_of_notMem ?_
    simp only [frameSize] at hne ⊢
    omega
  have hheld {t : ℕ} (ht : t ∈ Vmm.tables x.ideal.rootSet x.pmm.mem) :
      t / frameSize ∈ live.filter fun g => g ≠ f := by
    refine List.mem_filter.mpr ⟨h.sound.held t ht, decide_eq_true fun heq => hnot ?_⟩
    have hal := (h.sound.tree.table t ht).1
    rwa [← heq, show t / frameSize * frameSize = t by simp only [frameSize]; omega]
  refine h.outside (fun b hb => ?_) hinv (h.sound.nodup.filter _) (fun t ht => hheld ht) rfl rfl
    (fun g hg' => ?_) (h.once.filter _) fun b hb => ?_
  · have hin := hheld hb
    rw [show b / 4096 * 4096 / frameSize = b / frameSize by simp only [frameSize]; omega,
      List.mem_filter, decide_eq_true_eq] at hin
    exact hold hin.1 hin.2
  · obtain ⟨hg', hne⟩ := List.mem_filter.mp hg'
    exact ⟨List.mem_filter.mpr ⟨(h.owned g hg').1, hne⟩, (h.owned g hg').2⟩
  · obtain ⟨hb, hne⟩ := List.mem_filter.mp hb
    rw [hold (h.owned _ hb).1 (of_decide_eq_true hne), h.contents b hb]
    rfl

/-- A write by the owner of a frame. -/
theorem Inv.wrote (h : x.Inv G p₀ live) (hg : Geometry G p₀) {a : ℕ}
    (ha : a / frameSize ∈ x.ideal.owned) (v : BitVec 8) :
    Inv G p₀ live ⟨{ x.pmm with mem := Function.update x.pmm.mem a v },
      x.ideal.apply (.wrote a v)⟩ := by
  have hoff := hg.layout.off (h.sound.alloc.held _ (h.owned _ ha).1) rfl
  refine h.outside (fun b hb => ?_) ?_ h.sound.nodup (fun t ht => h.sound.held t ht) rfl rfl
    h.owned h.once fun b hb => ?_
  · refine Function.update_of_ne ?_ _ _
    rintro rfl
    exact h.notMem_tables ha hb
  · refine h.sound.alloc.write hg.layout fun b hb hb' => Function.update_of_ne ?_ _ _
    rintro rfl
    rw [Pmm.Off] at hoff
    omega
  · simp only [Ideal.apply, Function.update_apply]
    split_ifs
    · rfl
    · exact h.contents b hb

/-! ### Calls on page tables -/

/-- The state after a call that frames leave alone. -/
theorem Inv.framed (h : x.Inv G p₀ live) (hsub : live ⊆ live')
    (hsound : Sound G p₀ x.ideal.rootSet ⟨q, live'⟩)
    (hframe : Frame x.ideal.rootSet ⟨x.pmm, live⟩ q) {i : Ideal} (hroots : i.roots = x.ideal.roots)
    (howned : i.owned = x.ideal.owned) (hcontents : i.contents = x.ideal.contents)
    (hspace : ∀ r ∈ x.ideal.roots, ∀ v, vAddrToPAddr q.mem r v = i.space r (pageNumber v)) :
    Inv G p₀ live' ⟨q, i⟩ := by
  have hset : i.rootSet = x.ideal.rootSet := by rw [Ideal.rootSet, Ideal.rootSet, hroots]
  refine ⟨hset ▸ hsound, fun f hf => ?_, howned ▸ h.once, fun a ha => ?_, fun r hr v => ?_⟩
  · obtain ⟨hlive, hnot⟩ := h.owned f (howned ▸ hf)
    refine ⟨hsub hlive, fun ht => ?_⟩
    rw [hset] at ht
    rcases hframe.tables _ ht with ht | hfresh
    · exact hnot ht
    · rw [Nat.mul_div_cancel _ (by decide)] at hfresh
      exact hfresh hlive
  · have ha : a / frameSize ∈ x.ideal.owned := howned ▸ ha
    dsimp only
    rw [hcontents, ← h.contents a ha]
    exact hframe.bytes a (h.owned _ ha).1 (h.owned _ ha).2
  · exact hspace r (hroots ▸ hr) v

theorem Inv.mapped (h : x.Inv G p₀ live) (hg : Geometry G p₀) {root vaddr paddr flags : ℕ}
    (hr : root ∈ x.ideal.roots) (hal : paddr % frameSize = 0) (h64 : paddr < 2 ^ 64)
    (hflags : flags < 512) (hpres : flags &&& present ≠ 0) {b : Bool}
    (hcall : Paging.mapPage fuel x.pmm root vaddr paddr flags = some (b, q)) :
    ∃ live', Inv G p₀ live' ⟨q, x.ideal.apply (.mapped root vaddr paddr b)⟩ := by
  obtain ⟨rs, hsound, hframe, hleaf⟩ :=
    h.sound.mapPage hg hr h64 hflags (odd_of_present hpres) hcall
  have hspace : ∀ r ∈ x.ideal.roots, ∀ v, vAddrToPAddr q.mem r v =
      if b = true ∧ r = root ∧ pageNumber v = pageNumber vaddr then paddr
      else x.ideal.space r (pageNumber v) := by
    intro r hr' v
    rw [vAddrToPAddr_eq, hleaf r hr' v, apply_ite (· &&& addressMask), ← h.space r hr' v,
      vAddrToPAddr_eq, lor_land_addressMask hal h64 hflags]
  refine ⟨_, h.framed (List.subset_append_right _ _) hsound hframe ?_ ?_ ?_ fun r hr' v => ?_⟩
  · cases b <;> rfl
  · cases b <;> rfl
  · cases b <;> rfl
  · rw [hspace r hr' v]
    cases b <;> simp [Ideal.apply]

theorem Inv.unmapped (h : x.Inv G p₀ live) (hg : Geometry G p₀) {root : ℕ}
    (hr : root ∈ x.ideal.roots) (vaddr : ℕ) :
    Inv G p₀ live
      ⟨(Paging.unmapPage x.pmm root vaddr).2, x.ideal.apply (.unmapped root vaddr)⟩ := by
  obtain ⟨hsound, hframe, hleaf⟩ := h.sound.unmapPage hg hr vaddr
  refine h.framed (List.Subset.refl _) hsound hframe rfl rfl rfl fun r hr' v => ?_
  rw [vAddrToPAddr_eq, hleaf r hr' v, apply_ite (· &&& addressMask), Nat.zero_and]
  simp only [Ideal.apply]
  split_ifs
  · rfl
  · rw [← h.space r hr' v, vAddrToPAddr_eq]

/-- A new root adds no page table but itself. -/
theorem Inv.notMem_tables_newRoot (h : x.Inv G p₀ live) (hg : Geometry G p₀) {j : ℕ} (hG : G j)
    (hfresh : j ∉ live) {f : ℕ} (hf : f * 4096 ∉ Vmm.tables x.ideal.rootSet x.pmm.mem)
    (hne : f ≠ j) : f * 4096 ∉ Vmm.tables (insert (j * frameSize) x.ideal.rootSet)
      (memset x.pmm.mem (j * frameSize) 0 frameSize) := by
  have hnodup : (Paging.granted [some j] live).Nodup := List.nodup_cons.mpr ⟨hfresh, h.sound.nodup⟩
  have hok := h.sound.ok_supply hg [some j] (by simpa using hG) hnodup
  obtain ⟨-, -, hspare⟩ := hok.newRoot (f := j * frameSize) rfl
  refine (hspare f ⟨hf, fun n _ hn => hne ?_⟩).1
  obtain ⟨k, -, hk, heq⟩ := exists_of_supply hn
  obtain rfl : f = k := Nat.eq_of_mul_eq_mul_right (by decide) heq
  simpa using hk

/-- A new address space, without mappings. -/
theorem Inv.newRoot (h : x.Inv G p₀ live) (hg : Geometry G p₀) {j : ℕ} (hG : G j)
    (hfresh : j ∉ live) (hinv : State.Inv G p₀ ⟨q, j :: live⟩)
    (hmem : SameOff p₀ q.mem (memset x.pmm.mem (j * frameSize) 0 frameSize)) :
    Inv G p₀ (j :: live) ⟨q, x.ideal.apply (.newRoot (some (j * frameSize)))⟩ := by
  have hnodup : (Paging.granted [some j] live).Nodup := List.nodup_cons.mpr ⟨hfresh, h.sound.nodup⟩
  have hset : (x.ideal.apply (.newRoot (some (j * frameSize)))).rootSet =
      insert (j * frameSize) x.ideal.rootSet := by
    ext r
    simp [Ideal.rootSet, Ideal.apply]
  have hok := h.sound.ok_supply hg [some j] (by simpa using hG) hnodup
  obtain ⟨hroot, hzero, -⟩ := hok.newRoot (f := j * frameSize) rfl
  obtain ⟨-, -, hwords⟩ := hok.take (f := j * frameSize) rfl
  -- the tables are those before and the new root
  have hheld : ∀ t ∈ Vmm.tables (insert (j * frameSize) x.ideal.rootSet)
      (memset x.pmm.mem (j * frameSize) 0 frameSize), t / frameSize ∈ j :: live := by
    intro t ht
    by_contra hnot
    have hframe : t / frameSize * 4096 = t := by
      have hal := (hroot.table t ht).1
      simp only [frameSize]
      omega
    rw [List.mem_cons, not_or] at hnot
    refine h.notMem_tables_newRoot hg hG hfresh (f := t / frameSize) (fun hin => ?_) hnot.1 ?_
    · rw [hframe] at hin
      exact hnot.2 (h.sound.held t hin)
    · rwa [hframe]
  have hagree : ∀ a, a / 4096 * 4096 ∈ Vmm.tables (insert (j * frameSize) x.ideal.rootSet)
      (memset x.pmm.mem (j * frameSize) 0 frameSize) →
      q.mem a = memset x.pmm.mem (j * frameSize) 0 frameSize a := by
    intro a ha
    have hlive := hheld _ ha
    rw [show a / 4096 * 4096 / frameSize = a / frameSize by simp only [frameSize]; omega] at hlive
    exact hmem a (hg.layout.off (hinv.held _ hlive) rfl)
  have hok' := hroot.outside hagree
  have htables := hroot.tables_outside hagree
  rw [← hset] at hok' htables
  refine ⟨⟨hinv, hnodup, ⟨hok'.sep, hok'.table, hok'.linked, by simp, by simp⟩, fun t ht => ?_⟩,
    fun f hf => ?_, h.once, fun a ha => ?_, fun r hr v => ?_⟩
  · dsimp only at ht
    rw [htables, hset] at ht
    exact hheld t ht
  · have hf : f ∈ x.ideal.owned := hf
    obtain ⟨hlive, hnot⟩ := h.owned f hf
    refine ⟨List.mem_cons_of_mem _ hlive, fun ht => ?_⟩
    dsimp only at ht
    rw [htables, hset] at ht
    exact h.notMem_tables_newRoot hg hG hfresh hnot (fun heq => hfresh (heq ▸ hlive)) ht
  · have ha : a / frameSize ∈ x.ideal.owned := ha
    have hlive := (h.owned _ ha).1
    have hne : a / frameSize ≠ j := fun heq => hfresh (heq ▸ hlive)
    dsimp only
    rw [hmem a (hg.layout.off (h.sound.alloc.held _ hlive) rfl)]
    refine (fill_of_notMem ?_).trans (h.contents a ha)
    simp only [frameSize] at hne ⊢
    omega
  · have hr : r = j * frameSize ∨ r ∈ x.ideal.roots := List.mem_cons.mp hr
    have hword := hroot.word_outside hagree (r := r) (q := indices v)
      (by rcases hr with hr | hr <;> [exact .inl hr; exact .inr hr]) (length_indices v).le
      (vAddrIndex v 1)
    dsimp only
    rw [vAddrToPAddr_eq, leaf, hword]
    simp only [Ideal.apply, Function.update_apply]
    split_ifs with heq
    · rw [heq, hzero]
      exact Nat.zero_and _
    · have hr := hr.resolve_left heq
      rw [hwords r hr _ _ (length_indices v).le, ← h.space r hr v, vAddrToPAddr_eq]
      rfl

/-! ### Runs -/

/-- A returning call keeps the invariant. -/
theorem Inv.step (h : x.Inv G p₀ live) (hg : Geometry G p₀) {c : Call} (hc : c.Allowed x.ideal)
    {x' : System} (hr : x.step fuel c = some x') : ∃ live', x'.Inv G p₀ live' := by
  obtain ⟨⟨e, q⟩, hrun, rfl⟩ := Option.map_eq_some_iff.mp hr
  cases c with
  | allocFirstFrame =>
    obtain ⟨⟨o, q'⟩, halloc, heq⟩ := Option.map_eq_some_iff.mp hrun
    obtain ⟨rfl, rfl⟩ := Prod.mk.inj heq
    rcases h.sound.alloc.takeFrame hg.layout halloc with
      ⟨rfl, rfl⟩ | ⟨j, rfl, hG, hfresh, hinv, hmem⟩
    · exact ⟨live, h.granted_nil⟩
    · simp only [Call.region, Nat.mul_div_cancel _ (show 0 < frameSize by decide)]
      exact ⟨_, h.granted hg (n := 1) (by simpa using ⟨hG, hfresh⟩) hinv
        (by rwa [Nat.mul_one])⟩
  | newRoot =>
    obtain ⟨⟨o, q'⟩, halloc, heq⟩ := Option.map_eq_some_iff.mp hrun
    obtain ⟨rfl, rfl⟩ := Prod.mk.inj heq
    rcases h.sound.alloc.takeFrame hg.layout halloc with
      ⟨rfl, rfl⟩ | ⟨j, rfl, hG, hfresh, hinv, hmem⟩
    · exact ⟨live, h⟩
    · exact ⟨_, h.newRoot hg hG hfresh hinv hmem⟩
  | allocContiguous size =>
    obtain ⟨⟨o, q'⟩, halloc, heq⟩ := Option.map_eq_some_iff.mp hrun
    obtain ⟨rfl, rfl⟩ := Prod.mk.inj heq
    rcases h.sound.alloc.takeRegion hg.layout halloc with
      ⟨rfl, rfl⟩ | ⟨a, rfl, hfresh, hinv, hmem⟩
    · exact ⟨live, h.granted_nil⟩
    · simp only [Call.region, Nat.mul_div_cancel _ (show 0 < frameSize by decide)]
      exact ⟨_, h.granted hg hfresh hinv hmem⟩
  | freeFrame frame =>
    obtain ⟨f, hf, rfl⟩ := hc
    obtain ⟨rfl, rfl⟩ := Prod.mk.inj (Option.some.inj hrun)
    rw [Nat.mul_div_cancel _ (show 0 < frameSize by decide)]
    exact ⟨_, h.freed hg hf⟩
  | mapPage root vaddr paddr flags =>
    obtain ⟨hroot, hal, h64, hflags, hpres⟩ := hc
    obtain ⟨⟨b, q'⟩, hmap, heq⟩ := Option.map_eq_some_iff.mp hrun
    obtain ⟨rfl, rfl⟩ := Prod.mk.inj heq
    exact h.mapped hg hroot hal h64 hflags hpres hmap
  | unmapPage root vaddr =>
    obtain ⟨rfl, rfl⟩ := Prod.mk.inj (Option.some.inj hrun)
    exact ⟨live, h.unmapped hg hc vaddr⟩
  | write a v =>
    obtain ⟨rfl, rfl⟩ := Prod.mk.inj (Option.some.inj hrun)
    exact ⟨live, h.wrote hg hc v⟩

/-- The invariant holds along every run. -/
theorem Inv.run (h : x.Inv G p₀ live) (hg : Geometry G p₀) {x' : System}
    (hrun : Relation.ReflTransGen Step x x') : ∃ live', x'.Inv G p₀ live' := by
  induction hrun with
  | refl => exact ⟨live, h⟩
  | tail _ hstep ih =>
    obtain ⟨live', h'⟩ := ih
    obtain ⟨fuel, c, hc, hr⟩ := hstep
    exact h'.step hg hc hr

theorem reflTransGen_of_steps {cs : List Call} {x' : System} (h : steps fuel x cs = some x') :
    Relation.ReflTransGen Step x x' := by
  induction cs generalizing x with
  | nil =>
    rw [← Option.some.inj h]
  | cons c cs ih =>
    rw [steps] at h
    split_ifs at h with hc
    obtain ⟨x₁, hstep, hrest⟩ := Option.bind_eq_some_iff.mp h
    exact .head ⟨fuel, c, hc, hstep⟩ (ih hrest)

end System

/-- Frame 0 lies in no usable entry. -/
theorem not_grantable_zero {memmap : List MmapEntry} (hm : MemmapOk memmap) (bmpInd : Option ℕ) :
    ¬ Grantable memmap bmpInd 0 := by
  rintro ⟨i, e, he, -, hu, hlo, hhi⟩
  have hzero := hm.frameZero e (List.mem_of_getElem? he) hu (by omega)
  simp only [frameSize] at hhi
  omega

/-- **The memory subsystem implements the ideal memory.** After a successful `InitPmm` whose bitmap
has a bit for every index up to `num_entries + 1`, in every run of allocations, frees, mappings and
writes, the frames that are owned are grantable, owned once, marked as used and apart from the page
tables; the page tables are grantable frames marked as used; owned frames hold what their owners
have written since they got them zeroed; and `VAddrToPAddr` gives the last mapping of a page. -/
theorem faithful_of_run {memmap : List MmapEntry} (hm : MemmapOk memmap) {mem : Mem} {p : Pmm}
    (hinit : initPmm (boot mem) memmap = (true, p)) (hcover : p.numEntries + 1 < 8 * p.bitmapSize)
    {x : System} (hrun : Relation.ReflTransGen System.Step ⟨p, .empty⟩ x) :
    x.Faithful (Grantable memmap (findMemEntryBySize memmap p.bitmapSize)) := by
  obtain ⟨hlayout, hinv⟩ := initPmm_spec hm hinit hcover
  have hg : Geometry (Grantable memmap (findMemEntryBySize memmap p.bitmapSize)) p :=
    ⟨hlayout, not_grantable_zero hm _⟩
  have htables (t : ℕ) : t ∉ tables Ideal.empty.rootSet p.mem := by
    rintro ⟨r, hr, -⟩
    exact List.not_mem_nil hr
  have hempty (r : ℕ) : r ∉ Ideal.empty.rootSet := List.not_mem_nil
  have hok : Ok Ideal.empty.rootSet ⟨p.mem, fun _ => none, 0⟩ :=
    ⟨fun r hr => absurd hr (hempty r), fun t ht => absurd ht (htables t),
      fun r hr => absurd hr (hempty r), by simp, by simp⟩
  have hstart : System.Inv _ p [] ⟨p, .empty⟩ :=
    ⟨⟨hinv, List.nodup_nil, hok, fun t ht => absurd ht (htables t)⟩,
      fun f hf => absurd hf List.not_mem_nil, List.nodup_nil,
      fun a ha => absurd ha List.not_mem_nil, fun r hr => absurd hr List.not_mem_nil⟩
  obtain ⟨live, h⟩ := hstart.run hg hrun
  exact h.faithful hg

/-- A root, a frame that is mapped in its address space, and a byte in the frame. -/
def mapFrame : List Call :=
  [.newRoot, .allocFirstFrame, .mapPage 0x2000 0x400000 0x3000 3, .write 0x3005 7,
    .allocContiguous 5000]

theorem faithful_of_run_mapFrame :
    ∃ x : System, Relation.ReflTransGen System.Step
        ⟨(initPmm (boot fun _ => 0) [⟨0x1000, 0x1000, 1⟩, ⟨0x2000, 0x10000, 1⟩]).2, .empty⟩ x ∧
      vAddrToPAddr x.pmm.mem 0x2000 0x400000 = 0x3000 ∧ x.pmm.mem 0x3005 = 7 := by
  obtain ⟨x, hrun, hideal⟩ := Option.map_eq_some_iff.mp
    (show (System.steps 20
        ⟨(initPmm (boot fun _ => 0) [⟨0x1000, 0x1000, 1⟩, ⟨0x2000, 0x10000, 1⟩]).2, .empty⟩
        mapFrame).map (fun x => (x.ideal.roots, x.ideal.space 0x2000 (pageNumber 0x400000),
          x.ideal.contents 0x3005, decide (3 ∈ x.ideal.owned))) =
      some ([0x2000], 0x3000, 7, true) by decide +kernel)
  simp only [Prod.mk.injEq, decide_eq_true_eq] at hideal
  obtain ⟨hroots, hspace, hcontents, howned⟩ := hideal
  have hsteps := System.reflTransGen_of_steps hrun
  have hmap : MemmapOk [⟨0x1000, 0x1000, 1⟩, ⟨0x2000, 0x10000, 1⟩] :=
    ⟨by decide, by decide, by decide, by decide, by decide⟩
  have hinit : (initPmm (boot fun _ => 0)
      [⟨0x1000, 0x1000, 1⟩, ⟨0x2000, 0x10000, 1⟩]).1 = true := by decide +kernel
  have hall := faithful_of_run hmap (Prod.ext hinit rfl) (by decide +kernel) hsteps
  refine ⟨x, hsteps, ?_, ?_⟩
  · rw [hall.space 0x2000 (by simp [hroots]) 0x400000, hspace]
  · rw [hall.contents 0x3005 howned, hcontents]

end Vardar.Paging
