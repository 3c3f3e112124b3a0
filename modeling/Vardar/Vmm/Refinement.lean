import Vardar.Lib.Run
import Vardar.Vmm.Tree

/-!
# Page tables refine a finite map per address space

The meaning of a log of mapping operations is a map from roots and pages to physical addresses:
the address of the last successful `MapPage` for the page that no later `UnmapPage` removed. After
any sequence of operations on any set of zeroed roots, `VAddrToPAddr` reads this map.

## Main definitions

* `Vardar.Vmm.Op`, `Vardar.Vmm.Session`: operations, and a machine with the log of its operations.
* `Vardar.Vmm.lastMapped`: the map a log stands for.
* `Vardar.Vmm.Start`: zeroed roots, and frames that are not in use.

## Main results

* `Vardar.Vmm.vAddrToPAddr_eq_lastMapped`: the refinement.
-/

namespace Vardar.Vmm

open ByteMemory RadixTree

/-- An operation on an address space. -/
inductive Op
  | map (root vaddr paddr flags : ℕ)
  | unmap (root vaddr : ℕ)

/-- The root an operation works on. -/
def Op.root : Op → ℕ
  | .map root _ _ _ => root
  | .unmap root _ => root

/-- Physical addresses are aligned, and the flags are nine bits with `PRESENT` among them. -/
def Op.Allowed (R : Set ℕ) : Op → Prop
  | .map root _ paddr flags =>
    root ∈ R ∧ paddr % frameSize = 0 ∧ paddr < 2 ^ 64 ∧ flags < 512 ∧ flags &&& present ≠ 0
  | .unmap root _ => root ∈ R

/-- The call an operation stands for. -/
def Op.call (s : Machine) : Op → Bool × Machine
  | .map root vaddr paddr flags => mapPage s root vaddr paddr flags
  | .unmap root vaddr => unmapPage s root vaddr

/-- A machine and the operations it has done with their results, newest first. -/
structure Session where
  machine : Machine
  log : List (Op × Bool)

/-- Do an operation and log it. -/
def Session.step (x : Session) (op : Op) : Session :=
  ⟨(op.call x.machine).2, (op, (op.call x.machine).1) :: x.log⟩

/-- The physical address of the last successful `MapPage` for a page that no later `UnmapPage`
removed, 0 if there is none. -/
def lastMapped (r page : ℕ) : List (Op × Bool) → ℕ
  | [] => 0
  | (.map root vaddr paddr _, true) :: log =>
    if root = r ∧ pageNumber vaddr = page then paddr else lastMapped r page log
  | (.map _ _ _ _, false) :: log => lastMapped r page log
  | (.unmap root vaddr, _) :: log =>
    if root = r ∧ pageNumber vaddr = page then 0 else lastMapped r page log

/-- The roots are zeroed aligned frames, and every result of `AllocFirstFrame` is null or an
aligned frame that is not a root and was not returned before. -/
structure Start (R : Set ℕ) (s : Machine) : Prop where
  root : ∀ r ∈ R, r % 4096 = 0 ∧ r < 2 ^ 64 ∧ ∀ x, r ≤ x → x < r + 4096 → s.mem x = 0
  frame : ∀ n f, s.next ≤ n → s.frames n = some f →
    f % 4096 = 0 ∧ 0 < f ∧ f < 2 ^ 64 ∧ f ∉ R
  distinct : ∀ n k f, s.next ≤ n → s.next ≤ k → s.frames n = some f → s.frames k = some f → n = k

variable {R : Set ℕ} {s : Machine}

namespace Start

theorem entry_eq_zero (h : Start R s) {r : ℕ} (hr : r ∈ R) (i : Fin 512) : entry s.mem r i = 0 := by
  obtain ⟨hal, h64, hzero⟩ := h.root r hr
  have hi := i.isLt
  rw [entry, slot_eq hal h64]
  exact load_eq_zero fun x hx hx' => hzero x (by omega) (by omega)

theorem walk_cons (h : Start R s) {r : ℕ} (hr : r ∈ R) (i : Fin 512) (p : List (Fin 512)) :
    walk s.mem r (i :: p) = none := by
  simp [walk, RadixTree.walk, h.entry_eq_zero hr]

theorem word_eq_zero (h : Start R s) {r : ℕ} (hr : r ∈ R) (p : List (Fin 512)) (i : Fin 512) :
    word s.mem r p i = 0 := by
  cases p with
  | nil => exact (word_of_walk rfl).trans (h.entry_eq_zero hr i)
  | cons j p => exact word_of_walk_none (h.walk_cons hr j p)

theorem mem_of_mem_tables (h : Start R s) {t : ℕ} (ht : t ∈ tables R s.mem) : t ∈ R := by
  obtain ⟨r, hr, p, -, hw⟩ := ht
  cases p with
  | nil => exact Option.some.inj hw ▸ hr
  | cons i p => exact absurd (hw.symm.trans (h.walk_cons hr i p)) (by simp)

/-- Zeroed roots are a tree without links. -/
theorem ok (h : Start R s) : Ok R s := by
  refine ⟨?_, fun t ht => ?_, fun r hr p i _ hodd => ?_, fun n f hn hf => ?_, h.distinct⟩
  · intro r hr r' hr' p p' _ _ t hw hw'
    cases p with
    | nil =>
      cases p' with
      | nil => exact ⟨(Option.some.inj hw).trans (Option.some.inj hw').symm, rfl⟩
      | cons i p' => exact absurd (hw'.symm.trans (h.walk_cons hr' i p')) (by simp)
    | cons i p => exact absurd (hw.symm.trans (h.walk_cons hr i p)) (by simp)
  · obtain ⟨hal, h64, -⟩ := h.root t (h.mem_of_mem_tables ht)
    exact ⟨hal, h64⟩
  · rw [h.word_eq_zero hr] at hodd
    omega
  · obtain ⟨hal, h0, h64, hnot⟩ := h.frame n f hn hf
    exact ⟨hal, h0, h64, fun hmem => hnot (h.mem_of_mem_tables hmem)⟩

end Start

theorem odd_of_present {flags : ℕ} (h : flags &&& present ≠ 0) : flags % 2 = 1 := by
  rw [present, Word.land_one] at h
  omega

/-- The address in a last-level word. -/
theorem lor_land_addressMask {paddr flags : ℕ} (hp : paddr % frameSize = 0) (h64 : paddr < 2 ^ 64)
    (hflags : flags < 512) : (paddr ||| flags) &&& addressMask = paddr := by
  simp only [frameSize] at hp
  rw [lor_flags (by omega) hflags, land_addressMask (by omega)]
  omega

/-- The machine is a tree whose last-level words agree with the log. -/
def Session.Agrees (R : Set ℕ) (x : Session) : Prop :=
  Ok R x.machine ∧ ∀ r ∈ R, ∀ v,
    vAddrToPAddr x.machine.mem r v = lastMapped r (pageNumber v) x.log

namespace Session.Agrees

variable {x : Session}

theorem step {op : Op} (h : x.Agrees R) (hop : op.Allowed R) : (x.step op).Agrees R := by
  obtain ⟨hok, hmap⟩ := h
  simp only [vAddrToPAddr_eq] at hmap
  cases op with
  | map root vaddr paddr flags =>
    obtain ⟨hr, hp, h64, hflags, hpres⟩ := hop
    obtain ⟨b, s', hcall, hkeep, -, hleaf, -⟩ :=
      hok.mapPage hr vaddr h64 hflags (odd_of_present hpres)
    simp only [Session.step, Op.call, hcall]
    refine ⟨hkeep.ok, fun r hr' v => ?_⟩
    rw [vAddrToPAddr_eq, hleaf r hr' v]
    cases b with
    | false => simpa [lastMapped] using hmap r hr' v
    | true =>
      simp only [true_and, lastMapped, eq_comm (a := root) (b := r),
        eq_comm (a := pageNumber vaddr)]
      split_ifs with heq
      · exact lor_land_addressMask hp h64 hflags
      · exact hmap r hr' v
  | unmap root vaddr =>
    obtain ⟨b, s', hcall, hkeep, -, hleaf, -⟩ := hok.unmapPage hop vaddr
    simp only [Session.step, Op.call, hcall]
    refine ⟨hkeep.ok, fun r hr' v => ?_⟩
    rw [vAddrToPAddr_eq, hleaf r hr' v]
    simp only [lastMapped, eq_comm (a := root) (b := r), eq_comm (a := pageNumber vaddr)]
    split_ifs with heq
    · exact Nat.zero_and _
    · exact hmap r hr' v

/-- A failing call, and a call on another root, change no translation. -/
theorem call_frame {op : Op} (h : x.Agrees R) (hop : op.Allowed R) {r : ℕ} (hr : r ∈ R) (v : ℕ)
    (hno : (op.call x.machine).1 = false ∨ op.root ≠ r) :
    vAddrToPAddr (op.call x.machine).2.mem r v = vAddrToPAddr x.machine.mem r v := by
  have hstep := (h.step hop).2 r hr v
  rw [h.2 r hr v]
  cases op with
  | map root vaddr paddr flags =>
    refine hstep.trans ?_
    simp only [Session.step]
    cases hb : (Op.call x.machine (.map root vaddr paddr flags)).1 with
    | false => rfl
    | true =>
      have hroot : root ≠ r := hno.resolve_left (by simp [hb])
      simp [lastMapped, hroot]
  | unmap root vaddr =>
    rcases hno with hb | hroot
    · obtain ⟨b, s', hcall, -, -, -, hsame⟩ := h.1.unmapPage hop vaddr
      simp only [Op.call, hcall] at hb ⊢
      rw [hsame hb]
      exact h.2 r hr v
    · refine hstep.trans ?_
      have hroot : root ≠ r := hroot
      simp [Session.step, lastMapped, hroot]

end Session.Agrees

/-- **Page tables refine a map per address space.** From any set of zeroed roots, after any
sequence of `MapPage` and `UnmapPage` whatever the results of `AllocFirstFrame`, `VAddrToPAddr`
gives the last mapping of the page of the address. One more call that fails, or that is on another
root, changes no translation. -/
theorem vAddrToPAddr_eq_lastMapped (hs : Start R s) (ops : List Op)
    (hops : ∀ op ∈ ops, op.Allowed R) {r : ℕ} (hr : r ∈ R) (v : ℕ) :
    let x := ops.foldl Session.step ⟨s, []⟩
    vAddrToPAddr x.machine.mem r v = lastMapped r (pageNumber v) x.log ∧
      ∀ op : Op, op.Allowed R → ((op.call x.machine).1 = false ∨ op.root ≠ r) →
        vAddrToPAddr (op.call x.machine).2.mem r v = vAddrToPAddr x.machine.mem r v := by
  intro x
  have h0 : Session.Agrees R ⟨s, []⟩ := by
    refine ⟨hs.ok, fun r hr v => ?_⟩
    rw [vAddrToPAddr_eq, leaf, hs.word_eq_zero hr]
    exact Nat.zero_and _
  have hx : x.Agrees R := (Run.along_of_forall hops).invariant (fun _ _ h hop => h.step hop) h0
  exact ⟨hx.2 r hr v, fun op hop hno => hx.call_frame hop hr v hno⟩

/-- Two address spaces and three frames: the second `MapPage` finds no frame. -/
theorem vAddrToPAddr_eq_lastMapped_two :
    vAddrToPAddr ([Op.map 4096 0x400000 0x70000 3, .map 8192 0x400000 0x80000 3].foldl Session.step
      ⟨⟨fun _ => 0, fun n => if n < 3 then some (4096 * (n + 3)) else none, 0⟩, []⟩).machine.mem
        4096 0x400000 = 0x70000 := by
  have hs : Start {4096, 8192}
      ⟨fun _ => 0, fun n => if n < 3 then some (4096 * (n + 3)) else none, 0⟩ := by
    refine ⟨?_, fun n f _ hf => ?_, fun n k f _ _ hn hk => ?_⟩
    · rintro r (rfl | rfl)
      · exact ⟨rfl, by decide, fun _ _ _ => rfl⟩
      · exact ⟨rfl, by decide, fun _ _ _ => rfl⟩
    · obtain ⟨hlt, rfl⟩ : n < 3 ∧ 4096 * (n + 3) = f := by simpa using hf
      refine ⟨by omega, by omega, by omega, ?_⟩
      rintro (heq | heq)
      · omega
      · have heq : 4096 * (n + 3) = 8192 := heq
        omega
    · obtain ⟨-, rfl⟩ : n < 3 ∧ 4096 * (n + 3) = f := by simpa using hn
      obtain ⟨-, heq⟩ : k < 3 ∧ 4096 * (k + 3) = 4096 * (n + 3) := by simpa using hk
      omega
  refine (vAddrToPAddr_eq_lastMapped hs _ ?_ (.inl rfl) 0x400000).1.trans (by decide +kernel)
  simp [Op.Allowed, frameSize, present]

end Vardar.Vmm
