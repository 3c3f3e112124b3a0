import Vardar.Vmm.Refinement

/-!
# Effective access rights

The processor grants an access only if the words on all four levels of the walk do. `MapPage`
gives a table the flags of the mapping that creates it and never changes them, so a page mapped
for users stays closed to them below a table that a kernel page created.

## Main definitions

* `Vardar.Vmm.rights`: the flag bits common to the four words of a walk.
* `Vardar.Vmm.Mapping.Unobstructed`: the condition under which a page gets its own flags.

## Main results

* `Vardar.Vmm.rights_eq_flags_iff`: exactly when a page has the rights it was mapped with.
* `Vardar.Vmm.rights_depend_on_order`: a kernel and a user page in both orders.
-/

namespace Vardar.Vmm

open ByteMemory RadixTree

/-- The flag bits of a word. -/
def flagBits (w : ℕ) : ℕ := w % 512

/-- The AND of the flag bits along the four-level walk of an address. -/
def rights (m : Mem) (root vaddr : ℕ) : ℕ :=
  flagBits (word m root [] (vAddrIndex vaddr 4)) &&&
    flagBits (word m root [vAddrIndex vaddr 4] (vAddrIndex vaddr 3)) &&&
    flagBits (word m root [vAddrIndex vaddr 4, vAddrIndex vaddr 3] (vAddrIndex vaddr 2)) &&&
    flagBits (leaf m root vaddr)

/-- The arguments of a `MapPage`. -/
structure Mapping where
  vaddr : ℕ
  paddr : ℕ
  flags : ℕ

namespace Mapping

/-- The `MapPage` on the given root. -/
def call (root : ℕ) (s : Machine) (x : Mapping) : Bool × Machine :=
  mapPage s root x.vaddr x.paddr x.flags

/-- An aligned frame with kernel or user flags. -/
def Valid (x : Mapping) : Prop :=
  x.paddr % frameSize = 0 ∧ x.paddr < 2 ^ 64 ∧ (x.flags = kernelPage ∨ x.flags = userPage)

/-- The flags of the first mapping below the table entry at a path, 0 if there is none. -/
def creatorFlags (xs : List Mapping) (path : List (Fin 512)) : ℕ :=
  ((xs.find? fun y => path <+: indices y.vaddr).map flags).getD 0

/-- The page is a kernel page, or on each of the three upper levels the first mapping of the
sequence below the same table entry is a user page. -/
def Unobstructed (xs : List Mapping) (x : Mapping) : Prop :=
  x.flags = kernelPage ∨ ∀ n ∈ [1, 2, 3], creatorFlags xs ((indices x.vaddr).take n) = userPage

instance (xs : List Mapping) (x : Mapping) : Decidable (Unobstructed xs x) :=
  inferInstanceAs (Decidable (_ ∨ _))

theorem Valid.flags_bounds {x : Mapping} (h : x.Valid) : x.flags < 512 ∧ x.flags % 2 = 1 := by
  rcases h.2.2 with hf | hf
  · rw [hf]
    decide
  · rw [hf]
    decide

theorem creatorFlags_append (xs : List Mapping) (x : Mapping) (path : List (Fin 512)) :
    creatorFlags (xs ++ [x]) path = if (xs.find? fun y => path <+: indices y.vaddr).isSome then
      creatorFlags xs path else if path <+: indices x.vaddr then x.flags else 0 := by
  rw [creatorFlags, List.find?_append]
  cases hfind : xs.find? fun y => decide (path <+: indices y.vaddr) with
  | some y => simp [creatorFlags, hfind]
  | none =>
    by_cases hpre : path <+: indices x.vaddr
    · simp [hpre]
    · simp [hpre]

end Mapping

open Mapping

/-- The words after the mappings `xs`: upper words have the flags of their creators, and every
page mapped has its own flags on the last level. -/
structure Mapped (r : ℕ) (s : Machine) (xs : List Mapping) : Prop where
  ok : Ok {r} s
  upper : ∀ p j, p.length ≤ 2 → flagBits (word s.mem r p j) = creatorFlags xs (p ++ [j])
  last : ∀ x ∈ xs, flagBits (leaf s.mem r x.vaddr) = x.flags

theorem Mapped.step {r : ℕ} {s : Machine} {xs : List Mapping} {x : Mapping} (h : Mapped r s xs)
    (hxs : ∀ y ∈ xs, y.Valid) (hx : x.Valid)
    (hnew : ∀ y ∈ xs, pageNumber y.vaddr ≠ pageNumber x.vaddr)
    (hb : (x.call r s).1 = true) : Mapped r (x.call r s).2 (xs ++ [x]) := by
  obtain ⟨hlt, hodd⟩ := hx.flags_bounds
  obtain ⟨b, s', hcall, hkeep, -, hleaf, hupper, hpres, -⟩ :=
    h.ok.mapPage rfl x.vaddr hx.2.1 hlt hodd
  rw [call, hcall] at hb ⊢
  obtain rfl : b = true := hb
  refine ⟨hkeep.ok, fun p j hp => ?_, fun y hy => ?_⟩
  · have hold := h.upper p j hp
    have hword := hupper r rfl p j hp
    rw [creatorFlags_append]
    rw [creatorFlags] at hold
    cases hfind : xs.find? fun y => decide (p ++ [j] <+: indices y.vaddr) with
    | some y =>
      -- the entry has been present since its creator was mapped
      rw [hfind] at hold
      have hy := (hxs y (List.mem_of_find?_eq_some hfind)).flags_bounds
      have hold : flagBits (word s.mem r p j) = y.flags := hold
      simp only [flagBits] at hold ⊢
      rw [if_pos Option.isSome_some, creatorFlags, hfind]
      change word s'.mem r p j % 512 = y.flags
      rcases hword with heq | ⟨-, -, heven, -⟩
      · rw [heq, hold]
      · omega
    | none =>
      rw [hfind] at hold
      have hold : word s.mem r p j % 512 = 0 := hold
      rw [if_neg (by simp)]
      split_ifs with hpre
      · have hnow := hpres rfl p j hpre
        rcases hword with heq | ⟨-, -, -, hflags⟩
        · rw [heq] at hnow
          omega
        · exact hflags
      · rcases hword with heq | ⟨-, hpre', -⟩
        · rw [flagBits, heq, hold]
        · exact absurd hpre' hpre
  · rw [hleaf r rfl y.vaddr]
    rcases List.mem_append.mp hy with hy | hy
    · rw [if_neg fun heq => hnew y hy heq.2.2]
      exact h.last y hy
    · obtain rfl := List.mem_singleton.mp hy
      have hpal := hx.1
      simp only [frameSize] at hpal
      rw [if_pos ⟨rfl, rfl, rfl⟩, lor_flags (by omega) hlt, flagBits]
      omega

theorem Mapped.run {r : ℕ} {s : Machine} {xs ys : List Mapping} (h : Mapped r s xs)
    (hvalid : ∀ y ∈ xs ++ ys, y.Valid)
    (hpages : (xs ++ ys).Pairwise fun y y' => pageNumber y.vaddr ≠ pageNumber y'.vaddr)
    (hrun : Run.Along (fun s x => (Mapping.call r s x).2)
      (fun s x => (Mapping.call r s x).1 = true) s ys) :
    Mapped r (ys.foldl (fun s x => (Mapping.call r s x).2) s) (xs ++ ys) := by
  induction ys generalizing xs s with
  | nil => simpa using h
  | cons y ys ih =>
    have hnew : ∀ x ∈ xs, pageNumber x.vaddr ≠ pageNumber y.vaddr := fun x hx =>
      (List.pairwise_append.mp hpages).2.2 x hx y List.mem_cons_self
    have hstep := h.step (fun x hx => hvalid x (List.mem_append_left _ hx)) (hvalid y (by simp)) hnew
      hrun.1
    have happ : xs ++ y :: ys = (xs ++ [y]) ++ ys := by simp
    rw [happ] at hvalid hpages ⊢
    exact ih hstep hvalid hpages hrun.2

/-- Two-valued flags: the AND of four of them. -/
theorem land_flags_eq_iff {a b c f : ℕ} (ha : a = kernelPage ∨ a = userPage)
    (hb : b = kernelPage ∨ b = userPage) (hc : c = kernelPage ∨ c = userPage)
    (hf : f = kernelPage ∨ f = userPage) :
    a &&& b &&& c &&& f = f ↔ f = kernelPage ∨ (a = userPage ∧ b = userPage ∧ c = userPage) := by
  rcases ha with rfl | rfl <;> rcases hb with rfl | rfl <;> rcases hc with rfl | rfl <;>
    rcases hf with rfl | rfl <;> decide

/-- A mapping of the sequence is below each of its own table entries, so they have creators. -/
theorem creatorFlags_valid {xs : List Mapping} (hvalid : ∀ y ∈ xs, y.Valid) {x : Mapping}
    (hx : x ∈ xs) {path : List (Fin 512)} (hpath : path <+: indices x.vaddr) :
    creatorFlags xs path = kernelPage ∨ creatorFlags xs path = userPage := by
  cases hfind : xs.find? fun y => decide (path <+: indices y.vaddr) with
  | none =>
    have hno := List.find?_eq_none.mp hfind x hx
    simp [hpath] at hno
  | some y =>
    rw [creatorFlags, hfind]
    exact (hvalid y (List.mem_of_find?_eq_some hfind)).2.2

/-- **When access rights follow the flags.** After any sequence of successful `MapPage` calls on
distinct pages of a zeroed root, a page has exactly the rights it was mapped with if and only if
it is a kernel page or no kernel page created a table on its way. -/
theorem rights_eq_flags_iff {r : ℕ} {s : Machine} (hs : Start {r} s) (xs : List Mapping)
    (hvalid : ∀ x ∈ xs, x.Valid)
    (hpages : xs.Pairwise fun x x' => pageNumber x.vaddr ≠ pageNumber x'.vaddr)
    (hrun : Run.Along (fun s x => (Mapping.call r s x).2)
      (fun s x => (Mapping.call r s x).1 = true) s xs) (x : Mapping) (hx : x ∈ xs) :
    rights (xs.foldl (fun s x => (Mapping.call r s x).2) s).mem r x.vaddr = x.flags ↔
      Unobstructed xs x := by
  have h0 : Mapped r s [] := by
    refine ⟨hs.ok, fun p j _ => ?_, by simp⟩
    rw [hs.word_eq_zero rfl]
    rfl
  have hend := h0.run hvalid hpages hrun
  rw [List.nil_append] at hend
  have htake (n : ℕ) := creatorFlags_valid hvalid hx (List.take_prefix n (indices x.vaddr))
  rw [rights, hend.upper _ _ (by simp), hend.upper _ _ (by simp), hend.upper _ _ (by simp),
    hend.last x hx]
  refine (land_flags_eq_iff (htake 1) (htake 2) (htake 3) (hvalid x hx).2.2).trans ?_
  simp [Unobstructed]

/-- Three frames for the tables below a root at `4096`. -/
def threeFrames : Machine := ⟨fun _ => 0, fun n => if n < 3 then some (4096 * (n + 2)) else none, 0⟩

theorem start_threeFrames : Start {4096} threeFrames := by
  refine ⟨?_, fun n f _ hf => ?_, fun n k f _ _ hn hk => ?_⟩
  · rintro r rfl
    exact ⟨rfl, by decide, fun _ _ _ => rfl⟩
  · obtain ⟨hlt, rfl⟩ : n < 3 ∧ 4096 * (n + 2) = f := by simpa [threeFrames] using hf
    refine ⟨by omega, by omega, by omega, fun heq => ?_⟩
    have heq : 4096 * (n + 2) = 4096 := heq
    omega
  · obtain ⟨-, rfl⟩ : n < 3 ∧ 4096 * (n + 2) = f := by simpa [threeFrames] using hn
    obtain ⟨-, heq⟩ : k < 3 ∧ 4096 * (k + 2) = 4096 * (n + 2) := by simpa [threeFrames] using hk
    omega

/-- A user page mapped before a kernel page in the same tables keeps its rights. -/
theorem rights_eq_flags_iff_user_first :
    rights ([⟨0x401000, 0x71000, userPage⟩, ⟨0x400000, 0x70000, kernelPage⟩].foldl
      (fun s x => (Mapping.call 4096 s x).2) threeFrames).mem 4096 0x401000 = userPage :=
  (rights_eq_flags_iff start_threeFrames _ (by simp [Valid, frameSize]) (by decide)
    (by decide +kernel) ⟨0x401000, 0x71000, userPage⟩ (by simp)).mpr (by decide)

/-- A kernel page and a user page of the same table: mapped first, the kernel page closes the
tables to the user page; mapped second, it does not. -/
theorem rights_depend_on_order :
    Run.Along (fun s x => (Mapping.call 4096 s x).2) (fun s x => (Mapping.call 4096 s x).1 = true)
        threeFrames [⟨0x400000, 0x70000, kernelPage⟩, ⟨0x401000, 0x71000, userPage⟩] ∧
      rights ([⟨0x400000, 0x70000, kernelPage⟩, ⟨0x401000, 0x71000, userPage⟩].foldl
        (fun s x => (Mapping.call 4096 s x).2) threeFrames).mem 4096 0x401000 = kernelPage ∧
      rights ([⟨0x401000, 0x71000, userPage⟩, ⟨0x400000, 0x70000, kernelPage⟩].foldl
        (fun s x => (Mapping.call 4096 s x).2) threeFrames).mem 4096 0x401000 = userPage := by
  decide +kernel

end Vardar.Vmm
