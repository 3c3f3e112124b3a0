import Vardar.Lib.RadixTree
import Vardar.Vmm.Vmm

/-!
# Page tables as trees

The page tables of a set of roots are a tree of tables: no table is reached along two paths, the
tables are aligned frames and the frames still to come are not among them. `MapPage` and
`UnmapPage` keep this and change one last-level word at most; on the way `MapPage` may link new
tables, whose words get its flags.

## Main definitions

* `Vardar.Vmm.walk`, `Vardar.Vmm.word`, `Vardar.Vmm.leaf`: the words of the tree.
* `Vardar.Vmm.Ok`: the invariant of a machine with the given roots.
* `Vardar.Vmm.Keeps`: what every operation on page tables keeps.
* `Vardar.Vmm.Created`: the words linked on the way along a path.

## Main results

* `Vardar.Vmm.Ok.mapPage`, `Vardar.Vmm.Ok.unmapPage`: the effect of the two operations.
-/

namespace Vardar.Vmm

open ByteMemory Word RadixTree

/-! ### Words of the tree -/

/-- The table a path of indices leads to. -/
def walk (m : Mem) (root : ℕ) (p : List (Fin 512)) : Option ℕ :=
  RadixTree.walk tableOf (entry m) root p

/-- The word at index `i` of the table a path leads to, 0 if there is none. -/
def word (m : Mem) (root : ℕ) (p : List (Fin 512)) (i : Fin 512) : ℕ :=
  RadixTree.word tableOf 0 (entry m) root p i

/-- The tables below a set of roots. -/
def tables (R : Set ℕ) (m : Mem) : Set ℕ := RadixTree.tables tableOf (entry m) R 3

/-- The indices of the three upper levels. -/
def indices (vaddr : ℕ) : List (Fin 512) := [4, 3, 2].map (vAddrIndex vaddr)

/-- The last-level word of a virtual address. -/
def leaf (m : Mem) (root vaddr : ℕ) : ℕ := word m root (indices vaddr) (vAddrIndex vaddr 1)

/-- Bits 12 to 47 of a virtual address. -/
def pageNumber (vaddr : ℕ) : ℕ := vaddr / frameSize % 2 ^ 36

@[simp] theorem length_indices (vaddr : ℕ) : (indices vaddr).length = 3 := rfl

theorem vAddrIndex_val (vaddr level : ℕ) :
    (vAddrIndex vaddr level : ℕ) = vaddr / 2 ^ (12 + 9 * (level - 1)) % 512 := by
  change vaddr >>> (12 + 9 * (level - 1)) &&& (2 ^ 9 - 1) = _
  rw [Nat.and_two_pow_sub_one_eq_mod, Nat.shiftRight_eq_div_pow]

/-- Two addresses have the same indices if and only if they are on the same page. -/
theorem pageNumber_eq_iff (v v' : ℕ) : pageNumber v = pageNumber v' ↔
    indices v = indices v' ∧ vAddrIndex v 1 = vAddrIndex v' 1 := by
  simp only [indices, List.map_cons, List.map_nil, List.cons.injEq, and_true, Fin.ext_iff,
    vAddrIndex_val, pageNumber, frameSize]
  norm_num
  omega

theorem getTables_eq_walk (m : Mem) (vaddr : ℕ) (levels : List ℕ) (t : ℕ) :
    getTables m vaddr levels t = walk m t (levels.map (vAddrIndex vaddr)) := by
  induction levels generalizing t with
  | nil => rfl
  | cons i levels ih =>
    simp only [getTables, getPageTable, List.map_cons, walk, RadixTree.walk]
    congr 1
    funext child
    exact ih child

/-- `VAddrToPAddr` is the last-level word without its flags. -/
theorem vAddrToPAddr_eq (m : Mem) (root vaddr : ℕ) :
    vAddrToPAddr m root vaddr = leaf m root vaddr &&& addressMask := by
  have hwalk := getTables_eq_walk m vaddr [4, 3, 2] root
  cases hw : walk m root (indices vaddr) with
  | none =>
    rw [leaf, word, word_of_walk_none hw, Nat.zero_and, vAddrToPAddr,
      show getTables m vaddr [4, 3, 2] root = none from hwalk.trans hw]
  | some t =>
    rw [leaf, word, word_of_walk hw, vAddrToPAddr,
      show getTables m vaddr [4, 3, 2] root = some t from hwalk.trans hw]

/-! ### Flags and addresses in a word -/

theorem getPageFlag_present (w : ℕ) : getPageFlag w present = true ↔ w % 2 = 1 := by
  simp only [getPageFlag, present, land_one, decide_eq_true_eq]
  omega

theorem land_addressMask {w : ℕ} (hw : w < 2 ^ 64) : w &&& addressMask = w / 512 * 512 := by
  rw [addressMask, show (2 ^ 64 - 512 : ℕ) = (2 ^ 55 - 1) * 2 ^ 9 by norm_num, land_mask]
  norm_num
  omega

theorem lor_flags {a flags : ℕ} (ha : a % 512 = 0) (hf : flags < 512) : a ||| flags = a + flags :=
  lor_of_dvd (i := 9) (Nat.dvd_of_mod_eq_zero ha) hf

/-- The table in the word of a link. -/
theorem tableOf_lor {f flags : ℕ} (hf : f % 4096 = 0) (h0 : 0 < f) (h64 : f < 2 ^ 64)
    (hflags : flags < 512) (hp : flags % 2 = 1) : tableOf (f ||| flags) = some f := by
  rw [lor_flags (by omega) hflags, tableOf, if_pos ((getPageFlag_present _).mpr (by omega)),
    land_addressMask (by omega), nonNull, if_neg (by omega)]
  congr 1
  omega

theorem tableOf_of_even {w : ℕ} (h : w % 2 = 0) : tableOf w = none := by
  rw [tableOf, if_neg]
  rw [getPageFlag_present]
  omega

@[simp] theorem tableOf_zero : tableOf 0 = none := tableOf_of_even rfl

/-! ### Entries after a write -/

section Entries

variable {m : Mem} {t t' : ℕ} {i j : Fin 512}

theorem slot_eq (ht : t % 4096 = 0) (h64 : t < 2 ^ 64) (i : Fin 512) : slot t i = t + 8 * i := by
  have hi := i.isLt
  exact add64_of_lt (by omega)

theorem entry_store_self {w : ℕ} (hw : w < 2 ^ 64) :
    entry (store m (slot t i) 8 w) t i = w := by
  rw [entry, load_store_self]
  exact Nat.mod_eq_of_lt hw

theorem entry_store_of_ne (ht : t % 4096 = 0) (h64 : t < 2 ^ 64) (ht' : t' % 4096 = 0)
    (h64' : t' < 2 ^ 64) (hne : t' ≠ t ∨ j ≠ i) {w : ℕ} :
    entry (store m (slot t i) 8 w) t' j = entry m t' j := by
  have hi := i.isLt
  have hj := j.isLt
  rw [entry, entry, slot_eq ht h64, slot_eq ht' h64']
  refine load_store_of_disjoint ?_
  rcases hne with hne | hne
  · omega
  · have hval : (j : ℕ) ≠ i := fun h => hne (Fin.ext h)
    omega

theorem entry_memset_self (ht : t % 4096 = 0) (h64 : t < 2 ^ 64) (j : Fin 512) :
    entry (memset m t 0 frameSize) t j = 0 := by
  have hj := j.isLt
  rw [entry, slot_eq ht h64, memset_zero]
  exact load_fill_zero (by omega) (by simp only [frameSize]; omega)

theorem entry_congr {m' : Mem} (ht : t % 4096 = 0) (h64 : t < 2 ^ 64)
    (h : ∀ x, x / 4096 * 4096 = t → m' x = m x) (j : Fin 512) : entry m' t j = entry m t j := by
  have hj := j.isLt
  rw [entry, entry, slot_eq ht h64]
  exact load_congr fun x hx hx' => h x (by omega)

end Entries

/-! ### The invariant -/

/-- The page tables of the roots in `R` are a tree of aligned tables in which every present upper
word points to a table, and the frames still to come are aligned, distinct and not in use. -/
structure Ok (R : Set ℕ) (s : Machine) : Prop where
  sep : Separate tableOf (entry s.mem) R 3
  table : ∀ t ∈ tables R s.mem, t % 4096 = 0 ∧ t < 2 ^ 64
  linked : ∀ r ∈ R, ∀ p i, p.length ≤ 2 → word s.mem r p i % 2 = 1 →
    tableOf (word s.mem r p i) ≠ none
  frame : ∀ n f, s.next ≤ n → s.frames n = some f →
    f % 4096 = 0 ∧ 0 < f ∧ f < 2 ^ 64 ∧ f ∉ tables R s.mem
  distinct : ∀ n k f, s.next ≤ n → s.next ≤ k → s.frames n = some f → s.frames k = some f → n = k

/-- Frame number `g` is not a table and will not be returned by `AllocFirstFrame`. -/
def Spare (R : Set ℕ) (s : Machine) (g : ℕ) : Prop :=
  g * 4096 ∉ tables R s.mem ∧ ∀ n, s.next ≤ n → s.frames n ≠ some (g * 4096)

/-- The invariant holds after the step, no result of `AllocFirstFrame` is returned again, links
stay, and the frames that have nothing to do with the page tables keep their bytes. -/
structure Keeps (R : Set ℕ) (s s' : Machine) : Prop where
  ok : Ok R s'
  frames : s'.frames = s.frames
  next : s.next ≤ s'.next
  links : ∀ r ∈ R, ∀ p i, p.length ≤ 2 → word s.mem r p i % 2 = 1 →
    word s'.mem r p i = word s.mem r p i
  spare : ∀ g, Spare R s g → Spare R s' g
  bytes : ∀ x, Spare R s (x / 4096) → s'.mem x = s.mem x

namespace Keeps

variable {R : Set ℕ} {s s' s'' : Machine}

theorem refl (h : Ok R s) : Keeps R s s :=
  ⟨h, rfl, le_rfl, fun _ _ _ _ _ _ => rfl, fun _ hg => hg, fun _ _ => rfl⟩

theorem trans (h : Keeps R s s') (h' : Keeps R s' s'') : Keeps R s s'' where
  ok := h'.ok
  frames := h'.frames.trans h.frames
  next := h.next.trans h'.next
  links r hr p i hp hodd := by
    have hstay := h.links r hr p i hp hodd
    rw [h'.links r hr p i hp (by rwa [hstay]), hstay]
  spare g hg := h'.spare g (h.spare g hg)
  bytes x hx := (h'.bytes x (h.spare _ hx)).trans (h.bytes x hx)

end Keeps

/-- The words that may change when the tables along `path` are created: words that were not
present, on the way along the path, which now have the given flags. -/
def Created (R : Set ℕ) (s s' : Machine) (r : ℕ) (path : List (Fin 512)) (flags : ℕ) : Prop :=
  ∀ r' ∈ R, ∀ p j, p.length ≤ 3 → word s'.mem r' p j = word s.mem r' p j ∨
    (r' = r ∧ p ++ [j] <+: path ∧ word s.mem r' p j % 2 = 0 ∧ word s'.mem r' p j % 512 = flags)

namespace Created

variable {R : Set ℕ} {s s' s'' : Machine} {r flags : ℕ} {path : List (Fin 512)}

theorem refl : Created R s s r path flags := fun _ _ _ _ _ => .inl rfl

theorem trans (hodd : flags % 2 = 1) (h : Created R s s' r path flags)
    (h' : Created R s' s'' r path flags) : Created R s s'' r path flags := by
  intro r' hr' p j hp
  rcases h' r' hr' p j hp with heq | ⟨rfl, hpre, heven, hnew⟩
  · rw [heq]
    exact h r' hr' p j hp
  · rcases h r' hr' p j hp with heq | ⟨-, -, -, hflags⟩
    · exact .inr ⟨rfl, hpre, heq ▸ heven, hnew⟩
    · omega

theorem mono {path' : List (Fin 512)} (h : Created R s s' r path flags) (hp : path <+: path') :
    Created R s s' r path' flags := by
  intro r' hr' p j hlen
  rcases h r' hr' p j hlen with heq | ⟨hr, hpre, hrest⟩
  · exact .inl heq
  · exact .inr ⟨hr, hpre.trans hp, hrest⟩

/-- Last-level words do not change. -/
theorem leaf_eq (h : Created R s s' r path flags) (hpath : path.length ≤ 3) {r' : ℕ}
    (hr' : r' ∈ R) {p : List (Fin 512)} (hp : p.length = 3) (j : Fin 512) :
    word s'.mem r' p j = word s.mem r' p j := by
  rcases h r' hr' p j hp.le with heq | ⟨-, hpre, -⟩
  · exact heq
  · have hlen := hpre.length_le
    simp only [List.length_append, List.length_singleton] at hlen
    omega

end Created

namespace Ok

variable {R : Set ℕ} {s : Machine} {r t f flags : ℕ} {q : List (Fin 512)} {i : Fin 512} {m : Mem}

/-! ### Writes outside the tables -/

section Outside

variable (h : Ok R s) (hm : ∀ x, x / 4096 * 4096 ∈ tables R s.mem → m x = s.mem x)

include h hm

theorem entry_outside (ht : t ∈ tables R s.mem) (j : Fin 512) : entry m t j = entry s.mem t j := by
  obtain ⟨hal, h64⟩ := h.table t ht
  exact entry_congr hal h64 (fun x hx => hm x (hx ▸ ht)) j

theorem word_outside (hr : r ∈ R) (hq : q.length ≤ 3) (i : Fin 512) :
    word m r q i = word s.mem r q i :=
  word_congr (fun _ ht => h.entry_outside hm ht) hr hq

theorem tables_outside : tables R m = tables R s.mem :=
  tables_congr fun _ ht => h.entry_outside hm ht

/-- Bytes outside the tables are free to change. -/
theorem outside : Ok R { s with mem := m } where
  sep := h.sep.congr fun _ ht => h.entry_outside hm ht
  table t ht := h.table t (h.tables_outside hm ▸ ht)
  linked r hr p i hp hodd := by
    rw [h.word_outside hm hr (by omega)] at hodd ⊢
    exact h.linked r hr p i hp hodd
  frame n f hn hf := by
    rw [h.tables_outside hm]
    exact h.frame n f hn hf
  distinct := h.distinct

end Outside

/-- Using up a result of `AllocFirstFrame`. -/
theorem advance (h : Ok R s) : Ok R { s with next := s.next + 1 } where
  sep := h.sep
  table := h.table
  linked := h.linked
  frame n f hn hf := h.frame n f (Nat.le_of_succ_le hn) hf
  distinct n k f hn hk := h.distinct n k f (Nat.le_of_succ_le hn) (Nat.le_of_succ_le hk)

theorem spare_advance (s : Machine) (R : Set ℕ) (g : ℕ) (hg : Spare R s g) :
    Spare R { s with next := s.next + 1 } g :=
  ⟨hg.1, fun n hn => hg.2 n (Nat.le_of_succ_le hn)⟩

/-- The frame a call of `AllocFirstFrame` returns is zeroed. -/
theorem take_mem (s : Machine) (f x : ℕ) (hx : x / 4096 * 4096 ≠ f) (hf : f % 4096 = 0) :
    (s.take (some f)).mem x = s.mem x :=
  fill_of_notMem (by simp only [frameSize]; omega)

theorem take_outside (h : Ok R s) (hf : s.frames s.next = some f) (x : ℕ)
    (hx : x / 4096 * 4096 ∈ tables R s.mem) : (s.take (some f)).mem x = s.mem x := by
  obtain ⟨hal, -, -, hnot⟩ := h.frame s.next f le_rfl hf
  exact take_mem s f x (fun heq => hnot (heq ▸ hx)) hal

/-- `AllocFirstFrame` keeps the tree, and the frame it returns is spare. -/
theorem take (h : Ok R s) (hf : s.frames s.next = some f) :
    Keeps R s (s.take (some f)) ∧ Spare R (s.take (some f)) (f / 4096) ∧
      ∀ r ∈ R, ∀ p i, p.length ≤ 3 → word (s.take (some f)).mem r p i = word s.mem r p i := by
  have hout := h.take_outside hf
  obtain ⟨hal, -, -, hnot⟩ := h.frame s.next f le_rfl hf
  have htab : tables R (s.take (some f)).mem = tables R s.mem := h.tables_outside hout
  have hword : ∀ r ∈ R, ∀ p i, p.length ≤ 3 →
      word (s.take (some f)).mem r p i = word s.mem r p i :=
    fun r hr p i hp => h.word_outside hout hr hp i
  refine ⟨⟨(h.outside hout).advance, rfl, Nat.le_succ _,
    fun r hr p i hp _ => hword r hr p i (by omega), fun g hg => ⟨?_, ?_⟩, fun x hx => ?_⟩,
    ⟨?_, ?_⟩, hword⟩
  · rw [htab]
    exact hg.1
  · exact fun n hn => hg.2 n (Nat.le_of_succ_le hn)
  · exact take_mem s f x (fun heq => hx.2 s.next le_rfl (heq ▸ hf)) hal
  · rw [htab, show f / 4096 * 4096 = f by omega]
    exact hnot
  · intro n hn hn'
    rw [show f / 4096 * 4096 = f by omega] at hn'
    have heq := h.distinct s.next n f le_rfl (Nat.le_of_succ_le hn) hf hn'
    have hlt : s.next + 1 ≤ n := hn
    omega

theorem take_none (h : Ok R s) : Keeps R s (s.take none) :=
  ⟨h.advance, rfl, Nat.le_succ _, fun _ _ _ _ _ _ => rfl, spare_advance s R, fun _ _ => rfl⟩

/-- The frame a call of `AllocFirstFrame` returns can serve as a root, without mappings. -/
theorem newRoot (h : Ok R s) (hf : s.frames s.next = some f) :
    Ok (insert f R) (s.take (some f)) ∧ (∀ p i, word (s.take (some f)).mem f p i = 0) ∧
      ∀ g, Spare R s g → Spare (insert f R) (s.take (some f)) g := by
  obtain ⟨hkeep, hspare, hwords⟩ := h.take hf
  obtain ⟨hal, h0, h64, hnot⟩ := h.frame s.next f le_rfl hf
  have hframe : f / 4096 * 4096 = f := by omega
  set m := (s.take (some f)).mem with hm
  have hentry (i : Fin 512) : entry m f i = 0 := entry_memset_self hal h64 i
  have hcons (i : Fin 512) (p : List (Fin 512)) : walk m f (i :: p) = none := by
    simp [walk, RadixTree.walk, hentry]
  have hfnot : f ∉ tables R m := hframe ▸ hspare.1
  have htab : tables (insert f R) m ⊆ insert f (tables R m) := by
    rintro t ⟨r, rfl | hr, p, hp, hw⟩
    · cases p with
      | nil => exact .inl (Option.some.inj hw).symm
      | cons i p => exact absurd (hw.symm.trans (hcons i p)) (by simp)
    · exact .inr ⟨r, hr, p, hp, hw⟩
  have hword (p : List (Fin 512)) (i : Fin 512) : word m f p i = 0 := by
    cases p with
    | nil => exact (word_of_walk rfl).trans (hentry i)
    | cons j p => exact word_of_walk_none (hcons j p)
  refine ⟨⟨?_, ?_, ?_, ?_, hkeep.ok.distinct⟩, hword, fun g hg => ⟨fun hmem => ?_, ?_⟩⟩
  · rintro r hr r' hr' p p' hp hp' t hw hw'
    rcases hr with rfl | hr <;> rcases hr' with rfl | hr'
    · cases p with
      | nil =>
        cases p' with
        | nil => exact ⟨rfl, rfl⟩
        | cons i p' => exact absurd (hw'.symm.trans (hcons i p')) (by simp)
      | cons i p => exact absurd (hw.symm.trans (hcons i p)) (by simp)
    · cases p with
      | nil => exact absurd (mem_tables hr' hp' (Option.some.inj hw ▸ hw')) hfnot
      | cons i p => exact absurd (hw.symm.trans (hcons i p)) (by simp)
    · cases p' with
      | nil => exact absurd (mem_tables hr hp (Option.some.inj hw' ▸ hw)) hfnot
      | cons i p' => exact absurd (hw'.symm.trans (hcons i p')) (by simp)
    · exact hkeep.ok.sep hr hr' hp hp' hw hw'
  · intro t ht
    rcases htab ht with rfl | ht
    · exact ⟨hal, h64⟩
    · exact hkeep.ok.table t ht
  · rintro r (rfl | hr) p i hp hodd
    · rw [← hm, hword] at hodd
      omega
    · exact hkeep.ok.linked r hr p i hp hodd
  · intro n g hn hg
    obtain ⟨hgal, hg0, hg64, hgnot⟩ := hkeep.ok.frame n g hn hg
    refine ⟨hgal, hg0, hg64, fun hmem => ?_⟩
    rcases htab hmem with rfl | hmem
    · exact hspare.2 n hn (hframe.symm ▸ hg)
    · exact hgnot hmem
  · rcases htab hmem with heq | hmem
    · exact hg.2 s.next le_rfl (heq ▸ hf)
    · exact (hkeep.spare g hg).1 hmem
  · exact (hkeep.spare g hg).2

/-! ### Writes to the tables -/

/-- Writing a last-level word. -/
theorem writeLeaf (h : Ok R s) (hr : r ∈ R) (hq : q.length = 3) (hw : walk s.mem r q = some t)
    {w : ℕ} (hword : w < 2 ^ 64) :
    Keeps R s { s with mem := store s.mem (slot t i) 8 w } ∧ ∀ r' ∈ R, ∀ p j, p.length ≤ 3 →
      word (store s.mem (slot t i) 8 w) r' p j =
        if r' = r ∧ p = q ∧ j = i then w else word s.mem r' p j := by
  have ht : t ∈ tables R s.mem := mem_tables hr hq.le hw
  obtain ⟨hal, h64⟩ := h.table t ht
  have hσ : ∀ t' ∈ tables R s.mem, ∀ j, (t' ≠ t ∨ j ≠ i) →
      entry (store s.mem (slot t i) 8 w) t' j = entry s.mem t' j := fun t' ht' j hne =>
    entry_store_of_ne hal h64 (h.table t' ht').1 (h.table t' ht').2 hne
  have htab : tables R (store s.mem (slot t i) 8 w) = tables R s.mem :=
    tables_of_leaf h.sep hr hq hw hσ
  have hwords : ∀ r' ∈ R, ∀ p j, p.length ≤ 3 → word (store s.mem (slot t i) 8 w) r' p j =
      if r' = r ∧ p = q ∧ j = i then w else word s.mem r' p j := fun r' hr' p j hp =>
    word_of_leaf h.sep hr hq hw hσ hr' hp j (entry_store_self hword)
  have hupper : ∀ r' ∈ R, ∀ p j, p.length ≤ 2 →
      word (store s.mem (slot t i) 8 w) r' p j = word s.mem r' p j := by
    intro r' hr' p j hp
    rw [hwords r' hr' p j (by omega), if_neg]
    rintro ⟨-, rfl, -⟩
    omega
  refine ⟨⟨⟨h.sep.leaf hr hq hw hσ, fun t ht => h.table t (htab ▸ ht), ?_, ?_, h.distinct⟩, rfl,
    le_rfl, fun r' hr' p j hp _ => hupper r' hr' p j hp,
    fun g hg => ⟨by rw [htab]; exact hg.1, hg.2⟩, fun x hx => ?_⟩, hwords⟩
  · intro r' hr' p j hp hodd
    rw [hupper r' hr' p j hp] at hodd ⊢
    exact h.linked r' hr' p j hp hodd
  · intro n f hn hf
    rw [htab]
    exact h.frame n f hn hf
  · have hne : x / 4096 * 4096 ≠ t := fun heq => hx.1 (heq ▸ ht)
    have hi := i.isLt
    refine store_of_notMem ?_
    rw [slot_eq hal h64]
    omega

/-- What the tree is after a new table has been linked below a table of it. -/
theorem graft_words (h : Ok R s) (hr : r ∈ R) (hq : q.length < 3) (hw : walk s.mem r q = some t)
    (heven : word s.mem r q i % 2 = 0) (hf : s.frames s.next = some f) (hflags : flags < 512)
    (hodd : flags % 2 = 1) :
    let m := store (s.take (some f)).mem (slot t i) 8 (f ||| flags)
    Separate tableOf (entry m) R 3 ∧ tables R m ⊆ insert f (tables R s.mem) ∧
      ∀ r' ∈ R, ∀ p j, p.length ≤ 3 →
        word m r' p j = if r' = r ∧ p = q ∧ j = i then f ||| flags else word s.mem r' p j := by
  intro m
  have ht : t ∈ tables R s.mem := mem_tables hr hq.le hw
  obtain ⟨hal, h64⟩ := h.table t ht
  obtain ⟨hfal, hf0, hf64, hfnot⟩ := h.frame s.next f le_rfl hf
  have hft : f ≠ t := fun heq => hfnot (heq ▸ ht)
  have hsum : f ||| flags = f + flags := lor_flags (by omega) hflags
  have hself : entry m t i = f ||| flags := entry_store_self (by omega)
  have hblank (j : Fin 512) : entry m f j = 0 :=
    (entry_store_of_ne hal h64 hfal hf64 (.inl hft)).trans (entry_memset_self hfal hf64 j)
  have hσ : ∀ t' ∈ tables R s.mem, ∀ j, (t' ≠ t ∨ j ≠ i) → entry m t' j = entry s.mem t' j :=
    fun t' ht' j hne =>
      (entry_store_of_ne hal h64 (h.table t' ht').1 (h.table t' ht').2 hne).trans
        (h.entry_outside (h.take_outside hf) ht' j)
  have hnone : tableOf (entry s.mem t i) = none := by
    rw [word, word_of_walk hw] at heven
    exact tableOf_of_even heven
  have hlink : tableOf (entry m t i) = some f := by
    rw [hself]
    exact tableOf_lor hfal hf0 hf64 hflags hodd
  refine ⟨?_, ?_, fun r' hr' p j hp => ?_⟩
  · exact Separate.graft h.sep hr hq hw hnone tableOf_zero hblank hlink hσ hfnot
  · exact tables_of_graft h.sep hr hq hw hnone tableOf_zero hblank hlink hσ
  · exact word_of_graft h.sep hr hq hw hnone tableOf_zero hblank hlink hσ hr' hp j hself

/-- Linking a new table below a table of the tree. -/
theorem graft (h : Ok R s) (hr : r ∈ R) (hq : q.length < 3) (hw : walk s.mem r q = some t)
    (heven : word s.mem r q i % 2 = 0) (hf : s.frames s.next = some f) (hflags : flags < 512)
    (hodd : flags % 2 = 1) :
    let s' := { s.take (some f) with
      mem := store (s.take (some f)).mem (slot t i) 8 (f ||| flags) }
    Keeps R s s' ∧ walk s'.mem r (q ++ [i]) = some f ∧ ∀ r' ∈ R, ∀ p j, p.length ≤ 3 →
      word s'.mem r' p j = if r' = r ∧ p = q ∧ j = i then f ||| flags else word s.mem r' p j := by
  intro s'
  have ht : t ∈ tables R s.mem := mem_tables hr hq.le hw
  obtain ⟨hal, h64⟩ := h.table t ht
  obtain ⟨hfal, hf0, hf64, -⟩ := h.frame s.next f le_rfl hf
  obtain ⟨hsep, htab, hwords⟩ := h.graft_words hr hq hw heven hf hflags hodd
  have hfresh (n g : ℕ) (hn : s.next + 1 ≤ n) (hg : s.frames n = some g) : g ≠ f := by
    rintro rfl
    have heq := h.distinct s.next n g le_rfl (by omega) hf hg
    omega
  refine ⟨⟨⟨hsep, ?_, ?_, ?_, ?_⟩, rfl, Nat.le_succ _, ?_, fun g hg => ⟨?_, ?_⟩, fun x hx => ?_⟩, ?_,
    hwords⟩
  · intro t' ht'
    rcases htab ht' with rfl | ht'
    · exact ⟨hfal, hf64⟩
    · exact h.table t' ht'
  · intro r' hr' p j hp hpar
    rw [hwords r' hr' p j (by omega)] at hpar ⊢
    split_ifs at hpar ⊢ with heq
    · rw [tableOf_lor hfal hf0 hf64 hflags hodd]
      simp
    · exact h.linked r' hr' p j hp hpar
  · intro n g hn hg
    have hg' := h.frame n g (Nat.le_of_succ_le hn) hg
    refine ⟨hg'.1, hg'.2.1, hg'.2.2.1, fun hmem => ?_⟩
    rcases htab hmem with heq | hmem
    · exact hfresh n g hn hg heq
    · exact hg'.2.2.2 hmem
  · exact fun n k g hn hk => h.distinct n k g (Nat.le_of_succ_le hn) (Nat.le_of_succ_le hk)
  · intro r' hr' p j hp hpar
    rw [hwords r' hr' p j (by omega), if_neg]
    rintro ⟨rfl, rfl, rfl⟩
    omega
  · intro hmem
    rcases htab hmem with heq | hmem
    · exact hg.2 s.next le_rfl (heq ▸ hf)
    · exact hg.1 hmem
  · exact fun n hn => hg.2 n (Nat.le_of_succ_le hn)
  · have hne : x / 4096 * 4096 ≠ t := fun heq => hx.1 (heq ▸ ht)
    have hnf : x / 4096 * 4096 ≠ f := fun heq => hx.2 s.next le_rfl (heq ▸ hf)
    have hi := i.isLt
    refine (store_of_notMem ?_).trans (take_mem s f x hnf hfal)
    rw [slot_eq hal h64]
    omega
  · refine (walk_concat_eq_child tableOf_zero).trans ?_
    have hat := hwords r hr q i (by omega)
    rw [if_pos ⟨rfl, rfl, rfl⟩, word] at hat
    rw [hat]
    exact tableOf_lor hfal hf0 hf64 hflags hodd

/-! ### The operations -/

/-- `GetOrCreatePageTable`: a failure means that `AllocFirstFrame` failed. -/
theorem getOrCreatePageTable (h : Ok R s) (hr : r ∈ R) (hq : q.length < 3)
    (hw : walk s.mem r q = some t) (i : Fin 512) (hflags : flags < 512) (hodd : flags % 2 = 1) :
    ∃ o s', Vmm.getOrCreatePageTable s t i flags = (o, s') ∧ Keeps R s s' ∧
      Created R s s' r (q ++ [i]) flags ∧ (∀ t' ∈ o, walk s'.mem r (q ++ [i]) = some t') ∧
      s'.next ≤ s.next + 1 ∧
      (o = none → s'.next = s.next + 1 ∧ s.frames s.next = none) := by
  have hentry : entry s.mem t i = word s.mem r q i := (word_of_walk hw).symm
  rw [Vmm.getOrCreatePageTable, hentry]
  by_cases hpres : word s.mem r q i % 2 = 1
  · have hwalk : walk s.mem r (q ++ [i]) = tableOf (word s.mem r q i) :=
      walk_concat_eq_child tableOf_zero
    have htable : tableOf (word s.mem r q i) = nonNull (word s.mem r q i &&& addressMask) := by
      rw [tableOf, if_pos ((getPageFlag_present _).mpr hpres)]
    have hsome := h.linked r hr q i (by omega) hpres
    rw [if_pos ((getPageFlag_present _).mpr hpres), ← htable]
    refine ⟨_, _, rfl, Keeps.refl h, Created.refl, fun t' ht' => ?_, by omega, fun hnone => ?_⟩
    · rw [hwalk]
      exact ht'
    · exact absurd hnone hsome
  · have hflag : ¬ getPageFlag (word s.mem r q i) present = true := by
      rw [getPageFlag_present]
      exact hpres
    rw [if_neg hflag, Machine.allocFirstFrame]
    cases hf : s.frames s.next with
    | none =>
      exact ⟨none, s.take none, rfl, h.take_none, fun _ _ _ _ _ => .inl rfl, by simp, le_rfl,
        fun _ => ⟨rfl, rfl⟩⟩
    | some f =>
      obtain ⟨hkeep, hwalk, hwords⟩ := h.graft (i := i) hr hq hw (by omega) hf hflags hodd
      have hfal := (h.frame s.next f le_rfl hf).1
      refine ⟨some f, _, rfl, hkeep, fun r' hr' p j hp => ?_, fun t' ht' => ?_, le_rfl,
        fun hnone => absurd hnone (Option.some_ne_none f)⟩
      · rw [hwords r' hr' p j hp]
        split_ifs with heq
        · obtain ⟨rfl, rfl, rfl⟩ := heq
          rw [lor_flags (by omega) hflags]
          exact .inr ⟨rfl, List.prefix_rfl, by omega, by omega⟩
        · exact .inl rfl
      · rw [← Option.some.inj ht']
        exact hwalk

/-- `CreatePage` along the levels that are left. -/
theorem createTables (h : Ok R s) (hr : r ∈ R) (vaddr : ℕ) (hflags : flags < 512)
    (hodd : flags % 2 = 1) {levels : List ℕ} (hq : q.length + levels.length ≤ 3)
    (hw : walk s.mem r q = some t) :
    ∃ o s', Vmm.createTables vaddr flags levels t s = (o, s') ∧ Keeps R s s' ∧
      Created R s s' r (q ++ levels.map (vAddrIndex vaddr)) flags ∧
      (∀ t' ∈ o, walk s'.mem r (q ++ levels.map (vAddrIndex vaddr)) = some t') ∧
      s'.next ≤ s.next + levels.length ∧
      (o = none → ∃ n, s.next ≤ n ∧ n < s'.next ∧ s.frames n = none) := by
  induction levels generalizing s q t with
  | nil =>
    exact ⟨some t, s, rfl, Keeps.refl h, Created.refl, by simpa using hw, by simp, by simp⟩
  | cons l levels ih =>
    rw [List.length_cons] at hq
    obtain ⟨o, s₁, hget, hkeep, hcreated, hwalk, hnext, hfail⟩ :=
      h.getOrCreatePageTable hr (by omega) hw (vAddrIndex vaddr l) hflags hodd
    have hpath : q ++ (l :: levels).map (vAddrIndex vaddr) =
        (q ++ [vAddrIndex vaddr l]) ++ levels.map (vAddrIndex vaddr) := by simp
    rw [hpath]
    have hcreated := hcreated.mono (List.prefix_append _ (levels.map (vAddrIndex vaddr)))
    cases o with
    | none =>
      refine ⟨none, s₁, by simp only [Vmm.createTables, hget], hkeep, hcreated, by simp, ?_, ?_⟩
      · rw [List.length_cons]
        omega
      · intro _
        obtain ⟨hnext, hnone⟩ := hfail rfl
        exact ⟨s.next, le_rfl, by omega, hnone⟩
    | some c =>
      obtain ⟨o, s₂, hrest, hkeep', hcreated', hwalk', hnext', hfail'⟩ :=
        ih hkeep.ok (q := q ++ [vAddrIndex vaddr l]) (by simp; omega) (hwalk c rfl)
      refine ⟨o, s₂, by simp only [Vmm.createTables, hget, hrest], hkeep.trans hkeep',
        hcreated.trans hodd hcreated', hwalk', ?_, fun hnone => ?_⟩
      · rw [List.length_cons]
        omega
      · obtain ⟨n, hn, hn', hf⟩ := hfail' hnone
        exact ⟨n, hkeep.next.trans hn, hn', hkeep.frames ▸ hf⟩

/-- `MapPage` links tables along the path of the address, and sets one last-level word if no
allocation fails. -/
theorem mapPage (h : Ok R s) (hr : r ∈ R) (vaddr : ℕ) {paddr : ℕ} (hp : paddr < 2 ^ 64)
    (hflags : flags < 512) (hodd : flags % 2 = 1) :
    ∃ b s', Vmm.mapPage s r vaddr paddr flags = (b, s') ∧ Keeps R s s' ∧ s'.next ≤ s.next + 3 ∧
      (∀ r' ∈ R, ∀ v, leaf s'.mem r' v =
        if b = true ∧ r' = r ∧ pageNumber v = pageNumber vaddr then paddr ||| flags
        else leaf s.mem r' v) ∧
      (∀ r' ∈ R, ∀ p j, p.length ≤ 2 → word s'.mem r' p j = word s.mem r' p j ∨
        (r' = r ∧ p ++ [j] <+: indices vaddr ∧ word s.mem r' p j % 2 = 0 ∧
          word s'.mem r' p j % 512 = flags)) ∧
      (b = true → ∀ p j, p ++ [j] <+: indices vaddr → word s'.mem r p j % 2 = 1) ∧
      (b = false → ∃ n, s.next ≤ n ∧ n < s'.next ∧ s.frames n = none) := by
  have hlen : ([] : List (Fin 512)).length + [4, 3, 2].length ≤ 3 := le_rfl
  obtain ⟨o, s₁, hcreate, hkeep, hcreated, hwalk, hnext, hfail⟩ :=
    h.createTables hr vaddr hflags hodd hlen rfl
  rw [List.nil_append] at hcreated hwalk
  cases o with
  | none =>
    refine ⟨false, s₁, ?_, hkeep, hnext, fun r' hr' v => ?_, fun r' hr' p j hp => ?_, by simp, ?_⟩
    · simp only [Vmm.mapPage, createPage, hcreate, Option.map_none]
    · rw [if_neg (by simp)]
      exact hcreated.leaf_eq (by simp) hr' rfl _
    · exact hcreated r' hr' p j (by omega)
    · exact fun _ => hfail rfl
  | some t =>
    have ht := hwalk t rfl
    have hlt : paddr ||| flags < 2 ^ 64 := Nat.or_lt_two_pow hp (by omega)
    obtain ⟨hkeep', hwords⟩ := hkeep.ok.writeLeaf (i := vAddrIndex vaddr 1) hr rfl ht hlt
    -- the words on the way to the last table are those of the tables just created
    have hupper : ∀ r' ∈ R, ∀ p j, p.length ≤ 2 →
        word (store s₁.mem (slot t (vAddrIndex vaddr 1)) 8 (paddr ||| flags)) r' p j =
          word s₁.mem r' p j := by
      intro r' hr' p j hp
      rw [hwords r' hr' p j (by omega), if_neg]
      rintro ⟨-, rfl, -⟩
      simp at hp
    refine ⟨true, _, ?_, hkeep.trans hkeep', hnext, fun r' hr' v => ?_, fun r' hr' p j hp => ?_,
      fun _ p j hpre => ?_, by simp⟩
    · simp only [Vmm.mapPage, createPage, hcreate, Option.map_some]
    · have hsame := hcreated.leaf_eq (by simp) hr' (length_indices v) (vAddrIndex v 1)
      rw [leaf, hwords r' hr' _ _ (by simp), hsame]
      simp only [true_and, pageNumber_eq_iff v vaddr]
      rfl
    · rw [hupper r' hr' p j hp]
      exact hcreated r' hr' p j (by omega)
    · have hp := hpre.length_le
      simp only [List.length_append, List.length_singleton, length_indices] at hp
      obtain ⟨rest, hrest⟩ := hpre
      rw [hupper r hr p j (by omega)]
      rw [List.append_assoc, List.singleton_append] at hrest
      have hchild := child_word_of_walk (p := p) (i := j) (q := rest) tableOf_zero
        (show RadixTree.walk tableOf (entry s₁.mem) r (p ++ j :: rest) = some t from hrest ▸ ht)
      by_contra heven
      exact hchild (tableOf_of_even (by rw [← word]; omega))

/-- `UnmapPage` clears one last-level word. -/
theorem unmapPage (h : Ok R s) (hr : r ∈ R) (vaddr : ℕ) :
    ∃ b s', Vmm.unmapPage s r vaddr = (b, s') ∧ Keeps R s s' ∧ s'.next = s.next ∧
      (∀ r' ∈ R, ∀ v, leaf s'.mem r' v =
        if r' = r ∧ pageNumber v = pageNumber vaddr then 0 else leaf s.mem r' v) ∧
      (b = false → s' = s) := by
  have hget := getTables_eq_walk s.mem vaddr [4, 3, 2] r
  cases hw : walk s.mem r (indices vaddr) with
  | none =>
    have hnone : getPage s.mem r vaddr = none := by
      rw [getPage, hget.trans hw]
      rfl
    refine ⟨false, s, by simp only [Vmm.unmapPage, hnone], Keeps.refl h, rfl, fun r' _ v => ?_,
      fun _ => rfl⟩
    split_ifs with heq
    · obtain ⟨rfl, hpage⟩ := heq
      obtain ⟨hv, -⟩ := (pageNumber_eq_iff v vaddr).mp hpage
      rw [leaf, hv]
      exact word_of_walk_none hw
    · rfl
  | some t =>
    have hsome : getPage s.mem r vaddr = some (slot t (vAddrIndex vaddr 1)) := by
      rw [getPage, hget.trans hw]
      rfl
    obtain ⟨hkeep, hwords⟩ :=
      h.writeLeaf (i := vAddrIndex vaddr 1) (w := 0) hr (length_indices vaddr) hw (by decide)
    refine ⟨true, _, by simp only [Vmm.unmapPage, hsome], hkeep, rfl, fun r' hr' v => ?_, by simp⟩
    rw [leaf, hwords r' hr' _ _ (by simp)]
    simp only [pageNumber_eq_iff v vaddr]
    rfl

end Ok

end Vardar.Vmm
