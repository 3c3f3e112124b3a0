import Vardar.Heap.Ops
import Vardar.Vfs.Ustar

/-!
# Archives

An archive is the encoding of a list of entries. `ustar_read` passes an entry that has data by the
number of its data blocks only, so it stops at the last of them and not at the next header. The file
is found if the entries before it have no data.

## Main definitions

* `Vardar.Ustar.Entry`, `Vardar.Ustar.EntryAt`, `Vardar.Ustar.Archive`: the encoding in memory.
* `Vardar.Ustar.Finds`: what a lookup is for.
* `Vardar.Ustar.skipped`: the entries before the file, with `Vardar.Ustar.lastBlock`.

## Main results

* `Vardar.Ustar.returns_of_skipped_empty`, `Vardar.Ustar.returns_none_of_lastBlock`: the two ways
  the walk ends.
* `Vardar.Ustar.finds_iff`.
-/

namespace Vardar.Ustar

open ByteMemory Word Kheap

/-! ### The encoding -/

/-- The octal digits of a number, in characters. -/
def octal : ℕ → ℕ → List (BitVec 8)
  | 0, _ => []
  | k + 1, v => octal k (v / 8) ++ [BitVec.ofNat 8 (48 + v % 8)]

/-- An entry of an archive. -/
structure Entry where
  name : List (BitVec 8)
  contents : List (BitVec 8)
  length_name : name.length < 100
  length_contents : contents.length < 2 ^ 31

/-- A header with the signature is at `p`. -/
def Signed (m : Mem) (p : ℕ) : Prop := Holds m (p + 257) signature

instance (m : Mem) (p : ℕ) : Decidable (Signed m p) := inferInstanceAs (Decidable (Holds _ _ _))

/-- The header and the contents of an entry are at `p`. The other fields of the header and the rest
of the last block are arbitrary. -/
structure EntryAt (m : Mem) (p : ℕ) (e : Entry) : Prop where
  name : IsCString (fun i => m (p + i)) e.name
  size : Holds m (p + 124) (octal 11 e.contents.length)
  signed : Signed m p
  contents : Holds m (p + 512) e.contents

instance (m : Mem) (p : ℕ) (e : Entry) : Decidable (EntryAt m p e) :=
  decidable_of_iff (IsCString (fun i => m (p + i)) e.name ∧
      Holds m (p + 124) (octal 11 e.contents.length) ∧ Signed m p ∧ Holds m (p + 512) e.contents)
    ⟨fun h => ⟨h.1, h.2.1, h.2.2.1, h.2.2.2⟩, fun h => ⟨h.name, h.size, h.signed, h.contents⟩⟩

/-- The address of the next entry. -/
def Entry.next (e : Entry) (p : ℕ) : ℕ := p + 512 + 512 * numBlocks e.contents.length

/-- An archive is at `p`. -/
def Archive (m : Mem) : ℕ → List Entry → Prop
  | p, [] => p + 512 ≤ 2 ^ 64 ∧ ∀ i < 512, m (p + i) = 0
  | p, e :: es => EntryAt m p e ∧ Archive m (e.next p) es

instance decidableArchive (m : Mem) : (p : ℕ) → (es : List Entry) → Decidable (Archive m p es)
  | p, [] => inferInstanceAs (Decidable (p + 512 ≤ 2 ^ 64 ∧ ∀ i < 512, m (p + i) = 0))
  | p, e :: es =>
    have := decidableArchive m (e.next p) es
    inferInstanceAs (Decidable (EntryAt m p e ∧ Archive m (e.next p) es))

/-- The end of an archive, with one block of zeros. -/
def archiveEnd : ℕ → List Entry → ℕ
  | p, [] => p + 512
  | p, e :: es => archiveEnd (e.next p) es

variable {h h' : Heap} {m : Mem} {p filename len : ℕ} {e : Entry} {es : List Entry}
  {f : List (BitVec 8)}

@[simp] theorem length_octal (k v : ℕ) : (octal k v).length = k := by
  induction k generalizing v with
  | zero => rfl
  | succ k ih => rw [octal, List.length_append, ih, List.length_singleton]

/-- `oct2bin` reads octal digits. -/
theorem oct2bin_of_holds {k v : ℕ} (hm : Holds m p (octal k v)) (hv : v < 8 ^ k)
    (hlt : v < 2 ^ 31) : oct2bin (fun i => m (p + i)) k = v := by
  induction k generalizing v with
  | zero =>
    rw [pow_zero, Nat.lt_one_iff] at hv
    rw [hv]
    rfl
  | succ k ih =>
    rw [octal, holds_append, length_octal, holds_cons] at hm
    have hdigit : (m (p + k)).toInt = 48 + (v % 8 : ℕ) := by
      rw [hm.2.1, BitVec.toInt_eq_toNat_of_lt] <;> rw [BitVec.toNat_ofNat] <;> omega
    rw [oct2bin, ih hm.1 (by rw [pow_succ] at hv; omega) (by omega), hdigit]
    have hprod : int32 ((v / 8 : ℕ) * 8) = (v / 8 * 8 : ℕ) := by
      rw [← int32_natCast (show v / 8 * 8 < 2 ^ 31 by omega)]
      push_cast
      rfl
    have hsum : ((v / 8 * 8 : ℕ) : ℤ) + (48 + (v % 8 : ℕ) - 48) = v := by omega
    rw [hprod, hsum, int32_natCast hlt]

theorem numBlocks_eq_zero_iff {n : ℕ} : numBlocks n = 0 ↔ n = 0 := by
  rw [numBlocks, blockSize]
  split_ifs with hmod
  · omega
  · exact iff_of_false id fun hn => hmod (by rw [hn])

theorem Entry.le_next (e : Entry) (p : ℕ) :
    p + 512 + e.contents.length ≤ e.next p := by
  rw [next, numBlocks, blockSize]
  split_ifs <;> omega

theorem le_archiveEnd (p : ℕ) (es : List Entry) : p + 512 ≤ archiveEnd p es := by
  induction es generalizing p with
  | nil => exact le_rfl
  | cons e es ih =>
    have hnext := e.le_next p
    exact (show p + 512 ≤ e.next p + 512 by omega).trans (ih (e.next p))

theorem Archive.archiveEnd_le (ha : Archive m p es) : archiveEnd p es ≤ 2 ^ 64 := by
  induction es generalizing p with
  | nil => exact ha.1
  | cons e es ih => exact ih ha.2

/-! ### Rounds of the walk -/

theorem signed_iff :
    strncmp (fun i => m (p + 257 + i)) (fun i => signature.getD i 0) 5 = 0 ↔ Signed m p :=
  strncmp_eq_zero_iff_holds (l := signature) (by decide)

/-- The walk stops at a block without signature. -/
theorem ustarRead_of_not_signed (hs : ¬ Signed h.mem p) (fuel : ℕ) :
    ustarRead h filename (fuel + 1) p = some (none, h) := by
  rw [ustarRead, if_neg fun hc => hs (signed_iff.mp hc)]

/-- A round at an entry. -/
theorem ustarRead_entry (he : EntryAt h.mem p e) (hf : IsCString (fun i => h.mem (filename + i)) f)
    {fuel : ℕ} (hfuel : 100 ≤ fuel) :
    ustarRead h filename (fuel + 1) p =
      if e.name = f then some (readFile h p e.contents.length)
      else ustarRead h filename fuel (add64 p (512 * max 1 (numBlocks e.contents.length))) := by
  have hlen : u64 (oct2bin (fun i => h.mem (p + 124 + i)) 11) = e.contents.length := by
    have hlt := e.length_contents
    rw [oct2bin_of_holds he.size (by omega) hlt, u64_natCast (by omega)]
  have hname := e.length_name
  have hstrlen := strlen_of_isCString he.name (by omega) (show e.name.length < fuel by omega)
  rw [ustarRead, if_pos (signed_iff.mpr he.signed)]
  simp only [hstrlen, Option.bind_some, hlen]
  rw [Nat.mod_eq_of_lt (by omega)]
  simp only [strncmp_eq_zero_iff he.name hf]
  have hmax : (if 0 < numBlocks e.contents.length then numBlocks e.contents.length else 1) =
      max 1 (numBlocks e.contents.length) := by
    split_ifs <;> omega
  rw [hmax, blockSize]

/-- With enough fuel, the walk from a header returns a result. -/
def Returns (h : Heap) (filename p : ℕ) (out : Option ℕ × Heap) : Prop :=
  ∃ N, ∀ fuel, N ≤ fuel → ustarRead h filename fuel p = some out

theorem Returns.unique {out out' : Option ℕ × Heap} (hr : Returns h filename p out)
    (hr' : Returns h filename p out') : out = out' := by
  obtain ⟨N, hN⟩ := hr
  obtain ⟨N', hN'⟩ := hr'
  have heq := (hN (max N N') (le_max_left _ _)).symm.trans (hN' (max N N') (le_max_right _ _))
  exact Option.some.inj heq

theorem returns_of_not_signed (hs : ¬ Signed h.mem p) : Returns h filename p (none, h) := by
  refine ⟨1, fun fuel hfuel => ?_⟩
  obtain ⟨k, rfl⟩ := Nat.exists_eq_add_of_le' hfuel
  exact ustarRead_of_not_signed hs k

theorem returns_entry_self (he : EntryAt h.mem p e)
    (hf : IsCString (fun i => h.mem (filename + i)) e.name) :
    Returns h filename p (readFile h p e.contents.length) := by
  refine ⟨101, fun fuel hfuel => ?_⟩
  obtain ⟨k, rfl⟩ : ∃ k, fuel = k + 1 := ⟨fuel - 1, by omega⟩
  rw [ustarRead_entry he hf (by omega), if_pos rfl]

/-- The walk passes an entry with another name. -/
theorem Returns.entry {out : Option ℕ × Heap} {next : ℕ} (he : EntryAt h.mem p e)
    (hf : IsCString (fun i => h.mem (filename + i)) f) (hne : e.name ≠ f)
    (hnext : add64 p (512 * max 1 (numBlocks e.contents.length)) = next)
    (hr : Returns h filename next out) : Returns h filename p out := by
  obtain ⟨N, hN⟩ := hr
  refine ⟨N + 101, fun fuel hfuel => ?_⟩
  obtain ⟨k, rfl⟩ : ∃ k, fuel = k + 1 := ⟨fuel - 1, by omega⟩
  rw [ustarRead_entry he hf (by omega), if_neg hne, hnext]
  exact hN k (by omega)

/-! ### Lookups -/

/-- The entries before the first one with a name. -/
def skipped (es : List Entry) (f : List (BitVec 8)) : List Entry :=
  es.takeWhile fun e => e.name ≠ f

/-- The first entry with a name. -/
def lookup (es : List Entry) (f : List (BitVec 8)) : Option Entry := es.find? fun e => e.name = f

/-- The address of the last data block of the first entry that has data. -/
def lastBlock : ℕ → List Entry → Option ℕ
  | _, [] => none
  | p, e :: es =>
    if e.contents = [] then lastBlock (e.next p) es
    else some (p + 512 * numBlocks e.contents.length)

theorem lastBlock_eq_none_iff : lastBlock p es = none ↔ ∀ e ∈ es, e.contents = [] := by
  induction es generalizing p with
  | nil => exact iff_of_true rfl fun e he => absurd he List.not_mem_nil
  | cons e es ih =>
    rw [lastBlock, List.forall_mem_cons]
    split_ifs with hempty
    · rw [ih]
      exact ⟨fun hes => ⟨hempty, hes⟩, fun hes => hes.2⟩
    · exact iff_of_false id fun hes => hempty hes.1

/-- The next header after an entry without data. -/
theorem next_of_empty (hempty : e.contents = []) (hlt : p + 512 < 2 ^ 64) :
    add64 p (512 * max 1 (numBlocks e.contents.length)) = e.next p := by
  rw [Entry.next, hempty, List.length_nil, numBlocks_eq_zero_iff.mpr rfl]
  exact add64_of_lt hlt

/-- If the entries before it have no data, the file is found. -/
theorem returns_of_skipped_empty (ha : Archive h.mem p es)
    (hf : IsCString (fun i => h.mem (filename + i)) f) (hskip : ∀ e ∈ skipped es f, e.contents = []) :
    (lookup es f = none ∧ Returns h filename p (none, h)) ∨
      ∃ e q, lookup es f = some e ∧ EntryAt h.mem q e ∧ p ≤ q ∧
        q + 512 + e.contents.length < archiveEnd p es ∧
        Returns h filename p (readFile h q e.contents.length) := by
  induction es generalizing p with
  | nil =>
    refine Or.inl ⟨rfl, returns_of_not_signed fun hs => ?_⟩
    have hbyte : (0 : BitVec 8) = 0x75 := (ha.2 257 (by decide)).symm.trans hs.1
    exact absurd hbyte (by decide)
  | cons e es ih =>
    obtain ⟨he, ha⟩ := ha
    have hend := le_archiveEnd (e.next p) es
    have hle := e.le_next p
    by_cases hname : e.name = f
    · subst hname
      refine Or.inr ⟨e, p, ?_, he, le_rfl, ?_, returns_entry_self he hf⟩
      · exact List.find?_cons_of_pos (decide_eq_true rfl)
      · rw [archiveEnd]
        omega
    · have hlookup : lookup (e :: es) f = lookup es f :=
        List.find?_cons_of_neg (by simpa using hname)
      have hcons : skipped (e :: es) f = e :: skipped es f :=
        List.takeWhile_cons_of_pos (decide_eq_true hname)
      rw [hcons, List.forall_mem_cons] at hskip
      have hbound := ha.archiveEnd_le
      have hnext := next_of_empty hskip.1 (show p + 512 < 2 ^ 64 by omega)
      rw [hlookup, archiveEnd]
      rcases ih ha hskip.2 with ⟨hnone, hr⟩ | ⟨e', q, hsome, heq, hpq, hq, hr⟩
      · exact Or.inl ⟨hnone, hr.entry he hf hname hnext⟩
      · exact Or.inr ⟨e', q, hsome, heq, by omega, hq, hr.entry he hf hname hnext⟩

/-- After the first entry with data that it skips, the walk is at the last of its data blocks. -/
theorem returns_none_of_lastBlock (ha : Archive h.mem p es)
    (hf : IsCString (fun i => h.mem (filename + i)) f) {a : ℕ}
    (hlast : lastBlock p (skipped es f) = some a) (hs : ¬ Signed h.mem a) :
    Returns h filename p (none, h) := by
  induction es generalizing p with
  | nil => exact absurd hlast (Option.some_ne_none a).symm
  | cons e es ih =>
    obtain ⟨he, ha⟩ := ha
    have hend := le_archiveEnd (e.next p) es
    have hle := e.le_next p
    have hbound := ha.archiveEnd_le
    by_cases hname : e.name = f
    · have hnil : skipped (e :: es) f = [] :=
        List.takeWhile_cons_of_neg (by simpa using hname)
      rw [hnil] at hlast
      exact absurd hlast (Option.some_ne_none a).symm
    · have hcons : skipped (e :: es) f = e :: skipped es f :=
        List.takeWhile_cons_of_pos (decide_eq_true hname)
      rw [hcons, lastBlock] at hlast
      split_ifs at hlast with hempty
      · have hnext := next_of_empty hempty (show p + 512 < 2 ^ 64 by omega)
        exact (ih ha hlast).entry he hf hname hnext
      · have hpos : numBlocks e.contents.length ≠ 0 := fun hz =>
          hempty (List.length_eq_zero_iff.mp (numBlocks_eq_zero_iff.mp hz))
        have hnext : add64 p (512 * max 1 (numBlocks e.contents.length)) = a := by
          rw [← Option.some.inj hlast, max_eq_right (by omega)]
          have hstep : e.next p = p + 512 + 512 * numBlocks e.contents.length := rfl
          exact add64_of_lt (by omega)
        exact (returns_of_not_signed hs).entry he hf hname hnext

/-- `ustar_read` returns null if there is no entry with the name, and otherwise a pointer to a copy
of the contents of the first one. -/
def Finds (h : Heap) (ustar filename : ℕ) (es : List Entry) (f : List (BitVec 8)) : Prop :=
  ∃ r h', Returns h filename ustar (r, h') ∧
    match lookup es f with
    | none => r = none
    | some e => ∃ res, r = some res ∧ Holds h'.mem res e.contents

/-- `kalloc` returns a block and leaves a range alone. -/
def KallocSucceeds (h : Heap) (a b len : ℕ) : Prop :=
  ∃ q h', kalloc h len = (some q, h') ∧ ∀ x, a ≤ x → x < b → h'.mem x = h.mem x

/-- `kalloc` writes only inside the block that it finds. -/
theorem kallocSucceeds_of_findBlock {a b q n : ℕ} (hq : findBlock h len h.size h.start = q)
    (hn : h.tag q &&& sizeMask = n) (hlimit : q + n + 8 ≤ h.limit) (hl : h.limit < 2 ^ 64)
    (heven : evenSize len % 2 = 0) (hle : evenSize len ≤ n) (hb : b ≤ q) :
    KallocSucceeds h a b len := by
  have hin : q < h.limit := by omega
  have hbody : add64 q headerSize = q + 4 := add64_of_lt (by rw [headerSize]; omega)
  refine ⟨_, _, by simp only [kalloc, hq, if_pos hin]; rfl, fun x _ hx => ?_⟩
  change memset (splitBlock h q (evenSize len)).2.mem (add64 q headerSize) 0 (evenSize len) x = _
  rw [hbody, memset_zero, fill_of_notMem (Or.inl (by omega))]
  exact Chain.splitBlock_mem hn hlimit hl heven hle (Or.inl (by omega))

/-- A data block has the signature at the place where the walk stops. -/
def StraySignature (m : Mem) (ustar : ℕ) (es : List Entry) (f : List (BitVec 8)) : Prop :=
  ∃ a, lastBlock ustar (skipped es f) = some a ∧ Signed m a

/-- The copy of a file. -/
theorem readFile_spec {ustar b : ℕ} (he : EntryAt h.mem p e) (hp : ustar ≤ p)
    (hb : p + 512 + e.contents.length < b) (hb64 : b ≤ 2 ^ 64)
    (hk : KallocSucceeds h ustar b e.contents.length) :
    ∃ res, (readFile h p e.contents.length).1 = some res ∧
      Holds (readFile h p e.contents.length).2.mem res e.contents := by
  obtain ⟨q, h', hq, hkeep⟩ := hk
  have hsrc : add64 p blockSize = p + 512 := add64_of_lt (by rw [blockSize]; omega)
  refine ⟨add64 q 1, by rw [readFile, hq]; rfl, ?_⟩
  rw [readFile, hq]
  refine he.contents.copy fun i hi => ?_
  change memmove h'.mem (add64 q 1) (add64 p blockSize) e.contents.length (add64 q 1 + i) = _
  rw [memmove_apply, if_pos (by omega), Nat.add_sub_cancel_left, hsrc]
  exact hkeep _ (by omega) (by omega)

theorem lookup_eq_none_iff : lookup es f = none ↔ ∀ e ∈ es, e.name ≠ f := by
  rw [lookup, List.find?_eq_none]
  simp

/-- A lookup is right if the entries before the file have no data, or if there is no such file and
no data block is taken for a header; and if no data block is taken for a header, only then. -/
theorem finds_iff {ustar : ℕ} (ha : Archive h.mem ustar es)
    (hf : IsCString (fun i => h.mem (filename + i)) f)
    (hk : ∀ e, lookup es f = some e →
      KallocSucceeds h ustar (archiveEnd ustar es) e.contents.length) :
    ((∀ e ∈ skipped es f, e.contents = []) ∨
        ((∀ e ∈ es, e.name ≠ f) ∧ ¬ StraySignature h.mem ustar es f) →
      Finds h ustar filename es f) ∧
    (Finds h ustar filename es f → ¬ StraySignature h.mem ustar es f →
      (∀ e ∈ skipped es f, e.contents = []) ∨ ∀ e ∈ es, e.name ≠ f) := by
  have hempty : (∀ e ∈ skipped es f, e.contents = []) → Finds h ustar filename es f := by
    intro hskip
    rcases returns_of_skipped_empty ha hf hskip with ⟨hnone, hr⟩ | ⟨e, q, hsome, he, hle, hend, hr⟩
    · refine ⟨none, h, hr, ?_⟩
      rw [hnone]
    · obtain ⟨res, hres, hcopy⟩ := readFile_spec he hle hend ha.archiveEnd_le (hk e hsome)
      refine ⟨_, _, hr, ?_⟩
      rw [hsome]
      exact ⟨res, hres, hcopy⟩
  constructor
  · rintro (hskip | ⟨hnone, hstray⟩)
    · exact hempty hskip
    · cases hlast : lastBlock ustar (skipped es f) with
      | none => exact hempty (lastBlock_eq_none_iff.mp hlast)
      | some a =>
        have hs : ¬ Signed h.mem a := fun hs => hstray ⟨a, hlast, hs⟩
        refine ⟨none, h, returns_none_of_lastBlock ha hf hlast hs, ?_⟩
        rw [lookup_eq_none_iff.mpr hnone]
  · rintro ⟨r, h', hr, hres⟩ hstray
    cases hlast : lastBlock ustar (skipped es f) with
    | none => exact Or.inl (lastBlock_eq_none_iff.mp hlast)
    | some a =>
      have hs : ¬ Signed h.mem a := fun hs => hstray ⟨a, hlast, hs⟩
      have hnull := (Prod.mk.inj (hr.unique (returns_none_of_lastBlock ha hf hlast hs))).1
      refine Or.inr (lookup_eq_none_iff.mp ?_)
      cases hlookup : lookup es f with
      | none => rfl
      | some e =>
        rw [hlookup] at hres
        obtain ⟨res, hsome, -⟩ := hres
        exact absurd (hsome.symm.trans hnull) (Option.some_ne_none res)

/-! ### An archive of two files -/

/-- Write a list of bytes. -/
def put (m : Mem) (a : ℕ) (l : List (BitVec 8)) : Mem := fun x =>
  if a ≤ x ∧ x < a + l.length then l.getD (x - a) 0 else m x

/-- Write an entry. -/
def putEntry (m : Mem) (p : ℕ) (e : Entry) : Mem :=
  put (put (put (put m p e.name) (p + 124) (octal 11 e.contents.length)) (p + 257) signature)
    (p + 512) e.contents

/-- The file `a`. -/
def fileA (contents : List (BitVec 8)) (hlt : contents.length < 2 ^ 31) : Entry :=
  ⟨[0x61], contents, by decide, hlt⟩

/-- The file `b` with one byte. -/
def fileB : Entry := ⟨[0x62], [7], by decide, by decide⟩

/-- An archive with the files at 0, the name `b` at 4096 and a heap at 8192. -/
def bootHeap (es : List (ℕ × Entry)) : Heap :=
  initHeap (es.foldl (fun m e => putEntry m e.1 e.2) (put 0 4096 [0x62])) 8192 64

theorem finds_after_empty :
    Finds (bootHeap [(0, fileA [] (by decide)), (512, fileB)]) 0 4096
      [fileA [] (by decide), fileB] [0x62] := by
  refine (finds_iff (by decide +kernel) (by decide +kernel) fun e he => ?_).1
    (Or.inl (by decide +kernel))
  obtain rfl : fileB = e := Option.some.inj he
  exact kallocSucceeds_of_findBlock (q := 8192) (n := 56) (by decide +kernel) (by decide +kernel)
    (by decide +kernel) (by decide +kernel) (by decide +kernel) (by decide +kernel) (by decide)

/-- The walk takes the block of the file `a` for the end of the archive. -/
theorem not_finds_after_data :
    Archive (bootHeap [(0, fileA [1] (by decide)), (1024, fileB)]).mem 0
        [fileA [1] (by decide), fileB] ∧
      KallocSucceeds (bootHeap [(0, fileA [1] (by decide)), (1024, fileB)]) 0 2560 1 ∧
      ¬ Finds (bootHeap [(0, fileA [1] (by decide)), (1024, fileB)]) 0 4096
        [fileA [1] (by decide), fileB] [0x62] := by
  have harch : Archive (bootHeap [(0, fileA [1] (by decide)), (1024, fileB)]).mem 0
      [fileA [1] (by decide), fileB] := by decide +kernel
  refine ⟨harch, ?_, ?_⟩
  · exact kallocSucceeds_of_findBlock (q := 8192) (n := 56) (by decide +kernel) (by decide +kernel)
      (by decide +kernel) (by decide +kernel) (by decide +kernel) (by decide +kernel) (by decide)
  · rintro ⟨r, h', hr, res, hsome, -⟩
    have hnull : Returns (bootHeap [(0, fileA [1] (by decide)), (1024, fileB)]) 4096 0 _ :=
      returns_none_of_lastBlock (f := [0x62]) (a := 512) harch (by decide +kernel) rfl
        (by decide +kernel)
    have hnone : r = none := (Prod.mk.inj (hr.unique hnull)).1
    exact absurd (hsome.symm.trans hnone) (Option.some_ne_none res)

end Vardar.Ustar
