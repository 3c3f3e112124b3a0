import Vardar.Lib.RecordArray

/-!
# The kernel's `string.c`

The byte operations the memory managers and the loader call. `memset` is a fill with the low byte
of its value; `memmove` is the two loops of the source, upwards when the destination is below
the source and downwards otherwise.

## Main definitions

* `Vardar.memset`, `Vardar.memmove`, `Vardar.strncmp`, `Vardar.strlen`.
* `Vardar.IsCString`: a NUL-terminated string.

## Main results

* `Vardar.memmove_apply`, `Vardar.memmove_as_if_buffered`: `memmove` copies as if through a
  temporary.
* `Vardar.strlen_of_isCString`, `Vardar.strncmp_eq_zero_iff`, `Vardar.strncmp_eq_zero_iff_holds`.
-/

namespace Vardar

open ByteMemory

/-- `memset`: `len` bytes from `dest` on become the low byte of `val`. -/
def memset (m : Mem) (dest : ℕ) (val : ℤ) (len : ℕ) : Mem :=
  fill m dest (BitVec.ofInt 8 val) len

/-- `memmove`: forward loop if `dst < src`, backward loop otherwise. -/
def memmove (m : Mem) (dst src size : ℕ) : Mem :=
  if dst < src then copyUp m dst src size else copyDown m dst src size

/-- `strncmp` on two character sequences; `0` exactly when no difference is found. -/
def strncmp (s1 s2 : ℕ → BitVec 8) : ℕ → ℤ
  | 0 => 0
  | n + 1 =>
    if s1 0 ≠ 0 ∧ s1 0 = s2 0 then strncmp (fun i => s1 (i + 1)) (fun i => s2 (i + 1)) n
    else (s1 0).toNat - (s2 0).toNat

/-- `strlen`, if a NUL is among the first `fuel` characters. The count is an `unsigned int`. -/
def strlen (s : ℕ → BitVec 8) : ℕ → Option ℕ
  | 0 => none
  | fuel + 1 =>
    if s 0 ≠ 0 then (strlen (fun i => s (i + 1)) fuel).map fun count => (count + 1) % 2 ^ 32
    else some 0

theorem memset_zero (m : Mem) (dest len : ℕ) : memset m dest 0 len = fill m dest 0 len := rfl

/-- Every byte of the destination has the value its source byte had before the call, and every
other byte is unchanged, whatever the overlap. -/
theorem memmove_apply (m : Mem) (dst src size x : ℕ) :
    memmove m dst src size x =
      if dst ≤ x ∧ x < dst + size then m (src + (x - dst)) else m x := by
  rw [memmove]
  split_ifs with hlt hx hx
  · rw [copyUp_apply hlt, if_pos hx]
  · rw [copyUp_apply hlt, if_neg hx]
  · rw [copyDown_apply (by omega), if_pos hx]
  · rw [copyDown_apply (by omega), if_neg hx]

theorem memmove_of_notMem {m : Mem} {dst src size x : ℕ} (h : x < dst ∨ dst + size ≤ x) :
    memmove m dst src size x = m x := by
  rw [memmove_apply, if_neg (by omega)]

/-- **`memmove` copies as if through a temporary.** For every destination, source and size, the
bytes of the destination are those the source had before the call, and no other byte changes. -/
theorem memmove_as_if_buffered (m : Mem) (dst src size : ℕ) :
    (∀ i < size, memmove m dst src size (dst + i) = m (src + i)) ∧
      ∀ x, x < dst ∨ dst + size ≤ x → memmove m dst src size x = m x := by
  refine ⟨fun i hi => ?_, fun x hx => memmove_of_notMem hx⟩
  rw [memmove_apply, if_pos (by omega), Nat.add_sub_cancel_left]

/-! ### Strings -/

/-- The characters up to the first NUL. -/
def IsCString (s : ℕ → BitVec 8) : List (BitVec 8) → Prop
  | [] => s 0 = 0
  | c :: l => c ≠ 0 ∧ s 0 = c ∧ IsCString (fun i => s (i + 1)) l

instance decidableIsCString (s : ℕ → BitVec 8) : (l : List (BitVec 8)) → Decidable (IsCString s l)
  | [] => inferInstanceAs (Decidable (s 0 = 0))
  | c :: l =>
    have := decidableIsCString (fun i => s (i + 1)) l
    inferInstanceAs (Decidable (c ≠ 0 ∧ s 0 = c ∧ IsCString (fun i => s (i + 1)) l))

theorem isCString_of_getElem {s : ℕ → BitVec 8} {l : List (BitVec 8)} (hl : ∀ c ∈ l, c ≠ 0)
    (hs : ∀ k (h : k < l.length), s k = l[k]) (hnul : s l.length = 0) : IsCString s l := by
  induction l generalizing s with
  | nil => exact hnul
  | cons c l ih =>
    have hlen : (c :: l).length = l.length + 1 := rfl
    refine ⟨hl c List.mem_cons_self, hs 0 (Nat.succ_pos _), ?_⟩
    refine ih (fun c' hc' => hl c' (List.mem_cons_of_mem c hc')) (fun k hk => ?_) (hlen ▸ hnul)
    exact hs (k + 1) (Nat.succ_lt_succ hk)

/-- There is one string at an address. -/
theorem IsCString.unique {s : ℕ → BitVec 8} {l l' : List (BitVec 8)} (h : IsCString s l)
    (h' : IsCString s l') : l = l' := by
  induction l generalizing s l' with
  | nil =>
    cases l' with
    | nil => rfl
    | cons c l' => exact absurd (h'.2.1.symm.trans h) h'.1
  | cons c l ih =>
    cases l' with
    | nil => exact absurd (h.2.1.symm.trans h') h.1
    | cons c' l' => rw [← h.2.1, ← h'.2.1, ih h.2.2 h'.2.2]

theorem strlen_of_isCString {s : ℕ → BitVec 8} {l : List (BitVec 8)} (h : IsCString s l)
    (hlt : l.length < 2 ^ 32) {fuel : ℕ} (hfuel : l.length < fuel) :
    strlen s fuel = some l.length := by
  induction l generalizing s fuel with
  | nil =>
    obtain ⟨fuel, rfl⟩ := Nat.exists_eq_add_of_lt hfuel
    have hnul : s 0 = 0 := h
    rw [strlen, if_neg (not_not_intro hnul)]
    rfl
  | cons c l ih =>
    obtain ⟨hc, hs, htail⟩ := h
    rw [List.length_cons] at hlt hfuel
    obtain ⟨fuel, rfl⟩ : ∃ k, fuel = k + 1 := ⟨fuel - 1, by omega⟩
    rw [strlen, if_pos (hs ▸ hc), ih htail (by omega) (by omega), Option.map_some,
      Nat.mod_eq_of_lt hlt, List.length_cons]

/-- `strncmp` with a bound behind the end of the first string compares whole strings. -/
theorem strncmp_eq_zero_iff {s1 s2 : ℕ → BitVec 8} {l1 l2 : List (BitVec 8)}
    (h1 : IsCString s1 l1) (h2 : IsCString s2 l2) :
    strncmp s1 s2 (l1.length + 1) = 0 ↔ l1 = l2 := by
  induction l1 generalizing s1 s2 l2 with
  | nil =>
    have hnul : s1 0 = 0 := h1
    rw [strncmp, if_neg fun hc => hc.1 hnul, hnul]
    cases l2 with
    | nil =>
      have hnul2 : s2 0 = 0 := h2
      simp [hnul2]
    | cons c l2 =>
      have hne : (s2 0).toNat ≠ 0 := fun hz => h2.1 (h2.2.1 ▸ BitVec.eq_of_toNat_eq hz)
      have hzero : (0 : BitVec 8).toNat = 0 := rfl
      simp only [reduceCtorEq, iff_false, hzero]
      omega
  | cons c l1 ih =>
    obtain ⟨hc, hs, htail⟩ := h1
    rw [List.length_cons, strncmp]
    cases l2 with
    | nil =>
      have hnul2 : s2 0 = 0 := h2
      have hne : (s1 0).toNat ≠ 0 := fun hz => hc (hs ▸ BitVec.eq_of_toNat_eq hz)
      rw [if_neg (by rw [hnul2]; exact fun hcon => hcon.1 hcon.2), hnul2]
      have hzero : (0 : BitVec 8).toNat = 0 := rfl
      simp only [reduceCtorEq, iff_false, hzero]
      omega
    | cons c' l2 =>
      obtain ⟨hc', hs', htail'⟩ := h2
      rw [List.cons.injEq]
      by_cases heq : c = c'
      · rw [if_pos ⟨hs ▸ hc, by rw [hs, hs', heq]⟩, ih htail htail']
        exact ⟨fun hl => ⟨heq, hl⟩, fun hl => hl.2⟩
      · rw [if_neg fun hcon => heq (by rw [← hs, ← hs', hcon.2]), hs, hs']
        have hne : c.toNat ≠ c'.toNat := fun hz => heq (BitVec.eq_of_toNat_eq hz)
        constructor
        · intro hz
          omega
        · intro hl
          exact absurd hl.1 heq

/-- `strncmp` with a literal compares its characters. -/
theorem strncmp_eq_zero_iff_holds {m : Mem} {a : ℕ} {l : List (BitVec 8)}
    (hl : ∀ c ∈ l, c ≠ 0) :
    strncmp (fun i => m (a + i)) (fun i => l.getD i 0) l.length = 0 ↔ Holds m a l := by
  induction l generalizing a with
  | nil => exact iff_of_true rfl trivial
  | cons c l ih =>
    have hc := hl c List.mem_cons_self
    have htail := ih (a := a + 1) fun c' hc' => hl c' (List.mem_cons_of_mem c hc')
    rw [List.length_cons, strncmp, holds_cons]
    by_cases heq : m a = c
    · rw [if_pos ⟨by simpa [heq] using hc, by simpa using heq⟩, ← htail]
      simp only [heq, true_and, List.getD_cons_succ, add_assoc, add_comm 1]
    · rw [if_neg fun hcon => heq (by simpa using hcon.2)]
      have hne : (m a).toNat ≠ c.toNat := fun hz => heq (BitVec.eq_of_toNat_eq hz)
      simp only [add_zero, List.getD_cons_zero, heq, false_and, iff_false]
      omega

end Vardar
