import Vardar.Lib.Loop
import Vardar.Utils.CString
import Mathlib.Data.List.Lex

/-!
# Comparing and copying strings

The order of strings is the lexicographic order of their unsigned characters, which are the numbers
that `strcmp` and `strncmp` subtract where two strings first differ. `strcpy` copies character by
character and looks for the end of the source in the memory it has already written, so it does not
return if the destination begins inside the source.

## Main definitions

* `Vardar.strcmp`, `Vardar.strcpy`.
* `Vardar.chars`: a string as its unsigned characters.

## Main results

* `Vardar.strcmp_order`.
* `Vardar.strcpy_returns_iff`.
-/

namespace Vardar

open ByteMemory Loop

/-- `strcmp`, if the loop ends within `fuel` characters. -/
def strcmp (x y : ℕ → BitVec 8) : ℕ → Option ℤ
  | 0 => none
  | fuel + 1 =>
    if x 0 ≠ 0 ∧ x 0 = y 0 then strcmp (fun i => x (i + 1)) (fun i => y (i + 1)) fuel
    else some ((x 0).toNat - (y 0).toNat)

/-- The variables of `strcpy`. -/
structure Copying where
  mem : Mem
  destination : ℕ
  source : ℕ

/-- `*source != '\0'`. -/
def Copying.More (c : Copying) : Prop := c.mem c.source ≠ 0

instance (c : Copying) : Decidable c.More := inferInstanceAs (Decidable (_ ≠ _))

/-- One round of the loop of `strcpy`. -/
def Copying.next (c : Copying) : Copying :=
  ⟨Function.update c.mem c.destination (c.mem c.source), c.destination + 1, c.source + 1⟩

/-- `strcpy`, if the loop ends within `fuel` rounds: the pointer it returns and the memory. A null
pointer is zero. -/
def strcpy (m : Mem) (destination source fuel : ℕ) : Option (ℕ × Mem) :=
  if destination = 0 then some (0, m)
  else
    (whileLoop Copying.More Copying.next fuel ⟨m, destination, source⟩).map fun c =>
      (destination, Function.update c.mem c.destination 0)

/-! ### The order -/

/-- The unsigned characters. -/
def chars (l : List (BitVec 8)) : List ℕ := l.map BitVec.toNat

theorem chars_cons (c : BitVec 8) (l : List (BitVec 8)) : chars (c :: l) = c.toNat :: chars l := rfl

/-- A number that is the result of comparing two strings. -/
def Compares (r : ℤ) (l l' : List (BitVec 8)) : Prop :=
  (r < 0 ↔ chars l < chars l') ∧ (r = 0 ↔ l = l') ∧ (0 < r ↔ chars l' < chars l)

variable {x y : ℕ → BitVec 8} {l l' : List (BitVec 8)}

theorem toNat_pos {c : BitVec 8} (h : c ≠ 0) : 0 < c.toNat :=
  Nat.pos_of_ne_zero fun hz => h (BitVec.eq_of_toNat_eq hz)

/-- Strings that begin with different characters. -/
theorem compares_of_ne {c c' : BitVec 8} (h : c ≠ c') :
    Compares (c.toNat - c'.toNat) (c :: l) (c' :: l') := by
  have hne : c.toNat ≠ c'.toNat := fun hz => h (BitVec.eq_of_toNat_eq hz)
  refine ⟨?_, ?_, ?_⟩
  · rw [chars_cons, chars_cons, List.cons_lt_cons_iff]
    omega
  · refine iff_of_false (by omega) fun heq => h (List.cons.inj heq).1
  · rw [chars_cons, chars_cons, List.cons_lt_cons_iff]
    omega

/-- Strings that begin with the same character. -/
theorem Compares.cons {r : ℤ} (h : Compares r l l') (c : BitVec 8) :
    Compares r (c :: l) (c :: l') := by
  obtain ⟨hlt, heq, hgt⟩ := h
  refine ⟨hlt.trans ?_, heq.trans ?_, hgt.trans ?_⟩
  · simp [chars_cons]
  · simp
  · simp [chars_cons]

/-- The sign of `strncmp` is that of the first `n` characters. -/
theorem compares_strncmp (hx : IsCString x l) (hy : IsCString y l') (n : ℕ) :
    Compares (strncmp x y n) (l.take n) (l'.take n) := by
  induction n generalizing x y l l' with
  | zero => simp [Compares, strncmp]
  | succ n ih =>
    rw [strncmp]
    cases l with
    | nil =>
      have hx0 : x 0 = 0 := hx
      rw [if_neg fun h => h.1 hx0, hx0]
      cases l' with
      | nil =>
        have hy0 : y 0 = 0 := hy
        simp [Compares, hy0]
      | cons c' l' =>
        have hpos := toNat_pos hy.1
        have hy0 := hy.2.1
        simp [Compares, chars, hy0, hpos, hpos.ne']
    | cons c l =>
      obtain ⟨hc, hx0, hx⟩ := hx
      cases l' with
      | nil =>
        have hy0 : y 0 = 0 := hy
        have hpos := toNat_pos hc
        rw [if_neg fun h => hc (hx0 ▸ h.2.trans hy0), hx0, hy0]
        simp [Compares, chars, hpos, hpos.ne']
      | cons c' l' =>
        obtain ⟨-, hy0, hy⟩ := hy
        rw [hx0, hy0]
        split_ifs with h
        · rw [← h.2]
          exact (ih hx hy).cons c
        · exact compares_of_ne fun heq => h ⟨hc, heq⟩

/-- `strcmp` ends with the shorter string, and then gives what `strncmp` gives. -/
theorem strcmp_eq_strncmp (hx : IsCString x l) (hy : IsCString y l') {fuel n : ℕ}
    (hfuel : min l.length l'.length < fuel) (hn : min l.length l'.length < n) :
    strcmp x y fuel = some (strncmp x y n) := by
  induction fuel generalizing x y l l' n with
  | zero => exact absurd hfuel (Nat.not_lt_zero _)
  | succ fuel ih =>
    obtain ⟨n, rfl⟩ : ∃ k, n = k + 1 := ⟨n - 1, by omega⟩
    rw [strcmp, strncmp]
    split_ifs with h
    · cases l with
      | nil => exact absurd hx h.1
      | cons c l =>
        cases l' with
        | nil => exact absurd (h.2.trans hy) h.1
        | cons c' l' =>
          simp only [List.length_cons] at hfuel hn
          exact ih hx.2.2 hy.2.2 (by omega) (by omega)
    · rfl

/-- **`strcmp` is the lexicographic order.** It returns for all strings, and `strncmp` is the order
of their beginnings. -/
theorem strcmp_order (hx : IsCString x l) (hy : IsCString y l') :
    (∀ n, Compares (strncmp x y n) (l.take n) (l'.take n)) ∧
      ∃ r, (∀ fuel, min l.length l'.length < fuel → strcmp x y fuel = some r) ∧
        Compares r l l' := by
  have horder := compares_strncmp hx hy (l.length + l'.length + 1)
  rw [List.take_of_length_le (by omega), List.take_of_length_le (by omega)] at horder
  exact ⟨compares_strncmp hx hy, _, fun fuel hfuel => strcmp_eq_strncmp hx hy hfuel (by omega),
    horder⟩

/-- A character above 127 is greater than a letter. -/
theorem strcmp_order_unsigned :
    (∀ n, Compares (strncmp ([0x61].getD · 0) ([0xE4].getD · 0) n) (([0x61] : List _).take n)
      (([0xE4] : List _).take n)) ∧
      ∃ r, (∀ fuel, min [(0x61 : BitVec 8)].length [(0xE4 : BitVec 8)].length < fuel →
        strcmp ([0x61].getD · 0) ([0xE4].getD · 0) fuel = some r) ∧ Compares r [0x61] [0xE4] :=
  strcmp_order (by decide) (by decide)

/-! ### Copying -/

/-- The characters of a string at their places. -/
theorem IsCString.getElem {s : ℕ → BitVec 8} (h : IsCString s l) :
    (∀ k (hk : k < l.length), s k = l[k] ∧ l[k] ≠ 0) ∧ s l.length = 0 := by
  induction l generalizing s with
  | nil => exact ⟨fun k hk => absurd hk (Nat.not_lt_zero k), h⟩
  | cons c l ih =>
    obtain ⟨hc, hs, hl⟩ := h
    obtain ⟨hget, hnul⟩ := ih hl
    refine ⟨fun k hk => ?_, hnul⟩
    cases k with
    | zero => exact ⟨hs, hc⟩
    | succ k => exact hget k (Nat.lt_of_succ_lt_succ hk)

variable {m : Mem} {d s : ℕ}

/-- A copy upwards that does not write what it reads later. -/
theorem copyUp_apart {n : ℕ} (h : d ≤ s ∨ s + n ≤ d) (x : ℕ) :
    copyUp m d s n x = if d ≤ x ∧ x < d + n then m (s + (x - d)) else m x := by
  induction n generalizing x with
  | zero => rw [copyUp, if_neg (by omega)]
  | succ n ih =>
    have ih := fun x => ih (by omega) x
    rw [copyUp, Function.update_apply]
    split_ifs with hx hr hr
    · rw [ih, if_neg (by omega), hx, Nat.add_sub_cancel_left]
    · omega
    · rw [ih, if_pos (by omega)]
    · rw [ih, if_neg (by omega)]

/-- The variables after some rounds. -/
theorem iterate_next (n : ℕ) :
    Copying.next^[n] ⟨m, d, s⟩ = ⟨copyUp m d s n, d + n, s + n⟩ := by
  induction n with
  | zero => rfl
  | succ n ih =>
    rw [Function.iterate_succ_apply', ih]
    rfl

/-- If the destination begins in the source, there is no NUL in front of the copy any more. -/
theorem copyUp_ne_zero (hds : s < d) (hm : ∀ x, s ≤ x → x < d → m x ≠ 0) (n x : ℕ) (hlo : s ≤ x)
    (hhi : x < d + n) : copyUp m d s n x ≠ 0 := by
  induction n generalizing x with
  | zero => exact hm x hlo hhi
  | succ n ih =>
    rw [copyUp, Function.update_apply]
    split_ifs with hx
    · exact ih (s + n) (by omega) (by omega)
    · exact ih x hlo (by omega)

/-- The loop ends after the last character. -/
theorem whileLoop_next (h : IsCString (fun i => m (s + i)) l) (hd : d ≤ s ∨ s + l.length < d)
    {fuel : ℕ} (hfuel : l.length < fuel) :
    whileLoop Copying.More Copying.next fuel ⟨m, d, s⟩ =
      some ⟨copyUp m d s l.length, d + l.length, s + l.length⟩ := by
  obtain ⟨hget, hnul⟩ := h.getElem
  have hread {i : ℕ} (hi : i ≤ l.length) : copyUp m d s i (s + i) = m (s + i) := by
    rw [copyUp_apart (by omega)]
    split_ifs with hx
    · rw [show s + (s + i - d) = s + i by omega]
    · rfl
  have hmore : ∀ i < l.length, Copying.More (Copying.next^[i] ⟨m, d, s⟩) := by
    intro i hi
    rw [iterate_next]
    change copyUp m d s i (s + i) ≠ 0
    rw [hread hi.le, (hget i hi).1]
    exact (hget i hi).2
  have hend : ¬ Copying.More (Copying.next^[l.length] ⟨m, d, s⟩) := by
    rw [iterate_next]
    change ¬ copyUp m d s l.length (s + l.length) ≠ 0
    rw [hread le_rfl]
    exact not_not.mpr hnul
  rw [whileLoop_eq_iterate hmore hend hfuel, iterate_next]

/-- A copy onto its own source does not end. -/
theorem not_ends_of_overlap (h : IsCString (fun i => m (s + i)) l) (hlo : s < d)
    (hhi : d ≤ s + l.length) : ¬ Ends Copying.More Copying.next ⟨m, d, s⟩ := by
  obtain ⟨hget, -⟩ := h.getElem
  rintro ⟨n, hn⟩
  rw [iterate_next] at hn
  refine hn (copyUp_ne_zero hlo (fun x hsx hxd => ?_) n (s + n) (by omega) (by omega))
  obtain ⟨k, rfl⟩ := Nat.exists_eq_add_of_le hsx
  obtain ⟨hk, hne⟩ := hget k (by omega)
  exact hk ▸ hne

/-- The copy and the NUL behind it. -/
theorem isCString_copy (h : IsCString (fun i => m (s + i)) l) (hd : d ≤ s ∨ s + l.length < d) :
    IsCString (fun i => Function.update (copyUp m d s l.length) (d + l.length) 0 (d + i)) l := by
  obtain ⟨hget, -⟩ := h.getElem
  refine isCString_of_getElem (fun c hc => ?_) (fun k hk => ?_) (Function.update_self ..)
  · obtain ⟨k, hk, rfl⟩ := List.mem_iff_getElem.mp hc
    exact (hget k hk).2
  · rw [Function.update_of_ne (by omega), copyUp_apart (by omega), if_pos (by omega),
      Nat.add_sub_cancel_left]
    exact (hget k hk).1

/-- `strcpy` of a string that is not overwritten. -/
theorem strcpy_eq (h : IsCString (fun i => m (s + i)) l) (hd : d ≠ 0)
    (hapart : d ≤ s ∨ s + l.length < d) {fuel : ℕ} (hfuel : l.length < fuel) :
    strcpy m d s fuel =
      some (d, Function.update (copyUp m d s l.length) (d + l.length) 0) := by
  rw [strcpy, if_neg hd, whileLoop_next h hapart hfuel]
  rfl

/-- `strcpy` returns when its loop ends. -/
theorem ends_of_strcpy (hd : d ≠ 0) {fuel : ℕ} {r : ℕ × Mem} (hr : strcpy m d s fuel = some r) :
    Ends Copying.More Copying.next ⟨m, d, s⟩ := by
  rw [strcpy, if_neg hd, Option.map_eq_some_iff] at hr
  obtain ⟨c, hc, -⟩ := hr
  exact exists_whileLoop_iff.mp ⟨fuel, c, hc⟩

/-- The result of `strcpy` does not depend on the bound. -/
theorem strcpy_unique {fuel fuel' : ℕ} {r r' : ℕ × Mem} (hr : strcpy m d s fuel = some r)
    (hr' : strcpy m d s fuel' = some r') : r = r' := by
  rw [strcpy] at hr hr'
  split_ifs at hr hr' with hd
  · exact Option.some.inj (hr.symm.trans hr')
  · rw [Option.map_eq_some_iff] at hr hr'
    obtain ⟨c, hc, rfl⟩ := hr
    obtain ⟨c', hc', rfl⟩ := hr'
    rw [whileLoop_unique hc hc']

/-- **When `strcpy` copies.** It returns if and only if the destination does not begin behind the
first character of the source and not behind its NUL. Then the string is at the destination, and
nothing else has changed. -/
theorem strcpy_returns_iff (h : IsCString (fun i => m (s + i)) l) (hd : d ≠ 0) :
    ((∃ fuel r, strcpy m d s fuel = some r) ↔ d ≤ s ∨ s + l.length < d) ∧
      ∀ fuel r, strcpy m d s fuel = some r → r.1 = d ∧ IsCString (fun i => r.2 (d + i)) l ∧
        ∀ x, x < d ∨ d + l.length < x → r.2 x = m x := by
  have happly {fuel : ℕ} {r : ℕ × Mem} (hr : strcpy m d s fuel = some r) :
      d ≤ s ∨ s + l.length < d := by
    by_contra hnot
    exact not_ends_of_overlap h (by omega) (by omega) (ends_of_strcpy hd hr)
  refine ⟨⟨fun ⟨fuel, r, hr⟩ => happly hr, fun hapart => ?_⟩, fun fuel r hr => ?_⟩
  · exact ⟨_, _, strcpy_eq h hd hapart l.length.lt_succ_self⟩
  · have hapart := happly hr
    obtain rfl := strcpy_unique hr (strcpy_eq h hd hapart l.length.lt_succ_self)
    refine ⟨rfl, isCString_copy h hapart, fun x hx => ?_⟩
    change Function.update (copyUp m d s l.length) (d + l.length) 0 x = m x
    rw [Function.update_of_ne (by omega), copyUp_apart (by omega), if_neg (by omega)]

/-- The letter at address 1 is copied to address 10, but a copy to address 2 does not end. -/
theorem strcpy_returns_iff_letter :
    (∃ fuel r, strcpy (fun x => if x = 1 then 0x61 else 0) 10 1 fuel = some r) ∧
      ¬ ∃ fuel r, strcpy (fun x => if x = 1 then 0x61 else 0) 2 1 fuel = some r :=
  ⟨(strcpy_returns_iff (l := [0x61]) (by decide) (by decide)).1.mpr (by decide),
    (strcpy_returns_iff (l := [0x61]) (by decide) (by decide)).1.not.mpr (by decide)⟩

end Vardar
