import Vardar.Lib.Loop
import Vardar.Utils.Format

/-!
# `Itoa`

`Itoa` writes the digits of an `int` from the lowest on, puts a sign and a NUL behind them and
reverses the string in place. A negative number is negated first. The negative of the least `int` is
this number again, and the remainders of its digits are negative.

Addresses count from the start of the buffer.

## Main definitions

* `Vardar.reverse`, `Vardar.itoa`.
* `Vardar.decimal`: the numeral of an integer.

## Main results

* `Vardar.reverse_eq_mirror`: `Reverse` turns its range around.
* `Vardar.itoa_isCString`: the string that `Itoa` writes, in terms of the remainders.
* `Vardar.itoa_decimal_iff`: it is the numeral for every number but the least one.
-/

namespace Vardar

open Loop Word Printf

/-! ### `Reverse` -/

/-- The memory and the variables of `Reverse`. -/
structure Reverser where
  mem : ℤ → BitVec 8
  start : ℤ
  stop : ℤ

/-- A round of `Reverse`. -/
def Reverser.round (s : Reverser) : Reverser where
  mem := Function.update (Function.update s.mem s.start (s.mem s.stop)) s.stop (s.mem s.start)
  start := s.start + 1
  stop := s.stop - 1

/-- `Reverse`. -/
def reverse (mem : ℤ → BitVec 8) (length : ℤ) (fuel : ℕ) : Option (ℤ → BitVec 8) :=
  (whileLoop (fun s : Reverser => s.start < s.stop) Reverser.round fuel
    ⟨mem, 0, length - 1⟩).map Reverser.mem

/-- The memory with a range turned around. -/
def mirror (length : ℤ) (mem : ℤ → BitVec 8) : ℤ → BitVec 8 := fun a =>
  if 0 ≤ a ∧ a < length then mem (length - 1 - a) else mem a

/-- What is outside of the two indices has been turned around. -/
structure Reverser.Inv (length : ℤ) (mem : ℤ → BitVec 8) (s : Reverser) : Prop where
  start : 0 ≤ s.start
  sum : s.start + s.stop = length - 1
  mem_eq : ∀ a, s.mem a = if 0 ≤ a ∧ a < length ∧ (a < s.start ∨ s.stop < a) then
    mem (length - 1 - a) else mem a

theorem Reverser.Inv.round {length : ℤ} {mem : ℤ → BitVec 8} {s : Reverser}
    (h : s.Inv length mem) (hlt : s.start < s.stop) : s.round.Inv length mem := by
  obtain ⟨hstart, hsum, hmem⟩ := h
  have hlow : s.mem s.start = mem s.start := (hmem _).trans (if_neg (by omega))
  have hhigh : s.mem s.stop = mem s.stop := (hmem _).trans (if_neg (by omega))
  refine ⟨by change 0 ≤ s.start + 1; omega, by change s.start + 1 + (s.stop - 1) = _; omega,
    fun a => ?_⟩
  change Function.update (Function.update s.mem s.start (s.mem s.stop)) s.stop (s.mem s.start) a =
    if 0 ≤ a ∧ a < length ∧ (a < s.start + 1 ∨ s.stop - 1 < a) then mem (length - 1 - a) else mem a
  by_cases hstop : a = s.stop
  · rw [hstop, Function.update_self, if_pos (by omega), hlow]
    congr 1
    omega
  · rw [Function.update_of_ne hstop]
    by_cases hst : a = s.start
    · rw [hst, Function.update_self, if_pos (by omega), hhigh]
      congr 1
      omega
    · rw [Function.update_of_ne hst, hmem]
      congr 1
      rw [eq_iff_iff]
      omega

/-- When the indices have met, all is turned around. -/
theorem Reverser.Inv.eq_mirror {length : ℤ} {mem : ℤ → BitVec 8} {s : Reverser}
    (h : s.Inv length mem) (hle : ¬ s.start < s.stop) : s.mem = mirror length mem := by
  obtain ⟨hstart, hsum, hmem⟩ := h
  funext a
  rw [hmem, mirror]
  by_cases hin : 0 ≤ a ∧ a < length
  · rw [if_pos hin]
    by_cases hout : a < s.start ∨ s.stop < a
    · rw [if_pos ⟨hin.1, hin.2, hout⟩]
    · rw [if_neg fun h => hout h.2.2]
      congr 1
      omega
  · rw [if_neg hin, if_neg fun h => hin ⟨h.1, h.2.1⟩]

theorem Reverser.rounds {length : ℤ} {mem : ℤ → BitVec 8} {s : Reverser} {fuel : ℕ}
    (h : s.Inv length mem) (hfuel : s.stop - s.start < fuel) :
    ∃ s', whileLoop (fun s : Reverser => s.start < s.stop) Reverser.round (fuel + 1) s = some s' ∧
      s'.mem = mirror length mem := by
  induction fuel generalizing s with
  | zero =>
    have hle : ¬ s.start < s.stop := by omega
    exact ⟨s, if_neg hle, h.eq_mirror hle⟩
  | succ fuel ih =>
    rw [whileLoop]
    by_cases hlt : s.start < s.stop
    · rw [if_pos hlt]
      exact ih (h.round hlt) (by change s.stop - 1 - (s.start + 1) < fuel; omega)
    · rw [if_neg hlt]
      exact ⟨s, rfl, h.eq_mirror hlt⟩

/-- `Reverse` turns its range around. -/
theorem reverse_eq_mirror (mem : ℤ → BitVec 8) {length fuel : ℕ} (hfuel : length ≤ fuel) :
    reverse mem length (fuel + 1) = some (mirror length mem) := by
  have hinv : Reverser.Inv length mem ⟨mem, 0, length - 1⟩ := by
    refine ⟨le_rfl, zero_add _, fun a => (if_neg ?_).symm⟩
    dsimp only
    omega
  obtain ⟨s, hs, hmem⟩ := Reverser.rounds hinv (show (length : ℤ) - 1 - 0 < fuel by omega)
  rw [reverse, hs, Option.map_some, hmem]

/-! ### `Itoa` -/

/-- The memory and the variables of `Itoa`. -/
structure Itoa where
  mem : ℤ → BitVec 8
  i : ℤ
  n : ℤ

/-- `buff[i++] = c`. -/
def Itoa.put (s : Itoa) (c : BitVec 8) : Itoa :=
  { s with mem := Function.update s.mem s.i c, i := s.i + 1 }

/-- The character of a remainder. -/
def remChar (rem : ℤ) : BitVec 8 :=
  BitVec.ofInt 8 (if rem > 9 then rem - 10 + 0x61 else rem + 0x30)

/-- A round of the loop over the digits. -/
def Itoa.round (s : Itoa) : Itoa := { s.put (remChar (s.n.tmod 10)) with n := s.n.tdiv 10 }

/-- `Itoa`. -/
def itoa (mem : ℤ → BitVec 8) (n : ℤ) (fuel : ℕ) : Option (ℤ → BitVec 8) :=
  if n = 0 then some (Function.update (Function.update mem 0 0x30) 1 0)
  else
    (whileLoop (fun s : Itoa => s.n ≠ 0) Itoa.round fuel
      ⟨mem, 0, if n < 0 then int32 (-n) else n⟩).bind fun s =>
        let s := if n < 0 then s.put 0x2d else s
        reverse (Function.update s.mem s.i 0) s.i fuel

/-- The characters of the digits, from the lowest on. -/
def remChars : ℕ → ℤ → List (BitVec 8)
  | 0, _ => []
  | fuel + 1, n => if n ≠ 0 then remChar (n.tmod 10) :: remChars fuel (n.tdiv 10) else []

/-- The first characters of the buffer. -/
structure Itoa.Holds (s : Itoa) (l : List (BitVec 8)) : Prop where
  i : s.i = l.length
  mem : ∀ k (h : k < l.length), s.mem k = l[k]

theorem Itoa.Holds.put {s : Itoa} {l : List (BitVec 8)} (h : s.Holds l) (c : BitVec 8) :
    (s.put c).Holds (l ++ [c]) := by
  obtain ⟨hi, hmem⟩ := h
  refine ⟨by simp [Itoa.put, hi], fun k hk => ?_⟩
  change Function.update s.mem s.i c k = _
  rw [hi]
  by_cases hkl : k = l.length
  · subst hkl
    rw [Function.update_self, List.getElem_concat_length rfl]
  · have hlt : k < l.length := by
      rw [List.length_append, List.length_singleton] at hk
      omega
    rw [Function.update_of_ne (by omega), hmem k hlt, List.getElem_append_left hlt]

/-- The loop over the digits writes the characters of the remainders. -/
theorem Itoa.rounds {s : Itoa} {l : List (BitVec 8)} {d fuel : ℕ} (h : s.Holds l)
    (hn : s.n.natAbs < 10 ^ d) (hfuel : d ≤ fuel) :
    ∃ s', whileLoop (fun s : Itoa => s.n ≠ 0) Itoa.round (fuel + 1) s = some s' ∧
      s'.Holds (l ++ remChars d s.n) := by
  induction d generalizing s l fuel with
  | zero =>
    have hzero : s.n = 0 := by omega
    refine ⟨s, if_neg (not_not_intro hzero), ?_⟩
    rw [remChars, List.append_nil]
    exact h
  | succ d ih =>
    obtain ⟨fuel, rfl⟩ : ∃ k, fuel = k + 1 := ⟨fuel - 1, by omega⟩
    rw [whileLoop, remChars]
    by_cases hzero : s.n = 0
    · rw [if_neg (not_not_intro hzero), if_neg (not_not_intro hzero), List.append_nil]
      exact ⟨s, rfl, h⟩
    · rw [if_pos hzero, if_pos hzero, List.append_cons]
      have hput : s.round.Holds (l ++ [remChar (s.n.tmod 10)]) :=
        ⟨(h.put _).i, (h.put _).mem⟩
      have hlt : s.round.n.natAbs < 10 ^ d := by
        change (s.n.tdiv 10).natAbs < _
        rw [pow_succ] at hn
        rw [Int.natAbs_tdiv]
        exact (Nat.div_lt_iff_lt_mul (by decide)).mpr hn
      exact ih hput hlt (by omega)

theorem length_remChars_le (d : ℕ) (n : ℤ) : (remChars d n).length ≤ d := by
  induction d generalizing n with
  | zero => exact le_rfl
  | succ d ih =>
    rw [remChars]
    split_ifs
    · exact Nat.succ_le_succ (ih _)
    · exact Nat.zero_le _

/-- No remainder has the character NUL. -/
theorem remChar_ne_zero {rem : ℤ} (hrem : rem.natAbs < 10) : remChar rem ≠ 0 := by
  have hlo : -9 ≤ rem := by omega
  have hhi : rem ≤ 9 := by omega
  interval_cases rem <;> decide

theorem remChars_ne_zero {d : ℕ} {n : ℤ} : ∀ c ∈ remChars d n, c ≠ 0 := by
  induction d generalizing n with
  | zero => simp [remChars]
  | succ d ih =>
    intro c hc
    rw [remChars] at hc
    split_ifs at hc with hn
    · rcases List.mem_cons.mp hc with rfl | hc
      · refine remChar_ne_zero ?_
        rw [Int.natAbs_tmod]
        exact Nat.mod_lt _ (by decide)
      · exact ih c hc
    · simp at hc

/-- The string that `Itoa` writes for a number other than 0. -/
def itoaChars (n : ℤ) : List (BitVec 8) :=
  (remChars 10 (if n < 0 then int32 (-n) else n) ++ if n < 0 then [0x2d] else []).reverse

/-- A string with a NUL behind it, turned around. -/
theorem isCString_mirror {s : Itoa} {l : List (BitVec 8)} (h : s.Holds l) (hl : ∀ c ∈ l, c ≠ 0) :
    IsCString (fun k => mirror l.length (Function.update s.mem l.length 0) k) l.reverse := by
  refine isCString_of_getElem (fun c hc => hl c (List.mem_reverse.mp hc)) (fun k hk => ?_) ?_
  · rw [List.length_reverse] at hk
    have hindex : (l.length : ℤ) - 1 - k = (l.length - 1 - k : ℕ) := by omega
    rw [mirror, if_pos (by omega), hindex, Function.update_of_ne (by omega),
      h.mem _ (by omega), List.getElem_reverse]
  · rw [List.length_reverse, mirror, if_neg (by omega), Function.update_self]

/-- The string that `Itoa` writes, in terms of the remainders. -/
theorem itoa_isCString (mem : ℤ → BitVec 8) {n : ℤ} (hn : -2 ^ 31 ≤ n ∧ n < 2 ^ 31)
    (hzero : n ≠ 0) :
    ∃ mem', itoa mem n 12 = some mem' ∧ IsCString (fun k => mem' k) (itoaChars n) := by
  have habs : (if n < 0 then int32 (-n) else n).natAbs < 10 ^ 10 := by
    rw [int32, Int.bmod_def]
    split_ifs <;> omega
  obtain ⟨s, hs, hholds⟩ := Itoa.rounds (s := ⟨mem, 0, if n < 0 then int32 (-n) else n⟩) (l := [])
    ⟨rfl, fun k hk => absurd hk (Nat.not_lt_zero k)⟩ habs (show 10 ≤ 11 by decide)
  rw [List.nil_append] at hholds
  have hlen := length_remChars_le 10 (if n < 0 then int32 (-n) else n)
  rw [itoa, if_neg hzero, hs, Option.bind_some, itoaChars]
  by_cases hneg : n < 0
  · simp only [if_pos hneg] at hholds hlen ⊢
    have hput := hholds.put 0x2d
    rw [hput.i, reverse_eq_mirror _ (by rw [List.length_append, List.length_singleton]; omega)]
    refine ⟨_, rfl, isCString_mirror hput fun c hc => ?_⟩
    rcases List.mem_append.mp hc with hc | hc
    · exact remChars_ne_zero c hc
    · rw [List.mem_singleton.mp hc]
      decide
  · simp only [if_neg hneg, List.append_nil] at hholds hlen ⊢
    rw [hholds.i, reverse_eq_mirror _ (by omega)]
    exact ⟨_, rfl, isCString_mirror hholds remChars_ne_zero⟩

/-- The result does not depend on the bound on the rounds. -/
theorem itoa_unique {mem mem₁ mem₂ : ℤ → BitVec 8} {n : ℤ} {fuel₁ fuel₂ : ℕ}
    (h₁ : itoa mem n fuel₁ = some mem₁) (h₂ : itoa mem n fuel₂ = some mem₂) : mem₁ = mem₂ := by
  rw [itoa] at h₁ h₂
  split_ifs at h₁ h₂
  · exact Option.some.inj (h₁.symm.trans h₂)
  all_goals
    obtain ⟨s₁, hs₁, hrev₁⟩ := Option.bind_eq_some_iff.mp h₁
    obtain ⟨s₂, hs₂, hrev₂⟩ := Option.bind_eq_some_iff.mp h₂
    obtain rfl := whileLoop_unique hs₁ hs₂
    obtain ⟨t₁, ht₁, rfl⟩ := Option.map_eq_some_iff.mp hrev₁
    obtain ⟨t₂, ht₂, rfl⟩ := Option.map_eq_some_iff.mp hrev₂
    rw [whileLoop_unique ht₁ ht₂]

/-! ### Numerals -/

/-- The numeral of an integer. -/
def decimal (n : ℤ) : List (BitVec 8) :=
  (if n < 0 then [0x2d] else []) ++ numeral 10 n.natAbs

theorem remChar_natCast : ∀ d : ℕ, d < 10 → remChar d = hexDigit d := by decide

/-- The remainders of a natural number are its digits. -/
theorem remChars_natCast {d k : ℕ} (hk : k < 10 ^ d) :
    remChars d k = (Nat.digits 10 k).map hexDigit := by
  induction d generalizing k with
  | zero =>
    obtain rfl : k = 0 := by omega
    rfl
  | succ d ih =>
    rw [remChars]
    by_cases hzero : k = 0
    · rw [if_neg (by omega), hzero]
      rfl
    · have hdiv : k / 10 < 10 ^ d := by
        rw [Nat.div_lt_iff_lt_mul (by decide), ← pow_succ]
        exact hk
      have hmod : (k : ℤ).tmod 10 = (k % 10 : ℕ) := rfl
      have hquot : (k : ℤ).tdiv 10 = (k / 10 : ℕ) := rfl
      rw [if_pos (by omega), hmod, hquot, remChar_natCast _ (Nat.mod_lt k (by decide : 0 < 10)),
        ih hdiv, Nat.digits_def' (by decide) (Nat.pos_of_ne_zero hzero), List.map_cons]

theorem reverse_remChars {k : ℕ} (hk : k < 10 ^ 10) (hzero : k ≠ 0) :
    (remChars 10 k).reverse = numeral 10 k := by
  rw [remChars_natCast hk, numeral, if_neg hzero]

/-- Every number but 0 and the least one has its digits and its sign. -/
theorem itoaChars_eq_decimal {n : ℤ} (hn : -2 ^ 31 < n ∧ n < 2 ^ 31) (hzero : n ≠ 0) :
    itoaChars n = decimal n := by
  rw [itoaChars, decimal]
  by_cases hneg : n < 0
  · have habs : int32 (-n) = n.natAbs := by
      rw [int32, Int.bmod_def]
      omega
    rw [if_pos hneg, if_pos hneg, habs, List.reverse_append,
      reverse_remChars (by omega) (by omega)]
    rfl
  · have habs : n = n.natAbs := by omega
    rw [if_neg hneg, if_neg hneg, List.append_nil, List.nil_append]
    conv_lhs => rw [habs]
    exact reverse_remChars (by omega) (by omega)

theorem itoa_zero (mem : ℤ → BitVec 8) :
    ∃ mem', itoa mem 0 0 = some mem' ∧ IsCString (fun k => mem' k) (decimal 0) := by
  refine ⟨_, if_pos rfl, by decide, ?_, ?_⟩
  · change Function.update (Function.update mem 0 0x30) 1 0 0 = hexDigit 0
    rw [Function.update_of_ne (by decide), Function.update_self]
    rfl
  · exact Function.update_self _ _ _

/-- The digits of the least number. -/
theorem decimal_least : decimal (-2 ^ 31) =
    [0x2d, 0x32, 0x31, 0x34, 0x37, 0x34, 0x38, 0x33, 0x36, 0x34, 0x38] := by
  have hnum := reverse_remChars (k := 2 ^ 31) (by decide) (by decide)
  change [0x2d] ++ numeral 10 (2 ^ 31) = _
  rw [← hnum]
  decide +kernel

/-- The remainders of the least number are negative. -/
theorem itoaChars_least : itoaChars (-2 ^ 31) =
    [0x2d, 0x2e, 0x2f, 0x2c, 0x29, 0x2c, 0x28, 0x2d, 0x2a, 0x2c, 0x28] := by
  decide +kernel

/-- **What `Itoa` prints.** For every `int`, `Itoa` writes the numeral of the number if and only if
it is not the least one. -/
theorem itoa_decimal_iff (mem : ℤ → BitVec 8) {n : ℤ} (hn : -2 ^ 31 ≤ n ∧ n < 2 ^ 31) :
    (∃ fuel mem', itoa mem n fuel = some mem' ∧ IsCString (fun k => mem' k) (decimal n)) ↔
      n ≠ -2 ^ 31 := by
  by_cases hzero : n = 0
  · subst hzero
    exact iff_of_true ⟨0, itoa_zero mem⟩ (by decide)
  · obtain ⟨mem', hmem, hstr⟩ := itoa_isCString mem hn hzero
    constructor
    · rintro ⟨fuel, mem'', hmem', hdec⟩ rfl
      obtain rfl := itoa_unique hmem hmem'
      have heq := hstr.unique hdec
      rw [itoaChars_least, decimal_least] at heq
      exact absurd heq (by decide)
    · intro hne
      rw [itoaChars_eq_decimal ⟨by omega, hn.2⟩ hzero] at hstr
      exact ⟨12, mem', hmem, hstr⟩

/-- The number -42. -/
theorem itoa_decimal_neg :
    ∃ fuel mem', itoa (fun _ => 0) (-42) fuel = some mem' ∧
      IsCString (fun k => mem' k) (decimal (-42)) :=
  (itoa_decimal_iff (fun _ => 0) (by decide)).mpr (by decide)

/-- The least number is printed as `-./,),(-*,(`. -/
theorem itoa_least_garbled :
    ∃ mem', itoa (fun _ => 0) (-2 ^ 31) 12 = some mem' ∧
      IsCString (fun k => mem' k)
        [0x2d, 0x2e, 0x2f, 0x2c, 0x29, 0x2c, 0x28, 0x2d, 0x2a, 0x2c, 0x28] ∧
      ¬ IsCString (fun k => mem' k) (decimal (-2 ^ 31)) := by
  obtain ⟨mem', hmem, hstr⟩ := itoa_isCString (fun _ => 0) (n := -2 ^ 31) (by decide) (by decide)
  rw [itoaChars_least] at hstr
  refine ⟨mem', hmem, hstr, fun hdec => ?_⟩
  have heq := hstr.unique hdec
  rw [decimal_least] at heq
  exact absurd heq (by decide)

end Vardar
