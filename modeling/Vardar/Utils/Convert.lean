import Vardar.Lib.Loop
import Vardar.Utils.Format

/-!
# The buffer of `Convert`

`Convert` writes the digits of a number backwards into a static buffer of 32 characters and returns
a pointer to the first one. Here the buffer is a part of a memory whose addresses count from the
start of the buffer, so that an address below zero or above 31 lies outside. The addresses that are
written to are kept in a list that is not in the source.

A number of 64 bits has at most 22 digits in base 8, so 22 digits and the NUL fit.

## Main definitions

* `Vardar.Printf.Converter`, `Vardar.Printf.convertIn`: `Convert` on its buffer.
* `Vardar.Printf.Converter.Inside`: what the loop keeps.

## Main results

* `Vardar.Printf.convertIn_eq_convert`: the string in the buffer is that of `convert`.
* `Vardar.Printf.convertIn_roundTrips`: it is a numeral of the number.
-/

namespace Vardar.Printf

open Loop

/-- The memory around `buffer`, and the variables of `Convert`. -/
structure Converter where
  mem : ℤ → BitVec 8
  ptr : ℤ
  num : ℕ
  stores : List ℤ

namespace Converter

variable (s : Converter)

/-- Write to `*ptr`. -/
def store (c : BitVec 8) : Converter :=
  { s with mem := Function.update s.mem s.ptr c, stores := s.ptr :: s.stores }

/-- The state before the loop. -/
def start (mem : ℤ → BitVec 8) (num : ℕ) : Converter := store ⟨mem, 31, num, []⟩ 0

/-- The body of the loop. -/
def round (base : ℕ) : Converter :=
  { ({ s with ptr := s.ptr - 1 } : Converter).store (hexDigit (s.num % base)) with
    num := s.num / base }

/-- The characters from `ptr` on. -/
def str (i : ℕ) : BitVec 8 := s.mem (s.ptr + i)

end Converter

/-- `Convert`: the loop runs once before its condition is tested. -/
def convertIn (mem : ℤ → BitVec 8) (num base fuel : ℕ) : Option Converter :=
  whileLoop (fun s : Converter => s.num ≠ 0) (fun s => s.round base) fuel
    ((Converter.start mem num).round base)

/-! ### The loop -/

variable {mem : ℤ → BitVec 8} {s : Converter} {base : ℕ}

/-- `Convert` has written inside its buffer only, and there is room for `room` more digits. -/
structure Converter.Inside (mem : ℤ → BitVec 8) (room : ℕ) (s : Converter) : Prop where
  ptr : room ≤ s.ptr ∧ s.ptr ≤ 31
  stores : ∀ a ∈ s.stores, 0 ≤ a ∧ a < 32
  frame : ∀ a, a < 0 ∨ 32 ≤ a → s.mem a = mem a

theorem Converter.Inside.store {room : ℕ} (h : s.Inside mem room) (c : BitVec 8) :
    (s.store c).Inside mem room := by
  obtain ⟨hptr, hstores, hframe⟩ := h
  refine ⟨hptr, fun a ha => ?_, fun a ha => ?_⟩
  · rcases List.mem_cons.mp ha with rfl | ha
    · omega
    · exact hstores a ha
  · exact (Function.update_of_ne (by omega) _ _).trans (hframe a ha)

theorem Converter.inside_start (mem : ℤ → BitVec 8) (num : ℕ) :
    (start mem num).Inside mem 31 :=
  Inside.store (s := ⟨mem, 31, num, []⟩) ⟨⟨le_rfl, le_rfl⟩, by simp, fun _ _ => rfl⟩ 0

theorem Converter.Inside.round {room : ℕ} (h : s.Inside mem (room + 1)) (base : ℕ) :
    (s.round base).Inside mem room := by
  have hmoved : ({ s with ptr := s.ptr - 1 } : Converter).Inside mem room :=
    ⟨by have := h.ptr; dsimp only; omega, h.stores, h.frame⟩
  obtain ⟨hptr, hstores, hframe⟩ := hmoved.store (hexDigit (s.num % base))
  exact ⟨hptr, hstores, hframe⟩

theorem hexDigit_ne_zero : ∀ d < 16, hexDigit d ≠ 0 := by decide

/-- A round puts a digit in front of the string. -/
theorem Converter.isCString_round {l : List (BitVec 8)} (hbase : 0 < base ∧ base ≤ 16)
    (h : IsCString s.str l) : IsCString (s.round base).str (hexDigit (s.num % base) :: l) := by
  have hlt := Nat.mod_lt s.num hbase.1
  refine ⟨hexDigit_ne_zero _ (by omega), ?_, ?_⟩
  · change Function.update s.mem (s.ptr - 1) _ (s.ptr - 1 + (0 : ℕ)) = _
    rw [Nat.cast_zero, add_zero, Function.update_self]
  · have htail : (fun i => (s.round base).str (i + 1)) = s.str := by
      funext i
      change Function.update s.mem (s.ptr - 1) _ (s.ptr - 1 + (i + 1 : ℕ)) = s.mem (s.ptr + i)
      rw [Function.update_of_ne (by omega)]
      congr 1
      omega
    rw [htail]
    exact h

/-- The loop on a number with at most `room + 1` digits. -/
theorem Converter.rounds (hbase : 0 < base ∧ base ≤ 16) {room rest : ℕ} {l : List (BitVec 8)}
    (hnum : s.num < base ^ (room + 1)) (hs : s.Inside mem (rest + (room + 1)))
    (hl : IsCString s.str l) :
    ∃ s', whileLoop (fun s : Converter => s.num ≠ 0) (fun s => s.round base) (room + 1)
        (s.round base) = some s' ∧ s'.Inside mem rest ∧
      IsCString s'.str (convertLoop base (room + 1) s.num l) := by
  induction room generalizing s l with
  | zero =>
    have hzero : s.num / base = 0 := Nat.div_eq_of_lt (by simpa using hnum)
    refine ⟨s.round base, if_neg (not_not_intro hzero), hs.round base, ?_⟩
    rw [convertLoop, if_neg (not_not_intro hzero)]
    exact isCString_round hbase hl
  | succ room ih =>
    have hround : (s.round base).Inside mem (rest + (room + 1)) := hs.round base
    have hstr := isCString_round hbase hl
    have hnext : (s.round base).num = s.num / base := rfl
    rw [whileLoop, convertLoop, hnext]
    by_cases hzero : s.num / base = 0
    · rw [if_neg (not_not_intro hzero), if_neg (not_not_intro hzero)]
      exact ⟨_, rfl, ⟨⟨by have := hround.ptr; omega, hround.ptr.2⟩, hround.stores, hround.frame⟩,
        hstr⟩
    · have hlt : s.num / base < base ^ (room + 1) := by
        rw [Nat.div_lt_iff_lt_mul hbase.1, ← pow_succ]
        exact hnum
      rw [if_pos hzero, if_pos hzero]
      exact ih hlt hround hstr

/-- The string in the buffer is that of `convert`, for every number of 64 bits and base from 8 to
16. -/
theorem convertIn_eq_convert (mem : ℤ → BitVec 8) {num : ℕ} (hnum : num < 2 ^ 64)
    (hbase : 8 ≤ base ∧ base ≤ 16) :
    ∃ s, convertIn mem num base 22 = some s ∧ s.Inside mem 9 ∧
      IsCString s.str (convert num base) := by
  have hlt : num < base ^ (21 + 1) :=
    hnum.trans_le ((by decide : 2 ^ 64 ≤ 8 ^ 22).trans (Nat.pow_le_pow_left hbase.1 22))
  have hnul : IsCString (Converter.start mem num).str [] := Function.update_self (31 : ℤ) 0 mem
  obtain ⟨s, hs, hin, hstr⟩ := Converter.rounds ⟨by omega, hbase.2⟩
    (show (Converter.start mem num).num < base ^ (21 + 1) from hlt)
    (show (Converter.start mem num).Inside mem (9 + (21 + 1)) from Converter.inside_start mem num)
    hnul
  refine ⟨s, hs, hin, ?_⟩
  rw [convert_eq_numeral (by omega) hnum]
  have hloop := convertLoop_eq (by omega : 1 < base) hlt []
  rw [List.append_nil] at hloop
  rw [← hloop]
  exact hstr

/-! ### Round trips -/

/-- The digits of a numeral, highest first. -/
theorem exists_numeral_digits (hbase : 1 < base) (n : ℕ) :
    ∃ ds : List ℕ, numeral base n = ds.map hexDigit ∧ (∀ d ∈ ds, d < base) ∧ ds ≠ [] ∧
      (ds.head? = some 0 → ds = [0]) ∧ Nat.ofDigits base ds.reverse = n := by
  by_cases hzero : n = 0
  · refine ⟨[0], ?_, fun d hd => ?_, by simp, fun _ => rfl, ?_⟩
    · rw [numeral, if_pos hzero]
      rfl
    · rw [List.mem_singleton.mp hd]
      omega
    · rw [hzero]
      rfl
  · have hne : Nat.digits base n ≠ [] := Nat.digits_ne_nil_iff_ne_zero.mpr hzero
    refine ⟨(Nat.digits base n).reverse, ?_, fun d hd => ?_, by simpa using hne, fun hhead => ?_,
      ?_⟩
    · rw [numeral, if_neg hzero, List.map_reverse]
    · exact Nat.digits_lt_base hbase (List.mem_reverse.mp hd)
    · rw [List.head?_reverse, List.getLast?_eq_some_getLast hne] at hhead
      exact absurd (Option.some.inj hhead) (Nat.getLast_digit_ne_zero base hzero)
    · rw [List.reverse_reverse, Nat.ofDigits_digits]

/-- **`Convert` round-trips.** For every number of 64 bits and every base of `PrintK`, `Convert`
returns, writes inside its buffer only, and the string it returns is the numeral of the number,
without superfluous zeros in front. -/
theorem convertIn_roundTrips (mem : ℤ → BitVec 8) {num : ℕ} (hnum : num < 2 ^ 64)
    (hbase : base = 8 ∨ base = 10 ∨ base = 16) :
    ∃ fuel s, convertIn mem num base fuel = some s ∧ (∀ a ∈ s.stores, 0 ≤ a ∧ a < 32) ∧
      (∀ a, a < 0 ∨ 32 ≤ a → s.mem a = mem a) ∧
      ∃ ds : List ℕ, IsCString s.str (ds.map hexDigit) ∧ (∀ d ∈ ds, d < base) ∧ ds ≠ [] ∧
        (ds.head? = some 0 → ds = [0]) ∧ Nat.ofDigits base ds.reverse = num := by
  obtain ⟨s, hs, hin, hstr⟩ := convertIn_eq_convert mem hnum
    (show 8 ≤ base ∧ base ≤ 16 by omega)
  obtain ⟨ds, hds, hrest⟩ := exists_numeral_digits (by omega : 1 < base) num
  rw [convert_eq_numeral (by omega) hnum, hds] at hstr
  exact ⟨22, s, hs, hin.stores, hin.frame, ds, hstr, hrest⟩

/-- The number 255 in base 16. -/
theorem convertIn_roundTrips_ff :
    ∃ fuel s, convertIn (fun _ => 0) 255 16 fuel = some s ∧ (∀ a ∈ s.stores, 0 ≤ a ∧ a < 32) ∧
      ∃ ds : List ℕ, IsCString s.str (ds.map hexDigit) ∧ Nat.ofDigits 16 ds.reverse = 255 := by
  obtain ⟨fuel, s, hs, hstores, -, ds, hstr, -, -, -, hvalue⟩ :=
    convertIn_roundTrips (fun _ => 0) (by decide : 255 < 2 ^ 64) (.inr (.inr rfl))
  exact ⟨fuel, s, hs, hstores, ds, hstr, hvalue⟩

end Vardar.Printf
