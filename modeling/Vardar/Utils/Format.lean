import Mathlib.Data.Nat.Digits.Lemmas
import Vardar.Utils.Printf

/-!
# Formats

A format is a list of characters and conversions. `PrintK` writes its expansion if there is a
character before each conversion. The inner loop writes the character it starts at without looking
whether it is a `%`, so a conversion at the start or right after another one is written as it is.

## Main definitions

* `Vardar.Printf.Format`, `Vardar.Printf.Arg`, `Vardar.Printf.expand`.
* `Vardar.Printf.Passes`, `Vardar.Printf.Prints`: a call with a format and arguments, and what it
  should do.
* `Vardar.Printf.Spaced`: there is a character before each conversion.

## Main results

* `Vardar.Printf.convert_eq_numeral`.
* `Vardar.Printf.prints_iff`.
-/

namespace Vardar.Printf

open ByteMemory Word

/-! ### Numerals -/

/-- The numeral of a number. -/
def numeral (base n : ℕ) : List (BitVec 8) :=
  if n = 0 then [hexDigit 0] else ((Nat.digits base n).map hexDigit).reverse

theorem convertLoop_eq {base : ℕ} (hbase : 1 < base) {fuel n : ℕ} (hn : n < base ^ (fuel + 1))
    (str : List (BitVec 8)) :
    convertLoop base (fuel + 1) n str = numeral base n ++ str := by
  induction fuel generalizing n str with
  | zero =>
    rw [pow_succ, pow_zero, one_mul] at hn
    rw [convertLoop, Nat.div_eq_of_lt hn, Nat.mod_eq_of_lt hn, if_neg (not_not_intro rfl), numeral]
    by_cases hzero : n = 0
    · rw [if_pos hzero, hzero, List.singleton_append]
    · rw [if_neg hzero, Nat.digits_of_lt base n hzero hn]
      rfl
  | succ fuel ih =>
    rw [convertLoop]
    by_cases hdiv : n / base = 0
    · have hlt : n < base := (Nat.div_eq_zero_iff.mp hdiv).resolve_left (by omega)
      rw [if_neg (not_not_intro hdiv), numeral, Nat.mod_eq_of_lt hlt]
      by_cases hzero : n = 0
      · rw [if_pos hzero, hzero, List.singleton_append]
      · rw [if_neg hzero, Nat.digits_of_lt base n hzero hlt]
        rfl
    · have hlt : n / base < base ^ (fuel + 1) := by
        rw [Nat.div_lt_iff_lt_mul (by omega), ← pow_succ]
        exact hn
      have hzero : n ≠ 0 := fun hz => hdiv (by rw [hz, Nat.zero_div])
      rw [if_pos hdiv, ih hlt, numeral, if_neg hdiv, numeral, if_neg hzero,
        Nat.digits_def' hbase (Nat.pos_of_ne_zero hzero), List.map_cons, List.reverse_cons,
        List.append_assoc, List.singleton_append]

/-- `Convert` gives the numeral of a number of 64 bits. -/
theorem convert_eq_numeral {base n : ℕ} (hbase : 1 < base) (hn : n < 2 ^ 64) :
    convert n base = numeral base n := by
  have hlt : n < base ^ (63 + 1) := hn.trans_le (Nat.pow_le_pow_left hbase 64)
  rw [convert, convertLoop_eq hbase hlt, List.append_nil]

/-! ### Formats and arguments -/

/-- The conversions. -/
inductive Conversion
  | char
  | decimal
  | octal
  | hex
  | string

/-- The letter behind the `%`. -/
def Conversion.letter : Conversion → BitVec 8
  | char => 0x63
  | decimal => 0x64
  | octal => 0x6f
  | hex => 0x68
  | string => 0x73

/-- A character or a conversion. -/
inductive Item
  | text (ch : BitVec 8)
  | conversion (k : Conversion)

/-- The characters of an item. -/
def Item.encode : Item → List (BitVec 8)
  | text ch => [ch]
  | conversion k => [0x25, k.letter]

/-- A format in which every `%` begins a conversion. -/
structure Format where
  items : List Item
  text_ok : ∀ ch, Item.text ch ∈ items → ch ≠ 0 ∧ ch ≠ 0x25

/-- The characters of a format, without the NUL. -/
def encode (is : List Item) : List (BitVec 8) := is.flatMap Item.encode

/-- An argument. -/
inductive Arg
  | char (ch : BitVec 8)
  | number (n : ℕ)
  | string (s : List (BitVec 8))

/-- An argument for a conversion. The length of a string is an `int`. -/
def Arg.Fits : Arg → Conversion → Prop
  | char _, .char => True
  | number n, .decimal => n < 2 ^ 64
  | number n, .octal => n < 2 ^ 64
  | number n, .hex => n < 2 ^ 64
  | string s, .string => s.length < 2 ^ 31
  | _, _ => False

/-- What a conversion of an argument stands for. -/
def Arg.expand : Arg → Conversion → List (BitVec 8)
  | char ch, .char => [ch]
  | number n, .decimal => numeral 10 n
  | number n, .octal => numeral 8 n
  | number n, .hex => numeral 16 n
  | string s, .string => s
  | _, _ => []

/-- There is an argument for every conversion. -/
def Matches : List Item → List Arg → Prop
  | [], [] => True
  | [], _ :: _ => False
  | .text _ :: is, as => Matches is as
  | .conversion _ :: _, [] => False
  | .conversion k :: is, a :: as => a.Fits k ∧ Matches is as

/-- The format with every conversion replaced. -/
def expand : List Item → List Arg → List (BitVec 8)
  | [], _ => []
  | .text ch :: is, as => ch :: expand is as
  | .conversion _ :: _, [] => []
  | .conversion k :: is, a :: as => a.expand k ++ expand is as

/-- A word that `va_arg` takes is an argument. -/
def Arg.At (c : Call) (w : ℕ) : Arg → Prop
  | char ch => BitVec.ofNat 8 w = ch
  | number n => w = n
  | string s => w + s.length < 2 ^ 64 ∧ IsCString (fun i => c.mem (w + i)) s

/-- A call with a format and arguments for it. -/
structure Passes (c : Call) (is : List Item) (as : List Arg) : Prop where
  fits : Matches is as
  format : Holds c.mem c.str (encode is ++ [0])
  args : ∀ (i : ℕ) (a : Arg), as[i]? = some a → a.At c (c.va i)

/-- `PrintK` sends the expansion, reads nothing past the NUL and leaves `IN_USE` false. -/
def Prints (c : Call) (is : List Item) (as : List Arg) : Prop :=
  ∃ N p, (∀ fuel, N ≤ fuel → printK c false fuel = some p) ∧ p.out = expand is as ∧
    (∀ r ∈ p.reads, r ≤ (encode is).length) ∧ p.inUse = false

/-- There is a character before each conversion. The flag says whether there is one before the
list. -/
def Spaced : Bool → List Item → Prop
  | _, [] => True
  | _, .text _ :: is => Spaced true is
  | b, .conversion _ :: is => b = true ∧ Spaced false is

/-! ### Conversions -/

variable {c : Call} {p p' : Printer} {is : List Item} {as : List Arg} {a : Arg} {k : Conversion}
  {ch : BitVec 8}

theorem putsLen_of_isCString {s n fuel : ℕ} {l : List (BitVec 8)}
    (h : IsCString (fun i => c.mem (s + n + i)) l) (hlt : n + l.length < 2 ^ 31)
    (h64 : s + n + l.length < 2 ^ 64) (hfuel : l.length < fuel) :
    putsLen c s fuel n = some ((n + l.length : ℕ) : ℤ) := by
  induction l generalizing n fuel with
  | nil =>
    obtain ⟨fuel, rfl⟩ : ∃ k, fuel = k + 1 := ⟨fuel - 1, by omega⟩
    have hnul : c.mem (s + n) = 0 := h
    have haddr : u64 ((s : ℤ) + n) = s + n := u64_natCast (n := s + n) (by simpa using h64)
    rw [putsLen, haddr, if_neg (not_not_intro hnul)]
    rfl
  | cons b l ih =>
    obtain ⟨hb, hmem, htail⟩ := h
    rw [List.length_cons] at hlt h64 hfuel
    obtain ⟨fuel, rfl⟩ : ∃ k, fuel = k + 1 := ⟨fuel - 1, by omega⟩
    have haddr : u64 ((s : ℤ) + n) = s + n := u64_natCast (n := s + n) (by omega)
    have hnext : (fun i => c.mem (s + (n + 1) + i)) = fun i => c.mem (s + n + (i + 1)) := by
      funext i
      congr 1
      omega
    rw [putsLen, haddr, if_pos (by rw [show c.mem (s + n) = b from hmem]; exact hb),
      int32_natCast_add_one (by omega), ih (by rw [hnext]; exact htail) (by omega) (by omega)
      (by omega), List.length_cons]
    congr 2
    omega

/-- The index of `Puts` passes a string of `2 ^ 31` characters only when it is negative. -/
theorem putsLen_neg {s : ℕ} (hs : s + 2 ^ 31 ≤ 2 ^ 64) (hlong : ∀ i < 2 ^ 31, c.mem (s + i) ≠ 0)
    {fuel : ℕ} {len len' : ℤ} (hlen : -2 ^ 31 ≤ len ∧ len < 2 ^ 31)
    (h : putsLen c s fuel len = some len') : -2 ^ 31 ≤ len' ∧ len' < 0 := by
  induction fuel generalizing len with
  | zero => exact absurd h (Option.some_ne_none len').symm
  | succ fuel ih =>
    rw [putsLen] at h
    split_ifs at h with hchar
    · refine ih ?_ h
      rw [int32, Int.bmod_def]
      omega
    · obtain rfl := Option.some.inj h
      refine ⟨hlen.1, ?_⟩
      by_contra hnot
      obtain ⟨n, rfl⟩ := Int.eq_ofNat_of_zero_le (Int.not_lt.mp hnot)
      have haddr : u64 (s + n) = s + n := by
        rw [u64]
        omega
      rw [haddr] at hchar
      exact hchar (hlong n (by omega))

/-- A string of `2 ^ 31` characters or more is never written: if `Puts` returns, it has written at
least `2 ^ 64 - 2 ^ 31` characters. -/
theorem puts_of_long {s : ℕ} (hs : s + 2 ^ 31 ≤ 2 ^ 64)
    (hlong : ∀ i < 2 ^ 31, c.mem (s + i) ≠ 0) {fuel : ℕ} (h : puts c p s fuel = some p') :
    p.out.length + (2 ^ 64 - 2 ^ 31) ≤ p'.out.length := by
  obtain ⟨len, hlen, rfl⟩ := Option.map_eq_some_iff.mp h
  obtain ⟨hge, hlt⟩ := putsLen_neg hs hlong ⟨by decide, by decide⟩ hlen
  have hsize : 2 ^ 64 - 2 ^ 31 ≤ u64 len := by
    rw [u64]
    omega
  rw [Printer.write, List.length_append, List.length_map, List.length_range]
  omega

theorem map_range_of_isCString {s : ℕ → BitVec 8} {l : List (BitVec 8)} (h : IsCString s l) :
    (List.range l.length).map s = l := by
  induction l generalizing s with
  | nil => rfl
  | cons b l ih =>
    obtain ⟨-, hb, htail⟩ := h
    rw [List.length_cons, List.range_succ_eq_map, List.map_cons, List.map_map, hb]
    exact congrArg (b :: ·) (ih htail)

theorem write_number {base n : ℕ} (hbase : 1 < base) (hn : c.va p.arg = n) (hlt : n < 2 ^ 64) :
    some (p.takeArg.write (convert (c.va p.arg) base)) =
      some (p.takeArg.write (numeral base n)) := by
  rw [hn, convert_eq_numeral hbase hlt]

/-- A conversion writes what it stands for. -/
theorem writeConversion_eq (hfits : a.Fits k) (hat : a.At c (c.va p.arg)) :
    ∃ N, ∀ fuel, N ≤ fuel →
      writeConversion c fuel k.letter p = some (p.takeArg.write (a.expand k)) := by
  cases k with
  | char =>
    cases a with
    | char ch =>
      have hch : BitVec.ofNat 8 (c.va p.arg) = ch := hat
      refine ⟨0, fun fuel _ => ?_⟩
      rw [← hch]
      rfl
    | number n => exact absurd hfits id
    | string s => exact absurd hfits id
  | string =>
    cases a with
    | char ch => exact absurd hfits id
    | number n => exact absurd hfits id
    | string s =>
      obtain ⟨h64, hs⟩ := hat
      have hlt : s.length < 2 ^ 31 := hfits
      refine ⟨s.length + 1, fun fuel hfuel => ?_⟩
      have hlen : putsLen c (c.va p.arg) fuel ((0 : ℕ) : ℤ) = some ((0 + s.length : ℕ) : ℤ) :=
        putsLen_of_isCString (by simpa using hs) (by omega) (by omega) (by omega)
      change puts c p.takeArg (c.va p.arg) fuel = _
      rw [puts, show (0 : ℤ) = ((0 : ℕ) : ℤ) from rfl, hlen, Option.map_some, Nat.zero_add,
        u64_natCast (by omega), map_range_of_isCString hs]
      rfl
  | decimal =>
    cases a with
    | char ch => exact absurd hfits id
    | number n => exact ⟨0, fun _ _ => write_number (by decide) hat hfits⟩
    | string s => exact absurd hfits id
  | octal =>
    cases a with
    | char ch => exact absurd hfits id
    | number n => exact ⟨0, fun _ _ => write_number (by decide) hat hfits⟩
    | string s => exact absurd hfits id
  | hex =>
    cases a with
    | char ch => exact absurd hfits id
    | number n => exact ⟨0, fun _ _ => write_number (by decide) hat hfits⟩
    | string s => exact absurd hfits id

/-! ### The loops -/

/-- What the outer loop does after the inner one. -/
def afterText (c : Call) (fuel : ℕ) : Bool × Printer → Option Printer := fun (atEnd, p) =>
  if atEnd then some p.finish
  else
    let p := p.advance.read
    (writeConversion c fuel (c.char p.traverse) p).bind fun p => printLoop c fuel p.advance

theorem printLoop_succ (c : Call) (fuel : ℕ) (p : Printer) :
    printLoop c (fuel + 1) p =
      if c.char p.traverse = 0 then some p.read.finish
      else (writeText c fuel p.read).bind (afterText c fuel) := rfl

/-- The state after the inner loop has written a character and read the next one. -/
def Printer.put (p : Printer) (ch : BitVec 8) : Printer := ((p.read.write [ch]).advance).read

/-- The state at the character after a conversion that wrote `cs`, the character `ch` before it
included. -/
def Printer.converted (p : Printer) (ch : BitVec 8) (cs : List (BitVec 8)) : Printer :=
  ((p.put ch).advance.read.takeArg.write cs).advance

theorem Printer.mem_reads_read {r : ℕ} (hr : r ∈ p.read.reads) :
    r ∈ p.reads ∨ r ≤ p.traverse := by
  rcases List.mem_cons.mp hr with rfl | hr
  · exact Or.inr le_rfl
  · exact Or.inl hr

theorem Printer.mem_reads_put {r : ℕ} (hr : r ∈ (p.put ch).reads) :
    r ∈ p.reads ∨ r ≤ p.traverse + 1 := by
  rcases mem_reads_read hr with hr | hr
  · exact (mem_reads_read hr).imp_right Nat.le_succ_of_le
  · exact Or.inr hr

theorem Printer.mem_reads_converted {cs : List (BitVec 8)} {r : ℕ}
    (hr : r ∈ (p.converted ch cs).reads) : r ∈ p.reads ∨ r ≤ p.traverse + 2 := by
  rcases mem_reads_read (p := (p.put ch).advance) hr with hr | hr
  · exact (mem_reads_put hr).imp_right Nat.le_succ_of_le
  · exact Or.inr hr

/-- A round of the outer loop at a character. -/
theorem printLoop_of_char (hch : c.char p.traverse = ch) (h0 : ch ≠ 0) (fuel : ℕ) :
    printLoop c (fuel + 1) p = (writeText c fuel p.read).bind (afterText c fuel) := by
  rw [printLoop_succ, hch, if_neg h0]

/-- A round of the inner loop at a character. -/
theorem writeText_succ (hch : c.char p.traverse = ch) (h0 : ch ≠ 0) (fuel : ℕ) :
    writeText c (fuel + 1) p =
      if c.char (p.traverse + 1) ≠ 0x25 then writeText c fuel (p.put ch)
      else some (false, p.put ch) := by
  have hread : c.char p.read.traverse = ch := hch
  rw [writeText, hread, if_neg h0]
  rfl

/-- The inner loop at a character before the end. -/
theorem writeText_of_end (hch : c.char p.traverse = ch) (h0 : ch ≠ 0)
    (hend : c.char (p.traverse + 1) = 0) (fuel : ℕ) :
    writeText c (fuel + 2) p = some (true, (p.put ch).read) := by
  have hread : c.char (p.put ch).read.traverse = 0 := hend
  rw [writeText_succ hch h0, hend, if_pos (by decide), writeText, if_pos hread]

/-- The inner loop at a character before a conversion, and the conversion. -/
theorem writeText_of_conversion (hch : c.char p.traverse = ch) (h0 : ch ≠ 0)
    (hpercent : c.char (p.traverse + 1) = 0x25) (hletter : c.char (p.traverse + 1 + 1) = k.letter)
    (hfits : a.Fits k) (hat : a.At c (c.va p.arg)) :
    ∃ M, ∀ fuel fuel', M ≤ fuel' → (writeText c (fuel + 1) p).bind (afterText c fuel') =
      printLoop c fuel' (p.converted ch (a.expand k)) := by
  obtain ⟨M, hM⟩ := writeConversion_eq (p := (p.put ch).advance.read) hfits hat
  refine ⟨M, fun fuel fuel' hfuel' => ?_⟩
  rw [writeText_succ hch h0, if_neg (not_not_intro hpercent)]
  change (writeConversion c fuel' (c.char (p.traverse + 1 + 1)) _).bind _ = _
  rw [hletter, hM fuel' hfuel']
  rfl

/-- The rest of a call, before the items `is` and the arguments `as`. -/
structure Ready (c : Call) (is : List Item) (as : List Arg) (traverse arg : ℕ) : Prop where
  fits : Matches is as
  text_ok : ∀ ch, Item.text ch ∈ is → ch ≠ 0 ∧ ch ≠ 0x25
  format : Holds c.mem (c.str + traverse) (encode is ++ [0])
  args : ∀ (i : ℕ) (a : Arg), as[i]? = some a → a.At c (c.va (arg + i))

/-- A call has written some characters, read up to an offset and returned. -/
structure Written (p p' : Printer) (cs : List (BitVec 8)) (last : ℕ) : Prop where
  out : p'.out = p.out ++ cs
  reads : ∀ r ∈ p'.reads, r ∈ p.reads ∨ r ≤ last
  inUse : p'.inUse = false

/-- Characters written before. -/
theorem Written.before {p₁ : Printer} {cs : List (BitVec 8)} {m last last₁ : ℕ}
    (h : Written p₁ p' cs last₁) (cs₁ : List (BitVec 8)) (hout : p₁.out = p.out ++ cs₁)
    (hreads : ∀ r ∈ p₁.reads, r ∈ p.reads ∨ r ≤ m) (hm : m ≤ last) (hlast : last₁ ≤ last) :
    Written p p' (cs₁ ++ cs) last := by
  refine ⟨by rw [h.out, hout, List.append_assoc], fun r hr => ?_, h.inUse⟩
  rcases h.reads r hr with hr | hr
  · exact (hreads r hr).imp_right hm.trans'
  · exact Or.inr (hr.trans hlast)

theorem Ready.char_nil {t j : ℕ} (h : Ready c [] as t j) : c.char t = 0 := h.format.1

theorem Ready.text {t j : ℕ} (h : Ready c (.text ch :: is) as t j) :
    c.char t = ch ∧ (ch ≠ 0 ∧ ch ≠ 0x25) ∧ Ready c is as (t + 1) j :=
  ⟨h.format.1, h.text_ok ch List.mem_cons_self, h.fits,
    fun ch' hch' => h.text_ok ch' (List.mem_cons_of_mem _ hch'), h.format.2, h.args⟩

theorem Ready.conversion {t j : ℕ} (h : Ready c (.conversion k :: is) as t j) :
    ∃ a as', as = a :: as' ∧ a.Fits k ∧ a.At c (c.va j) ∧ c.char t = 0x25 ∧
      c.char (t + 1) = k.letter ∧ Ready c is as' (t + 2) (j + 1) := by
  obtain ⟨hfits, hok, hformat, hargs⟩ := h
  cases as with
  | nil => exact absurd hfits id
  | cons a as' =>
    refine ⟨a, as', rfl, hfits.1, hargs 0 a rfl, hformat.1, hformat.2.1, hfits.2,
      fun ch hch => hok ch (List.mem_cons_of_mem _ hch), hformat.2.2, fun i a' ha' => ?_⟩
    rw [Nat.add_right_comm]
    exact hargs (i + 1) a' ha'

/-- With enough fuel the outer loop writes `cs` and reads up to `last`. -/
def LoopWrites (c : Call) (p : Printer) (cs : List (BitVec 8)) (last : ℕ) : Prop :=
  ∃ N p', (∀ fuel, N ≤ fuel → printLoop c fuel p = some p') ∧ Written p p' cs last

/-- The same for the inner loop and what comes after it. -/
def TextWrites (c : Call) (p : Printer) (cs : List (BitVec 8)) (last : ℕ) : Prop :=
  ∃ N p', (∀ fuel fuel', N ≤ fuel → N ≤ fuel' →
    (writeText c fuel p).bind (afterText c fuel') = some p') ∧ Written p p' cs last

section Rounds

variable {cs : List (BitVec 8)} {last : ℕ}

theorem loopWrites_of_end (hend : c.char p.traverse = 0) : LoopWrites c p [] p.traverse := by
  refine ⟨1, p.read.finish, fun fuel hfuel => ?_, ?_⟩
  · obtain ⟨n, rfl⟩ : ∃ n, fuel = n + 1 := ⟨fuel - 1, by omega⟩
    rw [printLoop_succ, if_pos hend]
  · exact ⟨(List.append_nil _).symm, fun r hr => Printer.mem_reads_read hr, rfl⟩

theorem textWrites_of_end (hch : c.char p.traverse = ch) (h0 : ch ≠ 0)
    (hend : c.char (p.traverse + 1) = 0) : TextWrites c p [ch] (p.traverse + 1) := by
  refine ⟨2, (p.put ch).read.finish, fun fuel fuel' hfuel _ => ?_, ?_⟩
  · obtain ⟨n, rfl⟩ : ∃ n, fuel = n + 2 := ⟨fuel - 2, by omega⟩
    rw [writeText_of_end hch h0 hend]
    rfl
  · refine ⟨rfl, fun r hr => ?_, rfl⟩
    rcases Printer.mem_reads_read hr with hr | hr
    · exact Printer.mem_reads_put hr
    · exact Or.inr hr

/-- The outer loop begins the inner one at a character. -/
theorem TextWrites.loop (h : TextWrites c p.read cs last) (hch : c.char p.traverse = ch)
    (h0 : ch ≠ 0) (hlast : p.traverse ≤ last) : LoopWrites c p cs last := by
  obtain ⟨N, p', hN, hw⟩ := h
  refine ⟨N + 1, p', fun fuel hfuel => ?_, ?_⟩
  · obtain ⟨n, rfl⟩ : ∃ n, fuel = n + 1 := ⟨fuel - 1, by omega⟩
    rw [printLoop_of_char hch h0]
    exact hN n n (by omega) (by omega)
  · exact hw.before [] (List.append_nil _).symm (fun r => Printer.mem_reads_read) hlast le_rfl

/-- The inner loop goes on at a character that is not a `%`. -/
theorem TextWrites.text (h : TextWrites c (p.put ch) cs last) (hch : c.char p.traverse = ch)
    (h0 : ch ≠ 0) (hnext : c.char (p.traverse + 1) ≠ 0x25) (hlast : p.traverse + 1 ≤ last) :
    TextWrites c p (ch :: cs) last := by
  obtain ⟨N, p', hN, hw⟩ := h
  refine ⟨N + 1, p', fun fuel fuel' hfuel hfuel' => ?_, ?_⟩
  · obtain ⟨n, rfl⟩ : ∃ n, fuel = n + 1 := ⟨fuel - 1, by omega⟩
    rw [writeText_succ hch h0, if_pos hnext]
    exact hN n fuel' (by omega) (by omega)
  · exact hw.before [ch] rfl (fun r => Printer.mem_reads_put) hlast le_rfl

/-- The inner loop ends at a `%`, and the outer one goes on after the conversion. -/
theorem LoopWrites.conversion (h : LoopWrites c (p.converted ch (a.expand k)) cs last)
    (hch : c.char p.traverse = ch) (h0 : ch ≠ 0) (hpercent : c.char (p.traverse + 1) = 0x25)
    (hletter : c.char (p.traverse + 1 + 1) = k.letter) (hfits : a.Fits k)
    (hat : a.At c (c.va p.arg)) (hlast : p.traverse + 2 ≤ last) :
    TextWrites c p (ch :: (a.expand k ++ cs)) last := by
  obtain ⟨N, p', hN, hw⟩ := h
  obtain ⟨M, hM⟩ := writeText_of_conversion hch h0 hpercent hletter hfits hat
  refine ⟨M + N + 1, p', fun fuel fuel' hfuel hfuel' => ?_, ?_⟩
  · obtain ⟨n, rfl⟩ : ∃ n, fuel = n + 1 := ⟨fuel - 1, by omega⟩
    rw [hM n fuel' (by omega)]
    exact hN fuel' (by omega)
  · exact hw.before (ch :: a.expand k) (List.append_assoc p.out [ch] _)
      (fun r => Printer.mem_reads_converted) hlast le_rfl

end Rounds

/-- The loops write the expansion of what is left of a format: the outer loop, if there is a
character before each conversion, and the inner loop at a character `ch`, if there is one after
`ch`. -/
theorem loops_write (is : List Item) :
    (∀ as p, Ready c is as p.traverse p.arg → Spaced false is →
      LoopWrites c p (expand is as) (p.traverse + (encode is).length)) ∧
    ∀ as p ch, c.char p.traverse = ch → ch ≠ 0 → Ready c is as (p.traverse + 1) p.arg →
      Spaced true is →
      TextWrites c p (ch :: expand is as) (p.traverse + 1 + (encode is).length) := by
  induction is with
  | nil =>
    constructor
    · intro as p hr _
      exact loopWrites_of_end hr.char_nil
    · intro as p ch hch h0 hr _
      exact textWrites_of_end hch h0 hr.char_nil
  | cons item is ih =>
    obtain ⟨ihLoop, ihText⟩ := ih
    cases item with
    | text ch' =>
      have hlen : (encode (.text ch' :: is)).length = 1 + (encode is).length := Nat.add_comm _ 1
      rw [hlen]
      constructor
      · intro as p hr hs
        obtain ⟨hch, hok, hr'⟩ := hr.text
        have hrest : TextWrites c p.read (ch' :: expand is as)
            (p.traverse + 1 + (encode is).length) := ihText as p.read ch' hch hok.1 hr' hs
        rw [← Nat.add_assoc]
        exact hrest.loop hch hok.1 (by omega)
      · intro as p ch hch h0 hr hs
        obtain ⟨hch', hok, hr'⟩ := hr.text
        have hrest : TextWrites c (p.put ch) (ch' :: expand is as)
            (p.traverse + 1 + 1 + (encode is).length) :=
          ihText as (p.put ch) ch' hch' hok.1 hr' hs
        rw [← Nat.add_assoc]
        exact hrest.text hch h0 (hch' ▸ hok.2) (by omega)
    | conversion k =>
      have hlen : (encode (.conversion k :: is)).length = 2 + (encode is).length := Nat.add_comm _ 2
      refine ⟨fun as p hr hs => absurd hs.1 Bool.false_ne_true, ?_⟩
      intro as p ch hch h0 hr hs
      obtain ⟨a, as', rfl, hfits, hat, hpercent, hletter, hr'⟩ := hr.conversion
      have hrest : LoopWrites c (p.converted ch (a.expand k)) (expand is as')
          (p.traverse + 1 + 2 + (encode is).length) := ihLoop as' _ hr' hs.2
      rw [hlen, ← Nat.add_assoc]
      exact hrest.conversion hch h0 hpercent hletter hfits hat (by omega)

theorem Passes.ready {f : Format} (hc : Passes c f.items as) : Ready c f.items as 0 0 := by
  refine ⟨hc.fits, f.text_ok, hc.format, fun i a ha => ?_⟩
  rw [Nat.zero_add]
  exact hc.args i a ha

/-- `PrintK` writes the expansion of a format with a character before each conversion. -/
theorem prints_of_spaced (f : Format) (hs : Spaced false f.items) (hc : Passes c f.items as) :
    Prints c f.items as := by
  obtain ⟨N, p, hN, hw⟩ := (loops_write f.items).1 as ⟨true, 0, 0, [], []⟩ hc.ready hs
  refine ⟨N, p, hN, hw.out, fun r hr => ?_, hw.inUse⟩
  rcases hw.reads r hr with hr | hr
  · exact absurd hr List.not_mem_nil
  · exact hr.trans (Nat.zero_add _).le

/-! ### Conversions without a character before them -/

/-- What is written stays. -/
theorem writeText_grows {fuel : ℕ} {b : Bool} (h : writeText c fuel p = some (b, p')) :
    p.out <+: p'.out := by
  induction fuel generalizing p with
  | zero => exact absurd h (by simp [writeText])
  | succ fuel ih =>
    by_cases h0 : c.char p.traverse = 0
    · have hread : c.char p.read.traverse = 0 := h0
      rw [writeText, if_pos hread] at h
      obtain ⟨-, rfl⟩ := Prod.mk.inj (Option.some.inj h)
      exact List.prefix_rfl
    · rw [writeText_succ rfl h0] at h
      have hput : p.out <+: (p.put (c.char p.traverse)).out :=
        List.prefix_append _ _
      split_ifs at h
      · exact hput.trans (ih h)
      · obtain ⟨-, rfl⟩ := Prod.mk.inj (Option.some.inj h)
        exact hput

theorem writeConversion_grows {fuel : ℕ} {dataType : BitVec 8}
    (h : writeConversion c fuel dataType p = some p') : p.out <+: p'.out := by
  rw [writeConversion] at h
  split_ifs at h
  · obtain rfl := Option.some.inj h
    exact List.prefix_append _ _
  · obtain rfl := Option.some.inj h
    exact List.prefix_append _ _
  · obtain rfl := Option.some.inj h
    exact List.prefix_append _ _
  · obtain rfl := Option.some.inj h
    exact List.prefix_append _ _
  · obtain ⟨len, -, rfl⟩ := Option.map_eq_some_iff.mp h
    exact List.prefix_append _ _
  · obtain rfl := Option.some.inj h
    exact List.prefix_rfl

theorem afterText_grows {fuel : ℕ} {b : Bool}
    (hloop : ∀ q : Printer, printLoop c fuel q = some p' → q.out <+: p'.out)
    (h : afterText c fuel (b, p) = some p') : p.out <+: p'.out := by
  rw [afterText] at h
  cases b with
  | true =>
    obtain rfl := Option.some.inj h
    exact List.prefix_rfl
  | false =>
    obtain ⟨q, hconv, hrest⟩ := Option.bind_eq_some_iff.mp h
    have hq : q.out <+: p'.out := hloop q.advance hrest
    exact (writeConversion_grows hconv).trans hq

theorem printLoop_grows {fuel : ℕ} (h : printLoop c fuel p = some p') : p.out <+: p'.out := by
  induction fuel generalizing p with
  | zero => exact absurd h (by simp [printLoop])
  | succ fuel ih =>
    rw [printLoop_succ] at h
    split_ifs at h
    · obtain rfl := Option.some.inj h
      exact List.prefix_rfl
    · obtain ⟨⟨b, q⟩, htext, hrest⟩ := Option.bind_eq_some_iff.mp h
      exact (writeText_grows htext).trans (afterText_grows (fun _ => ih) hrest)

/-- The inner loop writes the character where it starts. -/
theorem writeText_writes_char {fuel fuel' : ℕ} (hch : c.char p.traverse = ch) (h0 : ch ≠ 0)
    (h : (writeText c fuel p).bind (afterText c fuel') = some p') : p.out ++ [ch] <+: p'.out := by
  obtain ⟨⟨b, q⟩, htext, hrest⟩ := Option.bind_eq_some_iff.mp h
  refine List.IsPrefix.trans ?_ (afterText_grows (fun _ => printLoop_grows) hrest)
  cases fuel with
  | zero => exact absurd htext (by simp [writeText])
  | succ fuel =>
    rw [writeText_succ hch h0] at htext
    split_ifs at htext
    · exact writeText_grows htext
    · obtain ⟨-, rfl⟩ := Prod.mk.inj (Option.some.inj htext)
      exact List.prefix_rfl

/-- An argument whose expansion does not begin with a `%`. -/
def sampleArg : Conversion → Arg
  | .char => .char 0x78
  | .string => .string [0x78]
  | _ => .number 0

theorem sampleArg_fits (k : Conversion) : (sampleArg k).Fits k := by
  cases k with
  | char => exact trivial
  | string => exact (show 1 < 2 ^ 31 by decide)
  | _ => exact (show 0 < 2 ^ 64 by decide)

theorem sampleArg_expand (k : Conversion) :
    ∃ b cs, (sampleArg k).expand k = b :: cs ∧ b ≠ 0x25 := by
  cases k with
  | char => exact ⟨0x78, [], rfl, by decide⟩
  | string => exact ⟨0x78, [], rfl, by decide⟩
  | _ => exact ⟨0x30, [], rfl, by decide⟩

/-- The conversions of a format. -/
def conversions (is : List Item) : List Conversion :=
  is.filterMap fun
    | .text _ => none
    | .conversion k => some k

/-- Arguments for a format. -/
def sampleArgs (is : List Item) : List Arg := (conversions is).map sampleArg

theorem expand_sampleArgs_conversion (k : Conversion) (is : List Item) : ∃ b cs,
    expand (.conversion k :: is) (sampleArgs (.conversion k :: is)) = b :: cs ∧ b ≠ 0x25 := by
  obtain ⟨b, cs, hexp, hb⟩ := sampleArg_expand k
  refine ⟨b, cs ++ expand is (sampleArgs is), ?_, hb⟩
  change (sampleArg k).expand k ++ _ = _
  rw [hexp]
  rfl

/-- At a conversion the outer loop writes the `%`, and the expansion does not begin with one. -/
theorem printLoop_conversion_differs {k : Conversion} {is : List Item} {fuel : ℕ}
    (hr : Ready c (.conversion k :: is) (sampleArgs (.conversion k :: is)) p.traverse p.arg)
    (h : printLoop c (fuel + 1) p = some p') :
    p'.out ≠ p.out ++ expand (.conversion k :: is) (sampleArgs (.conversion k :: is)) := by
  intro hout
  obtain ⟨-, -, -, -, -, hpercent, -, -⟩ := hr.conversion
  obtain ⟨b, cs, hexpand, hb⟩ := expand_sampleArgs_conversion k is
  rw [printLoop_of_char hpercent (by decide)] at h
  have hpre := writeText_writes_char (p := p.read) hpercent (by decide) h
  rw [hout, hexpand, show p.read.out = p.out from rfl, List.prefix_append_right_inj,
    List.cons_prefix_cons] at hpre
  exact hb hpre.1.symm

/-- The loops do not write the expansion if there is no character before some conversion. -/
theorem loops_differ (is : List Item) :
    (∀ p, Ready c is (sampleArgs is) p.traverse p.arg → ¬ Spaced false is → ∃ N, ∀ fuel p',
      N ≤ fuel → printLoop c fuel p = some p' → p'.out ≠ p.out ++ expand is (sampleArgs is)) ∧
    ∀ p ch, c.char p.traverse = ch → ch ≠ 0 →
      Ready c is (sampleArgs is) (p.traverse + 1) p.arg → ¬ Spaced true is →
      ∃ N, ∀ fuel fuel' p', N ≤ fuel → N ≤ fuel' →
        (writeText c fuel p).bind (afterText c fuel') = some p' →
        p'.out ≠ p.out ++ ch :: expand is (sampleArgs is) := by
  induction is with
  | nil => exact ⟨fun _ _ hs => absurd trivial hs, fun _ _ _ _ _ hs => absurd trivial hs⟩
  | cons item is ih =>
    obtain ⟨ihLoop, ihText⟩ := ih
    cases item with
    | text ch' =>
      constructor
      · intro p hr hs
        obtain ⟨hch, hok, hr'⟩ := hr.text
        obtain ⟨N, hN⟩ := ihText p.read ch' hch hok.1 hr' hs
        refine ⟨N + 1, fun fuel p' hfuel h => ?_⟩
        obtain ⟨n, rfl⟩ : ∃ n, fuel = n + 1 := ⟨fuel - 1, by omega⟩
        rw [printLoop_of_char hch hok.1] at h
        exact hN n n p' (by omega) (by omega) h
      · intro p ch hch h0 hr hs
        obtain ⟨hch', hok, hr'⟩ := hr.text
        obtain ⟨N, hN⟩ := ihText (p.put ch) ch' hch' hok.1 hr' hs
        refine ⟨N + 1, fun fuel fuel' p' hfuel hfuel' h => ?_⟩
        obtain ⟨n, rfl⟩ : ∃ n, fuel = n + 1 := ⟨fuel - 1, by omega⟩
        rw [writeText_succ hch h0, hch', if_pos hok.2] at h
        have hne := hN n fuel' p' (by omega) (by omega) h
        rwa [show (p.put ch).out = p.out ++ [ch] from rfl, List.append_assoc] at hne
    | conversion k =>
      constructor
      · intro p hr _
        refine ⟨1, fun fuel p' hfuel h => ?_⟩
        obtain ⟨n, rfl⟩ : ∃ n, fuel = n + 1 := ⟨fuel - 1, by omega⟩
        exact printLoop_conversion_differs hr h
      · intro p ch hch h0 hr hs
        have hs' : ¬ Spaced false is := fun h => hs ⟨rfl, h⟩
        obtain ⟨a, as', has, hfits, hat, hpercent, hletter, hr'⟩ := hr.conversion
        obtain ⟨rfl, rfl⟩ := List.cons.inj has
        obtain ⟨M, hM⟩ := writeText_of_conversion hch h0 hpercent hletter hfits hat
        obtain ⟨N, hN⟩ := ihLoop (p.converted ch ((sampleArg k).expand k)) hr' hs'
        refine ⟨M + N + 1, fun fuel fuel' p' hfuel hfuel' h => ?_⟩
        obtain ⟨n, rfl⟩ : ∃ n, fuel = n + 1 := ⟨fuel - 1, by omega⟩
        rw [hM n fuel' (by omega)] at h
        have hne := hN fuel' p' (by omega) h
        have hout : (p.converted ch ((sampleArg k).expand k)).out =
            p.out ++ ch :: (sampleArg k).expand k := List.append_assoc p.out [ch] _
        rw [hout, List.append_assoc, List.cons_append] at hne
        exact hne

/-- A word for a sample argument; the string is at address 1. -/
def sampleWord : Conversion → ℕ
  | .char => 0x78
  | .string => 1
  | _ => 0

/-- A call with sample arguments. -/
def sampleCall (is : List Item) : Call where
  mem := fun x => ([0x00, 0x78, 0x00] ++ ((encode is ++ [0]) ++ [])).getD (x - 0) 0
  str := 0 + 3
  va := fun i => ((conversions is)[i]?.map sampleWord).getD 0

theorem matches_sampleArgs (is : List Item) : Matches is (sampleArgs is) := by
  induction is with
  | nil => exact trivial
  | cons item is ih =>
    cases item with
    | text ch => exact ih
    | conversion k => exact ⟨sampleArg_fits k, ih⟩

theorem passes_sampleCall (is : List Item) : Passes (sampleCall is) is (sampleArgs is) := by
  refine ⟨matches_sampleArgs is, holds_getD 0 [0x00, 0x78, 0x00] (encode is ++ [0]) [],
    fun i a ha => ?_⟩
  rw [sampleArgs, List.getElem?_map] at ha
  obtain ⟨k, hk, rfl⟩ := Option.map_eq_some_iff.mp ha
  have hword : (sampleCall is).va i = sampleWord k := by
    change ((conversions is)[i]?.map sampleWord).getD 0 = _
    rw [hk]
    rfl
  rw [hword]
  cases k with
  | char => rfl
  | string => exact ⟨by decide, by decide, rfl, rfl⟩
  | _ => rfl

/-- `PrintK` writes the expansion of a format, for all arguments, exactly if there is a character
before each of its conversions. -/
theorem prints_iff (f : Format) :
    (∀ c as, Passes c f.items as → Prints c f.items as) ↔ Spaced false f.items := by
  constructor
  · intro h
    by_contra hs
    have hc := passes_sampleCall f.items
    obtain ⟨N, p, hN, hout, -, -⟩ := h _ _ hc
    obtain ⟨M, hM⟩ := (loops_differ f.items).1 ⟨true, 0, 0, [], []⟩ hc.ready hs
    exact hM (M + N) p (by omega) (hN (M + N) (by omega)) hout
  · intro hs c as hc
    exact prints_of_spaced f hs hc

/-- The format `%d` and the number 5 at the start. -/
theorem percent_written_at_start :
    Passes ⟨fun x => [0x25, 0x64].getD x 0, 0, fun _ => 5⟩ [.conversion .decimal] [.number 5] ∧
      ¬ Prints ⟨fun x => [0x25, 0x64].getD x 0, 0, fun _ => 5⟩ [.conversion .decimal]
        [.number 5] := by
  refine ⟨⟨⟨show 5 < 2 ^ 64 by decide, trivial⟩, ⟨rfl, rfl, rfl, trivial⟩, fun i a ha => ?_⟩, ?_⟩
  · cases i with
    | zero =>
      obtain rfl := Option.some.inj ha
      rfl
    | succ i => exact absurd ha (by simp)
  · rintro ⟨N, p, hN, hout, -, -⟩
    have h := hN (N + 1) (by omega)
    rw [printK, if_neg Bool.false_ne_true, printLoop_succ, if_neg (by decide)] at h
    have hpre := writeText_writes_char rfl (by decide) h
    have hexpand : expand [.conversion .decimal] [.number 5] = [0x35] := by
      simp [expand, Arg.expand, numeral, hexDigit]
    rw [hout, hexpand] at hpre
    exact absurd hpre (by decide)

end Vardar.Printf
