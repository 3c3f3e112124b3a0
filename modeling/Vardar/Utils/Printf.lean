import Vardar.Lib.Word
import Vardar.Utils.CString

/-!
# The kernel's `printf.c`

`PrintK` walks over its format with one pointer that two nested loops advance: the inner one writes
characters until it is at a `%`, and the outer one then handles a conversion.

The format is in memory, and the arguments are the words that `va_arg` takes one after the other,
those behind the last argument being what is there. Offsets into the format that are read are kept
in a list that is not in the source. The loops and the search for the end of a string take a bound
on their rounds.

## Main definitions

* `Vardar.Printf.convert`, `Vardar.Printf.puts`; an index of a string is an `int`.
* `Vardar.Printf.Call`, `Vardar.Printf.Printer`: the arguments of a call and its state.
* `Vardar.Printf.printK`.
-/

namespace Vardar.Printf

open ByteMemory Word

/-- `hex_digits[n]`. -/
def hexDigit (n : ℕ) : BitVec 8 := BitVec.ofNat 8 (if n < 10 then 0x30 + n else 0x41 + (n - 10))

/-- The loop of `Convert`, with the string from `ptr` on. -/
def convertLoop (base : ℕ) : ℕ → ℕ → List (BitVec 8) → List (BitVec 8)
  | 0, _, str => str
  | fuel + 1, num, str =>
    let str := hexDigit (num % base) :: str
    if num / base ≠ 0 then convertLoop base fuel (num / base) str else str

/-- `Convert`. A number of 64 bits has at most 64 digits. -/
def convert (num base : ℕ) : List (BitVec 8) := convertLoop base 64 num []

/-- The arguments of a call of `PrintK`: the address of the format, and the words for `va_arg`. -/
structure Call where
  mem : Mem
  str : ℕ
  va : ℕ → ℕ

/-- `IN_USE`, the variables of `PrintK` and the characters sent to `term_write`. -/
structure Printer where
  inUse : Bool
  traverse : ℕ
  arg : ℕ
  out : List (BitVec 8)
  reads : List ℕ

namespace Printer

variable (p : Printer)

/-- Read `*traverse`. -/
def read : Printer := { p with reads := p.traverse :: p.reads }

/-- `++traverse`. -/
def advance : Printer := { p with traverse := p.traverse + 1 }

/-- `va_arg`. -/
def takeArg : Printer := { p with arg := p.arg + 1 }

/-- Send characters to `term_write`. -/
def write (cs : List (BitVec 8)) : Printer := { p with out := p.out ++ cs }

/-- Leave `PrintK`. -/
def finish : Printer := { p with inUse := false }

end Printer

/-- The character at an offset of the format. -/
def Call.char (c : Call) (i : ℕ) : BitVec 8 := c.mem (c.str + i)

/-- The loop of `Puts`, from an index on. -/
def putsLen (c : Call) (s : ℕ) : ℕ → ℤ → Option ℤ
  | 0, _ => none
  | fuel + 1, len =>
    if c.mem (u64 (s + len)) ≠ 0 then putsLen c s fuel (int32 (len + 1)) else some len

/-- `Puts`. -/
def puts (c : Call) (p : Printer) (s fuel : ℕ) : Option Printer :=
  (putsLen c s fuel 0).map fun len =>
    p.write ((List.range (u64 len)).map fun i => c.mem (s + i))

/-- The inner loop: the characters up to a `%`. The result says whether it met the end. -/
def writeText (c : Call) : ℕ → Printer → Option (Bool × Printer)
  | 0, _ => none
  | fuel + 1, p =>
    let p := p.read
    if c.char p.traverse = 0 then some (true, p)
    else
      let p := ((p.write [c.char p.traverse]).advance).read
      if c.char p.traverse ≠ 0x25 then writeText c fuel p else some (false, p)

/-- The switch over the type of a conversion. -/
def writeConversion (c : Call) (fuel : ℕ) (dataType : BitVec 8) (p : Printer) : Option Printer :=
  let i := c.va p.arg
  if dataType = 0x63 then some (p.takeArg.write [BitVec.ofNat 8 i])
  else if dataType = 0x64 then some (p.takeArg.write (convert i 10))
  else if dataType = 0x6f then some (p.takeArg.write (convert i 8))
  else if dataType = 0x68 then some (p.takeArg.write (convert i 16))
  else if dataType = 0x73 then puts c p.takeArg i fuel
  else some p

/-- The outer loop. -/
def printLoop (c : Call) : ℕ → Printer → Option Printer
  | 0, _ => none
  | fuel + 1, p =>
    let p := p.read
    if c.char p.traverse = 0 then some p.finish
    else
      (writeText c fuel p).bind fun (atEnd, p) =>
        if atEnd then some p.finish
        else
          let p := p.advance.read
          (writeConversion c fuel (c.char p.traverse) p).bind fun p => printLoop c fuel p.advance

/-- `PrintK`. It does not return while `IN_USE` is set. -/
def printK (c : Call) (inUse : Bool) (fuel : ℕ) : Option Printer :=
  if inUse then none else printLoop c fuel ⟨true, 0, 0, [], []⟩

end Vardar.Printf
