import Mathlib.Data.BitVec
import Mathlib.Data.Nat.Init

/-!
# Keys

The state of the keyboard and the character of a key.

## Main definitions

* `Vardar.KeyInfo`, `Vardar.charFromScancode`.
-/

namespace Vardar

/-- `KeyInfo`. -/
structure KeyInfo where
  shift : Bool
  backspace : Bool
  ctrl : Bool
  enter : Bool
  scancode : BitVec 8
  deriving DecidableEq

/-- `LOWERCASE_CHARS_BY_SCANCODE` up to its last character; the rest of the 128 are zero. -/
def lowercaseCharsByScancode : List (BitVec 8) :=
  [0, 0, 0x31, 0x32, 0x33, 0x34, 0x35, 0x36, 0x37, 0x38, 0x39, 0x30, 0x2d, 0x3d, 0, 0, 0x71,
    0x77, 0x65, 0x72, 0x74, 0x79, 0x75, 0x69, 0x6f, 0x70, 0x5b, 0x5d, 0, 0, 0x61, 0x73, 0x64,
    0x66, 0x67, 0x68, 0x6a, 0x6b, 0x6c, 0x3b, 0x27, 0x60, 0, 0x5c, 0x7a, 0x78, 0x63, 0x76, 0x62,
    0x6e, 0x6d, 0x2c, 0x2e, 0x2f, 0, 0, 0, 0x20, 0]

/-- `UPPERCASE_CHARS_BY_SCANCODE` up to its last character; the rest of the 128 are zero. -/
def uppercaseCharsByScancode : List (BitVec 8) :=
  [0, 0, 0x21, 0x40, 0x23, 0x24, 0x25, 0x5e, 0x26, 0x2a, 0x28, 0x29, 0x5f, 0x2b, 0, 0, 0x51,
    0x57, 0x45, 0x52, 0x54, 0x59, 0x55, 0x49, 0x4f, 0x50, 0x7b, 0x7d, 0, 0, 0x41, 0x53, 0x44,
    0x46, 0x47, 0x48, 0x4a, 0x4b, 0x4c, 0x3a, 0x22, 0x7e, 0, 0x7c, 0x5a, 0x58, 0x43, 0x56, 0x42,
    0x4e, 0x4d, 0x3c, 0x3e, 0x3f, 0, 0, 0, 0x20, 0]

/-- `CharFromScancode`. A scancode from 128 on reads behind a table, where `rodata` is. -/
def charFromScancode (rodata : Bool → ℕ → BitVec 8) (keyInfo : KeyInfo) : BitVec 8 :=
  let n := keyInfo.scancode.toNat
  if n < 128 then
    if keyInfo.shift then uppercaseCharsByScancode.getD n 0 else lowercaseCharsByScancode.getD n 0
  else rodata keyInfo.shift n

end Vardar
