/-!
# Reading integers

An integer is an optional sign and digits; a single underscore may stand between two digits. Which
characters are digits is a parameter: the ten of ASCII, or the decimal digits of every script.
-/

namespace JavaLint.Decimal

/-- The zeros of the scripts that have decimal digits; the other nine digits follow each of them. -/
def zeroDigits : List Nat := [
  0x30, 0x660, 0x6F0, 0x7C0, 0x966, 0x9E6, 0xA66, 0xAE6, 0xB66, 0xBE6, 0xC66, 0xCE6, 0xD66, 0xDE6,
  0xE50, 0xED0, 0xF20, 0x1040, 0x1090, 0x17E0, 0x1810, 0x1946, 0x19D0, 0x1A80, 0x1A90, 0x1B50,
  0x1BB0, 0x1C40, 0x1C50, 0xA620, 0xA8D0, 0xA900, 0xA9D0, 0xA9F0, 0xAA50, 0xABF0, 0xFF10, 0x104A0,
  0x10D30, 0x11066, 0x110F0, 0x11136, 0x111D0, 0x112F0, 0x11450, 0x114D0, 0x11650, 0x116C0, 0x11730,
  0x118E0, 0x11950, 0x11C50, 0x11D50, 0x11DA0, 0x16A60, 0x16AC0, 0x16B50, 0x1D7CE, 0x1D7D8, 0x1D7E2,
  0x1D7EC, 0x1D7F6, 0x1E140, 0x1E2F0, 0x1E950, 0x1FBF0]

/-- The value of a decimal digit of ASCII. -/
def asciiDigit? (c : Char) : Option Nat :=
  if '0' ≤ c ∧ c ≤ '9' then some (c.toNat - '0'.toNat) else none

/-- The value of a decimal digit of any script. -/
def scriptDigit? (c : Char) : Option Nat :=
  (zeroDigits.find? fun first => first ≤ c.toNat && c.toNat < first + 10).map (c.toNat - ·)

/-- Reads digits with single underscores between them. `value` is what was read so far, and `digitRead`
    says whether the last character was a digit. -/
def readDigits? (digit? : Char → Option Nat) (value : Nat) (digitRead : Bool) : List Char → Option Nat
  | [] => if digitRead then some value else none
  | c :: s =>
    if c == '_' then
      if digitRead then readDigits? digit? value false s else none
    else
      match digit? c with
      | some d => readDigits? digit? (value * 10 + d) true s
      | none => none

/-- Reads an optional sign and digits. -/
def readInt? (digit? : Char → Option Nat) : List Char → Option Int
  | '-' :: s => (readDigits? digit? 0 false s).map fun n => -(n : Int)
  | '+' :: s => (readDigits? digit? 0 false s).map fun n => (n : Int)
  | s => (readDigits? digit? 0 false s).map fun n => (n : Int)

end JavaLint.Decimal
