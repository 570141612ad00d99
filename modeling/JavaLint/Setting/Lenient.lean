import JavaLint.Decimal.Numeral
import JavaLint.Setting.Coercion
import JavaLint.Text.Blank
import JavaLint.Text.Split

/-!
# Lenient coercion

The coercion that the program runs with. It accepts the settings that clearly mean what a field asks for,
such as the text `2` or the number `2.0` for an integer, and refuses all others.
-/

namespace JavaLint

namespace Setting

/-- White space around a number in a text. Unlike `Text.isBlank` this leaves out the information
    separators. -/
def isNumberBlank (c : Char) : Bool :=
  let n := c.toNat
  (0x09 ≤ n && n ≤ 0x0D) || n == 0x20 || n == 0x85 || n == 0xA0 || n == 0x1680 ||
    (0x2000 ≤ n && n ≤ 0x200A) || n == 0x2028 || n == 0x2029 || n == 0x202F || n == 0x205F ||
    n == 0x3000

/-- Reads an integer that may be followed by a point and zeros only. -/
def readWhole? (s : List Char) : Option Int :=
  match Text.cutFirstChars? '.' s with
  | none => Decimal.readInt? Decimal.asciiDigit? s
  | some (whole, fraction) =>
    if !fraction.isEmpty && fraction.all (· == '0') then Decimal.readInt? Decimal.asciiDigit? whole
    else none

/-- The value fits 64 signed bits. -/
def isWord (n : Int) : Bool :=
  -wordBound ≤ n && n < wordBound

/-- A floating-point value as an integer: it has to be finite, whole, and smaller than the bound. -/
def wholeFloat (x : Binary64) : Except FieldFault Int :=
  if x.isFinite then
    match x.toInt? with
    | none => .error .integerFraction
    | some n => if -wordBound < n && n < wordBound then .ok n else .error .integerTooLarge
  else .error .notFinite

/-- The integer that a setting means. -/
def readInt : Setting → Except FieldFault Int
  | .bool value => .ok value.toInt
  | .int value => .ok value
  | .float value => wholeFloat value
  | .text value =>
    match readWhole? (Text.trimCharsWhile isNumberBlank value.toList) with
    | some n => .ok n
    | none => .error .integerText
  | .null | .list _ | .table _ => .error .notInteger

/-- The texts that mean false and true, in lower case. -/
def falseWords : List String := ["0", "off", "f", "false", "n", "no"]

@[inherit_doc falseWords]
def trueWords : List String := ["1", "on", "t", "true", "y", "yes"]

/-- Zero and one as a truth value. -/
def bitToBool (n : Int) : Except FieldFault Bool :=
  if n == 0 then .ok false else if n == 1 then .ok true else .error .booleanText

/-- The truth value that a setting means. Words are recognised in any case, without blanks. -/
def readBool : Setting → Except FieldFault Bool
  | .bool value => .ok value
  | .int value => if isWord value then bitToBool value else .error .notBoolean
  | .float value =>
    match wholeFloat value with
    | .ok n => bitToBool n
    | .error _ => .error .notBoolean
  | .text value =>
    let word := String.ofList (value.toList.map Char.toLower)
    if falseWords.contains word then .ok false
    else if trueWords.contains word then .ok true
    else .error .booleanText
  | .null | .list _ | .table _ => .error .notBoolean

/-- The text that a setting is. -/
def readText : Setting → Except FieldFault String
  | .text value => .ok value
  | _ => .error .notText

/-- A number that is equal to a small integer is read as it. -/
theorem readInt_of_number? {s : Setting} {n : Int} (h : s.number? = some n)
    (hlow : -wordBound < n) (hhigh : n < wordBound) : s.readInt = .ok n := by
  cases s with
  | bool value =>
    obtain rfl := Option.some.inj h
    rfl
  | int value =>
    obtain rfl := Option.some.inj h
    rfl
  | float value =>
    cases value with
    | nan => exact nomatch h
    | infinite negative => exact nomatch h
    | finite negative mantissa exponent =>
      rw [number?] at h
      simp [readInt, wholeFloat, Binary64.isFinite, h, hlow, hhigh]
  | null => exact nomatch h
  | text value => exact nomatch h
  | list items => exact nomatch h
  | table entries => exact nomatch h

/-- A number that is read as an integer is equal to it. -/
theorem number?_of_readInt {s : Setting} {n : Int} (h : s.readInt = .ok n) (hnumber : s.isNumber = true) :
    s.number? = some n := by
  cases s with
  | bool value =>
    obtain rfl := Except.ok.inj h
    rfl
  | int value =>
    obtain rfl := Except.ok.inj h
    rfl
  | float value =>
    -- a float is read only if it is finite, whole and small
    rw [readInt, wholeFloat] at h
    split at h
    · rw [number?]
      cases hvalue : value.toInt? with
      | none => simp [hvalue] at h
      | some k =>
        simp only [hvalue] at h
        split at h
        · obtain rfl := Except.ok.inj h
          rfl
        · cases h
    · cases h
  | null => cases hnumber
  | text value => cases hnumber
  | list items => cases hnumber
  | table entries => cases hnumber

/-- Nothing but a text is read as a text. -/
theorem readText_of_ne {s : Setting} (h : ∀ text, s ≠ .text text) : s.readText = .error .notText := by
  cases s with
  | text value => exact absurd rfl (h value)
  | null | bool _ | int _ | float _ | list _ | table _ => rfl

/-- The lenient readings keep the laws of a coercion. -/
instance lenient : Coercion where
  toInt := readInt
  toBool := readBool
  toText := readText
  toInt_int _ := rfl
  toInt_of_number? := readInt_of_number?
  number?_of_toInt := number?_of_readInt
  toText_text _ := rfl
  toText_of_ne := readText_of_ne

end Setting

end JavaLint
