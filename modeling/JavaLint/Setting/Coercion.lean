import JavaLint.Setting.Basic

/-!
# Coercion of settings

A field of a record asks for an integer, a truth value or a text, and a setting that is given for it is
coerced to one or refused with a fault. How generous coercion is differs; what configurations and reports
rely on is that integers, whole numbers of ordinary size and texts stand for themselves, and that nothing
but a text is taken for a text.
-/

namespace JavaLint

/-- Why a setting does not fit a field. -/
inductive FieldFault where
  | notInteger
  | integerText
  | integerFraction
  | integerTooLarge
  | notFinite
  | below (bound : Int)
  | above (bound : Int)
  | notBoolean
  | booleanText
  | notText
  | unknownField
  deriving DecidableEq, Repr

/-- The text that explains a fault. -/
def FieldFault.message : FieldFault → String
  | .notInteger => "Input should be a valid integer"
  | .integerText => "Input should be a valid integer, unable to parse string as an integer"
  | .integerFraction => "Input should be a valid integer, got a number with a fractional part"
  | .integerTooLarge => "Unable to parse input string as an integer, exceeded maximum size"
  | .notFinite => "Input should be a finite number"
  | .below bound => s!"Input should be greater than or equal to {bound}"
  | .above bound => s!"Input should be less than or equal to {bound}"
  | .notBoolean => "Input should be a valid boolean"
  | .booleanText => "Input should be a valid boolean, unable to interpret input"
  | .notText => "Input should be a valid string"
  | .unknownField => "Extra inputs are not permitted"

/-- The first integer that does not fit 64 signed bits. -/
def Setting.wordBound : Int := 0x8000000000000000

/-- How settings are read where a record asks for an integer, a truth value or a text. -/
class Coercion where
  toInt : Setting → Except FieldFault Int
  toBool : Setting → Except FieldFault Bool
  toText : Setting → Except FieldFault String
  toInt_int (n : Int) : toInt (.int n) = .ok n
  /-- A number that is equal to an integer of 64 bits is read as that integer. -/
  toInt_of_number? {s : Setting} {n : Int} :
    s.number? = some n → -Setting.wordBound < n → n < Setting.wordBound → toInt s = .ok n
  /-- A number is not read as an integer that it is not equal to. -/
  number?_of_toInt {s : Setting} {n : Int} : toInt s = .ok n → s.isNumber = true → s.number? = some n
  toText_text (text : String) : toText (.text text) = .ok text
  toText_of_ne {s : Setting} : (∀ text, s ≠ .text text) → toText s = .error .notText

namespace Coercion

variable [Coercion] {s : Setting}

/-- Texts are the only settings that are read as texts, and each is read as itself. -/
theorem toText_eq_ok_iff {text : String} : toText s = .ok text ↔ s = .text text := by
  cases s with
  | text value => simp [toText_text]
  | null | bool _ | int _ | float _ | list _ | table _ => simp [toText_of_ne]

/-- There is one reason not to read a setting as a text. -/
theorem toText_eq_error {fault : FieldFault} (h : toText s = .error fault) : fault = .notText := by
  cases s with
  | text value =>
    rw [toText_text] at h
    cases h
  | null | bool _ | int _ | float _ | list _ | table _ =>
    rw [toText_of_ne (by simp)] at h
    exact (Except.error.inj h).symm

end Coercion

namespace Setting

/-- Null stays null; everything else is coerced. -/
def optional (coerce : Setting → Except FieldFault α) : Setting → Except FieldFault (Option α)
  | .null => .ok none
  | s => (coerce s).map some

/-- The integer that a setting means, within the given bounds. -/
def toIntWithin [Coercion] (low : Int) (high : Option Int) (s : Setting) : Except FieldFault Int := do
  let n ← Coercion.toInt s
  if n < low then .error (.below low)
  match high with
  | some bound => if bound < n then .error (.above bound) else .ok n
  | none => .ok n

end Setting

end JavaLint
