import JavaLint.Decimal.Binary64

/-!
# Settings

The values that rule properties can be given. A configuration may hold any of them for any property;
which ones a property accepts is decided later, by validation and by coercion.
-/

namespace JavaLint

/-- A configured value. -/
inductive Setting where
  | null
  | bool (value : Bool)
  | int (value : Int)
  | float (value : Binary64)
  | text (value : String)
  | list (items : List Setting)
  | table (entries : List (String × Setting))
  deriving Repr, Inhabited

namespace Setting

/-- The value counts as set: everything but null, false, zero and what is empty. -/
def isSet : Setting → Bool
  | .null => false
  | .bool value => value
  | .int value => value != 0
  | .float value => !value.isZero
  | .text value => !value.isEmpty
  | .list items => !items.isEmpty
  | .table entries => !entries.isEmpty

/-- The integer that a number is equal to; truth values count as one and zero. -/
def number? : Setting → Option Int
  | .bool value => some value.toInt
  | .int value => some value
  | .float value => value.toInt?
  | _ => none

/-- The value is a number, so that it can be compared with numbers; truth values can be as well. -/
def isNumber : Setting → Bool
  | .bool _ | .int _ | .float _ => true
  | .null | .text _ | .list _ | .table _ => false

/-- The value is a number and at most `n`. -/
def atMost (s : Setting) (n : Int) : Bool :=
  match s with
  | .bool value => value.toInt ≤ n
  | .int value => value ≤ n
  | .float value => value.atMost n
  | _ => false

end Setting

end JavaLint
