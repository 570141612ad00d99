/-!
# Binary floating-point values

A 64-bit floating-point value taken apart into exact integers, so that it can be compared, tested for
being whole, and written in decimal without any rounding on the way.
-/

namespace JavaLint

/-- A floating-point value of 64 bits. A finite one is `mantissa * 2 ^ exponent` with its sign; zero
    keeps its sign too. -/
inductive Binary64 where
  | nan
  | infinite (negative : Bool)
  | finite (negative : Bool) (mantissa : Nat) (exponent : Int)
  deriving DecidableEq, Repr

namespace Binary64

/-- The value that the bits of the interchange format stand for. -/
def ofBits (bits : UInt64) : Binary64 :=
  let negative := bits >>> 63 != 0
  let biased := ((bits >>> 52) &&& 0x7FF).toNat
  let fraction := (bits &&& 0xFFFFFFFFFFFFF).toNat
  if biased == 0x7FF then (if fraction == 0 then .infinite negative else .nan)
  else if biased == 0 then .finite negative fraction (-1074)
  else .finite negative (0x10000000000000 + fraction) ((biased : Int) - 1075)

/-- The value is zero, of either sign. -/
def isZero : Binary64 → Bool
  | .finite _ mantissa _ => mantissa == 0
  | _ => false

/-- The value is a number and not infinite. -/
def isFinite : Binary64 → Bool
  | .finite .. => true
  | _ => false

/-- The integer that the value is equal to, if it is a whole number. -/
def toInt? : Binary64 → Option Int
  | .finite negative mantissa exponent =>
    let divisor := Nat.pow 2 (-exponent).toNat
    if mantissa % divisor == 0 then
      let magnitude : Int := (mantissa / divisor * Nat.pow 2 exponent.toNat : Nat)
      some (if negative then -magnitude else magnitude)
    else none
  | _ => none

/-- The value is at most `n`. Nothing that is not a number is at most anything. -/
def atMost (x : Binary64) (n : Int) : Bool :=
  match x with
  | .nan => false
  | .infinite negative => negative
  | .finite negative mantissa exponent =>
    let magnitude : Int := (mantissa * Nat.pow 2 exponent.toNat : Nat)
    (if negative then -magnitude else magnitude) ≤ n * (Nat.pow 2 (-exponent).toNat : Nat)

end Binary64

end JavaLint
