import JavaLint.Decimal.Binary64

/-!
# The shortest decimal of a binary value

The reals that round to a given value form an interval around it, which includes its ends exactly when
the mantissa is even. Among the decimals in that interval the one with the fewest digits is chosen, and
of those the nearest to the value; an exact tie goes to the even digit. All comparisons are made between
natural numbers.
-/

namespace JavaLint.Decimal

/-- The number `digits * 10 ^ exponent`. -/
structure Scaled where
  digits : Nat
  exponent : Int
  deriving DecidableEq, Repr

/-- Compares `a * 10 ^ i` with `n * 2 ^ j`. -/
def compareScaled (a : Nat) (i : Int) (n : Nat) (j : Int) : Ordering :=
  compare (a * Nat.pow 10 i.toNat * Nat.pow 2 (-j).toNat) (n * Nat.pow 2 j.toNat * Nat.pow 10 (-i).toNat)

/-- The decimal lies among the reals that round to `mantissa * 2 ^ exponent`. Just above a power of two
    the interval reaches down only half as far as it reaches up. -/
def readsBack (mantissa : Nat) (exponent : Int) (d : Scaled) : Bool :=
  let narrowBelow := mantissa == 0x10000000000000 && exponent != -1074
  let low := compareScaled d.digits d.exponent (4 * mantissa - (if narrowBelow then 1 else 2)) (exponent - 2)
  let high := compareScaled d.digits d.exponent (4 * mantissa + 2) (exponent - 2)
  let closed := mantissa % 2 == 0
  (low == .gt || (closed && low == .eq)) && (high == .lt || (closed && high == .eq))

/-- How many decimal digits `n` has; one for zero. -/
def digitCount (n : Nat) : Nat :=
  (Nat.toDigits 10 n).length

/-- The least `k` with `mantissa * 2 ^ exponent < 10 ^ k`, for a mantissa that is not zero. -/
def magnitude (mantissa : Nat) (exponent : Int) : Int :=
  let numerator := mantissa * Nat.pow 2 exponent.toNat
  let denominator := Nat.pow 2 (-exponent).toNat
  if denominator ≤ numerator then digitCount (numerator / denominator)
  else 1 - (digitCount ((denominator - 1) / numerator) : Int)

/-- The nearest decimal with the grid `10 ^ scale` that reads back, if one of the two neighbours of the
    value on that grid does. -/
def onGrid? (mantissa : Nat) (exponent scale : Int) : Option Scaled :=
  let numerator := mantissa * Nat.pow 2 exponent.toNat * Nat.pow 10 (-scale).toNat
  let denominator := Nat.pow 2 (-exponent).toNat * Nat.pow 10 scale.toNat
  let floor := numerator / denominator
  let below : Scaled := ⟨floor, scale⟩
  let above : Scaled := ⟨floor + 1, scale⟩
  -- The value lies between its two neighbours, so no other point of the grid is nearer.
  match readsBack mantissa exponent below, readsBack mantissa exponent above with
  | true, false => some below
  | false, true => some above
  | true, true =>
    match compare (2 * numerator) ((2 * floor + 1) * denominator) with
    | .lt => some below
    | .gt => some above
    | .eq => some (if floor % 2 == 0 then below else above)
  | false, false => none

/-- Moves trailing zeros of the digits into the exponent. -/
def stripZeros (digits : Nat) (exponent : Int) : Scaled :=
  if digits ≠ 0 ∧ digits % 10 = 0 then stripZeros (digits / 10) (exponent + 1) else ⟨digits, exponent⟩
termination_by digits
decreasing_by omega

/-- The shortest decimal that reads back as `mantissa * 2 ^ exponent`. Seventeen digits always suffice;
    the exact value stands in if none of them did. -/
def shortest (mantissa : Nat) (exponent : Int) : Scaled :=
  let top := magnitude mantissa exponent
  let found := (List.range 17).findSome? fun n => onGrid? mantissa exponent (top - (n + 1 : Nat))
  let exact : Scaled :=
    ⟨mantissa * Nat.pow 2 exponent.toNat * Nat.pow 5 (-exponent).toNat, if exponent < 0 then exponent else 0⟩
  let chosen := found.getD exact
  stripZeros chosen.digits chosen.exponent

/-- Writes a decimal: positionally while the leading digit stands for at least `10 ^ -4` and less than
    `10 ^ 16`, otherwise with a signed exponent of at least two digits. Whole numbers end in `.0`. -/
def layout (d : Scaled) : String :=
  let digits := Nat.toDigits 10 d.digits
  let leading := d.exponent + digits.length - 1
  let zeros (n : Int) : List Char := List.replicate n.toNat '0'
  String.ofList <|
    if -4 ≤ leading ∧ leading < 16 then
      if 0 ≤ d.exponent then digits ++ zeros d.exponent ++ ['.', '0']
      else if 0 ≤ leading then
        digits.take (leading.toNat + 1) ++ '.' :: digits.drop (leading.toNat + 1)
      else '0' :: '.' :: zeros (-leading - 1) ++ digits
    else
      let fraction := if digits.length ≤ 1 then [] else '.' :: digits.drop 1
      let exponent := Nat.toDigits 10 leading.natAbs
      digits.take 1 ++ fraction ++ 'e' :: (if leading < 0 then '-' else '+') ::
        zeros (2 - (exponent.length : Int)) ++ exponent

end JavaLint.Decimal

namespace JavaLint

/-- The decimal text of a floating-point value. -/
def Binary64.text : Binary64 → String
  | .nan => "nan"
  | .infinite negative => if negative then "-inf" else "inf"
  | .finite negative mantissa exponent =>
    let magnitude := if mantissa == 0 then "0.0" else Decimal.layout (Decimal.shortest mantissa exponent)
    if negative then "-" ++ magnitude else magnitude

end JavaLint
