/-
  BimEditor.Numeric.Shortest

  The shortest decimal that reads back as a given binary64 number, and among those of that length
  the one nearest to the number (a tie goes to the even last digit). For one, two, … seventeen
  digits the two neighbours of the number on that decimal grid are tried; all comparisons are exact.
-/
import BimEditor.Numeric.Binary64

namespace BimEditor.Numeric

/-- The decimal `coefficient · 10 ^ exponent`. -/
structure Decimal where
  coefficient : Nat
  exponent : Int
deriving DecidableEq, Repr, Inhabited

namespace Binary64

/-! ## The decimals that read back -/

/-- `a · 10 ^ k` in units of `2 ^ -j`, times the common denominator of the two powers. -/
def decimalSide (j k : Int) (a : Nat) : Nat :=
  a * pow10 k * pow2 j

/-- `b` units of `2 ^ -j`, times the common denominator of `decimalSide j k`. -/
def binarySide (j k : Int) (b : Nat) : Nat :=
  b * pow2 (-j) * pow10 (-k)

/-- Four times the distance from the number to the lower end of the interval that rounds to it, in
    units of its last place: the gap below a power of two is half as wide. -/
def lowerGap (x : Binary64) : Nat :=
  if x.mantissa = fullMantissa ∧ -1074 < x.exponent then 1 else 2

/-- Whether a decimal rounds to the magnitude of `x`. The ends of the interval round to the even
    mantissa. -/
def roundsBack (x : Binary64) (d : Decimal) : Bool :=
  -- in quarters of the last place, where both ends of the interval are whole
  let j := 2 - x.exponent
  let here := decimalSide j d.exponent d.coefficient
  let low := binarySide j d.exponent (4 * x.mantissa - lowerGap x)
  let high := binarySide j d.exponent (4 * x.mantissa + 2)
  if x.mantissa % 2 = 0 then low ≤ here && here ≤ high else low < here && here < high

/-! ## The shortest one -/

/-- The whole `k` with `10 ^ k ≤ x < 10 ^ (k + 1)`, for a positive `x`. No positive binary64 number
    is below 10^-324, so `x · 10 ^ 350` has a whole part, whose digits tell the order. -/
def decimalOrder (x : Binary64) : Int :=
  (digits (x.mantissa * pow2 x.exponent * pow10 350 / pow2 (-x.exponent))).length - 351

/-- The decimals of `n` digits next to `x`, below it and above it. -/
def neighbours (x : Binary64) (n : Nat) : Decimal × Decimal :=
  let k := decimalOrder x + 1 - n
  let j := 2 - x.exponent
  let below := binarySide j k (4 * x.mantissa) / decimalSide j k 1
  (⟨below, k⟩, ⟨below + 1, k⟩)

/-- The lower neighbour is nearer to `x`, or as near and even. -/
def prefersLower (x : Binary64) (lower upper : Decimal) : Bool :=
  let j := 2 - x.exponent
  let here := 2 * binarySide j lower.exponent (4 * x.mantissa)
  let middle := decimalSide j lower.exponent (lower.coefficient + upper.coefficient)
  if here = middle then lower.coefficient % 2 = 0 else here < middle

/-- The better of the two decimals of `n` digits next to `x`, if one of them reads back. -/
def shortestOf? (x : Binary64) (n : Nat) : Option Decimal :=
  let (lower, upper) := neighbours x n
  match roundsBack x lower, roundsBack x upper with
  | true, true => some (if prefersLower x lower upper then lower else upper)
  | true, false => some lower
  | false, true => some upper
  | false, false => none

/-- The shortest decimal that reads back as the magnitude of `x`, for a non-zero `x`. Seventeen
    digits always suffice. -/
def shortest (x : Binary64) : Decimal :=
  ((List.range' 1 17).findSome? (shortestOf? x)).getD (neighbours x 17).1

end Binary64

end BimEditor.Numeric
