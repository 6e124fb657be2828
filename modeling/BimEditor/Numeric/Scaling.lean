/-
  BimEditor.Numeric.Scaling

  Products and quotients of binary64 numbers, rounded to the nearest one, and a decimal read with
  them: its coefficient is rounded first and then multiplied or divided by a rounded power of ten.
  Rounding more than once, such a reading may miss the nearest number, and it may leave the format
  where the decimal itself does not.
-/
import BimEditor.Numeric.Binary64

namespace BimEditor.Numeric.Binary64

/-- The product of two numbers, rounded; none if it is beyond the format. -/
def times? (x y : Binary64) : Option Binary64 :=
  let exponent := x.exponent + y.exponent
  ofRatio? (x.negative != y.negative) (x.mantissa * y.mantissa * pow2 exponent) (pow2 (-exponent))

/-- The quotient of two numbers, of which the second is not zero, rounded; none if it is beyond the
    format. -/
def over? (x y : Binary64) : Option Binary64 :=
  let exponent := x.exponent - y.exponent
  ofRatio? (x.negative != y.negative) (x.mantissa * pow2 exponent) (y.mantissa * pow2 (-exponent))

/-- The largest power of ten within the format. -/
def largestPower : Nat := 308

/-- The number nearest to `10 ^ k`; none beyond the format. -/
def powerOfTen? (k : Nat) : Option Binary64 :=
  ofDecimal? false 1 k

/-- `x · 10 ^ k`, rounded. No number but zero can be scaled by a power beyond the format. -/
def scaleUp? (x : Binary64) (k : Nat) : Option Binary64 :=
  if k ≤ largestPower then (powerOfTen? k).bind x.times?
  else if x.mantissa = 0 then some x
  else none

/-- `x / 10 ^ k`, rounded, for a power within the format. -/
def overPower? (x : Binary64) (k : Nat) : Option Binary64 :=
  (powerOfTen? k).bind x.over?

/-- `x / 10 ^ k`, rounded, in several steps if the power is beyond the format. -/
def scaleDown? (x : Binary64) (k : Nat) : Option Binary64 :=
  if largestPower < k ∧ x.mantissa ≠ 0 then
    (x.overPower? largestPower).bind fun y => scaleDown? y (k - largestPower)
  else if k ≤ largestPower then x.overPower? k
  else some x
termination_by k
decreasing_by
  simp only [largestPower] at *
  omega

/-- `n · 10 ^ k`, read in steps; none if a step leaves the format. -/
def ofScaled? (negative : Bool) (n : Nat) (k : Int) : Option Binary64 := do
  let x ← ofRatio? negative n 1
  if 0 ≤ k then x.scaleUp? k.toNat else x.scaleDown? (-k).toNat

end BimEditor.Numeric.Binary64
