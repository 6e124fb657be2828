/-
  BimEditor.Numeric.Binary64

  Finite binary64 numbers as exact mathematics: a sign, a mantissa below 2^53 and an exponent,
  in the one form that each number has. A decimal is read to the nearest such number, a half going
  to the even mantissa; a decimal too large for the format has no reading.
-/
import BimEditor.Numeric.Decimal

namespace BimEditor.Numeric

/-! ## Powers -/

/-- `2 ^ k` for a whole `k`, one if `k` is negative: the part of a power that multiplies a
    numerator. -/
def pow2 (k : Int) : Nat :=
  Nat.pow 2 k.toNat

/-- The same for powers of ten. -/
def pow10 (k : Int) : Nat :=
  Nat.pow 10 k.toNat

/-! ## The format -/

/-- The least number that is too large for a mantissa: 2^53. -/
def mantissaLimit : Nat := 9007199254740992

/-- The least mantissa that fills its 53 bits: 2^52. -/
def fullMantissa : Nat := 4503599627370496

/-- The form that fixes a number's mantissa and exponent: the mantissa fills its 53 bits unless
    the exponent is the least one. -/
def Canonical (mantissa : Nat) (exponent : Int) : Prop :=
  mantissa < mantissaLimit ∧ -1074 ≤ exponent ∧ exponent ≤ 971
    ∧ (fullMantissa ≤ mantissa ∨ exponent = -1074)

instance (mantissa : Nat) (exponent : Int) : Decidable (Canonical mantissa exponent) :=
  inferInstanceAs (Decidable (_ ∧ _ ∧ _ ∧ _))

/-- The number `mantissa · 2 ^ exponent`, negated if `negative`. -/
structure Binary64 where
  negative : Bool
  mantissa : Nat
  exponent : Int
  canonical : Canonical mantissa exponent
deriving DecidableEq

namespace Binary64

/-- Zero with a sign. -/
def zero (negative : Bool) : Binary64 :=
  ⟨negative, 0, -1074, by decide⟩

/-- The number with the given parts, if they are in canonical form. -/
def ofParts? (negative : Bool) (mantissa : Nat) (exponent : Int) : Option Binary64 :=
  if h : Canonical mantissa exponent then some ⟨negative, mantissa, exponent, h⟩ else none

instance : Inhabited Binary64 := ⟨zero false⟩

instance : Repr Binary64 where
  reprPrec x _ :=
    (if x.negative then "-" else "") ++ repr x.mantissa ++ " * 2^" ++ repr x.exponent

/-! ## Whole numbers -/

/-- The magnitude of `x` when it is a whole number. -/
def wholeMagnitude? (x : Binary64) : Option Nat :=
  if 0 ≤ x.exponent then some (x.mantissa * pow2 x.exponent)
  else
    let unit := pow2 (-x.exponent)
    if x.mantissa % unit = 0 then some (x.mantissa / unit) else none

/-- `x` has no fractional part. -/
def isWhole (x : Binary64) : Bool :=
  x.wholeMagnitude?.isSome

/-! ## Reading a decimal -/

/-- `n / d` rounded to the nearest whole number, a half to the even one. -/
def roundDiv (n d : Nat) : Nat :=
  let q := n / d
  let r := n % d
  if 2 * r < d then q
  else if d < 2 * r then q + 1
  else q + q % 2

/-- The whole `k` with `2 ^ k ≤ n / d < 2 ^ (k + 1)`, for positive `n` and `d`. -/
def binaryOrder (n d : Nat) : Int :=
  let k : Int := n.log2 - d.log2
  if d * pow2 k ≤ n * pow2 (-k) then k else k - 1

/-- The number nearest to `n / d`, for a positive `d`; none if that is beyond the format. -/
def ofRatio? (negative : Bool) (n d : Nat) : Option Binary64 :=
  if n = 0 then some (zero negative)
  else
    let exponent := max (binaryOrder n d - 52) (-1074)
    let mantissa := roundDiv (n * pow2 (-exponent)) (d * pow2 exponent)
    -- rounding up may carry into a 54th bit
    if mantissa = mantissaLimit then ofParts? negative fullMantissa (exponent + 1)
    else ofParts? negative mantissa exponent

/-- The number nearest to `n · 10 ^ k`; none if that is beyond the format. A decimal of 10^310 or
    more is beyond it and one below 10^-330 is nearest to zero, so that no larger power is ever
    computed. -/
def ofDecimal? (negative : Bool) (n : Nat) (k : Int) : Option Binary64 :=
  if n = 0 then some (zero negative)
  else
    let order : Int := (digits n).length + k
    if 310 < order then none
    else if order < -330 then some (zero negative)
    else ofRatio? negative (n * pow10 k) (pow10 (-k))

end Binary64

end BimEditor.Numeric
