/-
  BimEditor.Json.Numeral

  Numbers as they are spelled in a text, and what a spelling stands for: the nearest number that
  there is, or an approximate reading that keeps only the leading digits and rounds step by step.
-/
import BimEditor.Json.Number
import BimEditor.Numeric.Scaling

namespace BimEditor.Json

open BimEditor.Numeric

/-- A number as it is spelled: sign, whole digits, digits behind the point, and an exponent with
    its sign. -/
structure Numeral where
  negative : Bool
  whole : List Char
  fraction : Option (List Char)
  exponent : Option (Bool × List Char)
deriving DecidableEq, Repr, Inhabited

namespace Numeral

/-- The digits behind the point. -/
def fractionDigits (n : Numeral) : List Char :=
  n.fraction.getD []

/-- The integer that is spelled, if neither a fraction nor an exponent is. -/
def integer? (n : Numeral) : Option Int :=
  match n.fraction, n.exponent with
  | none, none => some (if n.negative then -(ofDigits n.whole : Int) else ofDigits n.whole)
  | _, _ => none

/-- The power of ten that the exponent spells, where `value` reads its digits. -/
def power (value : List Char → Nat) (n : Numeral) : Int :=
  match n.exponent with
  | none => 0
  | some (true, ds) => -(value ds : Int)
  | some (false, ds) => value ds

/-! ## The nearest number -/

/-- The size at which an exponent counts no more digits. -/
def exponentCap : Nat := 65536

/-- The number that the digits of an exponent stand for, up to the first digits that reach the cap.
    A number with such an exponent is zero or beyond the format, unless it has tens of thousands of
    other digits. -/
def cappedExponent (ds : List Char) : Nat :=
  ds.foldl (fun n d => if n < exponentCap then 10 * n + digitValue d else n) 0

/-- The number that is spelled: an integer that fits exactly, any other as a binary64 number; none
    if that is beyond the format. -/
def number? (n : Numeral) : Option Number :=
  match n.integer?.bind WideInt.ofInt? with
  | some i => some (.integer i)
  | none =>
    let coefficient := ofDigits (n.whole ++ n.fractionDigits)
    let power := n.power cappedExponent - n.fractionDigits.length
    (Binary64.ofDecimal? n.negative coefficient power).map .float

/-! ## An approximate reading -/

/-- The largest coefficient that an approximate reading keeps. -/
def largestCoefficient : Nat := 18446744073709551615

/-- Append digits to a coefficient as long as it fits, and tell which ones are left over. -/
def appendDigits (coefficient : Nat) : List Char → Nat × List Char
  | [] => (coefficient, [])
  | d :: ds =>
    if 10 * coefficient + digitValue d ≤ largestCoefficient then
      appendDigits (10 * coefficient + digitValue d) ds
    else (coefficient, d :: ds)

/-- The coefficient of an approximate reading and its power of ten. Whole digits that are left over
    raise the power, those behind the point do not count. -/
def leadingPart (n : Numeral) : Nat × Int :=
  let (whole, skipped) := appendDigits 0 n.whole
  let (coefficient, ignored) := appendDigits whole n.fractionDigits
  let places := n.fractionDigits.length - ignored.length
  (coefficient, n.power ofDigits + skipped.length - places)

/-- The number that is spelled, approximately: an integer that fits exactly, any other scaled step
    by step from its leading digits; none if a step leaves the format. -/
def approximate? (n : Numeral) : Option Number :=
  match n.integer?.bind WideInt.ofInt? with
  | some i => some (.integer i)
  | none => (Binary64.ofScaled? n.negative n.leadingPart.1 n.leadingPart.2).map .float

end Numeral

end BimEditor.Json
