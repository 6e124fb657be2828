/-
  BimEditor.Json.Number

  The numbers of a JSON document: integers that fit 64 bits, signed or unsigned, are kept exactly;
  every other number is the nearest binary64 number. Also how a number is written.
-/
import BimEditor.Numeric.Shortest

namespace BimEditor.Json

open BimEditor.Numeric

/-- An integer that fits a signed or an unsigned 64-bit word. -/
structure WideInt where
  val : Int
  fits : -9223372036854775808 ≤ val ∧ val ≤ 18446744073709551615
deriving DecidableEq

namespace WideInt

/-- The integer `i`, if it fits. -/
def ofInt? (i : Int) : Option WideInt :=
  if h : -9223372036854775808 ≤ i ∧ i ≤ 18446744073709551615 then some ⟨i, h⟩ else none

/-- An unsigned 64-bit word. -/
def ofUInt64 (n : UInt64) : WideInt :=
  ⟨n.toNat, by have := n.toNat_lt; omega⟩

/-- The natural number `n`, or the largest integer if `n` does not fit. -/
def ofNat (n : Nat) : WideInt :=
  ⟨min n 18446744073709551615, by omega⟩

/-- It fits a signed word. -/
def isSigned (i : WideInt) : Bool :=
  i.val ≤ 9223372036854775807

/-- The unsigned word equal to `i`, if it is not negative. -/
def toUInt64? (i : WideInt) : Option UInt64 :=
  if 0 ≤ i.val then some (UInt64.ofNat i.val.toNat) else none

instance : Inhabited WideInt := ⟨⟨0, by decide⟩⟩

instance : Repr WideInt where
  reprPrec i prec := reprPrec i.val prec

end WideInt

/-- A number of a JSON document. -/
inductive Number where
  | integer (i : WideInt)
  | float (x : Binary64)
deriving DecidableEq, Repr, Inhabited

/-! ## The text of a number -/

/-- Which magnitudes of a binary64 number are written without an exponent: those whose first digit
    stands at one of the places 10^-5 up to 10^15. -/
def isPositional (order : Int) : Bool :=
  -5 ≤ order && order < 16

/-- Digits `ds`, of which the first stands at the place `10 ^ order`, with a point and at least one
    digit on each side of it. -/
def positionalText (ds : List Char) (order : Int) : List Char :=
  if order < 0 then '0' :: '.' :: List.replicate (-order - 1).toNat '0' ++ ds
  else
    let whole := order.toNat + 1
    let fraction := ds.drop whole
    ds.take whole ++ List.replicate (whole - ds.length) '0'
      ++ '.' :: (if fraction.isEmpty then ['0'] else fraction)

/-- Digits `ds` with the point after the first one, if more follow, and a signed exponent. -/
def scientificText (ds : List Char) (order : Int) : List Char :=
  ds.take 1 ++ (if ds.length ≤ 1 then [] else '.' :: ds.drop 1)
    ++ 'e' :: (if order < 0 then '-' else '+') :: digits order.natAbs

/-- The digits of `n` without the zeros at their end. -/
def significantDigits (n : Nat) : List Char :=
  ((digits n).reverse.dropWhile (· == '0')).reverse

/-- The text of a magnitude other than zero. -/
def magnitudeText (x : Binary64) : List Char :=
  let d := x.shortest
  let order := d.exponent + (digits d.coefficient).length - 1
  let ds := significantDigits d.coefficient
  if isPositional order then positionalText ds order else scientificText ds order

/-- A binary64 number with its fewest digits: `100.0`, `1.5e+300`, `-0.0`. -/
def floatText (x : Binary64) : List Char :=
  (if x.negative then ['-'] else [])
    ++ (if x.mantissa = 0 then ['0', '.', '0'] else magnitudeText x)

/-- How a number is written. -/
def Number.text : Number → List Char
  | .integer i => integerText i.val
  | .float x => floatText x

end BimEditor.Json
