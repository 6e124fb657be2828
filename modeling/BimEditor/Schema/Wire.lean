/-
  BimEditor.Schema.Wire

  Type descriptions in documents: a flat record with a tag and a block of restrictions for each kind
  of type. The strict reader asks every block to be well formed, also one that belongs to another
  tag; only the block of the tag is kept.
-/
import BimEditor.Json.Record
import BimEditor.Schema.Basic

namespace BimEditor

open BimEditor.Json BimEditor.Numeric

/-! ## Array bounds -/

/-- The largest bound of an array's length. -/
def largestBound : Nat := 18446744073709551615

/-- The bound that a number sets: a whole number that is not negative, spelled with a point or not.
    The nearest float to the largest bound counts as that bound; other numbers set none. -/
def bound? : Number → Option UInt64
  | .integer i => i.toUInt64?
  | .float x =>
    if x.negative ∧ x.mantissa ≠ 0 then none
    else
      match x.wholeMagnitude? with
      | some n => if n ≤ largestBound + 1 then some (UInt64.ofNat (min n largestBound)) else none
      | none => none

/-! ## Reading -/

/-- The blocks of restrictions that a description may carry. -/
structure Restrictions where
  options : Option (List String)
  array : Option (Option Number × Option Number × Option TypeDescription)
  members : Option (List (String × TypeDescription))
  target : Option String

namespace TypeDescription

/-- The fields of a description, in order. -/
def fieldNames : List String :=
  ["dataType", "quantityKind", "inherits", "enumRestrictions", "arrayRestrictions",
   "objectRestrictions", "relationRestrictions"]

/-- The type with that tag and the restrictions that belong to it. An array without an element type
    has no restrictions. -/
def ofRestrictions (notes : Annotations) (tag : String) (r : Restrictions) : TypeDescription :=
  match tag with
  | "Enum" => .enumeration notes r.options
  | "Array" =>
    match r.array with
    | some (min, max, some element) => .array notes (min.bind bound?) (max.bind bound?) element
    | _ => .bareArray notes
  | "Object" =>
    match r.members with
    | some members => .object notes members
    | none => .bareObject notes
  | "Relation" => .relation notes r.target
  | tag => ofTag notes tag

/-- Read the options of an enumeration. -/
def readOptions {v : Value} (w : Value) (_ : sizeOf w < sizeOf v) : Option (List String) := do
  let field ← w.record? ["options"]
  defaulted (field "options") [] readStrings

/-- Read the target of a relation. -/
def readTarget {v : Value} (w : Value) (_ : sizeOf w < sizeOf v) : Option String := do
  let field ← w.record? ["type"]
  defaulted (field "type") "" readString

/-- The description that a value holds, if all of it is well formed. -/
def ofValue? (v : Value) : Option TypeDescription := do
  let field ← v.record? fieldNames
  let tag ← defaulted (field "dataType") "" readString
  let quantityKind ← optional (field "quantityKind") readString
  let inherits ← optional (field "inherits") readStrings
  let options ← optional (field "enumRestrictions") readOptions
  let array ← optional (field "arrayRestrictions") fun w _ => do
    let field ← w.record? ["min", "max", "value"]
    let min ← optional (field "min") readNumber
    let max ← optional (field "max") readNumber
    let element ← optional (field "value") fun u _ => ofValue? u
    return (min, max, element)
  let members ← optional (field "objectRestrictions") fun w _ => do
    let field ← w.record? ["values"]
    defaulted (field "values") [] fun u _ => do
      let members ← u.memberParts?
      members.mapM fun (name, ⟨t, _⟩) => return (name, ← ofValue? t)
  let target ← optional (field "relationRestrictions") readTarget
  return ofRestrictions ⟨quantityKind, inherits.getD []⟩ tag ⟨options, array, members, target⟩
termination_by sizeOf v
decreasing_by
  all_goals omega

/-! ## Writing -/

/-- The members that every description starts with. -/
def headMembers (t : TypeDescription) : List (String × Value) :=
  ("dataType", .string t.tag)
    :: optionalMember "quantityKind" (t.notes.quantityKind.map .string)
    ++ optionalMember "inherits"
        (if t.notes.inherits.isEmpty then none else some (stringArray t.notes.inherits))

/-- A bound as a value. -/
def boundValue (n : UInt64) : Value :=
  .number (.integer (WideInt.ofUInt64 n))

mutual
/-- The description as a value. -/
def toValue : TypeDescription → Value
  | .enumeration n (some options) =>
    .object (headMembers (.enumeration n (some options))
      ++ [("enumRestrictions", .object [("options", stringArray options)])])
  | .array n min max element =>
    .object (headMembers (.array n min max element)
      ++ [("arrayRestrictions", .object (optionalMember "min" (min.map boundValue)
        ++ optionalMember "max" (max.map boundValue) ++ [("value", toValue element)]))])
  | .object n members =>
    .object (headMembers (.object n members)
      ++ [("objectRestrictions", .object [("values", .object (memberValues members))])])
  | .relation n (some target) =>
    .object (headMembers (.relation n (some target))
      ++ [("relationRestrictions", .object [("type", .string target)])])
  | t => .object (headMembers t)

/-- The descriptions of the members as values. -/
def memberValues : List (String × TypeDescription) → List (String × Value)
  | [] => []
  | (name, t) :: ms => (name, toValue t) :: memberValues ms
end

end TypeDescription

end BimEditor
