/-
  BimEditor.Schema.Conformance

  Whether a value conforms to a type. There are no errors here: a value conforms or it does not.
-/
import BimEditor.Calendar.Spelling
import BimEditor.Schema.Basic

namespace BimEditor

open BimEditor.Json

/-- The named types of a document, in order. -/
abbrev SchemaTable := Keyed TypeDescription

/-- A number without a fractional part, however it is spelled. -/
def isWholeNumber : Number → Bool
  | .integer _ => true
  | .float x => x.isWhole

/-- The value conforms to a primitive type. -/
def Primitive.accepts : Primitive → Value → Bool
  | .string, .string _ => true
  | .boolean, .bool _ => true
  | .integer, .number n => isWholeNumber n
  | .real, .number _ => true
  | .dateTime, .string s => Calendar.isDateTime s.toList
  | _, _ => false

/-- The number of elements lies within the bounds. -/
def withinBounds (min max : Option UInt64) (n : Nat) : Bool :=
  min.all (fun least => least.toNat ≤ n) && max.all (fun most => n ≤ most.toNat)

namespace TypeDescription

mutual
/-- The value conforms to the type. Where an enumeration, an array or an object comes without its
    restrictions, nothing conforms to it; whether the target of a relation exists is not checked. -/
def accepts : TypeDescription → Value → Bool
  | .primitive _ type, v => type.accepts v
  | .enumeration _ (some options), .string s => options.contains s
  | .array _ min max element, .array items =>
    withinBounds min max items.length && items.all fun item => accepts element item
  | .object _ members, .object present => acceptsMembers members present
  | .relation _ _, .string _ => true
  | _, _ => false

/-- Every declared member is present and conforms to its type. -/
def acceptsMembers : List (String × TypeDescription) → Keyed Value → Bool
  | [], _ => true
  | (name, type) :: others, present =>
    (match Keyed.get? name present with
      | some v => accepts type v
      | none => false)
      && acceptsMembers others present
end

end TypeDescription

/-- Whether the value of an attribute conforms to the schema of that name, if there is one. -/
def SchemaTable.accepts? (schemas : SchemaTable) (name : String) (v : Value) : Option Bool :=
  (Keyed.get? name schemas).map fun type => type.accepts v

end BimEditor
