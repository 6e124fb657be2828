/-
  BimEditor.Schema.Basic

  Type descriptions: what kind of value an attribute may hold. A description of an array, an object,
  an enumeration or a relation may come without the restrictions that say of what; a description
  whose tag is not known keeps the tag.
-/
import BimEditor.Json.Value

namespace BimEditor

open BimEditor.Json

/-- Remarks on a type, which no check looks at: a physical quantity such as a length, and the names
    of schemas that it extends. -/
structure Annotations where
  quantityKind : Option String := none
  inherits : List String := []
deriving DecidableEq, Repr, Inhabited

/-- The types without restrictions. -/
inductive Primitive where
  | string
  | boolean
  | integer
  | real
  | dateTime
deriving DecidableEq, Repr, Inhabited

/-- What kind of value an attribute may hold. -/
inductive TypeDescription where
  | primitive (notes : Annotations) (type : Primitive)
  /-- One of the options, if any are listed. -/
  | enumeration (notes : Annotations) (options : Option (List String))
  /-- An array of unknown elements. -/
  | bareArray (notes : Annotations)
  /-- An array of at least `min` and at most `max` elements. -/
  | array (notes : Annotations) (min max : Option UInt64) (element : TypeDescription)
  /-- An object with unknown members. -/
  | bareObject (notes : Annotations)
  /-- An object with at least these members. -/
  | object (notes : Annotations) (members : List (String × TypeDescription))
  /-- A reference to another node, possibly of a certain kind. -/
  | relation (notes : Annotations) (target : Option String)
  /-- A type of which only the tag is known. -/
  | unrecognized (notes : Annotations) (tag : String)
deriving Inhabited

/-- The tag of a primitive type in documents. -/
def Primitive.tag : Primitive → String
  | .string => "String"
  | .boolean => "Boolean"
  | .integer => "Integer"
  | .real => "Real"
  | .dateTime => "DateTime"

namespace TypeDescription

/-- The remarks on a type. -/
def notes : TypeDescription → Annotations
  | .primitive n _ => n
  | .enumeration n _ => n
  | .bareArray n => n
  | .array n _ _ _ => n
  | .bareObject n => n
  | .object n _ => n
  | .relation n _ => n
  | .unrecognized n _ => n

/-- The same type with other remarks. -/
def withNotes (n : Annotations) : TypeDescription → TypeDescription
  | .primitive _ type => .primitive n type
  | .enumeration _ options => .enumeration n options
  | .bareArray _ => .bareArray n
  | .array _ min max element => .array n min max element
  | .bareObject _ => .bareObject n
  | .object _ members => .object n members
  | .relation _ target => .relation n target
  | .unrecognized _ tag => .unrecognized n tag

/-- The tag of a type in documents. -/
def tag : TypeDescription → String
  | .primitive _ type => type.tag
  | .enumeration _ _ => "Enum"
  | .bareArray _ => "Array"
  | .array _ _ _ _ => "Array"
  | .bareObject _ => "Object"
  | .object _ _ => "Object"
  | .relation _ _ => "Relation"
  | .unrecognized _ tag => tag

/-- The type without restrictions that a tag names; unrecognized if it names none. -/
def ofTag (notes : Annotations) (tag : String) : TypeDescription :=
  match tag with
  | "String" => .primitive notes .string
  | "Boolean" => .primitive notes .boolean
  | "Integer" => .primitive notes .integer
  | "Real" => .primitive notes .real
  | "DateTime" => .primitive notes .dateTime
  | "Enum" => .enumeration notes none
  | "Array" => .bareArray notes
  | "Object" => .bareObject notes
  | "Relation" => .relation notes none
  | _ => .unrecognized notes tag

/-- An object type in which a repeated member keeps its first place and its last type. -/
def ofMembers (members : List (String × TypeDescription)) : TypeDescription :=
  .object {} (Keyed.collect members)

/-! ## Equality -/

mutual
/-- Equality of two types. -/
def decEq : (s t : TypeDescription) → Decidable (s = t)
  | .primitive n p, t =>
    match t with
    | .primitive n' p' => decidable_of_iff (n = n' ∧ p = p') (by simp)
    | .enumeration _ _ | .bareArray _ | .array _ _ _ _ | .bareObject _ | .object _ _
    | .relation _ _ | .unrecognized _ _ => isFalse (by simp)
  | .enumeration n o, t =>
    match t with
    | .enumeration n' o' => decidable_of_iff (n = n' ∧ o = o') (by simp)
    | .primitive _ _ | .bareArray _ | .array _ _ _ _ | .bareObject _ | .object _ _
    | .relation _ _ | .unrecognized _ _ => isFalse (by simp)
  | .bareArray n, t =>
    match t with
    | .bareArray n' => decidable_of_iff (n = n') (by simp)
    | .primitive _ _ | .enumeration _ _ | .array _ _ _ _ | .bareObject _ | .object _ _
    | .relation _ _ | .unrecognized _ _ => isFalse (by simp)
  | .array n min max e, t =>
    match t with
    | .array n' min' max' e' =>
      have := decEq e e'
      decidable_of_iff (n = n' ∧ min = min' ∧ max = max' ∧ e = e') (by simp)
    | .primitive _ _ | .enumeration _ _ | .bareArray _ | .bareObject _ | .object _ _
    | .relation _ _ | .unrecognized _ _ => isFalse (by simp)
  | .bareObject n, t =>
    match t with
    | .bareObject n' => decidable_of_iff (n = n') (by simp)
    | .primitive _ _ | .enumeration _ _ | .bareArray _ | .array _ _ _ _ | .object _ _
    | .relation _ _ | .unrecognized _ _ => isFalse (by simp)
  | .object n ms, t =>
    match t with
    | .object n' ms' =>
      have := decEqMembers ms ms'
      decidable_of_iff (n = n' ∧ ms = ms') (by simp)
    | .primitive _ _ | .enumeration _ _ | .bareArray _ | .array _ _ _ _ | .bareObject _
    | .relation _ _ | .unrecognized _ _ => isFalse (by simp)
  | .relation n r, t =>
    match t with
    | .relation n' r' => decidable_of_iff (n = n' ∧ r = r') (by simp)
    | .primitive _ _ | .enumeration _ _ | .bareArray _ | .array _ _ _ _ | .bareObject _
    | .object _ _ | .unrecognized _ _ => isFalse (by simp)
  | .unrecognized n tag, t =>
    match t with
    | .unrecognized n' tag' => decidable_of_iff (n = n' ∧ tag = tag') (by simp)
    | .primitive _ _ | .enumeration _ _ | .bareArray _ | .array _ _ _ _ | .bareObject _
    | .object _ _ | .relation _ _ => isFalse (by simp)

/-- Equality of two lists of member types. -/
def decEqMembers : (ms ns : List (String × TypeDescription)) → Decidable (ms = ns)
  | [], [] => isTrue rfl
  | [], _ :: _ => isFalse (by simp)
  | _ :: _, [] => isFalse (by simp)
  | (k, s) :: ms, (l, t) :: ns =>
    have := decEq s t
    have := decEqMembers ms ns
    decidable_of_iff ((k = l ∧ s = t) ∧ ms = ns) (by simp)
end

instance : DecidableEq TypeDescription := decEq

end TypeDescription

end BimEditor
