/-
  BimEditor.Json.Record

  Records in JSON: a record is written as an object with its fields by name, or as an array with its
  fields in their order. Unknown names are ignored; an array longer than the record is no record.
  Fields come with the evidence that they are smaller than the value they were taken from, which is
  what readers of nested records recurse on.
-/
import BimEditor.Json.Value

namespace BimEditor.Json

/-- A value inside of `v`. -/
abbrev Part (v : Value) := { w : Value // sizeOf w < sizeOf v }

/-- The fields of a record, by name. -/
abbrev Fields (v : Value) := String → Option (Part v)

namespace Value

theorem sizeOf_item_lt {items : List Value} {v : Value} (h : v ∈ items) :
    sizeOf v < sizeOf (Value.array items) := by
  have := List.sizeOf_lt_of_mem h
  simp only [Value.array.sizeOf_spec]
  omega

theorem sizeOf_member_lt {members : List (String × Value)} {m : String × Value}
    (h : m ∈ members) : sizeOf m.2 < sizeOf (Value.object members) := by
  have := List.sizeOf_lt_of_mem h
  have : sizeOf m = 1 + sizeOf m.1 + sizeOf m.2 := by cases m; rfl
  simp only [Value.object.sizeOf_spec]
  omega

/-- The items of an array, as parts of it. -/
def itemParts? : (v : Value) → Option (List (Part v))
  | .array items => some (items.attach.map fun ⟨w, h⟩ => ⟨w, sizeOf_item_lt h⟩)
  | _ => none

/-- The members of an object, as parts of it. -/
def memberParts? : (v : Value) → Option (List (String × Part v))
  | .object members => some (members.attach.map fun ⟨m, h⟩ => (m.1, ⟨m.2, sizeOf_member_lt h⟩))
  | _ => none

/-- The fields of a record with the given field names. -/
def record? (names : List String) (v : Value) : Option (Fields v) :=
  match v.memberParts?, v.itemParts? with
  | some members, _ => some fun name => members.lookup name
  | none, some items =>
    if items.length ≤ names.length then
      some fun name => (names.idxOf? name).bind fun i => items[i]?
    else none
  | none, none => none

end Value

/-! ## Reading fields -/

section

variable {α : Type} {v : Value}

/-- A field that may be absent or `null`. -/
def optional (field : Option (Part v)) (read : (w : Value) → sizeOf w < sizeOf v → Option α) :
    Option (Option α) :=
  match field with
  | none => some none
  | some ⟨w, h⟩ => if w.isNull then some none else (read w h).map some

/-- A field that may be absent and then has the given value. -/
def defaulted (field : Option (Part v)) (otherwise : α)
    (read : (w : Value) → sizeOf w < sizeOf v → Option α) : Option α :=
  match field with
  | none => some otherwise
  | some ⟨w, h⟩ => read w h

/-- A field that must be present. -/
def required (field : Option (Part v)) (read : (w : Value) → sizeOf w < sizeOf v → Option α) :
    Option α :=
  match field with
  | none => none
  | some ⟨w, h⟩ => read w h

end

/-- Read a string. -/
def readString {v : Value} (w : Value) (_ : sizeOf w < sizeOf v) : Option String :=
  w.string?

/-- Read an array of strings. -/
def readStrings {v : Value} (w : Value) (_ : sizeOf w < sizeOf v) : Option (List String) :=
  w.items?.bind fun items => items.mapM Value.string?

/-- Read a number. -/
def readNumber {v : Value} (w : Value) (_ : sizeOf w < sizeOf v) : Option Number :=
  match w with
  | .number n => some n
  | _ => none

/-- Read an object of any values. -/
def readMembers {v : Value} (w : Value) (_ : sizeOf w < sizeOf v) : Option (Keyed Value) :=
  w.members?

/-- Read an unsigned 64-bit integer. -/
def readUInt64 {v : Value} (w : Value) (_ : sizeOf w < sizeOf v) : Option UInt64 :=
  match w with
  | .number (.integer i) => i.toUInt64?
  | _ => none

/-! ## Writing fields -/

/-- A member that is left out when there is no value for it. -/
def optionalMember (name : String) (v : Option Value) : List (String × Value) :=
  (v.map fun w => (name, w)).toList

/-- An array of strings. -/
def stringArray (strings : List String) : Value :=
  .array (strings.map .string)

end BimEditor.Json
