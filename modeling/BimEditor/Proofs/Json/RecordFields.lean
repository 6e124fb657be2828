/-
  BimEditor.Proofs.Json.RecordFields

  Reading the fields of a record that was written as an object. A field is known by the value that
  it holds; the evidence that it carries for recursion does not count. `Gives` says what a reader
  makes of a field that holds a certain value, or of one that is absent.
-/
import BimEditor.Json.Record

namespace BimEditor.Json

/-! ## Fields by name -/

/-- The members that parts of a value stand for. -/
def plainParts {v : Value} (parts : List (String × Part v)) : List (String × Value) :=
  parts.map fun part => (part.1, part.2.1)

theorem memberParts?_object (members : List (String × Value)) :
    ∃ parts, (Value.object members).memberParts? = some parts ∧ plainParts parts = members := by
  refine ⟨_, rfl, ?_⟩
  rw [plainParts, List.map_map]
  exact List.attach_map_subtype_val members

theorem lookup_plainParts {v : Value} (parts : List (String × Part v)) (name : String) :
    (parts.lookup name).map Subtype.val = (plainParts parts).lookup name := by
  induction parts with
  | nil => rfl
  | cons part parts ih =>
    rw [plainParts, List.map_cons, List.lookup_cons, List.lookup_cons]
    cases name == part.1 with
    | true => rfl
    | false => exact ih

/-- A record that was written as an object has the fields that the object has as members. -/
theorem record?_object (names : List String) (members : List (String × Value)) :
    ∃ field, (Value.object members).record? names = some field
      ∧ ∀ name, (field name).map Subtype.val = members.lookup name := by
  obtain ⟨parts, hparts, hplain⟩ := memberParts?_object members
  refine ⟨fun name => parts.lookup name, ?_, ?_⟩
  · rw [Value.record?, hparts]
  · intro name
    rw [lookup_plainParts, hplain]

@[simp]
theorem lookup_optionalMember (name key : String) (v : Option Value) :
    (optionalMember name v).lookup key = if key == name then v else none := by
  cases v with
  | none => simp [optionalMember]
  | some w =>
    rw [optionalMember, Option.map_some, Option.toList_some, List.lookup_cons]
    cases key == name with
    | true => rfl
    | false => rfl

/-! ## What is made of a field -/

section

variable {α β : Type} {v : Value}

/-- Used on a field that holds `held`, or that is absent for `none`, `use` gives `result`. -/
def Gives (held : Option Value) (use : Option (Part v) → Option β) (result : β) : Prop :=
  ∀ field : Option (Part v), field.map Subtype.val = held → use field = some result

variable {read : (w : Value) → sizeOf w < sizeOf v → Option α}

theorem optional_absent : Gives none (fun field => optional field read) none := by
  intro field hfield
  show optional field read = some none
  rw [Option.map_eq_none_iff.1 hfield, optional]

theorem optional_present {w : Value} {a : α} (hw : w.isNull = false)
    (hread : ∀ h, read w h = some a) :
    Gives (some w) (fun field => optional field read) (some a) := by
  intro field hfield
  obtain ⟨⟨_, h⟩, rfl, rfl⟩ := Option.map_eq_some_iff.1 hfield
  show optional (some ⟨_, h⟩) read = some (some a)
  rw [optional, if_neg (by simp [hw]), hread h]
  rfl

/-- What was made of a field that may be missing, but is there. -/
theorem exists_of_optional {field : Option (Part v)} {w : Value} {o : Option α}
    (hheld : field.map Subtype.val = some w) (hw : w.isNull = false)
    (hread : optional field read = some o) : ∃ h a, read w h = some a ∧ o = some a := by
  obtain ⟨⟨_, h⟩, rfl, rfl⟩ := Option.map_eq_some_iff.1 hheld
  rw [optional, if_neg (by simp [hw])] at hread
  obtain ⟨a, ha, rfl⟩ := Option.map_eq_some_iff.1 hread
  exact ⟨h, a, ha, rfl⟩

/-- A field for something that may be missing, where `write` is what it is written as. -/
theorem optional_written {o : Option α} {write : α → Value} (hw : ∀ a, (write a).isNull = false)
    (hread : ∀ a h, read (write a) h = some a) :
    Gives (o.map write) (fun field => optional field read) o := by
  cases o with
  | none => exact optional_absent
  | some a => exact optional_present (hw a) (hread a)

theorem defaulted_present {w : Value} {a otherwise : α} (hread : ∀ h, read w h = some a) :
    Gives (some w) (fun field => defaulted field otherwise read) a := by
  intro field hfield
  obtain ⟨⟨_, h⟩, rfl, rfl⟩ := Option.map_eq_some_iff.1 hfield
  exact hread h

theorem required_present {w : Value} {a : α} (hread : ∀ h, read w h = some a) :
    Gives (some w) (fun field => required field read) a := by
  intro field hfield
  obtain ⟨⟨_, h⟩, rfl, rfl⟩ := Option.map_eq_some_iff.1 hfield
  exact hread h

end

/-- A field that holds a number is read as that number. -/
theorem eq_some_of_optional_readNumber {v : Value} {field : Option (Part v)} {n : Number}
    {m : Option Number} (hheld : field.map Subtype.val = some (.number n))
    (hread : optional field readNumber = some m) : m = some n := by
  obtain ⟨_, k, hk, rfl⟩ := exists_of_optional hheld rfl hread
  exact hk.symm

theorem mapM_string? (strings : List String) :
    (strings.map Value.string).mapM Value.string? = some strings := by
  induction strings with
  | nil => rfl
  | cons s strings ih =>
    rw [List.map_cons, List.mapM_cons, ih]
    rfl

/-- An array of strings is read back. -/
theorem readStrings_stringArray {v : Value} (strings : List String)
    (h : sizeOf (stringArray strings) < sizeOf v) :
    readStrings (stringArray strings) h = some strings :=
  mapM_string? strings

end BimEditor.Json
