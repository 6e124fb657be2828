/-
  BimEditor.Json.Tree

  JSON values that remember where they stand in the text: every value and every object key carries
  its span. Objects keep all members in source order, repeated names included; the plain value of a
  tree keeps the last of them.
-/
import BimEditor.Json.Value
import BimEditor.Text.Span

namespace BimEditor.Json

open BimEditor.Text

/-- An object key and the span of its token, quotes included. -/
structure Key where
  name : String
  span : Span
deriving DecidableEq, Repr, Inhabited

/-- What stands between the quotes of the key. -/
def Key.content (k : Key) : Span :=
  k.span.inner

/-- A JSON value with the span of its text, quotes and brackets included. -/
inductive Tree where
  | leaf (span : Span) (scalar : Scalar)
  | array (span : Span) (items : List Tree)
  | object (span : Span) (members : List (Key × Tree))
deriving Inhabited

/-- Whether a string stands as the key of a member or as a value. -/
inductive StringRole where
  | key
  | value
deriving DecidableEq, Repr, Inhabited

/-- A string of a document, and the span of what stands between its quotes. -/
structure StringToken where
  text : String
  span : Span
  role : StringRole
deriving DecidableEq, Repr, Inhabited

namespace Tree

/-! ## Access -/

/-- The text that the value takes. -/
def span : Tree → Span
  | .leaf s _ => s
  | .array s _ => s
  | .object s _ => s

/-- The text of a string value. -/
def string? : Tree → Option String
  | .leaf _ (.string s) => some s
  | _ => none

/-- The items of an array. -/
def items? : Tree → Option (List Tree)
  | .array _ items => some items
  | _ => none

/-- The members of an object. -/
def members? : Tree → Option (List (Key × Tree))
  | .object _ members => some members
  | _ => none

/-- The value is `null`. -/
def isNull : Tree → Bool
  | .leaf _ .null => true
  | _ => false

/-- What stands between the quotes of a string; the whole span of any other value. -/
def content (t : Tree) : Span :=
  match t.string? with
  | some _ => t.span.inner
  | none => t.span

/-- The last member of that name, of an object that has one. -/
def entry? (name : String) (t : Tree) : Option (Key × Tree) :=
  t.members?.bind fun members => members.reverse.find? fun member => member.1.name == name

/-- The value of the last member of that name. -/
def get? (name : String) (t : Tree) : Option Tree :=
  (t.entry? name).map (·.2)

/-! ## The plain value -/

mutual
/-- The value without its spans. -/
def toValue : Tree → Value
  | .leaf _ s => .scalar s
  | .array _ items => .array (itemValues items)
  | .object _ members => .object (Keyed.collect (memberValues members))

/-- The plain values of the items. -/
def itemValues : List Tree → List Value
  | [] => []
  | t :: ts => toValue t :: itemValues ts

/-- The names and plain values of the members, repeated names included. -/
def memberValues : List (Key × Tree) → List (String × Value)
  | [] => []
  | (k, t) :: ms => (k.name, toValue t) :: memberValues ms
end

/-! ## The strings of a document -/

mutual
/-- Every string of the value, keys included, in source order. -/
def strings : Tree → List StringToken
  | .leaf span (.string s) => [⟨s, span.inner, .value⟩]
  | .leaf _ _ => []
  | .array _ items => itemStrings items
  | .object _ members => memberStrings members

/-- Every string of the items. -/
def itemStrings : List Tree → List StringToken
  | [] => []
  | t :: ts => strings t ++ itemStrings ts

/-- Every string of the members: each key, then its value. -/
def memberStrings : List (Key × Tree) → List StringToken
  | [] => []
  | (k, t) :: ms => ⟨k.name, k.content, .key⟩ :: strings t ++ memberStrings ms
end

theorem itemValues_eq_map (ts : List Tree) : itemValues ts = ts.map toValue := by
  induction ts with
  | nil => rfl
  | cons t ts ih => simp [itemValues, ih]

theorem memberValues_eq_map (ms : List (Key × Tree)) :
    memberValues ms = ms.map fun m => (m.1.name, m.2.toValue) := by
  induction ms with
  | nil => rfl
  | cons m ms ih => simp [memberValues, ih]

end Tree

end BimEditor.Json
