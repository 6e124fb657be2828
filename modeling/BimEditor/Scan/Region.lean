/-
  BimEditor.Scan.Region

  The parts of a text that an editor can fold away: the block of schemas and every large array that
  stands as the value of a key. They are found by scanning the raw text, valid or not.
-/
import BimEditor.Scan.Delimiter
import BimEditor.Text.Span

namespace BimEditor.Scan

open BimEditor.Text

/-- What a region holds. -/
inductive RegionKind where
  /-- The schemas of the document. -/
  | schemas
  /-- An array with that many elements. -/
  | array (elements : Nat)
deriving DecidableEq, Repr, Inhabited

/-- A text from an opening bracket to the closing one, both included. -/
structure Region where
  span : Span
  kind : RegionKind
deriving DecidableEq, Repr, Inhabited

/-- Behind a key: the place inside the bracket that opens the key's value, if the value is such a
    pair of brackets. -/
def keyedOpener (d : Delimiter) (afterKey : Cursor) : Option Cursor :=
  match afterKey.skipBlanks with
  | ⟨here, ':' :: rest⟩ =>
    match Cursor.skipBlanks ⟨here + 1, rest⟩ with
    | ⟨here, c :: rest⟩ => if c = d.opening then some ⟨here + 1, rest⟩ else none
    | _ => none
  | _ => none

/-! ## The block of schemas -/

/-- The region of the schemas whose opening brace ends at `inside`. -/
def schemasRegion? (inside : Cursor) : Option Region :=
  (closeFrom .brace 0 inside).map fun close => ⟨⟨inside.offset - 1, close + 1⟩, .schemas⟩

/-- The spelling of the key of the schemas, up to its closing quote. -/
def schemasKey : List Char :=
  ['s', 'c', 'h', 'e', 'm', 'a', 's', '"']

/-- The block of schemas in a text with `depth` open brackets before the cursor. Only a key of the
    outermost brackets counts, and the first one with a brace behind it decides. -/
def schemasFrom (depth : Nat) : Cursor → Option Region
  | ⟨_, []⟩ => none
  | ⟨here, '"' :: rest⟩ =>
    match skipString (here + 1) rest with
    | none => none
    | some ⟨next, _⟩ =>
      if depth = 1 ∧ schemasKey.isPrefixOf rest then
        match keyedOpener .brace next with
        | some inside => schemasRegion? inside
        | none => schemasFrom depth next
      else schemasFrom depth next
  | ⟨here, c :: rest⟩ =>
    if c = '{' ∨ c = '[' then schemasFrom (depth + 1) ⟨here + 1, rest⟩
    else if c = '}' ∨ c = ']' then schemasFrom (depth - 1) ⟨here + 1, rest⟩
    else schemasFrom depth ⟨here + c.utf8Size, rest⟩
termination_by c => c.rest.length
decreasing_by
  all_goals simp only [List.length_cons] at *
  all_goals omega

/-- The block of schemas of a text. -/
def schemasRegion (text : List Char) : Option Region :=
  schemasFrom 0 (Cursor.atStart text)

/-! ## Large arrays -/

/-- Behind a key: the region of the key's value, if that is an array of at least `least`
    elements. -/
def arrayRegion? (least : Nat) (afterKey : Cursor) : Option Region := do
  let inside ← keyedOpener .bracket afterKey
  let close ← closeFrom .bracket 0 inside
  let elements := countElements (takeBytes (close - inside.offset) inside.rest)
  if least ≤ elements then some ⟨⟨inside.offset - 1, close + 1⟩, .array elements⟩ else none

/-- The regions of large arrays behind the cursor, which stands outside all strings. -/
def arraysFrom (least : Nat) : Cursor → List Region
  | ⟨_, []⟩ => []
  | ⟨here, '"' :: rest⟩ =>
    match skipString (here + 1) rest with
    | none => []
    | some ⟨next, _⟩ => (arrayRegion? least next).toList ++ arraysFrom least next
  | ⟨here, c :: rest⟩ => arraysFrom least ⟨here + c.utf8Size, rest⟩
termination_by c => c.rest.length
decreasing_by
  all_goals simp only [List.length_cons] at *
  all_goals omega

/-- The regions of all arrays that stand as the value of a key and have at least `least` elements,
    in the order of their opening brackets. -/
def arrayRegions (least : Nat) (text : List Char) : List Region :=
  arraysFrom least (Cursor.atStart text)

end BimEditor.Scan
