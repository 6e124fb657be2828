/-
  BimEditor.Json.StringList

  Reading with a type in mind. A text is read from left to right as any value, or as an array of
  strings, and the first thing that does not fit decides: either the text is malformed there, or a
  well-formed token of the wrong type stands there. Numbers are read approximately here, so a number
  close to the end of the format may count as malformed.
-/
import BimEditor.Json.Reader

namespace BimEditor.Json

open BimEditor.Text

/-- Why a text cannot be read as the type in mind. -/
inductive Mismatch where
  /-- The text is not valid JSON up to the point reached. -/
  | malformed
  /-- A token of another type stands there. -/
  | wrongType
deriving DecidableEq, Repr

/-- The deepest nesting of arrays and objects in a text that is read as any value. -/
def plainDepth : Nat := 127

/-- Read a text as any value. -/
def checkValue (text : List Char) : Except Mismatch Unit :=
  match readBy ⟨some plainDepth, Numeral.approximate?⟩ text with
  | .ok _ => .ok ()
  | .error _ => .error .malformed

/-- The mismatch of the token at the cursor, which is not of the type in mind. The opening bracket
    of a container is enough to tell; a digit right behind a number is one behind a leading zero. -/
def tokenMismatch : Cursor → Mismatch
  | ⟨_, '{' :: _⟩ => .wrongType
  | ⟨_, '[' :: _⟩ => .wrongType
  | c =>
    match scalar Numeral.approximate? c with
    | .ok ⟨.number _, next, _⟩ =>
      if next.rest.head?.any Numeric.isDigit then .malformed else .wrongType
    | .ok _ => .wrongType
    | .error _ => .malformed

/-- A string at the cursor. -/
def stringItem : (c : Cursor) → Except Mismatch (Reading Unit c)
  | ⟨here, '"' :: rest⟩ =>
    match stringBody here ⟨here + 1, rest⟩ with
    | .ok body => .ok (.withHead () body)
    | .error _ => .error .malformed
  | c => .error (tokenMismatch c)

/-- One or more strings up to the closing bracket of their array. -/
def stringItems (c : Cursor) : Except Mismatch Cursor := do
  let ⟨_, afterItem, _h₁⟩ ← stringItem c
  have _s₁ := afterItem.skipBlanks_length_le
  match itemEnd afterItem.skipBlanks with
  | .error _ => throw .malformed
  | .ok ⟨more, afterEnd, _h₂⟩ =>
    have _s₂ := afterEnd.skipBlanks_length_le
    if more then stringItems afterEnd.skipBlanks else return afterEnd
termination_by c.rest.length
decreasing_by omega

/-- An array of strings at the cursor. -/
def stringArrayAt : Cursor → Except Mismatch Cursor
  | ⟨here, '[' :: rest⟩ =>
    match Cursor.skipBlanks ⟨here + 1, rest⟩ with
    | ⟨there, ']' :: rest⟩ => .ok ⟨there + 1, rest⟩
    | inside => stringItems inside
  | c => .error (tokenMismatch c)

/-- Read a text as an array of strings. -/
def checkStrings (text : List Char) : Except Mismatch Unit := do
  let next ← stringArrayAt (Cursor.atStart text).skipBlanks
  match finish next with
  | .ok () => return ()
  | .error _ => throw .malformed

end BimEditor.Json
