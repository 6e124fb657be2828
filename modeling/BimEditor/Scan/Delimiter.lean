/-
  BimEditor.Scan.Delimiter

  Matching brackets in raw text. These scanners look at the text alone and not at a parsed tree, so
  they go on working while a document is not valid in the middle of an edit. Brackets inside string
  literals do not count.
-/
import BimEditor.Text.Cursor

namespace BimEditor.Scan

open BimEditor.Text

/-- A pair of brackets. -/
inductive Delimiter where
  | brace
  | bracket
deriving DecidableEq, Repr, Inhabited

namespace Delimiter

/-- The character that opens the pair. -/
def opening : Delimiter → Char
  | .brace => '{'
  | .bracket => '['

/-- The character that closes the pair. -/
def closing : Delimiter → Char
  | .brace => '}'
  | .bracket => ']'

/-- The pair that a character opens. -/
def ofOpening? : Char → Option Delimiter
  | '{' => some .brace
  | '[' => some .bracket
  | _ => none

end Delimiter

/-! ## Strings -/

/-- The place behind a string literal whose opening quote was just passed, if it has a closing
    quote. A backslash hides the character behind it. -/
def skipString : (here : Nat) → (rest : List Char) → Option (Ahead ⟨here, rest⟩)
  | _, [] => none
  | _, '"' :: _ => some .head
  | _, ['\\'] => none
  | here, '\\' :: c :: rest =>
    (skipString (here + 1 + c.utf8Size) rest).map fun next =>
      (next.withHead : Ahead ⟨here + 1, c :: rest⟩).withHead
  | here, c :: rest => (skipString (here + c.utf8Size) rest).map .withHead

/-! ## Matching brackets -/

/-- The offset of the bracket that closes a pair opened before the cursor, where `inner` pairs of
    the same family are open inside it. -/
def closeFrom (d : Delimiter) (inner : Nat) : Cursor → Option Nat
  | ⟨_, []⟩ => none
  | ⟨here, '"' :: rest⟩ =>
    match skipString (here + 1) rest with
    | none => none
    | some ⟨next, _⟩ => closeFrom d inner next
  | ⟨here, c :: rest⟩ =>
    if c = d.opening then closeFrom d (inner + 1) ⟨here + 1, rest⟩
    else if c = d.closing then
      if inner = 0 then some here else closeFrom d (inner - 1) ⟨here + 1, rest⟩
    else closeFrom d inner ⟨here + c.utf8Size, rest⟩
termination_by c => c.rest.length
decreasing_by
  all_goals simp only [List.length_cons] at *
  all_goals omega

/-- The offset of the bracket that closes the pair whose opening bracket ends at byte `start`;
    none if the text ends first, or if `start` lies behind its end. -/
def matchingClose (d : Delimiter) (text : List Char) (start : Nat) : Option Nat :=
  if byteLength text < start then none else closeFrom d 0 (Cursor.ofOffset text start)

/-! ## Counting elements -/

/-- What a scan over an array's body keeps track of. -/
structure ElementScan where
  commas : Nat := 0
  depth : Nat := 0
  inString : Bool := false
  escaped : Bool := false
deriving DecidableEq, Repr, Inhabited

/-- Take one character into account. A closing bracket too many is ignored. -/
def ElementScan.step (s : ElementScan) (c : Char) : ElementScan :=
  if s.escaped then { s with escaped := false }
  else if s.inString then
    if c = '\\' then { s with escaped := true }
    else if c = '"' then { s with inString := false }
    else s
  else if c = '"' then { s with inString := true }
  else if c = '[' ∨ c = '{' then { s with depth := s.depth + 1 }
  else if c = ']' ∨ c = '}' then { s with depth := s.depth - 1 }
  else if c = ',' ∧ s.depth = 0 then { s with commas := s.commas + 1 }
  else s

/-- Number of elements in the text between an array's brackets: one more than its commas outside
    strings and nested brackets, or none if it is blank. -/
def countElements (body : List Char) : Nat :=
  if (trim body).isEmpty then 0 else (body.foldl ElementScan.step {}).commas + 1

end BimEditor.Scan
