/-
  BimEditor.Text.LineColumn

  Where an offset lies for a reader of an error message: line and column, both counted from one.
  Only a line feed ends a line here, and columns count characters.
-/
import BimEditor.Text.Measure

namespace BimEditor.Text

/-- A line and a column, both counted from one. -/
structure LineColumn where
  line : Nat
  column : Nat
deriving DecidableEq, Repr, Inhabited

/-- Where the walk from `place` over `s` stands once it has passed all characters that end within
    the next `offset` bytes. -/
def LineColumn.advance (place : LineColumn) : Nat → List Char → LineColumn
  | _, [] => place
  | offset, c :: s =>
    if offset < c.utf8Size then place
    else if c = '\n' then advance ⟨place.line + 1, 1⟩ (offset - c.utf8Size) s
    else advance ⟨place.line, place.column + 1⟩ (offset - c.utf8Size) s

/-- Line and column of a byte offset. An offset inside a character counts as that character's
    start, one past the end of the text as its end. -/
def lineColumn (text : List Char) (offset : Nat) : LineColumn :=
  LineColumn.advance ⟨1, 1⟩ offset text

end BimEditor.Text
