/-
  BimEditor.Text.Position

  Where an offset lies for an editor: a line and a column counted from zero, columns in UTF-16 code
  units. Lines end at every line break that Unicode knows, with a carriage return and the line feed
  behind it as one break; a text has one line more than it has breaks.

  A place of a text counts lines and columns without bound. An editor is told of places in words of
  32 bits: a line or a column that no word holds loses its high bits on the way there, so the
  position of a text as long as that may be the position of another place.
-/
import BimEditor.Text.Cursor
import BimEditor.Text.Span

namespace BimEditor

/-- Numbers are sent in 32 bits, so each of them is less than this one. -/
def wordSize : Nat := 4294967296

/-- A number as a word. Bits that no word holds are lost. -/
instance wordOfNat : Coe Nat UInt32 :=
  ⟨UInt32.ofNat⟩

/-- A word as a number. -/
instance natOfWord : Coe UInt32 Nat :=
  ⟨UInt32.toNat⟩

namespace Text

/-- A line and a column of a text, both counted from zero; the column counts UTF-16 code units. -/
structure Place where
  line : Nat
  character : Nat
deriving DecidableEq, Repr, Inhabited

/-- A line and a column as an editor has them, in words. -/
structure Position where
  line : UInt32
  character : UInt32
deriving DecidableEq, Repr, Inhabited

/-- The positions of the two ends of a span. -/
structure Range where
  start : Position
  stop : Position
deriving DecidableEq, Repr, Inhabited

/-- What an editor is told of a place. -/
def Place.toPosition (p : Place) : Position :=
  ⟨p.line, p.character⟩

/-- The place that an editor speaks of. -/
def Position.toPlace (p : Position) : Place :=
  ⟨p.line, p.character⟩

/-! ## Lines -/

/-- The code points that break a line: line feed, vertical tab, form feed, carriage return, next
    line, line separator and paragraph separator. -/
def lineBreaks : List Nat :=
  [0x0A, 0x0B, 0x0C, 0x0D, 0x85, 0x2028, 0x2029]

/-- The character `c`, with `rest` behind it, is the last one of its line. A carriage return leaves
    that to a line feed right behind it. -/
def endsLine (c : Char) (rest : List Char) : Bool :=
  lineBreaks.contains c.toNat && !(c == '\r' && rest.head? == some '\n')

/-- The first line of a text, with its line break. -/
def firstLine : List Char → List Char
  | [] => []
  | c :: rest => if endsLine c rest then [c] else c :: firstLine rest

/-- The start of the `n`-th line behind the cursor, which stands at the start of a line itself. -/
def lineStart? (n here : Nat) : List Char → Option Cursor
  | [] => if n = 0 then some ⟨here, []⟩ else none
  | c :: rest =>
    if n = 0 then some ⟨here, c :: rest⟩
    else lineStart? (if endsLine c rest then n - 1 else n) (here + c.utf8Size) rest

/-- Number of lines of a text. -/
def lineCount : List Char → Nat
  | [] => 1
  | c :: rest => (if endsLine c rest then 1 else 0) + lineCount rest

/-- A line without the line feed at its end, and without a carriage return before that. Other line
    breaks count as part of the line. -/
def lineContent (line : List Char) : List Char :=
  match line.reverse with
  | '\n' :: '\r' :: before => before.reverse
  | '\n' :: before => before.reverse
  | _ => line

/-! ## From offsets to positions -/

/-- Where the walk from `p` over `s` stands once it has passed all characters that end within the
    next `offset` bytes. -/
def Place.advance (p : Place) : Nat → List Char → Place
  | _, [] => p
  | offset, c :: s =>
    if offset < c.utf8Size then p
    else if endsLine c s then advance ⟨p.line + 1, 0⟩ (offset - c.utf8Size) s
    else advance ⟨p.line, p.character + unitSize c⟩ (offset - c.utf8Size) s

/-- The place of a byte offset. An offset inside a character counts as that character's start, one
    past the end of the text as its end. -/
def place (text : List Char) (offset : Nat) : Place :=
  Place.advance ⟨0, 0⟩ offset text

/-- The position of a byte offset. -/
def position (text : List Char) (offset : Nat) : Position :=
  (place text offset).toPosition

/-- The range of a span. -/
def range (text : List Char) (span : Span) : Range :=
  ⟨position text span.start, position text span.stop⟩

/-! ## From positions to offsets -/

/-- Number of bytes of the characters of `s` that end within its first `units` code units. -/
def bytesOfUnits : Nat → List Char → Nat
  | _, [] => 0
  | units, c :: s =>
    if units < unitSize c then 0 else c.utf8Size + bytesOfUnits (units - unitSize c) s

/-- The byte offset of a place; none if the text has no such line. A column behind the content of
    its line counts as the end of that content. -/
def placeOffset? (text : List Char) (p : Place) : Option Nat :=
  (lineStart? p.line 0 text).map fun start =>
    start.offset + bytesOfUnits p.character (lineContent (firstLine start.rest))

/-- The byte offset of a position. -/
def offset? (text : List Char) (p : Position) : Option Nat :=
  placeOffset? text p.toPlace

end Text

end BimEditor
