/-
  BimEditor.Text.Cursor

  A place in a text, for readers that walk over it from left to right: the byte offset reached so
  far and the characters still to come. A step of a reader returns a `Reading`, which carries the
  evidence that something was consumed; loops over a text end by that measure.
-/
import BimEditor.Text.Blank
import BimEditor.Text.Measure

namespace BimEditor.Text

/-- The characters still to be read, and the byte offset of the first of them. -/
structure Cursor where
  offset : Nat
  rest : List Char
deriving DecidableEq, Repr, Inhabited

/-- A value that was read from `start`, and the place behind it. -/
structure Reading (α : Type) (start : Cursor) where
  value : α
  next : Cursor
  shorter : next.rest.length < start.rest.length

/-- A place behind `start`. -/
abbrev Ahead (start : Cursor) := { next : Cursor // next.rest.length < start.rest.length }

/-- A place at or behind `start`. -/
abbrev Advance (start : Cursor) := { next : Cursor // next.rest.length ≤ start.rest.length }

namespace Reading

variable {α β : Type} {here there : Nat} {c : Char} {rest : List Char}

/-- A value that was read from one character of a single byte. -/
def head (value : α) : Reading α ⟨here, c :: rest⟩ :=
  ⟨value, ⟨here + 1, rest⟩, Nat.lt_succ_self _⟩

/-- A value that was read from a character and from what was read behind it. -/
def withHead (value : α) (tail : Reading β ⟨there, rest⟩) : Reading α ⟨here, c :: rest⟩ :=
  ⟨value, tail.next, Nat.lt_succ_of_lt tail.shorter⟩

end Reading

namespace Ahead

variable {here there : Nat} {c : Char} {rest : List Char}

/-- The place behind a character of a single byte. -/
def head : Ahead ⟨here, c :: rest⟩ :=
  ⟨⟨here + 1, rest⟩, Nat.lt_succ_self _⟩

/-- A place behind what follows a character. -/
def withHead (tail : Ahead ⟨there, rest⟩) : Ahead ⟨here, c :: rest⟩ :=
  ⟨tail.val, Nat.lt_succ_of_lt tail.property⟩

end Ahead

namespace Cursor

/-- The beginning of a text. -/
def atStart (text : List Char) : Cursor :=
  ⟨0, text⟩

/-- The first character boundary at or behind byte `offset`. -/
def ofOffset (text : List Char) (offset : Nat) : Cursor :=
  let rest := dropBytes offset text
  ⟨byteLength text - byteLength rest, rest⟩

/-- Step over the leading characters that satisfy `p`. -/
def skip (p : Char → Bool) (c : Cursor) : Cursor :=
  ⟨c.offset + byteLength (c.rest.takeWhile p), c.rest.dropWhile p⟩

/-- Step over what JSON allows between two tokens. -/
def skipBlanks (c : Cursor) : Cursor :=
  c.skip isJsonBlank

theorem skip_length_le (p : Char → Bool) (c : Cursor) :
    (c.skip p).rest.length ≤ c.rest.length := by
  have h := congrArg List.length (List.takeWhile_append_dropWhile (p := p) (l := c.rest))
  simp only [List.length_append] at h
  simp only [skip]
  omega

theorem skipBlanks_length_le (c : Cursor) : c.skipBlanks.rest.length ≤ c.rest.length :=
  skip_length_le _ c

end Cursor

end BimEditor.Text
