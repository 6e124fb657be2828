/-
  BimEditor.Text.Span

  Byte ranges of a text. A span covers the bytes from `start` up to, and not including, `stop`;
  a cursor right behind the last byte still touches the span, as editors see it.
-/

namespace BimEditor.Text

/-- The bytes from `start` up to `stop`, the latter excluded. -/
structure Span where
  start : Nat
  stop : Nat
deriving DecidableEq, Repr, Inhabited

namespace Span

/-- Number of bytes covered. -/
def length (s : Span) : Nat :=
  s.stop - s.start

/-- No byte is covered. -/
def isEmpty (s : Span) : Bool :=
  s.start == s.stop

/-- The offset lies inside the span or right behind it. -/
def touches (s : Span) (offset : Nat) : Bool :=
  s.start ≤ offset && offset ≤ s.stop

/-- The span without one byte at each end: what a quoted token holds between its quotes. -/
def inner (s : Span) : Span :=
  ⟨s.start + 1, s.stop - 1⟩

theorem touches_iff {s : Span} {offset : Nat} :
    s.touches offset = true ↔ s.start ≤ offset ∧ offset ≤ s.stop := by
  simp [touches]

end Span

end BimEditor.Text
