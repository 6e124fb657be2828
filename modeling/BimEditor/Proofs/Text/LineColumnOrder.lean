/-
  BimEditor.Proofs.Text.LineColumnOrder

  Lines and columns of offsets, in the order of reading. The line counts the line feeds before an
  offset and the column the characters behind the last of them (`lineColumn_lastLine`). Each
  character leads to a later place (`before_stepOver`), so a later boundary has a later place
  (`lineColumn_before`), and no two boundaries of a text share their line and column. All other
  offsets have those of a boundary (`lineColumn_locates`).
-/
import BimEditor.Proofs.Bytes.Position

namespace BimEditor.Text

open BimEditor.Bytes (IsBoundary stepOver)

/-- `p` comes before `q`: in an earlier line, or in the same line in an earlier column. -/
def LineColumn.Before (p q : LineColumn) : Prop :=
  p.line < q.line ∨ p.line = q.line ∧ p.column < q.column

namespace LineColumn

variable {p q r : LineColumn}

theorem Before.trans (h : p.Before q) (h' : q.Before r) : p.Before r := by
  unfold Before at *
  omega

theorem not_before_self (p : LineColumn) : ¬ p.Before p := by
  unfold Before
  omega

/-! ## The walk over a text -/

/-- Every character leads to a later place. -/
theorem before_stepOver (p : LineColumn) (c : Char) : p.Before (stepOver p c) := by
  unfold stepOver
  split
  · exact .inl (Nat.lt_succ_self p.line)
  · exact .inr ⟨rfl, Nat.lt_succ_self p.column⟩

theorem before_foldl (p : LineColumn) {piece : List Char} (h : piece ≠ []) :
    p.Before (piece.foldl stepOver p) := by
  induction piece generalizing p with
  | nil => exact absurd rfl h
  | cons c piece ih =>
    rw [List.foldl_cons]
    by_cases hpiece : piece = []
    · rw [hpiece]
      exact before_stepOver p c
    · exact (before_stepOver p c).trans (ih _ hpiece)

end LineColumn

/-! ## Offsets -/

theorem lineColumn_eq_foldl (text : List Char) (offset : Nat) :
    lineColumn text offset = (takeBytes offset text).foldl stepOver ⟨1, 1⟩ :=
  Bytes.advance_eq _ _ _

theorem lineColumn_append (before after : List Char) :
    lineColumn (before ++ after) (byteLength before) = before.foldl stepOver ⟨1, 1⟩ := by
  rw [lineColumn_eq_foldl, takeBytes_append]

/-- The line counts the line feeds before an offset, and the column the characters of its line. -/
theorem lineColumn_lastLine {front last : List Char} (hlast : '\n' ∉ last)
    (hfront : front = [] ∨ ∃ f, front = f ++ ['\n']) (after : List Char) :
    lineColumn (front ++ last ++ after) (byteLength (front ++ last))
      = ⟨(front ++ last).count '\n' + 1, last.length + 1⟩ := by
  rw [lineColumn_append, Bytes.foldl_stepOver_lastLine hlast hfront]

/-- Two boundaries cut a piece out of the text. -/
theorem exists_cut {text : List Char} {a b : Nat} (ha : IsBoundary text a) (hb : IsBoundary text b)
    (hle : a ≤ b) : ∃ piece, Cut text ⟨a, b⟩ piece := by
  have hwithin : b ≤ byteLength text := by
    obtain ⟨before, after, rfl, rfl⟩ := hb
    rw [byteLength_append]
    exact Nat.le_add_right _ _
  have hsome := Bytes.isSome_charsBetween_iff.2 ⟨hle, hwithin, ha, hb⟩
  obtain ⟨piece, hpiece⟩ := Option.isSome_iff_exists.1 hsome
  exact ⟨piece, Bytes.charsBetween_eq_some_iff.1 hpiece⟩

/-- A later boundary has a later place. -/
theorem lineColumn_before {text : List Char} {a b : Nat} (ha : IsBoundary text a)
    (hb : IsBoundary text b) (hlt : a < b) : (lineColumn text a).Before (lineColumn text b) := by
  obtain ⟨piece, before, after, rfl, hstart, hstop⟩ := exists_cut ha hb (Nat.le_of_lt hlt)
  dsimp only at hstart hstop
  subst hstart hstop
  have hpiece : piece ≠ [] := by
    rintro rfl
    exact Nat.lt_irrefl _ hlt
  rw [lineColumn_append, ← byteLength_append, ← List.append_assoc, lineColumn_append,
    List.foldl_append]
  exact LineColumn.before_foldl _ hpiece

/-- An offset inside of a character has the place where the character starts. -/
theorem lineColumn_inside {c : Char} {k : Nat} (hk : k < c.utf8Size) (before after : List Char) :
    lineColumn (before ++ c :: after) (byteLength before + k)
      = lineColumn (before ++ c :: after) (byteLength before) := by
  have hnone : takeBytes k (c :: after) = [] := by
    rw [takeBytes, if_neg (Nat.not_le_of_lt hk)]
  rw [lineColumn_append, lineColumn_eq_foldl, takeBytes_append_of_le (Nat.le_add_right _ _),
    Nat.add_sub_cancel_left, hnone, List.append_nil]

/-- An offset behind the end of the text has the place of the end. -/
theorem lineColumn_behind {text : List Char} {offset : Nat} (h : byteLength text ≤ offset) :
    lineColumn text offset = lineColumn text (byteLength text) := by
  have hwhole : ∀ n, byteLength text ≤ n → takeBytes n text = text := by
    intro n hn
    have htake := takeBytes_append_of_le (t := []) hn
    rwa [List.append_nil, takeBytes, List.append_nil] at htake
  rw [lineColumn_eq_foldl, lineColumn_eq_foldl, hwhole offset h, hwhole _ (Nat.le_refl _)]

/-- Line and column count the line feeds before a boundary and the characters behind the last of
    them. A later boundary has a later place, in the order of lines and of columns within a line;
    an offset inside of a character has the place of its start, and one behind the end that of the
    end. So line and column tell the boundary that they are those of. -/
theorem lineColumn_locates (text : List Char) :
    (∀ front last after, text = front ++ last ++ after → '\n' ∉ last →
        (front = [] ∨ ∃ f, front = f ++ ['\n']) →
        lineColumn text (byteLength (front ++ last))
          = ⟨(front ++ last).count '\n' + 1, last.length + 1⟩)
      ∧ (∀ a b, IsBoundary text a → IsBoundary text b → a < b →
        (lineColumn text a).Before (lineColumn text b))
      ∧ (∀ before c after k, text = before ++ c :: after → k < c.utf8Size →
        lineColumn text (byteLength before + k) = lineColumn text (byteLength before))
      ∧ (∀ offset, byteLength text ≤ offset →
        lineColumn text offset = lineColumn text (byteLength text))
      ∧ ∀ a b, IsBoundary text a → IsBoundary text b → lineColumn text a = lineColumn text b →
        a = b := by
  refine ⟨?_, fun a b => lineColumn_before, ?_, fun offset => lineColumn_behind, ?_⟩
  · rintro front last after rfl hlast hfront
    exact lineColumn_lastLine hlast hfront after
  · rintro before c after k rfl hk
    exact lineColumn_inside hk before after
  · intro a b ha hb heq
    rcases Nat.lt_trichotomy a b with hlt | rfl | hlt
    · have hbefore := lineColumn_before ha hb hlt
      rw [heq] at hbefore
      exact absurd hbefore (LineColumn.not_before_self _)
    · rfl
    · have hbefore := lineColumn_before hb ha hlt
      rw [heq] at hbefore
      exact absurd hbefore (LineColumn.not_before_self _)

/-- A line feed, and a character of two bytes before a last one. -/
def accented : List Char :=
  ['a', '\n', 'é', 'b']

theorem lineColumn_locates_accented :
    lineColumn accented 4 = ⟨2, 2⟩
      ∧ (lineColumn accented 1).Before (lineColumn accented 2)
      ∧ lineColumn accented 3 = lineColumn accented 2
      ∧ lineColumn accented 9 = lineColumn accented 5
      ∧ lineColumn accented 2 ≠ lineColumn accented 4 := by
  have hone : IsBoundary accented 1 := ⟨['a'], ['\n', 'é', 'b'], rfl, rfl⟩
  have htwo : IsBoundary accented 2 := ⟨['a', '\n'], ['é', 'b'], rfl, rfl⟩
  have hfour : IsBoundary accented 4 := ⟨['a', '\n', 'é'], ['b'], rfl, rfl⟩
  obtain ⟨hcounts, hlater, hinside, hbehind, hboundary⟩ := lineColumn_locates accented
  refine ⟨hcounts ['a', '\n'] ['é'] ['b'] rfl (by decide) (.inr ⟨['a'], rfl⟩),
    hlater 1 2 hone htwo (by decide), hinside ['a', '\n'] 'é' ['b'] 1 rfl (by decide),
    hbehind 9 (by decide), fun hsame => ?_⟩
  exact absurd (hboundary 2 4 htwo hfour hsame) (by decide)

end BimEditor.Text
