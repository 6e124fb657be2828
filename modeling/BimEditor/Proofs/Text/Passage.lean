/-
  BimEditor.Proofs.Text.Passage

  What lies between two places of a text. A cursor that has passed a piece stands behind it: the
  piece and the rest make up what was still to come, and the offset has grown by the piece's bytes.
  The second half cuts a piece out of a text by its two offsets, which is what the spans of a tree
  are used for.
-/
import BimEditor.Text.Cursor
import BimEditor.Text.Span

namespace BimEditor.Text

/-- An ASCII character takes one byte. -/
@[simp]
theorem utf8Size_of_ascii {c : Char} (h : c.toNat < 0x80) : c.utf8Size = 1 := by
  have hval : c.val ≤ 0x7f := by
    rw [UInt32.le_iff_toNat_le]
    have : c.val.toNat < 0x80 := h
    simpa using Nat.le_of_lt_succ this
  simp [Char.utf8Size, hval]

/-! ## Passing a piece -/

namespace Cursor

/-- From `c`, reading `s` leads to `d`. -/
def Passes (c : Cursor) (s : List Char) (d : Cursor) : Prop :=
  c.rest = s ++ d.rest ∧ d.offset = c.offset + byteLength s

namespace Passes

variable {c d e : Cursor} {s t : List Char}

theorem refl (c : Cursor) : c.Passes [] c := by
  simp [Passes]

theorem trans (h : c.Passes s d) (h' : d.Passes t e) : c.Passes (s ++ t) e := by
  obtain ⟨hrest, hoffset⟩ := h
  obtain ⟨hrest', hoffset'⟩ := h'
  refine ⟨?_, ?_⟩
  · rw [hrest, hrest', List.append_assoc]
  · rw [hoffset', hoffset, byteLength_append, Nat.add_assoc]

/-- Reading one character and then a piece. -/
theorem cons {here : Nat} {x : Char} {rest : List Char}
    (h : Cursor.Passes ⟨here + x.utf8Size, rest⟩ s d) :
    Cursor.Passes ⟨here, x :: rest⟩ (x :: s) d := by
  obtain ⟨hrest, hoffset⟩ := h
  refine ⟨congrArg (x :: ·) hrest, ?_⟩
  rw [hoffset, byteLength_cons, Nat.add_assoc]

/-- Reading a character of one byte and then a piece. -/
theorem byte {here : Nat} {x : Char} {rest : List Char}
    (h : Cursor.Passes ⟨here + 1, rest⟩ s d) (hx : x.utf8Size = 1) :
    Cursor.Passes ⟨here, x :: rest⟩ (x :: s) d :=
  cons (hx ▸ h)

end Passes

/-- Stepping over characters passes them, and they satisfy the predicate. -/
theorem passes_skip (p : Char → Bool) (c : Cursor) :
    c.Passes (c.rest.takeWhile p) (c.skip p) :=
  ⟨List.takeWhile_append_dropWhile.symm, rfl⟩

/-- `s` does not start with a character that satisfies `p`. -/
def StopsAt (p : Char → Bool) (s : List Char) : Prop :=
  ∀ x ∈ s.head?, p x = false

@[simp]
theorem stopsAt_nil (p : Char → Bool) : StopsAt p [] := by
  simp [StopsAt]

@[simp]
theorem stopsAt_cons (p : Char → Bool) (x : Char) (s : List Char) :
    StopsAt p (x :: s) ↔ p x = false := by
  simp [StopsAt]

theorem StopsAt.mono {p q : Char → Bool} {s : List Char} (h : StopsAt p s)
    (hpq : ∀ x, q x = true → p x = true) : StopsAt q s := by
  intro x hx
  have hp := h x hx
  cases hq : q x with
  | false => rfl
  | true =>
    rw [hpq x hq] at hp
    exact hp

theorem StopsAt.takeWhile {p : Char → Bool} {s : List Char} (h : StopsAt p s) :
    s.takeWhile p = [] := by
  cases s with
  | nil => rfl
  | cons x s => simp [(stopsAt_cons p x s).1 h]

theorem StopsAt.dropWhile {p : Char → Bool} {s : List Char} (h : StopsAt p s) :
    s.dropWhile p = s := by
  cases s with
  | nil => rfl
  | cons x s => simp [(stopsAt_cons p x s).1 h]

/-- A text that stops at once does not start with such a character. -/
theorem StopsAt.ne_cons {p : Char → Bool} {s t : List Char} {x : Char} {here there : Nat}
    (h : StopsAt p s) (hx : p x = true) : (⟨here, s⟩ : Cursor) ≠ ⟨there, x :: t⟩ := by
  intro heq
  injection heq with _ heq
  subst heq
  rw [stopsAt_cons, hx] at h
  cases h

/-- Whether a text stops at once depends on its first character only. -/
theorem StopsAt.of_head? {p : Char → Bool} {s t : List Char} (h : StopsAt p s)
    (hhead : t.head? = s.head?) : StopsAt p t := by
  unfold StopsAt
  rwa [hhead]

theorem stopsAt_of_ne_cons {p : Char → Bool} {c : Cursor}
    (h : ∀ x here rest, p x = true → c ≠ ⟨here, x :: rest⟩) : StopsAt p c.rest := by
  intro x hx
  obtain ⟨rest, hrest⟩ := List.head?_eq_some_iff.1 hx
  rw [← Bool.not_eq_true]
  intro hp
  exact h x c.offset rest hp (by rw [← hrest])

theorem stopsAt_skip (p : Char → Bool) (c : Cursor) : StopsAt p (c.skip p).rest := by
  intro x hx
  have hnot := List.head?_dropWhile_not p c.rest
  unfold skip at hx
  rw [Option.mem_def.1 hx] at hnot
  simpa using hnot

/-- Stepping over characters ends exactly where they do. -/
theorem skip_append {p : Char → Bool} {here : Nat} {s rest : List Char}
    (hs : ∀ x ∈ s, p x = true) (hrest : StopsAt p rest) :
    Cursor.skip p ⟨here, s ++ rest⟩ = ⟨here + byteLength s, rest⟩ := by
  simp [skip, List.takeWhile_append_of_pos hs, List.dropWhile_append_of_pos hs,
    hrest.takeWhile, hrest.dropWhile]

end Cursor

/-! ## Cutting out a piece -/

theorem takeBytes_append (s t : List Char) : takeBytes (byteLength s) (s ++ t) = s := by
  induction s with
  | nil =>
    cases t with
    | nil => rfl
    | cons c t =>
      -- no character fits into no bytes
      have hpos := c.utf8Size_pos
      rw [List.nil_append, byteLength_nil, takeBytes, if_neg (by omega)]
  | cons c s ih =>
    rw [List.cons_append, byteLength_cons, takeBytes, if_pos (by omega), Nat.add_sub_cancel_left,
      ih]

theorem dropBytes_append (s t : List Char) : dropBytes (byteLength s) (s ++ t) = t := by
  induction s with
  | nil =>
    cases t with
    | nil => rfl
    | cons c t => rw [List.nil_append, byteLength_nil, dropBytes, if_pos rfl]
  | cons c s ih =>
    have hpos := c.utf8Size_pos
    rw [List.cons_append, byteLength_cons, dropBytes, if_neg (by omega), Nat.add_sub_cancel_left,
      ih]

/-- `piece` is what `text` holds from byte `span.start` up to byte `span.stop`; both of them lie
    between two characters. -/
def Cut (text : List Char) (span : Span) (piece : List Char) : Prop :=
  ∃ before after, text = before ++ (piece ++ after) ∧ byteLength before = span.start
    ∧ span.start + byteLength piece = span.stop

/-- Slicing the text gives the piece. -/
theorem Cut.slice {text piece : List Char} {span : Span} (h : Cut text span piece) :
    slice span.start span.stop text = piece := by
  obtain ⟨before, after, rfl, hstart, hstop⟩ := h
  rw [Text.slice, ← hstop, Nat.add_sub_cancel_left, ← hstart, dropBytes_append, takeBytes_append]

end BimEditor.Text
