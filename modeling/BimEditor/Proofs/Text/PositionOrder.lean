/-
  BimEditor.Proofs.Text.PositionOrder

  The order of places: by line, and by column within a line. The walk over a text only moves
  forward (`atMost_advance`), so a later offset never has an earlier place (`place_mono`), and the
  end of a piece that is not empty lies behind its start (`Cut.place_before`), on one line by as
  many columns as the piece has code units (`Cut.place_stop`).

  A text has no place further than it has bytes (`place_le`). So in a text of fewer bytes than there
  are words a position says all about the place that it stands for (`toPlace_position`).
-/
import BimEditor.Proofs.Text.Passage
import BimEditor.Text.Position

namespace BimEditor.Text

theorem unitSize_pos (c : Char) : 0 < unitSize c := by
  unfold unitSize
  split <;> decide

/-- A character takes no more code units than bytes: two only if it takes four bytes. -/
theorem unitSize_le_utf8Size (c : Char) : unitSize c ≤ c.utf8Size := by
  unfold unitSize
  split
  · exact c.utf8Size_pos
  · next hlarge =>
    have hgreater : ∀ n : UInt32, n.toNat < 0x10000 → ¬ c.val ≤ n := by
      intro n hn hle
      have : c.toNat ≤ n.toNat := hle
      omega
    have hsize : c.utf8Size = 4 := by
      rw [Char.utf8Size, if_neg (hgreater _ (by decide)), if_neg (hgreater _ (by decide)),
        if_neg (hgreater _ (by decide))]
    omega

namespace Place

/-- `p` is at or before `q`. -/
def AtMost (p q : Place) : Prop :=
  p.line < q.line ∨ p.line = q.line ∧ p.character ≤ q.character

/-- `p` is before `q`. -/
def Before (p q : Place) : Prop :=
  p.line < q.line ∨ p.line = q.line ∧ p.character < q.character

variable {p q r : Place}

theorem AtMost.refl (p : Place) : p.AtMost p :=
  .inr ⟨rfl, Nat.le_refl _⟩

theorem AtMost.trans (h : p.AtMost q) (h' : q.AtMost r) : p.AtMost r := by
  unfold AtMost at *
  omega

theorem Before.atMost (h : p.Before q) : p.AtMost q := by
  unfold Before at h
  unfold AtMost
  omega

theorem Before.trans_atMost (h : p.Before q) (h' : q.AtMost r) : p.Before r := by
  unfold Before AtMost at *
  omega

theorem zero_atMost (p : Place) : AtMost ⟨0, 0⟩ p := by
  unfold AtMost
  dsimp only
  omega

/-! ## The walk over a text -/

/-- The place behind the character `c`, with `s` behind it. -/
def after (p : Place) (c : Char) (s : List Char) : Place :=
  if endsLine c s then ⟨p.line + 1, 0⟩ else ⟨p.line, p.character + unitSize c⟩

theorem before_after (p : Place) (c : Char) (s : List Char) : p.Before (p.after c s) := by
  have hpos := unitSize_pos c
  unfold after Before
  split
  · exact .inl (Nat.lt_succ_self _)
  · refine .inr ⟨rfl, ?_⟩
    dsimp only
    omega

/-- A character that reaches over the offset is not passed. -/
theorem advance_cons_of_lt {offset : Nat} {c : Char} (h : offset < c.utf8Size) (p : Place)
    (s : List Char) : p.advance offset (c :: s) = p := by
  rw [advance, if_pos h]

theorem advance_cons_of_le {offset : Nat} {c : Char} (h : c.utf8Size ≤ offset) (p : Place)
    (s : List Char) :
    p.advance offset (c :: s) = (p.after c s).advance (offset - c.utf8Size) s := by
  rw [advance, if_neg (Nat.not_lt.2 h), after]
  split <;> rfl

theorem advance_zero (p : Place) (s : List Char) : p.advance 0 s = p := by
  cases s with
  | nil => rfl
  | cons c s => exact advance_cons_of_lt c.utf8Size_pos p s

/-- The walk only moves forward. -/
theorem atMost_advance (p : Place) (offset : Nat) (s : List Char) :
    p.AtMost (p.advance offset s) := by
  induction s generalizing p offset with
  | nil => exact AtMost.refl p
  | cons c s ih =>
    by_cases h : offset < c.utf8Size
    · rw [advance_cons_of_lt h]
      exact AtMost.refl p
    · rw [advance_cons_of_le (Nat.not_lt.1 h)]
      exact (before_after p c s).atMost.trans (ih _ _)

theorem advance_mono (p : Place) {a b : Nat} (h : a ≤ b) (s : List Char) :
    (p.advance a s).AtMost (p.advance b s) := by
  induction s generalizing p a b with
  | nil => exact AtMost.refl p
  | cons c s ih =>
    by_cases ha : a < c.utf8Size
    · rw [advance_cons_of_lt ha]
      exact atMost_advance p b _
    · rw [advance_cons_of_le (Nat.not_lt.1 ha), advance_cons_of_le (by omega)]
      exact ih _ (by omega)

/-- Behind a piece that is not empty the walk stands behind the start of the piece. -/
theorem advance_before (p : Place) (before : List Char) {piece : List Char} (h : piece ≠ [])
    (rest : List Char) :
    (p.advance (byteLength before) (before ++ (piece ++ rest))).Before
      (p.advance (byteLength before + byteLength piece) (before ++ (piece ++ rest))) := by
  induction before generalizing p with
  | nil =>
    obtain ⟨c, piece, rfl⟩ := List.exists_cons_of_ne_nil h
    rw [byteLength_nil, advance_zero, byteLength_cons, List.nil_append, List.cons_append,
      advance_cons_of_le (by omega)]
    exact (before_after p c _).trans_atMost (atMost_advance _ _ _)
  | cons c before ih =>
    -- both walks pass `c` and go on from the same place
    rw [List.cons_append, byteLength_cons, advance_cons_of_le (by omega),
      advance_cons_of_le (by omega), Nat.add_sub_cancel_left, Nat.add_assoc,
      Nat.add_sub_cancel_left]
    exact ih _

/-- A walk goes on from where the walk over the first piece has ended. -/
theorem advance_append (p : Place) (before : List Char) (offset : Nat) (rest : List Char) :
    p.advance (byteLength before + offset) (before ++ rest)
      = (p.advance (byteLength before) (before ++ rest)).advance offset rest := by
  induction before generalizing p with
  | nil => rw [byteLength_nil, Nat.zero_add, List.nil_append, advance_zero]
  | cons c before ih =>
    rw [List.cons_append, byteLength_cons, Nat.add_assoc, advance_cons_of_le (by omega),
      advance_cons_of_le (by omega), Nat.add_sub_cancel_left, Nat.add_sub_cancel_left, ih]

/-- A walk over a piece that stays on its line counts the code units of the piece. -/
theorem advance_of_line_eq {p : Place} {piece rest : List Char}
    (h : (p.advance (byteLength piece) (piece ++ rest)).line = p.line) :
    p.advance (byteLength piece) (piece ++ rest) = ⟨p.line, p.character + unitLength piece⟩ := by
  induction piece generalizing p with
  | nil => exact advance_zero p rest
  | cons c piece ih =>
    rw [List.cons_append, byteLength_cons, advance_cons_of_le (by omega),
      Nat.add_sub_cancel_left] at h ⊢
    cases hends : endsLine c (piece ++ rest) with
    | true =>
      -- from behind a line break no walk leads back
      have hatMost := atMost_advance (p.after c (piece ++ rest)) (byteLength piece) (piece ++ rest)
      have hline : (p.after c (piece ++ rest)).line = p.line + 1 := by rw [after, if_pos hends]
      unfold AtMost at hatMost
      omega
    | false =>
      have hafter : p.after c (piece ++ rest) = ⟨p.line, p.character + unitSize c⟩ := by
        rw [after, if_neg (by rw [hends]; decide)]
      rw [hafter] at h ⊢
      rw [ih h, unitLength_cons, Nat.add_assoc]

/-- A walk passes no more lines and columns than the text has bytes. -/
theorem advance_le (p : Place) (offset : Nat) (s : List Char) :
    (p.advance offset s).line + (p.advance offset s).character
      ≤ p.line + p.character + byteLength s := by
  induction s generalizing p offset with
  | nil => exact Nat.le_refl _
  | cons c s ih =>
    by_cases h : offset < c.utf8Size
    · rw [advance_cons_of_lt h]
      exact Nat.le_add_right _ _
    · have hafter : (p.after c s).line + (p.after c s).character
          ≤ p.line + p.character + c.utf8Size := by
        have hsize := unitSize_le_utf8Size c
        have hpos := c.utf8Size_pos
        unfold after
        split <;> dsimp only <;> omega
      rw [advance_cons_of_le (Nat.not_lt.1 h), byteLength_cons]
      have := ih (p.after c s) (offset - c.utf8Size)
      omega

end Place

/-! ## Places of offsets -/

/-- A later offset has no earlier place. -/
theorem place_mono (text : List Char) {a b : Nat} (h : a ≤ b) :
    (place text a).AtMost (place text b) :=
  Place.advance_mono _ h text

/-- A piece that is not empty ends behind its start. -/
theorem Cut.place_before {text piece : List Char} {span : Span} (h : Cut text span piece)
    (hpiece : piece ≠ []) : (place text span.start).Before (place text span.stop) := by
  obtain ⟨before, rest, rfl, hstart, hstop⟩ := h
  rw [← hstop, ← hstart]
  exact Place.advance_before _ before hpiece rest

/-- A piece on one line ends as many columns behind its start as it has code units. -/
theorem Cut.place_stop {text piece : List Char} {span : Span} (h : Cut text span piece)
    (hline : (place text span.stop).line = (place text span.start).line) :
    (place text span.stop).character
      = (place text span.start).character + unitLength piece := by
  obtain ⟨before, rest, rfl, hstart, hstop⟩ := h
  rw [← hstop, ← hstart, place, place, Place.advance_append] at hline ⊢
  rw [Place.advance_of_line_eq hline]

/-- No place lies further than the text has bytes. -/
theorem place_le (text : List Char) (offset : Nat) :
    (place text offset).line + (place text offset).character ≤ byteLength text := by
  have h := Place.advance_le ⟨0, 0⟩ offset text
  rwa [Nat.zero_add, Nat.zero_add] at h

/-! ## Places in words -/

/-- The line and the column of the place are words. -/
def Place.Fits (p : Place) : Prop :=
  p.line < wordSize ∧ p.character < wordSize

theorem Place.toPlace_toPosition (p : Place) :
    p.toPosition.toPlace = ⟨p.line % wordSize, p.character % wordSize⟩ := by
  have hword : ∀ n : Nat, (UInt32.ofNat n).toNat = n % wordSize := fun _ => UInt32.toNat_ofNat'
  rw [toPosition, Position.toPlace, hword, hword]

/-- Numbers that are words get to an editor as they are. -/
theorem Place.Fits.toPlace_toPosition {p : Place} (h : p.Fits) : p.toPosition.toPlace = p := by
  rw [Place.toPlace_toPosition, Nat.mod_eq_of_lt h.1, Nat.mod_eq_of_lt h.2]

variable {text : List Char}

/-- The places of a text of fewer bytes than there are words are all told as they are. -/
theorem place_fits (h : byteLength text < wordSize) (offset : Nat) : (place text offset).Fits := by
  have hle := place_le text offset
  exact ⟨by omega, by omega⟩

theorem toPlace_position (h : byteLength text < wordSize) (offset : Nat) :
    (position text offset).toPlace = place text offset :=
  (place_fits h offset).toPlace_toPosition

/-- Small numbers are the same word only if they are the same. -/
theorem ofNat_eq_ofNat_iff {a b : Nat} (ha : a < wordSize) (hb : b < wordSize) :
    UInt32.ofNat a = UInt32.ofNat b ↔ a = b := by
  rw [← UInt32.toNat_inj, UInt32.toNat_ofNat_of_lt' ha, UInt32.toNat_ofNat_of_lt' hb]

theorem line_position_eq_iff (h : byteLength text < wordSize) (a b : Nat) :
    (position text a).line = (position text b).line
      ↔ (place text a).line = (place text b).line :=
  ofNat_eq_ofNat_iff (place_fits h a).1 (place_fits h b).1

end BimEditor.Text
