/-
  BimEditor.Proofs.Bytes.Position

  Line and column of an offset, found in the bytes of a text: the offset is moved back to the start
  of its character, the line feeds before it are counted, and the characters behind the last of them
  are cut out and counted. That is never refused, for any offset, and gives what walking over the
  characters gives (`lineColumn_eq`).
-/
import BimEditor.Proofs.Bytes.Access
import BimEditor.Text.LineColumn

namespace BimEditor.Bytes

open BimEditor.Text

/-- The last boundary at or before byte `n`. -/
def floorBoundary (text : Bytes) : Nat → Nat
  | 0 => 0
  | n + 1 => if (charsFrom text (n + 1)).isSome then n + 1 else floorBoundary text n

/-- The last byte that satisfies `p`. -/
def findLast (p : UInt8 → Bool) (bytes : List UInt8) : Option Nat :=
  (bytes.reverse.findIdx? p).map (bytes.length - 1 - ·)

/-- Line and column of a byte offset. -/
def lineColumn (text : Bytes) (offset : Nat) : Option LineColumn := do
  let stop := floorBoundary text (min offset (byteLength text))
  let before ← bytesBetween text 0 stop
  let lineStart := ((findLast (isByte '\n') before).map (· + 1)).getD 0
  let piece ← charsBetween text lineStart stop
  return ⟨before.countP (isByte '\n') + 1, piece.length + 1⟩

/-! ## The characters before the offset -/

/-- Taking one more character into account. -/
def stepOver (place : LineColumn) (c : Char) : LineColumn :=
  if c = '\n' then ⟨place.line + 1, 1⟩ else ⟨place.line, place.column + 1⟩

theorem advance_eq (place : LineColumn) (offset : Nat) (text : List Char) :
    place.advance offset text = (takeBytes offset text).foldl stepOver place := by
  induction text generalizing place offset with
  | nil => rfl
  | cons c text ih =>
    rw [LineColumn.advance, takeBytes]
    by_cases hfits : c.utf8Size ≤ offset
    · rw [if_neg (Nat.not_lt_of_le hfits), if_pos hfits, List.foldl_cons]
      unfold stepOver
      split
      · exact ih _ _
      · exact ih _ _
    · rw [if_pos (Nat.lt_of_not_le hfits), if_neg hfits]
      rfl

theorem foldl_stepOver_line (place : LineColumn) (s : List Char) :
    (s.foldl stepOver place).line = place.line + s.countP (· == '\n') := by
  induction s generalizing place with
  | nil => rfl
  | cons c s ih =>
    rw [List.foldl_cons, ih, List.countP_cons]
    unfold stepOver
    by_cases hc : c = '\n'
    · rw [if_pos hc, if_pos (beq_iff_eq.2 hc)]
      dsimp only
      omega
    · rw [if_neg hc, if_neg (by simpa using hc)]
      dsimp only
      omega

/-- On one line the column grows with every character. -/
theorem foldl_stepOver_column (place : LineColumn) {s : List Char} (hs : '\n' ∉ s) :
    (s.foldl stepOver place).column = place.column + s.length := by
  induction s generalizing place with
  | nil => rfl
  | cons c s ih =>
    simp only [List.mem_cons, not_or] at hs
    rw [List.foldl_cons, ih _ hs.2, stepOver, if_neg (Ne.symm hs.1), List.length_cons]
    dsimp only
    omega

/-- Every text ends with a line that has no line feed in it. -/
theorem exists_lastLine (s : List Char) :
    ∃ front last, s = front ++ last ∧ '\n' ∉ last ∧ (front = [] ∨ ∃ f, front = f ++ ['\n']) := by
  induction s with
  | nil => exact ⟨[], [], rfl, by simp, .inl rfl⟩
  | cons c s ih =>
    obtain ⟨front, last, rfl, hlast, hfront⟩ := ih
    rcases hfront with rfl | ⟨f, rfl⟩
    · by_cases hc : c = '\n'
      · exact ⟨['\n'], last, by rw [hc]; rfl, hlast, .inr ⟨[], rfl⟩⟩
      · exact ⟨[], c :: last, rfl, by simp [hlast, Ne.symm hc], .inl rfl⟩
    · exact ⟨c :: (f ++ ['\n']), last, rfl, hlast, .inr ⟨c :: f, rfl⟩⟩

/-- The line counts the line feeds, and the column the characters behind the last of them. -/
theorem foldl_stepOver_lastLine {front last : List Char} (hlast : '\n' ∉ last)
    (hfront : front = [] ∨ ∃ f, front = f ++ ['\n']) :
    (front ++ last).foldl stepOver ⟨1, 1⟩
      = ⟨(front ++ last).count '\n' + 1, last.length + 1⟩ := by
  have hline : ((front ++ last).foldl stepOver ⟨1, 1⟩).line = (front ++ last).count '\n' + 1 := by
    rw [foldl_stepOver_line]
    exact Nat.add_comm 1 _
  have hcolumn : ((front ++ last).foldl stepOver ⟨1, 1⟩).column = last.length + 1 := by
    rw [List.foldl_append, foldl_stepOver_column _ hlast, Nat.add_comm]
    -- the last line begins at the first column
    rcases hfront with rfl | ⟨f, rfl⟩
    · rfl
    · rw [List.foldl_append]
      rfl
  rw [← hline, ← hcolumn]

/-! ## The last boundary -/

theorem le_of_isBoundary {text : List Char} {i n : Nat} (h : IsBoundary text i) (hle : i ≤ n) :
    i ≤ byteLength (takeBytes n text) := by
  obtain ⟨before, after, rfl, rfl⟩ := h
  rw [takeBytes_append_of_le hle, byteLength_append]
  omega

theorem floorBoundary_eq {text : List Char} {k n : Nat} (hk : IsBoundary text k) (hle : k ≤ n)
    (hlast : ∀ i, IsBoundary text i → i ≤ n → i ≤ k) : floorBoundary text n = k := by
  induction n with
  | zero => exact (Nat.le_zero.1 hle).symm
  | succ n ih =>
    rw [floorBoundary]
    split
    · next hsome =>
      have := hlast (n + 1) (isSome_charsFrom_iff.1 hsome) (Nat.le_refl _)
      omega
    · next hnone =>
      have hne : k ≠ n + 1 := by
        rintro rfl
        exact hnone (isSome_charsFrom_iff.2 hk)
      exact ih (by omega) fun i hi hin => hlast i hi (by omega)

theorem floorBoundary_min (text : List Char) (offset : Nat) :
    floorBoundary text (min offset (byteLength text)) = byteLength (takeBytes offset text) := by
  obtain ⟨after, hafter⟩ := takeBytes_isPrefix offset text
  have hle := byteLength_takeBytes_le offset text
  have hlength := congrArg byteLength hafter
  rw [byteLength_append] at hlength
  refine floorBoundary_eq ⟨_, after, hafter.symm, rfl⟩ (by omega) fun i hi hin => ?_
  exact le_of_isBoundary hi (by omega)

/-! ## The last line feed -/

theorem byteClass_lineFeed : ByteClass (isByte '\n') (· == '\n') :=
  .single (by decide)

theorem countP_utf8Bytes {p : UInt8 → Bool} {q : Char → Bool} (h : ByteClass p q) (s : List Char) :
    (utf8Bytes s).countP p = s.countP q := by
  induction s with
  | nil => rfl
  | cons c s ih =>
    rw [utf8Bytes_cons, List.countP_append, ih, List.countP_cons]
    cases hc : q c with
    | true =>
      obtain ⟨hencode, hp⟩ := h.encode_some hc
      rw [hencode, List.countP_singleton, if_pos hp, if_pos rfl, Nat.add_comm]
    | false =>
      rw [List.countP_eq_zero.2, if_neg Bool.false_ne_true, Nat.zero_add, Nat.add_zero]
      intro b hb
      rw [h.encode_none hc hb]
      exact Bool.false_ne_true

/-- Behind the last line feed the last line starts. -/
theorem findLast_lineFeed {front last : List Char} (hlast : '\n' ∉ last)
    (hfront : front = [] ∨ ∃ f, front = f ++ ['\n']) :
    ((findLast (isByte '\n') (utf8Bytes (front ++ last))).map (· + 1)).getD 0
      = byteLength front := by
  have hnone : ∀ b ∈ (utf8Bytes last).reverse, isByte '\n' b = false := by
    intro b hb
    refine byteClass_lineFeed.utf8Bytes_none ?_ (List.mem_reverse.1 hb)
    intro x hx
    rw [beq_eq_false_iff_ne]
    rintro rfl
    exact hlast hx
  rcases hfront with rfl | ⟨f, rfl⟩
  · rw [List.nil_append, findLast, List.findIdx?_eq_none_iff.2 hnone]
    rfl
  · have hfeed : utf8Bytes ['\n'] = [10] := rfl
    have hfound : isByte '\n' 10 = true := rfl
    -- seen from the end, the line feed comes right behind the last line
    rw [findLast, utf8Bytes_append, utf8Bytes_append, hfeed, List.reverse_append,
      List.reverse_append, List.reverse_singleton, List.singleton_append, List.findIdx?_append,
      List.findIdx?_eq_none_iff.2 hnone, Option.none_or, List.findIdx?_cons, if_pos hfound]
    simp only [Option.map_some, Option.getD_some, Nat.zero_add, List.length_reverse,
      List.length_append, List.length_singleton, length_utf8Bytes, byteLength_append]
    show _ = byteLength f + 1
    omega

/-- Line and column of every offset are found. -/
theorem lineColumn_eq (text : List Char) (offset : Nat) :
    lineColumn text offset = some (Text.lineColumn text offset) := by
  obtain ⟨after, hafter⟩ := takeBytes_isPrefix offset text
  obtain ⟨front, last, hpre, hlast, hfront⟩ := exists_lastLine (takeBytes offset text)
  have hstart : In text (.atStart text) := in_atStart text
  have hfrontPass : (Cursor.atStart text).Passes front ⟨byteLength front, last ++ after⟩ := by
    refine ⟨?_, (Nat.zero_add _).symm⟩
    rw [← List.append_assoc, ← hpre, hafter]
    rfl
  have hlastPass : Cursor.Passes ⟨byteLength front, last ++ after⟩ last
      ⟨byteLength (front ++ last), after⟩ := ⟨rfl, byteLength_append _ _⟩
  have hbytes : bytesBetween text 0 (byteLength (front ++ last))
      = some (utf8Bytes (front ++ last)) :=
    hstart.bytesBetween_eq (hfrontPass.trans hlastPass)
  have hchars : charsBetween text (byteLength front) (byteLength (front ++ last)) = some last :=
    (hstart.passes hfrontPass).charsBetween_eq hlastPass
  rw [lineColumn, floorBoundary_min, hpre, hbytes]
  simp only [Option.bind_eq_bind, Option.bind_some, findLast_lineFeed hlast hfront, hchars,
    countP_utf8Bytes byteClass_lineFeed]
  rw [Text.lineColumn, advance_eq, hpre, foldl_stepOver_lastLine hlast hfront]
  rfl

end BimEditor.Bytes
