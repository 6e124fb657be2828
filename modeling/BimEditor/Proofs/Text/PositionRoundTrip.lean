/-
  BimEditor.Proofs.Text.PositionRoundTrip

  From an offset to its position and back. What stands before an offset is some whole lines and the
  beginning of a further one (`exists_lines`). The place counts the lines, and the code units of
  that beginning (`place_lines`); the way back finds the same line and cuts the same beginning out
  of its content. Only a carriage return before a line feed is not part of that content, so an
  offset between the two comes back one byte earlier (`placeOffset?_place`).

  A position is a place in words. Where the place does not fit, an editor is told of an earlier line
  or of an earlier column of the line, and the way back ends at an earlier offset. So an offset
  comes back exactly if its place fits (`offset?_position_eq_iff`).
-/
import BimEditor.Proofs.Text.PositionOrder

namespace BimEditor.Text

/-! ## Lines -/

/-- No character of the piece is the last one of its line, with `rest` behind the piece. -/
def Unbroken (rest : List Char) : List Char → Prop
  | [] => True
  | c :: s => endsLine c (s ++ rest) = false ∧ Unbroken rest s

/-- The piece is `n` whole lines, with `rest` behind them. -/
inductive Lines (rest : List Char) : Nat → List Char → Prop
  | none : Lines rest 0 []
  | more {n : Nat} {line lines : List Char} {c : Char} :
    Unbroken (c :: (lines ++ rest)) line → endsLine c (lines ++ rest) = true → Lines rest n lines →
      Lines rest (n + 1) (line ++ c :: lines)

/-- A character that ends no line belongs to the first of the lines behind it. -/
theorem Lines.cons {rest lines : List Char} {n : Nat} {c : Char} (h : Lines rest (n + 1) lines)
    (hc : endsLine c (lines ++ rest) = false) : Lines rest (n + 1) (c :: lines) := by
  cases h with
  | @more n line lines e hline he hlines =>
    rw [List.append_assoc] at hc
    have hfirst : Unbroken (e :: (lines ++ rest)) (c :: line) := ⟨hc, hline⟩
    exact .more hfirst he hlines

/-- What stands before a place is some whole lines and the beginning of the line of that place. -/
theorem exists_lines (before after : List Char) : ∃ n lines last, before = lines ++ last
    ∧ Lines (last ++ after) n lines ∧ Unbroken after last := by
  induction before with
  | nil => exact ⟨0, [], [], rfl, .none, trivial⟩
  | cons c before ih =>
    obtain ⟨n, lines, last, rfl, hlines, hlast⟩ := ih
    by_cases hc : endsLine c (lines ++ (last ++ after)) = true
    · have hnone : Unbroken (c :: (lines ++ (last ++ after))) [] := trivial
      exact ⟨n + 1, c :: lines, last, rfl, .more hnone hc hlines, hlast⟩
    · rw [Bool.not_eq_true] at hc
      cases n with
      | zero =>
        cases hlines
        exact ⟨0, [], c :: last, rfl, .none, hc, hlast⟩
      | succ n => exact ⟨n + 1, c :: lines, last, rfl, hlines.cons hc, hlast⟩

/-- The last character of whole lines ends one of them. -/
theorem Lines.endsLine_last {rest before lines : List Char} {n : Nat} {c : Char}
    (h : Lines rest n lines) (hlast : lines = before ++ [c]) : endsLine c rest = true := by
  induction h generalizing before with
  | none => simp at hlast
  | @more n line lines e hline he hlines ih =>
    rcases List.eq_nil_or_concat lines with rfl | ⟨lines, d, rfl⟩
    · obtain rfl : e = c := by simpa using (List.append_inj' hlast rfl).2
      exact he
    · rw [List.concat_eq_append, ← List.cons_append, ← List.append_assoc] at hlast
      obtain rfl : d = c := by simpa using (List.append_inj' hlast rfl).2
      exact ih (List.concat_eq_append ..)

theorem Unbroken.lineFeed_notMem {rest s : List Char} (h : Unbroken rest s) : '\n' ∉ s := by
  induction s with
  | nil => exact List.not_mem_nil
  | cons c s ih =>
    rw [List.mem_cons, not_or]
    refine ⟨?_, ih h.2⟩
    rintro rfl
    cases h.1

/-! ## The way to the place -/

theorem advance_unbroken {rest s : List Char} (h : Unbroken rest s) (l units k : Nat) :
    Place.advance ⟨l, units⟩ (byteLength s + k) (s ++ rest)
      = Place.advance ⟨l, units + unitLength s⟩ k rest := by
  induction s generalizing units with
  | nil =>
    rw [byteLength_nil, Nat.zero_add]
    rfl
  | cons c s ih =>
    rw [List.cons_append, byteLength_cons, Place.advance_cons_of_le (by omega), Place.after,
      if_neg (by rw [h.1]; decide), Nat.add_assoc, Nat.add_sub_cancel_left, ih h.2,
      unitLength_cons, Nat.add_assoc]

theorem Lines.advance {rest lines : List Char} {n : Nat} (h : Lines rest n lines) (l k : Nat) :
    Place.advance ⟨l, 0⟩ (byteLength lines + k) (lines ++ rest)
      = Place.advance ⟨l + n, 0⟩ k rest := by
  induction h generalizing l with
  | none =>
    rw [byteLength_nil, Nat.zero_add]
    rfl
  | @more n line lines c hline hc hlines ih =>
    rw [List.append_assoc, List.cons_append, byteLength_append, byteLength_cons, Nat.add_assoc,
      advance_unbroken hline, Nat.add_assoc, Place.advance_cons_of_le (by omega),
      Place.after, if_pos hc, Nat.add_sub_cancel_left, ih, Nat.add_assoc, Nat.add_comm 1]

/-- The place of an offset: the number of lines before it, and the code units of its line. -/
theorem place_lines {lines last after : List Char} {n : Nat}
    (hlines : Lines (last ++ after) n lines) (hlast : Unbroken after last) :
    place (lines ++ last ++ after) (byteLength (lines ++ last)) = ⟨n, unitLength last⟩ := by
  have hbegin := hlines.advance 0 (byteLength last)
  have hline := advance_unbroken hlast n 0 0
  rw [Nat.add_zero, Place.advance_zero] at hline
  rw [place, List.append_assoc, byteLength_append, hbegin, Nat.zero_add, hline, Nat.zero_add]

/-! ## The way back -/

theorem lineStart?_unbroken {c : Char} {s line : List Char} (hline : Unbroken (c :: s) line)
    (hc : endsLine c s = true) (n here : Nat) :
    lineStart? (n + 1) here (line ++ c :: s)
      = lineStart? n (here + byteLength line + c.utf8Size) s := by
  induction line generalizing here with
  | nil =>
    rw [List.nil_append, lineStart?, if_neg (by omega), if_pos hc]
    rfl
  | cons x line ih =>
    rw [List.cons_append, lineStart?, if_neg (by omega), if_neg (by rw [hline.1]; decide),
      ih hline.2, byteLength_cons, Nat.add_assoc here]

theorem lineStart?_zero (here : Nat) (s : List Char) : lineStart? 0 here s = some ⟨here, s⟩ := by
  cases s <;> rfl

/-- Behind `n` whole lines starts the line number `n`. -/
theorem Lines.lineStart? {rest lines : List Char} {n : Nat} (h : Lines rest n lines)
    (here : Nat) :
    lineStart? n here (lines ++ rest) = some ⟨here + byteLength lines, rest⟩ := by
  induction h generalizing here with
  | none => exact lineStart?_zero here rest
  | @more n line lines c hline hc hlines ih =>
    rw [List.append_assoc, List.cons_append, lineStart?_unbroken hline hc, ih, byteLength_append,
      byteLength_cons, Nat.add_assoc, Nat.add_assoc]

theorem firstLine_unbroken {rest s : List Char} (h : Unbroken rest s) :
    firstLine (s ++ rest) = s ++ firstLine rest := by
  induction s with
  | nil => rfl
  | cons c s ih =>
    rw [List.cons_append, firstLine, if_neg (by rw [h.1]; decide), ih h.2, List.cons_append]

/-- What ends with a line feed is without that and a carriage return before it. -/
theorem lineContent_concat_lineFeed (s : List Char) :
    lineContent (s ++ ['\n']) = if s.getLast? = some '\r' then s.dropLast else s := by
  rcases List.eq_nil_or_concat s with rfl | ⟨s, c, rfl⟩
  · rfl
  · by_cases hc : c = '\r'
    · subst hc
      simp [lineContent]
    · simp [lineContent, hc]

theorem lineContent_of_getLast?_ne {s : List Char} (h : s.getLast? ≠ some '\n') :
    lineContent s = s := by
  rcases List.eq_nil_or_concat s with rfl | ⟨s, c, rfl⟩
  · rfl
  · have hc : c ≠ '\n' := by simpa using h
    simp [lineContent, hc]

/-- The content of a line goes on with all of its beginning, unless the place behind that is
    between a carriage return and a line feed. -/
theorem exists_lineContent_eq {last line : List Char} (hlast : '\n' ∉ last)
    (hsplit : ¬ (last.getLast? = some '\r' ∧ line.head? = some '\n')) :
    ∃ more, lineContent (last ++ line) = last ++ more := by
  rcases List.eq_nil_or_concat line with rfl | ⟨line, c, rfl⟩
  · refine ⟨[], lineContent_of_getLast?_ne ?_⟩
    rw [List.append_nil]
    exact fun h => hlast (List.mem_of_getLast? h)
  · by_cases hc : c = '\n'
    · subst hc
      rw [List.concat_eq_append, ← List.append_assoc, lineContent_concat_lineFeed]
      split
      next hreturn =>
        rcases List.eq_nil_or_concat line with rfl | ⟨line, d, rfl⟩
        · exact absurd ⟨by simpa using hreturn, rfl⟩ hsplit
        · refine ⟨line, ?_⟩
          rw [List.concat_eq_append, ← List.append_assoc, List.dropLast_concat]
      next => exact ⟨line, rfl⟩
    · refine ⟨line ++ [c], ?_⟩
      rw [List.concat_eq_append, lineContent_of_getLast?_ne]
      simpa [← List.append_assoc] using hc

theorem bytesOfUnits_append {k : Nat} (s t : List Char) :
    bytesOfUnits (unitLength s + k) (s ++ t) = byteLength s + bytesOfUnits k t := by
  induction s with
  | nil =>
    rw [unitLength_nil, Nat.zero_add, byteLength_nil, Nat.zero_add]
    rfl
  | cons c s ih =>
    rw [List.cons_append, bytesOfUnits, unitLength_cons, if_neg (by omega), Nat.add_assoc,
      Nat.add_sub_cancel_left, ih, byteLength_cons, Nat.add_assoc]

theorem bytesOfUnits_zero (s : List Char) : bytesOfUnits 0 s = 0 := by
  cases s with
  | nil => rfl
  | cons c s => rw [bytesOfUnits, if_pos (unitSize_pos c)]

/-- The offset behind `before`. Between a carriage return and a line feed, which are one line
    break, it is the offset before the two. -/
def outsideBreak (before after : List Char) : Nat :=
  if before.getLast? = some '\r' ∧ after.head? = some '\n' then byteLength before - 1
  else byteLength before

/-- The bytes of the line that a column of it stands for. -/
theorem bytesOfUnits_lineContent {last after : List Char} (hlast : Unbroken after last) :
    bytesOfUnits (unitLength last) (lineContent (firstLine (last ++ after)))
      = outsideBreak last after := by
  rw [firstLine_unbroken hlast, outsideBreak]
  split
  next hsplit =>
    obtain ⟨hreturn, hfeed⟩ := hsplit
    obtain ⟨after, rfl⟩ := List.head?_eq_some_iff.1 hfeed
    obtain ⟨last, rfl⟩ := List.getLast?_eq_some_iff.1 hreturn
    -- the content ends before the carriage return, whose code unit is too much for it
    have hcontent : lineContent (last ++ ['\r'] ++ firstLine ('\n' :: after)) = last := by
      show lineContent (last ++ ['\r'] ++ ['\n']) = last
      rw [lineContent_concat_lineFeed, if_pos (List.getLast?_concat ..), List.dropLast_concat]
    have hbytes := bytesOfUnits_append (k := unitLength ['\r']) last []
    rw [List.append_nil] at hbytes
    rw [hcontent, unitLength_append, hbytes, byteLength_append]
    rfl
  next hsplit =>
    have hhead : (firstLine after).head? = after.head? := by
      cases after with
      | nil => rfl
      | cons c after =>
        rw [firstLine]
        split <;> rfl
    rw [← hhead] at hsplit
    obtain ⟨more, hmore⟩ := exists_lineContent_eq hlast.lineFeed_notMem hsplit
    have hbytes := bytesOfUnits_append (k := 0) last more
    rwa [bytesOfUnits_zero, Nat.add_zero, Nat.add_zero, ← hmore] at hbytes

/-! ## There and back -/

/-- A carriage return before a line feed belongs to the line that both of them end. -/
theorem getLast?_eq_return_iff {lines last after : List Char} {n : Nat}
    (hlines : Lines (last ++ after) n lines) (hfeed : after.head? = some '\n') :
    (lines ++ last).getLast? = some '\r' ↔ last.getLast? = some '\r' := by
  rcases List.eq_nil_or_concat last with rfl | ⟨last, c, rfl⟩
  · refine ⟨fun hreturn => ?_, fun hreturn => nomatch hreturn⟩
    rw [List.append_nil] at hreturn
    obtain ⟨before, hbefore⟩ := List.getLast?_eq_some_iff.1 hreturn
    have hends := hlines.endsLine_last hbefore
    simp [endsLine, hfeed] at hends
  · rw [List.concat_eq_append, ← List.append_assoc, List.getLast?_concat, List.getLast?_concat]

/-- Whole lines before an offset change nothing about the line break that it may be in. -/
theorem Lines.outsideBreak_append {lines last after : List Char} {n : Nat}
    (h : Lines (last ++ after) n lines) :
    outsideBreak (lines ++ last) after = byteLength lines + outsideBreak last after := by
  rw [outsideBreak, outsideBreak, byteLength_append]
  by_cases hfeed : after.head? = some '\n'
  · simp only [getLast?_eq_return_iff h hfeed]
    split
    next hsplit =>
      obtain ⟨last, rfl⟩ := List.getLast?_eq_some_iff.1 hsplit.1
      have hsize : byteLength ['\r'] = 1 := rfl
      rw [byteLength_append]
      omega
    next => rfl
  · rw [if_neg (fun h => hfeed h.2), if_neg (fun h => hfeed h.2)]

/-- The offset of a column of a line: the lines before it, and what the column stands for in the
    line's content. -/
theorem Lines.placeOffset?_eq {lines rest : List Char} {n : Nat} (h : Lines rest n lines)
    (column : Nat) :
    placeOffset? (lines ++ rest) ⟨n, column⟩
      = some (byteLength lines + bytesOfUnits column (lineContent (firstLine rest))) := by
  rw [placeOffset?, h.lineStart?, Nat.zero_add, Option.map_some]

/-- Every offset between two characters comes back from its place, unless it splits a line break. -/
theorem placeOffset?_place (before after : List Char) :
    placeOffset? (before ++ after) (place (before ++ after) (byteLength before))
      = some (outsideBreak before after) := by
  obtain ⟨n, lines, last, rfl, hlines, hlast⟩ := exists_lines before after
  rw [place_lines hlines hlast, List.append_assoc, hlines.placeOffset?_eq,
    bytesOfUnits_lineContent hlast, hlines.outsideBreak_append]

/-! ## Earlier lines and earlier columns -/

theorem bytesOfUnits_le (units : Nat) (s : List Char) : bytesOfUnits units s ≤ byteLength s := by
  induction s generalizing units with
  | nil => exact Nat.le_refl _
  | cons c s ih =>
    rw [bytesOfUnits, byteLength_cons]
    split
    · exact Nat.zero_le _
    · exact Nat.add_le_add_left (ih _) _

/-- A column stands for no fewer bytes in a longer line. -/
theorem bytesOfUnits_le_append (units : Nat) (s t : List Char) :
    bytesOfUnits units s ≤ bytesOfUnits units (s ++ t) := by
  induction s generalizing units with
  | nil => exact Nat.zero_le _
  | cons c s ih =>
    rw [List.cons_append, bytesOfUnits, bytesOfUnits]
    split
    · exact Nat.le_refl _
    · exact Nat.add_le_add_left (ih _) _

/-- A column within a piece of the content leads into that piece. -/
theorem bytesOfUnits_append_of_le {units : Nat} {s : List Char} (h : units ≤ unitLength s)
    (t : List Char) : bytesOfUnits units (s ++ t) = bytesOfUnits units s := by
  induction s generalizing units with
  | nil =>
    obtain rfl := Nat.le_zero.1 h
    exact bytesOfUnits_zero t
  | cons c s ih =>
    rw [unitLength_cons] at h
    rw [List.cons_append, bytesOfUnits, bytesOfUnits, ih (by omega)]

theorem unitLength_le_byteLength (s : List Char) : unitLength s ≤ byteLength s := by
  induction s with
  | nil => exact Nat.le_refl _
  | cons c s ih =>
    rw [unitLength_cons, byteLength_cons]
    exact Nat.add_le_add (unitSize_le_utf8Size c) ih

/-- The columns that a piece is cut off by take at least as many bytes with them. -/
theorem bytesOfUnits_add_unitLength_le {units : Nat} {s : List Char} (h : units ≤ unitLength s) :
    bytesOfUnits units s + unitLength s ≤ byteLength s + units := by
  induction s generalizing units with
  | nil => exact Nat.zero_le _
  | cons c s ih =>
    have hsize := unitSize_le_utf8Size c
    rw [unitLength_cons] at h ⊢
    rw [bytesOfUnits, byteLength_cons]
    split
    next =>
      -- nothing of the piece is left, and no part of it has more code units than bytes
      have hrest := unitLength_le_byteLength s
      omega
    next =>
      have hrest := ih (show units - unitSize c ≤ unitLength s by omega)
      omega

/-- A line starts with its content. -/
theorem exists_eq_lineContent_append (line : List Char) :
    ∃ ending, line = lineContent line ++ ending := by
  rcases List.eq_nil_or_concat line with rfl | ⟨s, c, rfl⟩
  · exact ⟨[], rfl⟩
  · rw [List.concat_eq_append]
    by_cases hc : c = '\n'
    · subst hc
      rw [lineContent_concat_lineFeed]
      split
      next hreturn =>
        obtain ⟨s, rfl⟩ := List.getLast?_eq_some_iff.1 hreturn
        exact ⟨['\r', '\n'], by rw [List.dropLast_concat, List.append_assoc]; rfl⟩
      next => exact ⟨['\n'], rfl⟩
    · refine ⟨[], ?_⟩
      rw [List.append_nil, lineContent_of_getLast?_ne]
      simpa using hc

/-- An earlier column of the line stands for fewer bytes, by as many columns as it is earlier. -/
theorem bytesOfUnits_lineContent_le {last after : List Char} (hlast : Unbroken after last)
    {column : Nat} (h : column ≤ unitLength last) :
    bytesOfUnits column (lineContent (firstLine (last ++ after))) + unitLength last
      ≤ byteLength last + column := by
  obtain ⟨ending, hline⟩ := exists_eq_lineContent_append (firstLine (last ++ after))
  have hcontent := bytesOfUnits_le_append column (lineContent (firstLine (last ++ after))) ending
  rw [← hline, firstLine_unbroken hlast, bytesOfUnits_append_of_le h] at hcontent
  rw [firstLine_unbroken hlast]
  have hlast := bytesOfUnits_add_unitLength_le h
  omega

theorem Lines.length_le {rest lines : List Char} {n : Nat} (h : Lines rest n lines) :
    n ≤ byteLength lines := by
  induction h with
  | none => exact Nat.le_refl _
  | @more n line lines c _ _ _ ih =>
    have hpos := c.utf8Size_pos
    rw [byteLength_append, byteLength_cons]
    omega

/-- The lines before a place start one after another, each with its characters before the next. -/
theorem Lines.exists_lineStart? {rest lines : List Char} {n m : Nat} (h : Lines rest n lines)
    (hm : m < n) (here : Nat) :
    ∃ start, Text.lineStart? m here (lines ++ rest) = some start
      ∧ start.offset + byteLength (firstLine start.rest) + n
        ≤ here + byteLength lines + (m + 1) := by
  induction h generalizing m here with
  | none => omega
  | @more n line lines c hline hc hlines ih =>
    rw [List.append_assoc, List.cons_append, byteLength_append, byteLength_cons]
    cases m with
    | zero =>
      -- the `n` lines behind the first one have at least as many bytes
      have hfirst : firstLine (line ++ c :: (lines ++ rest)) = line ++ [c] := by
        rw [firstLine_unbroken hline, firstLine, if_pos hc]
      have hlength := hlines.length_le
      refine ⟨_, lineStart?_zero here _, ?_⟩
      dsimp only
      rw [hfirst, byteLength_append, byteLength_cons, byteLength_nil]
      omega
    | succ m =>
      rw [lineStart?_unbroken hline hc]
      obtain ⟨start, hstart, hle⟩ := ih (Nat.lt_of_succ_lt_succ hm)
        (here + byteLength line + c.utf8Size)
      exact ⟨start, hstart, by omega⟩

/-- A place on an earlier line has an earlier offset. -/
theorem Lines.placeOffset?_lt {rest lines : List Char} {n m : Nat} (h : Lines rest n lines)
    (hm : m < n) (column : Nat) :
    ∃ offset, placeOffset? (lines ++ rest) ⟨m, column⟩ = some offset
      ∧ offset + n ≤ byteLength lines + (m + 1) := by
  obtain ⟨start, hstart, hle⟩ := h.exists_lineStart? hm 0
  refine ⟨start.offset + bytesOfUnits column (lineContent (firstLine start.rest)),
    by rw [placeOffset?, hstart, Option.map_some], ?_⟩
  obtain ⟨ending, hline⟩ := exists_eq_lineContent_append (firstLine start.rest)
  have hcontent : byteLength (lineContent (firstLine start.rest))
      ≤ byteLength (firstLine start.rest) := by
    conv => rhs; rw [hline]
    rw [byteLength_append]
    exact Nat.le_add_right _ _
  have hcolumn := bytesOfUnits_le column (lineContent (firstLine start.rest))
  omega

/-! ## There and back in words -/

theorem byteLength_le_outsideBreak (before after : List Char) :
    byteLength before ≤ outsideBreak before after + 1 := by
  rw [outsideBreak]
  split <;> omega

/-- A place that does not fit is told as an earlier one, and that one has an earlier offset. -/
theorem exists_lt_of_not_fits {before after : List Char}
    (hfits : ¬ (place (before ++ after) (byteLength before)).Fits) :
    ∃ offset < outsideBreak before after,
      offset? (before ++ after) (position (before ++ after) (byteLength before))
        = some offset := by
  obtain ⟨n, lines, last, rfl, hlines, hlast⟩ := exists_lines before after
  have hexpected := byteLength_le_outsideBreak last after
  rw [place_lines hlines hlast, Place.Fits] at hfits
  rw [offset?, position, place_lines hlines hlast, Place.toPlace_toPosition, List.append_assoc,
    hlines.outsideBreak_append]
  dsimp only at hfits ⊢
  unfold wordSize at hfits ⊢
  by_cases hn : n < 4294967296
  · -- the line is told as it is, and the column as an earlier one
    rw [Nat.mod_eq_of_lt hn, hlines.placeOffset?_eq]
    have hcolumn : unitLength last % 4294967296 ≤ unitLength last := Nat.mod_le ..
    have hle := bytesOfUnits_lineContent_le hlast hcolumn
    exact ⟨_, by omega, rfl⟩
  · -- the line is told as an earlier one, all of which is before this line
    obtain ⟨offset, hoffset, hle⟩ := hlines.placeOffset?_lt
      (show n % 4294967296 < n by omega) (unitLength last % 4294967296)
    exact ⟨offset, by omega, hoffset⟩

/-- An offset between two characters comes back from its position exactly if its place fits in
    words, and otherwise as an earlier one. -/
theorem offset?_position_eq_iff (before after : List Char) :
    ∃ offset ≤ outsideBreak before after,
      offset? (before ++ after) (position (before ++ after) (byteLength before)) = some offset
        ∧ (offset = outsideBreak before after
          ↔ (place (before ++ after) (byteLength before)).Fits) := by
  by_cases hfits : (place (before ++ after) (byteLength before)).Fits
  · refine ⟨_, Nat.le_refl _, ?_, iff_of_true rfl hfits⟩
    rw [offset?, position, hfits.toPlace_toPosition, placeOffset?_place]
  · obtain ⟨offset, hlt, hoffset⟩ := exists_lt_of_not_fits hfits
    exact ⟨offset, Nat.le_of_lt hlt, hoffset, iff_of_false (Nat.ne_of_lt hlt) hfits⟩

/-- In a text of fewer bytes than there are words every offset comes back. -/
theorem offset?_position_of_lt {before after : List Char}
    (h : byteLength (before ++ after) < wordSize) :
    offset? (before ++ after) (position (before ++ after) (byteLength before))
      = some (outsideBreak before after) := by
  rw [offset?, toPlace_position h, placeOffset?_place]

theorem lines_lineFeeds (n : Nat) : Lines [] n (List.replicate n '\n') := by
  induction n with
  | zero => exact .none
  | succ n ih =>
    have hnone : Unbroken ('\n' :: (List.replicate n '\n' ++ [])) [] := trivial
    exact .more hnone rfl ih

theorem byteLength_lineFeeds (n : Nat) : byteLength (List.replicate n '\n') = n := by
  induction n with
  | zero => rfl
  | succ n ih =>
    have hsize : '\n'.utf8Size = 1 := by decide
    rw [List.replicate_succ, byteLength_cons, ih, hsize, Nat.add_comm]

theorem place_lineFeeds (n : Nat) : place (List.replicate n '\n') n = ⟨n, 0⟩ := by
  have hnone : Unbroken [] [] := trivial
  have hend : place (List.replicate n '\n' ++ [] ++ []) (byteLength (List.replicate n '\n' ++ []))
      = ⟨n, unitLength []⟩ := place_lines (lines_lineFeeds n) hnone
  rwa [List.append_nil, List.append_nil, byteLength_lineFeeds] at hend

/-- The end of as many line feeds as there are words: its line is told as the first one. -/
theorem not_forall_offset?_position :
    ¬ ∀ before after : List Char,
      offset? (before ++ after) (position (before ++ after) (byteLength before))
        = some (outsideBreak before after) := by
  intro hall
  have hback := hall (List.replicate wordSize '\n') []
  have hfirst : (Place.mk wordSize 0).toPosition.toPlace = ⟨0, 0⟩ := by decide
  rw [List.append_nil, byteLength_lineFeeds, offset?, position, place_lineFeeds, hfirst,
    placeOffset?, lineStart?_zero, Option.map_some, bytesOfUnits_zero, outsideBreak,
    if_neg (fun h => nomatch h.2), byteLength_lineFeeds] at hback
  exact absurd hback (by decide)

end BimEditor.Text
