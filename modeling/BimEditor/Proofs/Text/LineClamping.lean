/-
  BimEditor.Proofs.Text.LineClamping

  Whether a position stays on its line. A line is what it shows and the line break behind that,
  which only the last line of a text is without (`IsLine`); every number below the number of lines
  has its line (`exists_isLine`).

  A column within what a line shows has its offset there, before the line break. A column past that
  is taken back to the end of the line's content, and the content goes without a line feed, alone or
  behind a carriage return, but with any other line break. So behind a line that ends in another way
  such a column leads to the next line (`line_position_offset?_iff`).
-/
import BimEditor.Proofs.Text.PositionRoundTrip

namespace BimEditor.Text

/-! ## The parts of a line -/

/-- The line break of a line with `after` behind it: one character, or a carriage return with its
    line feed. The last line of a text has none. -/
inductive LineEnding : List Char → List Char → Prop where
  | none : LineEnding [] []
  | single {c : Char} {after : List Char} : endsLine c after = true → LineEnding [c] after
  | returnFeed {after : List Char} : LineEnding ['\r', '\n'] after

/-- The characters break no line, neither alone nor together. -/
def Shown (s : List Char) : Prop :=
  ∀ c ∈ s, c.toNat ∉ lineBreaks

/-- The line number `n` of the text stands behind `before`: it shows `shown` and ends with
    `ending`. -/
structure IsLine (text : List Char) (n : Nat) (before shown ending after : List Char) : Prop where
  text_eq : text = before ++ (shown ++ (ending ++ after))
  lines_before : Lines (shown ++ (ending ++ after)) n before
  shows : Shown shown
  ends : LineEnding ending after

/-- The line breaks that do not count for the content of a line. -/
def contentEndings : List (List Char) :=
  [[], ['\n'], ['\r', '\n']]

theorem shown_nil : Shown [] := by
  simp [Shown]

theorem endsLine_of_shown {c : Char} (hc : c.toNat ∉ lineBreaks) (rest : List Char) :
    endsLine c rest = false := by
  simp [endsLine, hc]

theorem Shown.unbroken {s : List Char} (h : Shown s) (rest : List Char) : Unbroken rest s := by
  induction s with
  | nil => trivial
  | cons c s ih =>
    obtain ⟨hc, hs⟩ := List.forall_mem_cons.1 h
    exact ⟨endsLine_of_shown hc _, ih hs⟩

theorem Shown.getLast?_ne {s : List Char} (h : Shown s) {c : Char} (hc : c.toNat ∈ lineBreaks) :
    s.getLast? ≠ some c :=
  fun hlast => h c (List.mem_of_getLast? hlast) hc

/-- Before the line number `n` stand `n` whole lines. -/
theorem exists_lines_before {text : List Char} {n : Nat} (h : n < lineCount text) :
    ∃ before rest, text = before ++ rest ∧ Lines rest n before := by
  induction text generalizing n with
  | nil =>
    obtain rfl : n = 0 := Nat.lt_one_iff.1 h
    exact ⟨[], [], rfl, .none⟩
  | cons c text ih =>
    cases n with
    | zero => exact ⟨[], c :: text, rfl, .none⟩
    | succ n =>
      rw [lineCount] at h
      by_cases hc : endsLine c text = true
      · rw [if_pos hc] at h
        obtain ⟨before, rest, rfl, hlines⟩ := ih (show n < lineCount text by omega)
        have hnone : Unbroken (c :: (before ++ rest)) [] := trivial
        exact ⟨c :: before, rest, rfl, .more hnone hc hlines⟩
      · rw [if_neg hc] at h
        obtain ⟨before, rest, rfl, hlines⟩ := ih (show n + 1 < lineCount text by omega)
        exact ⟨c :: before, rest, rfl, hlines.cons (Bool.not_eq_true _ ▸ hc)⟩

/-- A text starts with what its first line shows, and the line break of that. -/
theorem exists_shown (rest : List Char) : ∃ shown ending after,
    rest = shown ++ (ending ++ after) ∧ Shown shown ∧ LineEnding ending after := by
  induction rest with
  | nil => exact ⟨[], [], [], rfl, shown_nil, .none⟩
  | cons c rest ih =>
    by_cases hbreak : c.toNat ∈ lineBreaks
    · by_cases hc : endsLine c rest = true
      · exact ⟨[], [c], rest, rfl, shown_nil, .single hc⟩
      · -- only a carriage return leaves the end of the line to the character behind it
        obtain ⟨rfl, hfeed⟩ : c = '\r' ∧ rest.head? = some '\n' := by
          simpa [endsLine, hbreak] using hc
        obtain ⟨rest, rfl⟩ := List.head?_eq_some_iff.1 hfeed
        exact ⟨[], ['\r', '\n'], rest, rfl, shown_nil, .returnFeed⟩
    · obtain ⟨shown, ending, after, rfl, hshown, hending⟩ := ih
      exact ⟨c :: shown, ending, after, rfl, List.forall_mem_cons.2 ⟨hbreak, hshown⟩, hending⟩

/-- Every number below the number of lines has its line. -/
theorem exists_isLine {text : List Char} {n : Nat} (h : n < lineCount text) :
    ∃ before shown ending after, IsLine text n before shown ending after := by
  obtain ⟨before, rest, rfl, hlines⟩ := exists_lines_before h
  obtain ⟨shown, ending, after, rfl, hshown, hending⟩ := exists_shown rest
  exact ⟨before, shown, ending, after, rfl, hlines, hshown, hending⟩

/-! ## The content of a line -/

theorem LineEnding.firstLine {ending after : List Char} (h : LineEnding ending after) :
    firstLine (ending ++ after) = ending := by
  cases h with
  | none => rfl
  | single hc => rw [List.singleton_append, Text.firstLine, if_pos hc]
  | returnFeed => rfl

theorem lineContent_shown {shown ending : List Char} (hshown : Shown shown)
    (hending : ending ∈ contentEndings) : lineContent (shown ++ ending) = shown := by
  simp only [contentEndings, List.mem_cons, List.not_mem_nil, or_false] at hending
  rcases hending with rfl | rfl | rfl
  · rw [List.append_nil]
    exact lineContent_of_getLast?_ne (hshown.getLast?_ne (by decide))
  · rw [lineContent_concat_lineFeed, if_neg (hshown.getLast?_ne (by decide))]
  · show lineContent (shown ++ (['\r'] ++ ['\n'])) = shown
    rw [← List.append_assoc, lineContent_concat_lineFeed, if_pos (List.getLast?_concat ..),
      List.dropLast_concat]

/-- Any other line break is a single character, and part of the content. -/
theorem LineEnding.of_notMem {ending after : List Char} (h : LineEnding ending after)
    (hending : ending ∉ contentEndings) : ∃ c, ending = [c] ∧ endsLine c after = true
      ∧ ∀ shown, lineContent (shown ++ [c]) = shown ++ [c] := by
  cases h with
  | none => exact absurd (by decide) hending
  | returnFeed => exact absurd (by decide) hending
  | @single c _ hc =>
    refine ⟨c, rfl, hc, fun shown => lineContent_of_getLast?_ne ?_⟩
    rw [List.getLast?_concat]
    rintro ⟨rfl⟩
    exact hending (by decide)

/-! ## Where a column leads -/

/-- A column stands for a beginning of the line, and for all of it if it lies past its end. -/
theorem exists_bytesOfUnits (units : Nat) (s : List Char) : ∃ first rest, s = first ++ rest
    ∧ bytesOfUnits units s = byteLength first ∧ (unitLength s ≤ units → rest = []) := by
  induction s generalizing units with
  | nil => exact ⟨[], [], rfl, rfl, fun _ => rfl⟩
  | cons c s ih =>
    rw [bytesOfUnits]
    split
    next hlt =>
      refine ⟨[], c :: s, rfl, rfl, fun hle => ?_⟩
      rw [unitLength_cons] at hle
      omega
    next hle =>
      obtain ⟨first, rest, rfl, hbytes, hall⟩ := ih (units - unitSize c)
      refine ⟨c :: first, rest, rfl, ?_, fun hlong => hall ?_⟩
      · rw [hbytes, byteLength_cons]
      · rw [unitLength_cons] at hlong
        omega

theorem unitSize_of_endsLine {c : Char} {rest : List Char} (h : endsLine c rest = true) :
    unitSize c = 1 := by
  have hbreak : c.toNat ∈ lineBreaks := by
    rw [endsLine, Bool.and_eq_true, List.contains_iff_mem] at h
    exact h.1
  have hplane : c.toNat < 0x10000 := (by decide : ∀ n ∈ lineBreaks, n < 0x10000) _ hbreak
  rw [unitSize, if_pos hplane]

namespace IsLine

variable {text before shown ending after : List Char} {n : Nat}

/-- An offset within what the line shows is on the line. -/
theorem place_shown (h : IsLine text n before shown ending after) {first rest : List Char}
    (hshown : shown = first ++ rest) :
    place text (byteLength (before ++ first)) = ⟨n, unitLength first⟩ := by
  obtain ⟨rfl, hlines, hshows, -⟩ := h
  subst hshown
  have hfirst : Shown first := fun c hc => hshows c (List.mem_append_left rest hc)
  rw [List.append_assoc] at hlines
  rw [List.append_assoc first, ← List.append_assoc before]
  exact place_lines hlines (hfirst.unbroken _)

/-- The offset behind a line is on the next line. -/
theorem place_behind {c : Char} (h : IsLine text n before shown [c] after)
    (hc : endsLine c after = true) :
    place text (byteLength (before ++ (shown ++ [c]))) = ⟨n + 1, 0⟩ := by
  obtain ⟨rfl, hlines, hshows, -⟩ := h
  have hbefore := hlines.advance 0 (byteLength (shown ++ [c]))
  have hshown := advance_unbroken (hshows.unbroken (c :: after)) (0 + n) 0 (byteLength [c])
  rw [← byteLength_append] at hbefore
  rw [← byteLength_append, byteLength_cons, byteLength_nil, Nat.add_zero,
    Place.advance_cons_of_le (Nat.le_refl _), Place.after, if_pos hc, Nat.sub_self,
    Place.advance_zero, Nat.zero_add] at hshown
  rw [place, hbefore, Nat.zero_add]
  exact hshown

/-- The offset of a column of the line, by what the column stands for in the line's content. -/
theorem placeOffset?_eq (h : IsLine text n before shown ending after) (column : Nat) :
    placeOffset? text ⟨n, column⟩
      = some (byteLength before + bytesOfUnits column (lineContent (shown ++ ending))) := by
  obtain ⟨rfl, hlines, hshows, hends⟩ := h
  have hline : firstLine (shown ++ (ending ++ after)) = shown ++ ending := by
    rw [firstLine_unbroken (hshows.unbroken _), hends.firstLine]
  rw [hlines.placeOffset?_eq, hline]

/-- A column that does not lie past a line break of the content leads to a place within what the
    line shows, and to the end of that if it lies past it. -/
theorem placeOffset?_within (h : IsLine text n before shown ending after) {column : Nat}
    (hcolumn : column ≤ unitLength shown ∨ ending ∈ contentEndings) :
    ∃ first rest, shown = first ++ rest
      ∧ placeOffset? text ⟨n, column⟩ = some (byteLength (before ++ first))
      ∧ (unitLength shown ≤ column → rest = []) := by
  have hbytes : bytesOfUnits column (lineContent (shown ++ ending))
      = bytesOfUnits column shown := by
    by_cases hending : ending ∈ contentEndings
    · rw [lineContent_shown h.shows hending]
    · obtain ⟨c, rfl, -, hcontent⟩ := h.ends.of_notMem hending
      rw [hcontent, bytesOfUnits_append_of_le (hcolumn.resolve_right hending)]
  obtain ⟨first, rest, hshown, hfirst, hall⟩ := exists_bytesOfUnits column shown
  refine ⟨first, rest, hshown, ?_, hall⟩
  rw [h.placeOffset?_eq, hbytes, hfirst, byteLength_append]

/-- A column past a line break of the content leads behind the line. -/
theorem placeOffset?_behind {c : Char} (h : IsLine text n before shown [c] after)
    (hc : endsLine c after = true) (hcontent : lineContent (shown ++ [c]) = shown ++ [c])
    {column : Nat} (hcolumn : unitLength shown < column) :
    placeOffset? text ⟨n, column⟩ = some (byteLength (before ++ (shown ++ [c]))) := by
  obtain ⟨first, rest, heq, hfirst, hall⟩ := exists_bytesOfUnits column (shown ++ [c])
  have hlong : unitLength (shown ++ [c]) ≤ column := by
    rw [unitLength_append, unitLength_cons, unitLength_nil, unitSize_of_endsLine hc]
    omega
  rw [hall hlong, List.append_nil] at heq
  rw [h.placeOffset?_eq, hcontent, hfirst, ← heq, byteLength_append before]

end IsLine

/-- The line of a word is told as that word, and the next line as another one. -/
theorem line_toPosition (n : UInt32) (character : Nat) :
    (Place.mk n.toNat character).toPosition.line = n :=
  UInt32.ofNat_toNat

theorem line_toPosition_succ_ne (n : UInt32) (character : Nat) :
    (Place.mk (n.toNat + 1) character).toPosition.line ≠ n := by
  intro h
  have hmod : (n.toNat + 1) % 4294967296 = n.toNat := by
    conv => rhs; rw [← h]
    exact UInt32.toNat_ofNat'.symm
  have hlt : n.toNat < 4294967296 := n.toNat_lt
  omega

/-- The offset of a position is on the line of that position, unless the line ends with a line break
    other than a line feed or a carriage return with a line feed, and the column lies past it. And a
    column past what the line shows is taken back to the end of that under the same condition. -/
theorem line_position_offset?_iff {text : List Char} {n : UInt32} (h : n.toNat < lineCount text)
    (column : UInt32) :
    ∃ before shown ending after offset, IsLine text n.toNat before shown ending after
      ∧ offset? text ⟨n, column⟩ = some offset
      ∧ ((position text offset).line = n
        ↔ column.toNat ≤ unitLength shown ∨ ending ∈ [[], ['\n'], ['\r', '\n']])
      ∧ (unitLength shown ≤ column.toNat → (offset = byteLength (before ++ shown)
        ↔ column.toNat ≤ unitLength shown ∨ ending ∈ [[], ['\n'], ['\r', '\n']])) := by
  obtain ⟨before, shown, ending, after, hline⟩ := exists_isLine h
  by_cases hcolumn : column.toNat ≤ unitLength shown ∨ ending ∈ contentEndings
  · obtain ⟨first, rest, hshown, hoffset, hall⟩ := hline.placeOffset?_within hcolumn
    refine ⟨before, shown, ending, after, _, hline, hoffset, iff_of_true ?_ hcolumn,
      fun hpast => iff_of_true ?_ hcolumn⟩
    · rw [position, hline.place_shown hshown, line_toPosition]
    · rw [hshown, hall hpast, List.append_nil]
  · obtain ⟨hlt, hending⟩ := not_or.1 hcolumn
    obtain ⟨c, rfl, hc, hcontent⟩ := hline.ends.of_notMem hending
    refine ⟨before, shown, [c], after, _, hline,
      hline.placeOffset?_behind hc (hcontent shown) (Nat.not_le.1 hlt), iff_of_false ?_ hcolumn,
      fun _ => iff_of_false ?_ hcolumn⟩
    · rw [position, hline.place_behind hc]
      exact line_toPosition_succ_ne n 0
    · have hpos := c.utf8Size_pos
      simp only [byteLength_append, byteLength_cons]
      omega

/-- A line of a character of two code units that ends with a line separator, and one that ends with
    a carriage return and a line feed. -/
def separated : List Char :=
  ['😀', '\u2028', 'b', '\r', '\n']

/-- A column past the first line leads to the second one, and a column past the second line to the
    end of what that shows. -/
theorem line_position_offset?_iff_separated :
    1 < lineCount separated
      ∧ (∃ before shown ending after, IsLine separated 0 before shown ending after
        ∧ offset? separated ⟨0, 3⟩ = some 7 ∧ (position separated 7).line = 1
        ∧ ¬ (3 ≤ unitLength shown ∨ ending ∈ [[], ['\n'], ['\r', '\n']])
        ∧ (unitLength shown ≤ 3 → 7 ≠ byteLength (before ++ shown)))
      ∧ ∃ before shown ending after, IsLine separated 1 before shown ending after
        ∧ offset? separated ⟨1, 3⟩ = some 8 ∧ (position separated 8).line = 1
        ∧ (3 ≤ unitLength shown ∨ ending ∈ [[], ['\n'], ['\r', '\n']])
        ∧ (unitLength shown ≤ 3 → 8 = byteLength (before ++ shown)) := by
  refine ⟨by decide, ?_, ?_⟩
  · have hoffset : offset? separated ⟨0, 3⟩ = some 7 := by decide
    have hline : (position separated 7).line = 1 := by decide
    obtain ⟨before, shown, ending, after, offset, hparts, hoffset', hiff, hclamped⟩ :=
      line_position_offset?_iff (show (0 : UInt32).toNat < lineCount separated by decide) 3
    obtain rfl : 7 = offset := Option.some.inj (hoffset.symm.trans hoffset')
    have hpast := mt hiff.2 (by rw [hline]; decide)
    exact ⟨before, shown, ending, after, hparts, hoffset, hline, hpast,
      fun hle heq => hpast ((hclamped hle).1 heq)⟩
  · have hoffset : offset? separated ⟨1, 3⟩ = some 8 := by decide
    have hline : (position separated 8).line = 1 := by decide
    obtain ⟨before, shown, ending, after, offset, hparts, hoffset', hiff, hclamped⟩ :=
      line_position_offset?_iff (show (1 : UInt32).toNat < lineCount separated by decide) 3
    obtain rfl : 8 = offset := Option.some.inj (hoffset.symm.trans hoffset')
    have hwithin := hiff.1 hline
    exact ⟨before, shown, ending, after, hparts, hoffset, hline, hwithin,
      fun hle => (hclamped hle).2 hwithin⟩

/-- A line that ends with a carriage return alone, and a column past it. -/
theorem not_forall_line_position_offset? :
    ¬ ∀ (text : List Char) (n column : UInt32) (offset : Nat), n.toNat < lineCount text →
      offset? text ⟨n, column⟩ = some offset → (position text offset).line = n := by
  intro hall
  have hline := hall ['a', 'b', '\r', 'c', 'd'] 0 50 3 (by decide) (by decide)
  exact absurd hline (by decide)

end BimEditor.Text
