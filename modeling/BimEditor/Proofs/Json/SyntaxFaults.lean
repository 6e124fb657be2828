/-
  BimEditor.Proofs.Json.SyntaxFaults

  Where the faults of a text point. If a text is refused because it departs from the grammar, then
  line and column of the fault belong to the end of its longest viable beginning, or to the start of
  the string, word, escape or group of hexadecimal digits that reaches over that place
  (`fault_at_departure`). Only a number beyond the format is reported elsewhere.
-/
import BimEditor.Document.Problem
import BimEditor.Proofs.Json.ValueFaults

namespace BimEditor.Json

open BimEditor.Text

variable {text : List Char} {e : Fault}

/-- What the reader of texts does: a value behind blanks, and nothing else behind it. -/
theorem readBy_reads {rules : Rules} {t : Tree} (h : readBy rules text = .ok t) :
    ∃ next, Yields (tree rules 0 (Cursor.skipBlanks ⟨0, text⟩)) t next ∧ finish next = .ok () := by
  unfold readBy at h
  cases htree : tree rules 0 (Cursor.atStart text).skipBlanks with
  | error e =>
    rw [htree] at h
    cases h
  | ok r =>
    obtain ⟨t', next, hlt⟩ := r
    rw [htree, ok_bind] at h
    dsimp only at h
    cases hfinish : finish next with
    | error e =>
      rw [hfinish] at h
      cases h
    | ok u =>
      rw [hfinish] at h
      cases h
      exact ⟨next, ⟨hlt, htree⟩, hfinish⟩

theorem readBy_fails {rules : Rules} (h : readBy rules text = .error e) :
    tree rules 0 (Cursor.skipBlanks ⟨0, text⟩) = .error e
      ∨ ∃ t next, Yields (tree rules 0 (Cursor.skipBlanks ⟨0, text⟩)) t next
        ∧ finish next = .error e := by
  rcases bind_eq_error h with h | ⟨⟨t, next, hlt⟩, htree, h⟩
  · exact .inl h
  · replace h := first_eq_error h fun _ => ⟨_, rfl⟩
    exact .inr ⟨t, next, ⟨hlt, htree⟩, h⟩

/-- The text departs from the grammar behind `u`: some text that starts with `u` is grammatical, but
    none that goes on with the same character. The fault points there. -/
def DepartsBehind (text u : List Char) (e : Fault) : Prop :=
  ∃ rest r t, text = u ++ rest ∧ (∀ x ∈ rest.head?, ∀ y, ¬ Grammatical (u ++ x :: y))
    ∧ Holds (u ++ r) t ∧ e.PointsIn 0 u (u ++ r) (.value t)

theorem DepartsBehind.viable {u : List Char} (h : DepartsBehind text u e) : Viable u := by
  obtain ⟨-, r, t, -, -, hholds, -⟩ := h
  exact ⟨r, hholds.grammatical⟩

theorem DepartsBehind.longest {u : List Char} (h : DepartsBehind text u e) :
    LongestViable text u := by
  have hviable := h.viable
  obtain ⟨rest, -, -, rfl, hrest, -⟩ := h
  apply longestViable_of_head hviable
  rintro x hx ⟨y, hy⟩
  rw [List.append_assoc] at hy
  exact hrest x hx y hy

theorem OpenLocated.holds {b₁ s b₂ : List Char} {t : Tree} (hb₁ : Blanks b₁) (hb₂ : Blanks b₂)
    (h : OpenLocated (byteLength b₁) s (.value t)) : Holds (b₁ ++ (s ++ b₂)) t :=
  ⟨b₁, s, b₂, rfl, hb₁, hb₂, h.mono fun _ _ _ => trivial⟩

/-- A text departs from the grammar where its value does. -/
theorem departs_in_value (h : tree openRules 0 (Cursor.skipBlanks ⟨0, text⟩) = .error e) :
    ∃ u, DepartsBehind text u e := by
  obtain ⟨b, hb, hblank, hkeeps⟩ := skipBlanks_keeps ⟨0, text⟩
  obtain ⟨u, rest, hrest, hrefuses, r, t, hloc, hpoints⟩ := treeStuck 0 _ e h
  refine ⟨b ++ u, rest, r, t, ?_, ?_, ?_, ?_⟩
  · have htext := hblank.1
    rw [hrest, ← List.append_assoc] at htext
    exact htext
  · intro x hx y hgrammatical
    rw [List.append_assoc] at hgrammatical
    obtain ⟨t', ht'⟩ := grammatical_iff.1 hgrammatical
    obtain ⟨next, hread, -⟩ := readBy_reads ht'
    rw [hkeeps (u ++ x :: y) (by rw [hrest]; exact head?_append_cons hx y)] at hread
    exact hrefuses x hx y t' next hread
  · rw [hblank.2, Nat.zero_add] at hloc
    rw [List.append_assoc]
    simpa using hloc.holds hb blanks_nil
  · rw [hblank.2] at hpoints
    exact hpoints.inside b [] (by simp) (Phrase.includes_refl _)

theorem finish_error {c : Cursor} (h : finish c = .error e) :
    e.offset? = some c.skipBlanks.offset := by
  unfold finish at h
  split at h
  · cases h
  · cases h
    rfl

/-- A text departs from the grammar behind its value, where nothing but blanks may stand. -/
theorem departs_behind_value {t : Tree} {next : Cursor}
    (htree : Yields (tree openRules 0 (Cursor.skipBlanks ⟨0, text⟩)) t next)
    (h : finish next = .error e) : ∃ u, DepartsBehind text u e := by
  obtain ⟨b, hb, hblank, hkeeps⟩ := skipBlanks_keeps ⟨0, text⟩
  obtain ⟨s, hpass, hloc, hkeeps'⟩ := tree_keeps htree
  obtain ⟨b', hb', hblank', hkeeps''⟩ := skipBlanks_keeps next
  have hbefore : Cursor.Passes ⟨0, text⟩ (b ++ (s ++ b')) next.skipBlanks :=
    hblank.trans (hpass.trans hblank')
  refine ⟨b ++ (s ++ b'), next.skipBlanks.rest, [], t, hbefore.1, ?_, ?_, .here ?_⟩
  · intro x hx y hgrammatical
    have hshape : b ++ (s ++ b') ++ x :: y = b ++ (s ++ (b' ++ x :: y)) := by simp
    rw [hshape] at hgrammatical
    obtain ⟨t', ht'⟩ := grammatical_iff.1 hgrammatical
    obtain ⟨next', hread, hfinish⟩ := readBy_reads ht'
    -- the value is read as before, and the same character stands behind it
    have hhead : (b' ++ x :: y).head? = next.rest.head? := by
      rw [hblank'.1]
      exact head?_append_cons hx y
    have hstart : (s ++ (b' ++ x :: y)).head?
        = (Cursor.skipBlanks ⟨0, text⟩).rest.head? := by
      rw [hpass.1]
      exact head?_append_congr s hhead
    rw [hkeeps _ hstart] at hread
    obtain rfl := hread.next_unique (hkeeps' _ hhead)
    rw [finish, hkeeps'' (x :: y) hx.symm] at hfinish
    cases hfinish
  · rw [hblank.2, Nat.zero_add] at hloc
    rw [List.append_nil]
    exact hloc.holds hb hb'
  · rw [finish_error h, hbefore.2]

theorem departs_of_readBy (h : readBy openRules text = .error e) :
    ∃ u, DepartsBehind text u e := by
  rcases readBy_fails h with h | ⟨t, next, htree, h⟩
  · exact departs_in_value h
  · exact departs_behind_value htree h

/-- A fault of a text within the limit on its size is one of its reader. -/
theorem readBy_of_read {limits : Limits} (h : read limits text = .error e) (he : e.IsMalformed) :
    readBy limits.rules text = .error e := by
  rcases bind_eq_error h with h | ⟨_, _, h⟩
  · unfold checkSize at h
    split at h
    · cases h
      exact he.elim
    · cases h
  · exact h

/-- Behind `before` a token starts, and in some text that goes on from `u` it reaches over the end
    of `u`. -/
def TokenAcross (before u : List Char) : Prop :=
  ∃ r t span, Holds (u ++ r) t ∧ TokenIn 0 (u ++ r) (.value t) span
    ∧ span.start = byteLength before ∧ byteLength u < span.stop

/-- A fault of the grammar is reported at the line and the column of a place of the text, up to
    which the text is viable. That is the end of its longest viable beginning, or the start of the
    token that reaches over that end. -/
theorem fault_at_departure (limits : Limits) (text : List Char) (fault : Fault)
    (h : read limits text = .error fault)
    (hkind : (Problem.unreadable fault).kind = .malformed)
    (hrange : ∀ offset literal, fault ≠ .malformed offset (.outOfRange literal)) :
    ∃ before u, before <+: text ∧ Viable before ∧ LongestViable text u
      ∧ (Problem.unreadable fault).line text = (lineColumn text (byteLength before)).line
      ∧ (Problem.unreadable fault).column? text = some (lineColumn text (byteLength before)).column
      ∧ (before = u ∨ before <+: u ∧ TokenAcross before u) := by
  have hmalformed : fault.IsMalformed := by
    cases fault with
    | malformed _ _ => trivial
    | tooLarge _ _ => cases hkind
    | tooDeep _ _ => cases hkind
  have hbeyond : ¬ fault.BeyondGrammar := by
    cases fault with
    | tooLarge _ _ => cases hkind
    | tooDeep _ _ => cases hkind
    | malformed offset cause =>
      rintro ⟨literal, rfl⟩
      exact hrange offset literal rfl
  obtain ⟨u, hdeparts⟩ := departs_of_readBy (readBy_openRules (readBy_of_read h hmalformed) hbeyond)
  have hlongest := hdeparts.longest
  obtain ⟨-, r, t, -, -, hholds, before, hbefore, hoffset, hplace⟩ := hdeparts
  rw [Nat.zero_add] at hoffset hplace
  have hviable : Viable before := by
    obtain ⟨v, rfl⟩ := hbefore
    exact hlongest.viable.of_append
  refine ⟨before, u, hbefore.trans hlongest.begins, hviable, hlongest, ?_, ?_, ?_⟩
  · simp only [Problem.line, Problem.offset?, hoffset]
  · simp only [Problem.column?, hoffset, Option.map_some]
  · rcases hplace with rfl | ⟨span, htoken, hstart, hstop⟩
    · exact .inl rfl
    · rw [Nat.zero_add] at hstop
      exact .inr ⟨hbefore, r, t, span, hholds, htoken, hstart, hstop⟩

/-- A string in the second line of a text, with an escape in it whose second half is no surrogate. -/
theorem fault_at_departure_halfEscape :
    read .unlimited "[\n\"\\uD800\\u0041\"]".toList = .error (.malformed 3 .badLowSurrogate)
      ∧ ∃ before u, LongestViable "[\n\"\\uD800\\u0041\"]".toList u
        ∧ (lineColumn "[\n\"\\uD800\\u0041\"]".toList (byteLength before)).line = 2
        ∧ (lineColumn "[\n\"\\uD800\\u0041\"]".toList (byteLength before)).column = 2
        ∧ (before = u ∨ before <+: u ∧ TokenAcross before u) := by
  have hread : read .unlimited "[\n\"\\uD800\\u0041\"]".toList
      = .error (.malformed 3 .badLowSurrogate) := by
    with_unfolding_all rfl
  obtain ⟨before, u, -, -, hlongest, hline, hcolumn, hplace⟩ :=
    fault_at_departure _ _ _ hread rfl (by simp)
  exact ⟨hread, before, u, hlongest, hline.symm, Option.some.inj hcolumn.symm, hplace⟩

end BimEditor.Json
