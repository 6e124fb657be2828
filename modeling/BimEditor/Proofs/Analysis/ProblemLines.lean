/-
  BimEditor.Proofs.Analysis.ProblemLines

  On which line an editor shows a problem. A problem is reported by the line that a reader of error
  messages counts, where only a line feed ends a line; everything else in an editor goes by the
  lines of positions, which end at every line break. The walks over a text that count the two never
  part as long as they meet line feeds only, and from the first other line break on the one that
  counts line feeds is behind (`line_advance_le_and_eq_iff`).

  So the diagnostic of a problem stands on the line of the problem's place if and only if every line
  that ends before that place ends with a line feed (`line_diagnostics_eq_iff`).
-/
import BimEditor.Analysis.Diagnostic
import BimEditor.Proofs.Analysis.OfText
import BimEditor.Proofs.Document.Acceptance
import BimEditor.Proofs.Text.PositionOrder

namespace BimEditor.Text

/-! ## Two ways to count lines -/

/-- Every line of the text that ends before the offset ends with a line feed, maybe with a carriage
    return before it. -/
def FeedsBefore (offset : Nat) (text : List Char) : Prop :=
  ∀ before c after, text = before ++ c :: after → byteLength before + c.utf8Size ≤ offset →
    endsLine c after = true → c = '\n'

theorem feedsBefore_nil (offset : Nat) : FeedsBefore offset [] := by
  intro before c after htext
  simp at htext

theorem feedsBefore_of_lt {offset : Nat} {c : Char} (h : offset < c.utf8Size) (s : List Char) :
    FeedsBefore offset (c :: s) := by
  intro before x after htext hle
  -- no character ends before the offset
  cases before with
  | nil =>
    obtain ⟨rfl, -⟩ := List.cons.inj htext
    rw [byteLength_nil] at hle
    omega
  | cons y before =>
    obtain ⟨rfl, -⟩ := List.cons.inj htext
    rw [byteLength_cons] at hle
    omega

/-- A line that ends with the first character, and those that end behind it. -/
theorem feedsBefore_cons {offset : Nat} {c : Char} (h : c.utf8Size ≤ offset) (s : List Char) :
    FeedsBefore offset (c :: s)
      ↔ (endsLine c s = true → c = '\n') ∧ FeedsBefore (offset - c.utf8Size) s := by
  constructor
  · intro hfeeds
    refine ⟨hfeeds [] c s rfl (by rwa [byteLength_nil, Nat.zero_add]), ?_⟩
    intro before x after htext hle
    refine hfeeds (c :: before) x after (by rw [htext, List.cons_append]) ?_
    rw [byteLength_cons]
    omega
  · rintro ⟨hfirst, hfeeds⟩ before x after htext hle
    cases before with
    | nil =>
      obtain ⟨rfl, rfl⟩ := List.cons.inj htext
      exact hfirst
    | cons y before =>
      obtain ⟨rfl, hrest⟩ := List.cons.inj htext
      rw [byteLength_cons] at hle
      exact hfeeds before x after hrest (by omega)

theorem LineColumn.advance_cons_of_lt {offset : Nat} {c : Char} (h : offset < c.utf8Size)
    (place : LineColumn) (s : List Char) : place.advance offset (c :: s) = place := by
  rw [advance, if_pos h]

theorem LineColumn.advance_cons_of_le {offset : Nat} {c : Char} (h : c.utf8Size ≤ offset)
    (place : LineColumn) (s : List Char) :
    place.advance offset (c :: s)
      = advance (if c = '\n' then ⟨place.line + 1, 1⟩ else ⟨place.line, place.column + 1⟩)
          (offset - c.utf8Size) s := by
  rw [advance, if_neg (Nat.not_lt.2 h)]
  split <;> rfl

/-- The walk that counts line feeds is never ahead of the one that counts all line breaks, and not
    behind it if and only if all lines that both of them pass end with line feeds. -/
theorem line_advance_le_and_eq_iff (place : LineColumn) (p : Place) (offset : Nat)
    (s : List Char) :
    (place.advance offset s).line + p.line ≤ place.line + (p.advance offset s).line
      ∧ ((place.advance offset s).line + p.line = place.line + (p.advance offset s).line
        ↔ FeedsBefore offset s) := by
  induction s generalizing place p offset with
  | nil => exact ⟨Nat.le_refl _, iff_of_true rfl (feedsBefore_nil offset)⟩
  | cons c s ih =>
    by_cases hlt : offset < c.utf8Size
    · rw [LineColumn.advance_cons_of_lt hlt, Place.advance_cons_of_lt hlt]
      exact ⟨Nat.le_refl _, iff_of_true rfl (feedsBefore_of_lt hlt s)⟩
    · have hle := Nat.not_lt.1 hlt
      rw [LineColumn.advance_cons_of_le hle, Place.advance_cons_of_le hle,
        feedsBefore_cons hle, Place.after]
      by_cases hfeed : c = '\n'
      · -- both walks go to the next line
        subst hfeed
        have hends : endsLine '\n' s = true := rfl
        have hrest := ih ⟨place.line + 1, 1⟩ ⟨p.line + 1, 0⟩ (offset - '\n'.utf8Size)
        rw [if_pos rfl, if_pos hends]
        dsimp only at hrest
        rw [← hrest.2]
        simp only [hends, forall_const, true_and]
        omega
      · by_cases hends : endsLine c s = true
        · -- only the lines of positions go on, and the other walk stays behind
          have hrest := ih ⟨place.line, place.column + 1⟩ ⟨p.line + 1, 0⟩ (offset - c.utf8Size)
          rw [if_neg hfeed, if_pos hends]
          dsimp only at hrest
          exact ⟨by omega, iff_of_false (by omega) fun h => hfeed (h.1 hends)⟩
        · have hrest := ih ⟨place.line, place.column + 1⟩
            ⟨p.line, p.character + unitSize c⟩ (offset - c.utf8Size)
          rw [if_neg hfeed, if_neg hends, hrest.2.symm]
          exact ⟨hrest.1, by simp [hends]⟩

/-- An offset has the same line in both ways of counting if and only if no other line break comes
    before it. -/
theorem line_lineColumn_eq_iff (text : List Char) (offset : Nat) :
    (lineColumn text offset).line = (place text offset).line + 1 ↔ FeedsBefore offset text := by
  have hwalks := (line_advance_le_and_eq_iff ⟨1, 1⟩ ⟨0, 0⟩ offset text).2
  rw [← hwalks, lineColumn, place]
  dsimp only
  omega

/-- No line of a reader is further than the line of the place. -/
theorem line_lineColumn_le (text : List Char) (offset : Nat) :
    (lineColumn text offset).line ≤ (place text offset).line + 1 := by
  have hwalks := (line_advance_le_and_eq_iff ⟨1, 1⟩ ⟨0, 0⟩ offset text).1
  rw [lineColumn, place]
  dsimp only at hwalks
  omega

theorem LineColumn.line_le_advance (place : LineColumn) (offset : Nat) (s : List Char) :
    place.line ≤ (place.advance offset s).line := by
  induction s generalizing place offset with
  | nil => exact Nat.le_refl _
  | cons c s ih =>
    by_cases hlt : offset < c.utf8Size
    · rw [advance_cons_of_lt hlt]
    · rw [advance_cons_of_le (Nat.not_lt.1 hlt)]
      refine Nat.le_trans ?_ (ih _ _)
      split
      · exact Nat.le_succ _
      · exact Nat.le_refl _

end BimEditor.Text

namespace BimEditor

open BimEditor.Json BimEditor.Text

/-! ## The place of a misfit -/

theorem headerField_eq_error {v : Tree} {field : String} {problem : Problem}
    (h : headerField v field = .error problem) : problem.offset? = some v.span.start := by
  unfold headerField at h
  split at h
  · split at h
    · cases h
      rfl
    · cases h
  · cases h
    rfl

theorem mem_nodes_of_presentMember? {t v : Tree} {name : String}
    (h : presentMember? name t = some v) : v ∈ t.nodes :=
  Tree.mem_nodes_of_get? (Option.filter_eq_some_iff.1 h).1

theorem shapedMember_eq_error {α : Type} {t : Tree} {field : String} {shape : Tree → Option α}
    {problem : Problem} (h : shapedMember t field shape = .error problem) :
    ∃ v ∈ t.nodes, problem.offset? = some v.span.start := by
  unfold shapedMember at h
  split at h
  · cases h
    exact ⟨t, t.self_mem_nodes, rfl⟩
  · next v hv =>
    split at h
    · cases h
      exact ⟨v, mem_nodes_of_presentMember? hv, rfl⟩
    · cases h

/-- A tree that is no document is refused for one of its values, where that value starts. -/
theorem exists_node_of_ofTree_eq_error {t : Tree} {problem : Problem}
    (h : Envelope.ofTree t = .error problem) :
    ∃ v ∈ t.nodes, problem.offset? = some v.span.start := by
  unfold Envelope.ofTree at h
  dsimp only at h
  split at h
  · cases h
    exact ⟨t, t.self_mem_nodes, rfl⟩
  split at h
  case h_2 =>
    cases h
    exact ⟨t, t.self_mem_nodes, rfl⟩
  next header hheader =>
  -- the parts are looked for one after another, and the first that is missing is reported
  have hmem := mem_nodes_of_presentMember? hheader
  obtain h | ⟨_, -, h⟩ := bind_eq_error (x := headerField header "version") h
  · exact ⟨header, hmem, headerField_eq_error h⟩
  obtain h | ⟨_, -, h⟩ := bind_eq_error h
  · exact ⟨header, hmem, headerField_eq_error h⟩
  obtain h | ⟨_, -, h⟩ := bind_eq_error h
  · exact ⟨header, hmem, headerField_eq_error h⟩
  obtain h | ⟨_, -, h⟩ := bind_eq_error h
  · exact shapedMember_eq_error h
  obtain h | ⟨_, -, h⟩ := bind_eq_error h
  · exact shapedMember_eq_error h
  · cases h

/-- What is wrong with a JSON text that is no document lies where one of its values starts. -/
theorem exists_node_of_read_eq_error {limits : Limits} {text : List Char} {t : Tree}
    {problem : Problem} (h : Json.read limits text = .ok t)
    (hproblem : ParsedDocument.read limits text = .error problem) :
    ∃ v ∈ t.nodes, problem.offset? = some v.span.start := by
  rw [ParsedDocument.read_of_tree h] at hproblem
  obtain herror | ⟨e, -, hok⟩ := bind_eq_error hproblem
  · exact exists_node_of_ofTree_eq_error herror
  · cases hok

/-! ## The line of a diagnostic -/

namespace Analysis

/-- A text with a problem is analysed as that problem. -/
theorem of_problem_eq_some {style : TooltipStyle} {text : String} {problem : Problem}
    (h : (ofText style text).problem = some problem) :
    ParsedDocument.read .standard text.toList = .error problem
      ∧ ofText style text = ofProblem style text problem := by
  rw [ofText] at h ⊢
  split at h
  · cases h
  · next problem' hread =>
    obtain rfl := Option.some.inj h
    exact ⟨hread, rfl⟩

theorem diagnostics_of_problem {style : TooltipStyle} {text : String} {problem : Problem}
    (h : (ofText style text).problem = some problem) :
    (ofText style text).diagnostics = [Diagnostic.ofProblem text.toList problem] := by
  rw [(of_problem_eq_some h).2]
  rfl

/-- A text with a problem at one place was not too large, and its places fit in words. -/
theorem byteLength_lt_of_place {text : List Char} {problem : Problem} {offset : Nat}
    (h : ParsedDocument.read .standard text = .error problem)
    (hplace : problem.offset? = some offset) : byteLength text < wordSize := by
  have hsize : WithinLimit Limits.standard.maxSize (byteLength text) := by
    cases hread : Json.read .standard text with
    | ok t => exact (read_eq_ok_iff.1 hread).1
    | error fault =>
      rw [ParsedDocument.read, hread] at h
      cases h
      exact withinLimit_of_place hread hplace
  have hle : byteLength text ≤ 536870912 := hsize _ rfl
  unfold wordSize
  omega

/-- A text with a problem that lies at one place has one diagnostic, an error. It starts on the line
    of that place if and only if every line that ends before the place ends with a line feed. The
    place of a problem with a JSON text is the start of one of the text's values. -/
theorem line_diagnostics_eq_iff {style : TooltipStyle} {text : String} {problem : Problem}
    {offset : Nat} (hproblem : (ofText style text).problem = some problem)
    (hplace : problem.offset? = some offset) :
    (∃ d, (ofText style text).diagnostics = [d] ∧ d.severity = .error ∧ d.code = problem.kind.code
        ∧ (d.range.start.line = (position text.toList offset).line
          ↔ FeedsBefore offset text.toList))
      ∧ ∀ t, Json.read .standard text.toList = .ok t →
        ∃ v ∈ t.nodes, v.span.start = offset := by
  have hread := (of_problem_eq_some hproblem).1
  refine ⟨⟨Diagnostic.ofProblem text.toList problem, diagnostics_of_problem hproblem, rfl, rfl, ?_⟩,
    fun t ht => ?_⟩
  · have hline : (Diagnostic.ofProblem text.toList problem).range.start.line
        = UInt32.ofNat ((lineColumn text.toList offset).line - 1) := by
      show UInt32.ofNat (problem.line text.toList - 1) = _
      rw [Problem.line, hplace]
    have hpos : 1 ≤ (lineColumn text.toList offset).line :=
      LineColumn.line_le_advance ⟨1, 1⟩ offset text.toList
    have hle := line_lineColumn_le text.toList offset
    -- neither of the two lines is cut off on its way to the editor
    have hfits := (place_fits (byteLength_lt_of_place hread hplace) offset).1
    have hposition : (position text.toList offset).line
        = UInt32.ofNat (place text.toList offset).line := rfl
    rw [← line_lineColumn_eq_iff, hline, hposition, ofNat_eq_ofNat_iff (by omega) hfits]
    omega
  · obtain ⟨v, hv, hstart⟩ := exists_node_of_read_eq_error ht hread
    rw [hplace] at hstart
    exact ⟨v, hv, (Option.some.inj hstart).symm⟩

/-- A document whose header has the wrong shape, behind two lines of which one ends with a carriage
    return and a line feed. -/
def brokenHeader : List Char :=
  ['{', '\r', '\n', '"', 'h', 'e', 'a', 'd', 'e', 'r', '"', ':', '\n', ' ', '[', ']', '}']

/-- A closing brace on a line of its own, behind a carriage return. -/
def strayBrace : List Char :=
  ['\r', '}']

theorem problem_of_read_eq_error {text : List Char} {problem : Problem} (style : TooltipStyle)
    (h : ParsedDocument.read .standard text = .error problem) :
    (ofText style (String.ofList text)).problem = some problem := by
  rw [ofText, String.toList_ofList, h]
  rfl

theorem read_strayBrace : ParsedDocument.read .standard strayBrace
    = .error (.unreadable (.malformed 1 (.unexpected .value (some '}')))) := by
  with_unfolding_all rfl

/-- The header is reported on its own line, and the brace on the line before its own. -/
theorem line_diagnostics_eq_iff_brokenHeader :
    (∃ problem d, (ofText .detailed (String.ofList brokenHeader)).problem = some problem
        ∧ problem.offset? = some 14
        ∧ (ofText .detailed (String.ofList brokenHeader)).diagnostics = [d]
        ∧ d.severity = .error ∧ d.code = problem.kind.code
        ∧ d.range.start.line = (position brokenHeader 14).line ∧ FeedsBefore 14 brokenHeader
        ∧ ∀ t, Json.read .standard brokenHeader = .ok t → ∃ v ∈ t.nodes, v.span.start = 14)
      ∧ ∃ problem d, (ofText .detailed (String.ofList strayBrace)).problem = some problem
        ∧ problem.offset? = some 1
        ∧ (ofText .detailed (String.ofList strayBrace)).diagnostics = [d]
        ∧ d.severity = .error ∧ d.code = problem.kind.code
        ∧ d.range.start.line ≠ (position strayBrace 1).line ∧ ¬ FeedsBefore 1 strayBrace := by
  constructor
  · have hread : ParsedDocument.read .standard brokenHeader
        = .error (.misshapen 14 (.missingHeaderField "version")) := by
      with_unfolding_all rfl
    have hproblem := problem_of_read_eq_error .detailed hread
    obtain ⟨⟨d, hd, hseverity, hcode, hiff⟩, hnodes⟩ := line_diagnostics_eq_iff hproblem rfl
    obtain rfl := List.singleton_inj.1 ((diagnostics_of_problem hproblem).symm.trans hd)
    rw [String.toList_ofList] at hd hiff hnodes
    have hline : (Diagnostic.ofProblem brokenHeader
        (.misshapen 14 (.missingHeaderField "version"))).range.start.line
          = (position brokenHeader 14).line := by decide
    exact ⟨_, _, hproblem, rfl, hd, hseverity, hcode, hline, hiff.1 hline, hnodes⟩
  · have hproblem := problem_of_read_eq_error .detailed read_strayBrace
    obtain ⟨⟨d, hd, hseverity, hcode, hiff⟩, -⟩ := line_diagnostics_eq_iff hproblem rfl
    obtain rfl := List.singleton_inj.1 ((diagnostics_of_problem hproblem).symm.trans hd)
    rw [String.toList_ofList] at hd hiff
    have hline : (Diagnostic.ofProblem strayBrace
        (.unreadable (.malformed 1 (.unexpected .value (some '}'))))).range.start.line
          ≠ (position strayBrace 1).line := by decide
    exact ⟨_, _, hproblem, rfl, hd, hseverity, hcode, hline, mt hiff.2 hline⟩

theorem not_forall_line_diagnostics_eq :
    ¬ ∀ (style : TooltipStyle) (text : String) (problem : Problem) (offset : Nat),
      (ofText style text).problem = some problem → problem.kind ≠ .refused →
      problem.offset? = some offset →
      ∀ d ∈ (ofText style text).diagnostics,
        d.range.start.line = (position text.toList offset).line := by
  intro hall
  have hproblem := problem_of_read_eq_error .detailed read_strayBrace
  have hline := hall _ _ _ 1 hproblem (by decide) rfl (Diagnostic.ofProblem _ _)
    (by rw [diagnostics_of_problem hproblem]; exact List.mem_singleton.2 rfl)
  rw [String.toList_ofList] at hline
  exact absurd hline (by decide)

end Analysis

end BimEditor
