/-
  BimEditor.Proofs.Workspace.Operations

  Stores as runs of operations, in any order and with any arguments. What an operation can make of a
  document is said once (`Outcome`, `outcome_perform`), and what holds of the documents of a store
  throughout a run is derived from that.

  A clean document has an analysis of its current text, however late analyses are handed in: one of
  another text is refused, also where the document was edited, dropped or taken in again since
  (`analysis_eq_ofText_of_clean`).
-/
import BimEditor.Proofs.Workspace.Contents

namespace BimEditor

open BimEditor.Json

/-! ## Runs -/

/-- Something that is done to a store. -/
inductive Operation where
  /-- Take in the text of a document. -/
  | put (uri : Uri) (text : String)
  /-- Ask for a document. -/
  | get (uri : Uri)
  /-- Ask for the analysis of a document. -/
  | analysis (uri : Uri)
  /-- Hand in an analysis of that text in that style for a document, whatever text it has now. -/
  | accept (uri : Uri) (style : TooltipStyle) (text : String)
  | markClean (uri : Uri)
  | restyle (style : TooltipStyle)
  /-- Hold that many documents from now on. -/
  | limitDocuments (limit : Nat)
  /-- Take in texts of that many bytes from now on. -/
  | limitSize (limit : Nat)
  | remove (uri : Uri)
  | clear

namespace Store

/-- A store that holds nothing yet. -/
def new (maxDocuments maxDocumentSize : Nat) : Store :=
  { maxDocuments := maxDocuments, maxDocumentSize := maxDocumentSize }

/-- The store after an operation. -/
def perform (s : Store) : Operation → Store
  | .put uri text => (s.put uri text).1
  | .get uri => (s.get? uri).1
  | .analysis uri => (s.analysis? uri).1
  | .accept uri style text => s.accept uri (.ofText style text)
  | .markClean uri => s.markClean uri
  | .restyle style => (s.restyle style).1
  | .limitDocuments limit => { s with maxDocuments := limit }
  | .limitSize limit => { s with maxDocumentSize := limit }
  | .remove uri => (s.remove uri).1
  | .clear => s.clear

/-- The store after operations, one after the other. -/
def performAll (s : Store) (operations : List Operation) : Store :=
  operations.foldl perform s

theorem performAll_concat (s : Store) (operations : List Operation) (op : Operation) :
    s.performAll (operations ++ [op]) = (s.performAll operations).perform op := by
  rw [performAll, List.foldl_append]
  rfl

/-! ## What an operation makes of a document -/

/-- How a document can come to be held under a name by an operation, in terms of what was held under
    that name before. -/
inductive Outcome (s : Store) (uri : Uri) : Operation → HeldDocument → Prop
  | kept {op : Operation} {d : HeldDocument} (before : s.content? uri = some d) : Outcome s uri op d
  | admitted {text : String} (before : s.content? uri = none) :
      Outcome s uri (.put uri text) (s.admitted text).undated
  | edited {text : String} {d : HeldDocument} (before : s.content? uri = some d) :
      Outcome s uri (.put uri text) (edited d text)
  | analysed {style : TooltipStyle} {text : String} {d : HeldDocument}
      (before : s.content? uri = some d) :
      Outcome s uri (.accept uri style text) (analysed d (.ofText style text))
  | cleaned {d : HeldDocument} (before : s.content? uri = some d) :
      Outcome s uri (.markClean uri) { d with dirty := false }
  | dirtied {style : TooltipStyle} {d : HeldDocument} (before : s.content? uri = some d) :
      Outcome s uri (.restyle style) { d with dirty := true }

theorem content?_get? (s : Store) (uri other : Uri) :
    (s.get? uri).1.content? other = s.content? other := by
  rcases s.get?_cases uri with h | h
  · rw [h]
  · rw [h, content?_touch]

theorem content?_markClean (s : Store) (uri other : Uri) :
    (s.markClean uri).content? other
      = if uri = other then (s.content? other).map fun d => { d with dirty := false }
        else s.content? other := by
  rw [content?, peek?, markClean, Keyed.get?_adjust, content?, peek?]
  split
  · rw [Option.map_map, Option.map_map]
    rfl
  · rfl

variable {s : Store} {uri : Uri} {d : HeldDocument}

theorem outcome_put {other : Uri} {text : String}
    (h : (s.put other text).1.content? uri = some d) : Outcome s uri (.put other text) d := by
  by_cases hne : uri = other
  · subst hne
    have htaken := s.taken_put uri text
    generalize s.put uri text = r at htaken h
    cases htaken with
    | refused => exact .kept h
    | edited before after others style =>
      rw [after] at h
      exact Option.some.inj h ▸ .edited before
    | admitted before after others style =>
      rw [after] at h
      exact Option.some.inj h ▸ .admitted before
  · rcases s.content?_put_of_ne text hne with hnone | hsame
    · rw [hnone] at h
      cases h
    · exact .kept (hsame.symm.trans h)

/-- A document that is held after an operation came about in one of these ways. -/
theorem outcome_perform (op : Operation) (h : (s.perform op).content? uri = some d) :
    Outcome s uri op d := by
  cases op with
  | put other text => exact outcome_put h
  | get other => exact .kept ((s.content?_get? other uri).symm.trans h)
  | analysis other => exact .kept ((s.content?_get? other uri).symm.trans h)
  | accept other style text =>
    rw [perform, content?_accept] at h
    split at h
    · subst other
      obtain ⟨d', before, rfl⟩ := Option.map_eq_some_iff.mp h
      exact .analysed before
    · exact .kept h
  | markClean other =>
    rw [perform, content?_markClean] at h
    split at h
    · subst other
      obtain ⟨d', before, rfl⟩ := Option.map_eq_some_iff.mp h
      exact .cleaned before
    · exact .kept h
  | restyle style =>
    rcases s.restyle_cases style with ⟨-, hsame⟩ | ⟨s', hs', hcontent⟩
    · rw [perform, hsame] at h
      exact .kept h
    · rw [perform, hs', hcontent] at h
      obtain ⟨d', before, rfl⟩ := Option.map_eq_some_iff.mp h
      exact .dirtied before
  | limitDocuments limit => exact .kept h
  | limitSize limit => exact .kept h
  | remove other =>
    rw [perform, content?_remove] at h
    split at h
    · cases h
    · exact .kept h
  | clear => cases h

/-- What holds of a document however it comes about, and is true of all documents that are held at
    first, is true of all that are held after a run. -/
theorem forall_content?_performAll {P : HeldDocument → Prop} {operations : List Operation}
    (first : ∀ uri d, s.content? uri = some d → P d)
    (step : ∀ (s : Store) (op : Operation) (uri : Uri) (d : HeldDocument), op ∈ operations →
      (∀ d', s.content? uri = some d' → P d') → Outcome s uri op d → P d) :
    ∀ uri d, (s.performAll operations).content? uri = some d → P d := by
  induction operations generalizing s with
  | nil => exact first
  | cons op rest ih =>
    apply ih
    · intro uri d hd
      exact step s op uri d List.mem_cons_self (first uri) (outcome_perform op hd)
    · intro s' op' uri d hmem
      exact step s' op' uri d (List.mem_cons_of_mem op hmem)

/-! ## Fingerprints and analyses -/

theorem print_edited {text : String} (h : d.print = fingerprint d.text) :
    (edited d text).print = fingerprint (edited d text).text := by
  by_cases hprint : d.print = fingerprint text
  · rw [edited, if_pos hprint]
    exact h
  · rw [edited, if_neg hprint]

theorem print_analysed {a : Analysis} (h : d.print = fingerprint d.text) :
    (analysed d a).print = fingerprint (analysed d a).text := by
  rw [analysed]
  split <;> exact h

/-- In every run, the fingerprint of a document is that of its text. -/
theorem print_eq_fingerprint (maxDocuments maxDocumentSize : Nat) (operations : List Operation)
    (uri : Uri) (d : HeldDocument)
    (held : ((new maxDocuments maxDocumentSize).performAll operations).content? uri = some d) :
    d.print = fingerprint d.text := by
  refine forall_content?_performAll (P := fun d => d.print = fingerprint d.text) ?_ ?_ uri d held
  · intro uri d hd
    cases hd
  · intro s op uri d _ ih outcome
    cases outcome with
    | kept before => exact ih d before
    | admitted before => rfl
    | edited before => exact print_edited (ih _ before)
    | analysed before => exact print_analysed (ih _ before)
    | @cleaned d' before => exact ih d' before
    | @dirtied style d' before => exact ih d' before

/-- If the document is clean, its analysis is one of its text. -/
def AnalysedIfClean (d : HeldDocument) : Prop :=
  d.dirty = false → ∃ style, d.analysis = .ofText style d.text

theorem analysedIfClean_edited {text : String} (h : AnalysedIfClean d) :
    AnalysedIfClean (edited d text) := by
  by_cases hprint : d.print = fingerprint text
  · rw [edited, if_pos hprint]
    exact h
  · rw [edited, if_neg hprint]
    exact fun hclean => Bool.noConfusion hclean

/-- An analysis is accepted only where it is one of the text that is held. -/
theorem analysedIfClean_analysed {style : TooltipStyle} {text : String} (h : AnalysedIfClean d) :
    AnalysedIfClean (analysed d (.ofText style text)) := by
  by_cases htext : d.text = (Analysis.ofText style text).text
  · rw [analysed, if_pos htext]
    rw [Analysis.text_ofText] at htext
    exact fun _ => ⟨style, by rw [htext]⟩
  · rw [analysed, if_neg htext]
    exact h

/-- In every run that never uses `markClean`, a clean document has an analysis of its current text,
    and every document has the fingerprint of its current text. -/
theorem analysis_eq_ofText_of_clean (maxDocuments maxDocumentSize : Nat)
    (operations : List Operation) (unmarked : ∀ uri, Operation.markClean uri ∉ operations)
    (uri : Uri) (d : HeldDocument)
    (held : ((new maxDocuments maxDocumentSize).performAll operations).peek? uri = some d) :
    (d.dirty = false → ∃ style, d.analysis = .ofText style d.text)
      ∧ d.print = fingerprint d.text := by
  have hcontent : ((new maxDocuments maxDocumentSize).performAll operations).content? uri
      = some d.undated := by
    rw [content?, held, Option.map_some]
  constructor
  · -- `undated` changes neither text nor analysis nor mark
    refine forall_content?_performAll (P := AnalysedIfClean) ?_ ?_ uri d.undated hcontent
    · intro uri d hd
      cases hd
    · intro s op uri d hmem ih outcome
      cases outcome with
      | kept before => exact ih d before
      | admitted before => exact fun _ => ⟨s.style, rfl⟩
      | edited before => exact analysedIfClean_edited (ih _ before)
      | analysed before => exact analysedIfClean_analysed (ih _ before)
      | cleaned before => exact absurd hmem (unmarked uri)
      | dirtied before => exact fun hclean => Bool.noConfusion hclean
  · exact print_eq_fingerprint maxDocuments maxDocumentSize operations uri d.undated hcontent

/-- An analysis of a text comes late, after the document was dropped and taken in with another one,
    and then once more, after the old text has come back. -/
def lateAnalyses : List Operation :=
  [.put "file:///w/a.ifcx" "\x7b", .remove "file:///w/a.ifcx", .put "file:///w/a.ifcx" "[",
    .accept "file:///w/a.ifcx" .summary "\x7b", .put "file:///w/a.ifcx" "\x7b",
    .restyle .summary, .accept "file:///w/a.ifcx" .detailed "\x7b"]

theorem analysis_eq_ofText_of_clean_lateAnalyses :
    (∀ uri, Operation.markClean uri ∉ lateAnalyses)
      ∧ ∃ d, ((new 1 1).performAll lateAnalyses).peek? "file:///w/a.ifcx" = some d
        ∧ d.dirty = false ∧ (∃ style, d.analysis = .ofText style d.text)
        ∧ d.print = fingerprint d.text := by
  have hunmarked : ∀ uri, Operation.markClean uri ∉ lateAnalyses := by simp [lateAnalyses]
  have hclean : ∃ d, ((new 1 1).performAll lateAnalyses).peek? "file:///w/a.ifcx" = some d
      ∧ d.dirty = false := by
    with_unfolding_all exact ⟨_, rfl, rfl⟩
  obtain ⟨d, hd, hd'⟩ := hclean
  have h := analysis_eq_ofText_of_clean 1 1 lateAnalyses hunmarked _ d hd
  exact ⟨hunmarked, d, hd, hd', h.1 hd', h.2⟩

end Store

end BimEditor
