/-
  BimEditor.Proofs.Workspace.Styles

  In which style the analysis of a clean document describes schemas. An analysis takes a while: it
  is begun with the text of the document and the style of the store as they are then, and handed in
  later. Meanwhile texts may come in and the style may change (`Workbench`).

  Setting another style makes every document dirty, so that its next analysis has that style. But an
  analysis is refused only for its text. One that was begun in the old style and is handed in after
  the change is taken, and the mark is gone (`not_forall_style_eq`). Nothing else leaves a clean
  document with an analysis in another style (`style_eq_iff`).
-/
import Mathlib.Data.List.Induction
import BimEditor.Proofs.Workspace.Operations

namespace BimEditor

open BimEditor.Json

/-- Handing in the analysis that a document has already only takes its mark away. -/
theorem Store.accept_eq_markClean {s : Store} {uri : Uri} {d : HeldDocument}
    (held : s.peek? uri = some d) (htext : d.text = d.analysis.text) :
    s.accept uri d.analysis = s.markClean uri := by
  rw [accept, markClean]
  congr 1
  exact Keyed.adjust_congr held (by rw [analysed, if_pos htext])

/-! ## Analyses that take a while -/

/-- A store, and the analyses that were begun and not handed in yet, each with the name of its
    document. -/
structure Workbench where
  store : Store
  underway : List (Uri × Analysis) := []

namespace Workbench

/-- Something that happens at once. -/
inductive Step where
  | put (uri : Uri) (text : String)
  | restyle (style : TooltipStyle)
  /-- An analysis of the document is begun, with its text and the style as they are now. -/
  | analyse (uri : Uri)
  /-- The analysis at that place is handed in. -/
  | handIn (i : Nat)

/-- A workbench with nothing on it. -/
def new (maxDocuments maxDocumentSize : Nat) : Workbench where
  store := .new maxDocuments maxDocumentSize

/-- The workbench after a step. -/
def step (b : Workbench) : Step → Workbench
  | .put uri text => { b with store := (b.store.put uri text).1 }
  | .restyle style => { b with store := (b.store.restyle style).1 }
  | .analyse uri =>
    { b with underway := b.underway ++ ((b.store.analyse? uri).map fun a => (uri, a)).toList }
  | .handIn i =>
    match b.underway[i]? with
    | some (uri, a) => { store := b.store.accept uri a, underway := b.underway.eraseIdx i }
    | none => b

/-- The workbench after steps, one after the other. -/
def run (b : Workbench) (steps : List Step) : Workbench :=
  steps.foldl step b

theorem run_concat (b : Workbench) (steps : List Step) (e : Step) :
    b.run (steps ++ [e]) = (b.run steps).step e := by
  rw [run, List.foldl_append]
  rfl

variable {b : Workbench} {steps : List Step} {e : Step} {uri : Uri} {a : Analysis}

/-! ## Late analyses -/

/-- In the run, this analysis of the document was begun after the steps `before`. -/
def BegunAfter (b : Workbench) (steps : List Step) (uri : Uri) (a : Analysis)
    (before : List Step) : Prop :=
  (b.run before).store.analyse? uri = some a ∧ ∃ after, steps = before ++ .analyse uri :: after

theorem BegunAfter.concat {before : List Step} (h : b.BegunAfter steps uri a before) (e : Step) :
    b.BegunAfter (steps ++ [e]) uri a before := by
  obtain ⟨hanalyse, after, rfl⟩ := h
  exact ⟨hanalyse, after ++ [e], by simp⟩

/-- The style of an analysis is the one that was in force when it was begun. -/
theorem BegunAfter.style {before : List Step} (h : b.BegunAfter steps uri a before) :
    a.style = (b.run before).store.style := by
  have hanalyse := h.1
  rw [Store.analyse?_eq, Option.map_eq_some_iff] at hanalyse
  obtain ⟨d, -, rfl⟩ := hanalyse
  exact Analysis.style_ofText _ _

theorem begunAfter_of_underway (hnone : b.underway = []) (steps : List Step) :
    ∀ entry ∈ (b.run steps).underway, ∃ before, b.BegunAfter steps entry.1 entry.2 before := by
  induction steps using List.reverseRecOn with
  | nil =>
    intro entry hentry
    rw [run, List.foldl_nil, hnone] at hentry
    cases hentry
  | append_singleton steps e ih =>
    -- what was underway before this step was begun earlier
    have hearlier : ∀ entry ∈ (b.run steps).underway,
        ∃ before, b.BegunAfter (steps ++ [e]) entry.1 entry.2 before := by
      intro entry hentry
      obtain ⟨before, hbefore⟩ := ih entry hentry
      exact ⟨before, hbefore.concat e⟩
    intro entry hentry
    rw [run_concat] at hentry
    cases e with
    | put uri text => exact hearlier entry hentry
    | restyle style => exact hearlier entry hentry
    | analyse uri =>
      rcases List.mem_append.mp hentry with hentry | hentry
      · exact hearlier entry hentry
      · rw [Option.mem_toList, Option.map_eq_some_iff] at hentry
        obtain ⟨a, ha, rfl⟩ := hentry
        exact ⟨steps, ha, [], rfl⟩
    | handIn i =>
      rw [step] at hentry
      split at hentry
      · exact hearlier entry (List.eraseIdx_subset hentry)
      · exact hearlier entry hentry

/-- In the run, this analysis of the document was begun and handed in, and the style has changed in
    between. The style at its end is still in force. -/
def HandedInLate (b : Workbench) (steps : List Step) (uri : Uri) (a : Analysis) : Prop :=
  ∃ before upTo i after, b.BegunAfter upTo uri a before
    ∧ steps = upTo ++ .handIn i :: after
    ∧ (b.run upTo).underway[i]? = some (uri, a)
    ∧ (b.run before).store.style ≠ (b.run upTo).store.style
    ∧ (b.run upTo).store.style = (b.run steps).store.style

theorem HandedInLate.concat (h : b.HandedInLate steps uri a)
    (hstyle : (b.run (steps ++ [e])).store.style = (b.run steps).store.style) :
    b.HandedInLate (steps ++ [e]) uri a := by
  obtain ⟨before, upTo, i, after, hbegun, rfl, hunderway, hchanged, hsame⟩ := h
  exact ⟨before, upTo, i, after ++ [e], hbegun, by simp, hunderway, hchanged,
    hsame.trans hstyle.symm⟩

theorem HandedInLate.style_ne (h : b.HandedInLate steps uri a) :
    a.style ≠ (b.run steps).store.style := by
  obtain ⟨before, upTo, i, after, hbegun, -, -, hchanged, hsame⟩ := h
  rw [hbegun.style, ← hsame]
  exact hchanged

/-- What holds of a document throughout a run: if it is clean, its analysis is in the style of the
    store, or was handed in late. -/
def Styled (b : Workbench) (steps : List Step) (uri : Uri) : Prop :=
  ∀ d, (b.run steps).store.content? uri = some d → d.dirty = false →
    d.analysis.style = (b.run steps).store.style ∨ b.HandedInLate steps uri d.analysis

/-- A document that was clean already and is the same after a step that does not change the
    style. -/
theorem Styled.kept (h : b.Styled steps uri) {d : HeldDocument}
    (before : (b.run steps).store.content? uri = some d) (clean : d.dirty = false)
    (hstyle : (b.run (steps ++ [e])).store.style = (b.run steps).store.style) :
    d.analysis.style = (b.run (steps ++ [e])).store.style
      ∨ b.HandedInLate (steps ++ [e]) uri d.analysis := by
  rcases h d before clean with hsame | hlate
  · exact .inl (hsame.trans hstyle.symm)
  · exact .inr (hlate.concat hstyle)

theorem Styled.frame (h : b.Styled steps uri)
    (hstore : (b.run (steps ++ [e])).store = (b.run steps).store) :
    b.Styled (steps ++ [e]) uri := by
  intro d hd hclean
  rw [hstore] at hd
  exact h.kept hd hclean (by rw [hstore])

theorem Styled.put (h : b.Styled steps uri) (other : Uri) (text : String) :
    b.Styled (steps ++ [.put other text]) uri := by
  have hstore : (b.run (steps ++ [.put other text])).store
      = ((b.run steps).store.put other text).1 := by
    rw [run_concat]
    rfl
  have hstyle := (b.run steps).store.style_put other text
  rw [← hstore] at hstyle
  intro d hd hclean
  rw [hstore] at hd
  cases Store.outcome_put hd with
  | kept before => exact h.kept before hclean hstyle
  | admitted before =>
    left
    rw [hstyle]
    exact Analysis.style_ofText _ _
  | @edited _ d' before =>
    by_cases hprint : d'.print = fingerprint text
    · rw [Store.edited, if_pos hprint] at hclean ⊢
      exact h.kept before hclean hstyle
    · -- the document is dirty now
      rw [Store.edited, if_neg hprint] at hclean
      cases hclean

theorem Styled.restyle (h : b.Styled steps uri) (style : TooltipStyle) :
    b.Styled (steps ++ [.restyle style]) uri := by
  have hstore : (b.run (steps ++ [.restyle style])).store
      = ((b.run steps).store.restyle style).1 := by
    rw [run_concat]
    rfl
  rcases (b.run steps).store.restyle_cases style with ⟨-, hsame⟩ | ⟨store, hother, hcontent⟩
  · rw [hsame] at hstore
    exact h.frame hstore
  · -- no document is clean now
    rw [hother] at hstore
    intro d hd hclean
    rw [hstore, hcontent, Option.map_eq_some_iff] at hd
    obtain ⟨d', -, rfl⟩ := hd
    cases hclean

theorem Styled.handIn (h : b.Styled steps uri)
    (begun : ∀ entry ∈ (b.run steps).underway,
      ∃ before, b.BegunAfter steps entry.1 entry.2 before) (i : Nat) :
    b.Styled (steps ++ [.handIn i]) uri := by
  cases hunderway : (b.run steps).underway[i]? with
  | none =>
    refine h.frame ?_
    rw [run_concat, step, hunderway]
  | some entry =>
    obtain ⟨other, a⟩ := entry
    have hstore : (b.run (steps ++ [.handIn i])).store = (b.run steps).store.accept other a := by
      rw [run_concat, step, hunderway]
    have hstyle : (b.run (steps ++ [.handIn i])).store.style = (b.run steps).store.style := by
      rw [hstore]
      rfl
    intro d' hd' hclean
    rw [hstore, Store.content?_accept] at hd'
    split at hd'
    · subst other
      obtain ⟨d, hd, rfl⟩ := Option.map_eq_some_iff.mp hd'
      by_cases htext : d.text = a.text
      · -- the analysis is taken, and is in the style of the store or late
        rw [Store.analysed, if_pos htext, hstyle]
        by_cases hsame : a.style = (b.run steps).store.style
        · exact .inl hsame
        · right
          obtain ⟨before, hbegun⟩ := begun _ (List.mem_of_getElem? hunderway)
          rw [hbegun.style] at hsame
          exact ⟨before, steps, i, [], hbegun, rfl, hunderway, hsame, hstyle.symm⟩
      · rw [Store.analysed, if_neg htext] at hclean ⊢
        exact h.kept hd hclean hstyle
    · exact h.kept hd' hclean hstyle

theorem styled_run (maxDocuments maxDocumentSize : Nat) (steps : List Step) (uri : Uri) :
    (new maxDocuments maxDocumentSize).Styled steps uri := by
  induction steps using List.reverseRecOn with
  | nil =>
    intro d hd
    cases hd
  | append_singleton steps e ih =>
    cases e with
    | put other text => exact ih.put other text
    | restyle style => exact ih.restyle style
    | analyse other =>
      refine ih.frame ?_
      rw [run_concat]
      rfl
    | handIn i => exact ih.handIn (begunAfter_of_underway rfl steps) i

/-- The analysis of a clean document is in the style of the store, exactly if it was not handed in
    late: begun before a change of the style and handed in after it. -/
theorem style_eq_iff (maxDocuments maxDocumentSize : Nat) (steps : List Step) (uri : Uri)
    (d : HeldDocument)
    (held : ((new maxDocuments maxDocumentSize).run steps).store.peek? uri = some d)
    (clean : d.dirty = false) :
    d.analysis.style = ((new maxDocuments maxDocumentSize).run steps).store.style
      ↔ ¬ (new maxDocuments maxDocumentSize).HandedInLate steps uri d.analysis := by
  have hcontent : ((new maxDocuments maxDocumentSize).run steps).store.content? uri
      = some d.undated := by
    rw [Store.content?, held, Option.map_some]
  constructor
  · intro hsame hlate
    exact hlate.style_ne hsame
  · intro hnot
    exact (styled_run maxDocuments maxDocumentSize steps uri d.undated hcontent clean).resolve_right
      hnot

/-! ## A late analysis -/

/-- The style changes between the beginning of an analysis and its end. -/
def restyledMeanwhile : List Step :=
  [.put "file:///w/a.ifcx" "\x7b", .analyse "file:///w/a.ifcx", .restyle .summary, .handIn 0]

/-- The document is then as if it had been counted as analysed right after the change. -/
theorem store_restyledMeanwhile :
    ((new 1 1).run restyledMeanwhile).store
      = ((((Store.new 1 1).put "file:///w/a.ifcx" "\x7b").1.restyle .summary).1).markClean
          "file:///w/a.ifcx" := by
  refine Store.accept_eq_markClean
    (d := { (Store.new 1 1).admitted "\x7b" with dirty := true }) ?_ ?_
  · with_unfolding_all rfl
  · exact (Analysis.text_ofText _ _).symm

/-- The document is clean, and has the analysis that it came in with, in the style of that time. -/
theorem held_restyledMeanwhile :
    ((new 1 1).run restyledMeanwhile).store.peek? "file:///w/a.ifcx"
        = some ((Store.new 1 1).admitted "\x7b")
      ∧ ((new 1 1).run restyledMeanwhile).store.style = .summary := by
  rw [store_restyledMeanwhile]
  constructor <;> with_unfolding_all rfl

theorem style_restyledMeanwhile_ne :
    ((Store.new 1 1).admitted "\x7b").analysis.style
      ≠ ((new 1 1).run restyledMeanwhile).store.style := by
  have hdetailed : ((Store.new 1 1).admitted "\x7b").analysis.style = .detailed :=
    Analysis.style_ofText _ _
  rw [hdetailed, held_restyledMeanwhile.2]
  decide

/-- A late analysis is in the old style. A document that just came in has an analysis in the style
    of the store, and none was handed in late. -/
theorem style_eq_iff_restyledMeanwhile :
    (∃ d, ((new 1 1).run restyledMeanwhile).store.peek? "file:///w/a.ifcx" = some d
        ∧ d.dirty = false
        ∧ d.analysis.style ≠ ((new 1 1).run restyledMeanwhile).store.style
        ∧ (new 1 1).HandedInLate restyledMeanwhile "file:///w/a.ifcx" d.analysis)
      ∧ ∃ d, ((new 1 1).run [.put "file:///w/a.ifcx" "\x7b"]).store.peek? "file:///w/a.ifcx"
          = some d
        ∧ d.dirty = false
        ∧ d.analysis.style = ((new 1 1).run [.put "file:///w/a.ifcx" "\x7b"]).store.style
        ∧ ¬ (new 1 1).HandedInLate [.put "file:///w/a.ifcx" "\x7b"] "file:///w/a.ifcx"
          d.analysis := by
  constructor
  · have hheld := held_restyledMeanwhile.1
    have hiff := style_eq_iff 1 1 restyledMeanwhile _ _ hheld rfl
    exact ⟨_, hheld, rfl, style_restyledMeanwhile_ne,
      not_not.1 (mt hiff.2 style_restyledMeanwhile_ne)⟩
  · have hheld : ((new 1 1).run [.put "file:///w/a.ifcx" "\x7b"]).store.peek? "file:///w/a.ifcx"
        = some ((Store.new 1 1).admitted "\x7b") := by
      with_unfolding_all rfl
    have hiff := style_eq_iff 1 1 [.put "file:///w/a.ifcx" "\x7b"] _ _ hheld rfl
    have hstyle : ((Store.new 1 1).admitted "\x7b").analysis.style
        = ((new 1 1).run [.put "file:///w/a.ifcx" "\x7b"]).store.style :=
      Analysis.style_ofText _ _
    exact ⟨_, hheld, rfl, hstyle, hiff.1 hstyle⟩

/-- The analysis of a clean document is not always in the style of the store. -/
theorem not_forall_style_eq :
    ¬ ∀ (maxDocuments maxDocumentSize : Nat) (steps : List Step) (uri : Uri) (d : HeldDocument),
        ((new maxDocuments maxDocumentSize).run steps).store.peek? uri = some d →
        d.dirty = false →
        d.analysis.style = ((new maxDocuments maxDocumentSize).run steps).store.style := by
  intro h
  exact style_restyledMeanwhile_ne (h 1 1 restyledMeanwhile _ _ held_restyledMeanwhile.1 rfl)

end Workbench

end BimEditor
