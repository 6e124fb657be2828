/-
  BimEditor.Proofs.Workspace.Publication

  Which diagnostics an editor sees last. One way into the store publishes nothing: an edit or a save
  of a document that is not held, because it was never opened or was dropped to make room. Such a
  document is analysed when it is taken in, is therefore clean, and no watcher looks at it.

  By induction over the run (`Tended`), a dirty document is always awaited, and a clean one has its
  diagnostics published unless it came in by an edit or a save and nothing was published for it
  since. So the published diagnostics are out of date exactly after such an entry, and only if the
  ones published before it differ (`lastPublished?_eq_iff`).
-/
import Mathlib.Data.List.Induction
import BimEditor.Proofs.Workspace.Effects

namespace BimEditor

open BimEditor.Json

namespace Session

variable {e : Step} {s : Session} {uri : Uri}

/-! ## Runs -/

/-- The step is an edit or a save that takes the document in, which was not held before. -/
def AdmitsUnopened (s : Session) (uri : Uri) (e : Step) : Prop :=
  e.Edits uri ∧ s.store.peek? uri = none ∧ ((s.step e).store.peek? uri).isSome = true

/-- In the run, an edit or a save took the document in after the steps `before`, and nothing was
    published for it since. -/
def UnannouncedSince (s : Session) (steps : List Step) (uri : Uri) (before : List Step) : Prop :=
  ∃ e after, steps = before ++ e :: after ∧ (s.run before).AdmitsUnopened uri e
    ∧ (s.run before).published uri = (s.run steps).published uri

/-- What holds of a document throughout a run: while it is dirty, a watcher will look at it; when it
    is clean, its analysis is current, and published unless it is unannounced. -/
structure Tended (s : Session) (steps : List Step) (uri : Uri) : Prop where
  emptyHanded : (s.run steps).EmptyHanded
  dirty : (s.run steps).store.isDirty uri = true → (s.run steps).Awaits uri
  faithful : (s.run steps).Faithful uri
  clean : ∀ d, (s.run steps).store.content? uri = some d → d.dirty = false →
    (s.run steps).lastPublished? uri = some d.analysis.diagnostics
      ∨ ∃ before, s.UnannouncedSince steps uri before

theorem UnannouncedSince.concat {steps before : List Step} (h : s.UnannouncedSince steps uri before)
    (hpublished : (s.run (steps ++ [e])).published uri = (s.run steps).published uri) :
    s.UnannouncedSince (steps ++ [e]) uri before := by
  obtain ⟨e', after, rfl, hadmits, hsince⟩ := h
  refine ⟨e', after ++ [e], by simp, hadmits, ?_⟩
  rw [hpublished, hsince]

/-- A document that is not held has nothing to be tended. -/
theorem Tended.of_none {steps : List Step} (hempty : (s.run steps).EmptyHanded)
    (hnone : (s.run steps).store.content? uri = none) : s.Tended steps uri where
  emptyHanded := hempty
  dirty hdirty := by
    rw [Store.isDirty_eq, hnone] at hdirty
    cases hdirty
  faithful d hd := by
    rw [hnone] at hd
    cases hd
  clean d hd := by
    rw [hnone] at hd
    cases hd

/-- One more step: whatever its effect on the document is, the document stays tended. -/
theorem Tended.concat {steps : List Step} (h : s.Tended steps uri) (e : Step) :
    s.Tended (steps ++ [e]) uri := by
  have hrun := s.run_concat steps e
  have heffect := effect_step e h.emptyHanded h.faithful
  rw [← hrun] at heffect
  have hempty : (s.run (steps ++ [e])).EmptyHanded := hrun ▸ emptyHanded_step e h.emptyHanded
  cases heffect with
  | gone after => exact .of_none hempty after
  | kept same awaits =>
    refine ⟨hempty, fun hdirty => ?_, fun d hd hclean => ?_, fun d hd hclean => ?_⟩
    · rw [Store.isDirty_eq, same.content, ← Store.isDirty_eq] at hdirty
      exact awaits hdirty (h.dirty hdirty)
    · rw [same.content] at hd
      rw [same.style]
      exact h.faithful d hd hclean
    · rw [same.content] at hd
      rw [lastPublished?, same.published]
      rcases h.clean d hd hclean with hlast | ⟨before, hsince⟩
      · exact .inl hlast
      · exact .inr ⟨before, hsince.concat same.published⟩
  | shown after =>
    -- the session after the step holds one document of that name, the one that is shown
    refine ⟨hempty, fun hdirty => ?_, fun d hd _ => ?_, fun d hd _ => .inl ?_⟩
    · rw [after.isDirty] at hdirty
      cases hdirty
    · obtain ⟨d', hd', hcurrent, -⟩ := after
      obtain rfl := Option.some.inj (hd'.symm.trans hd)
      exact hcurrent
    · obtain ⟨d', hd', -, hlast⟩ := after
      obtain rfl := Option.some.inj (hd'.symm.trans hd)
      exact hlast
  | awaited dirty awaits =>
    -- nothing is asked of the analysis of a dirty document
    have hclean : ∀ d, (s.run (steps ++ [e])).store.content? uri = some d → d.dirty ≠ false := by
      intro d hd hclean
      rw [Store.isDirty_eq, hd, Option.any_some, hclean] at dirty
      cases dirty
    exact ⟨hempty, fun _ => awaits, fun d hd h => absurd h (hclean d hd),
      fun d hd h => absurd h (hclean d hd)⟩
  | @admitted d edits before after current published =>
    have hd : ∀ d', (s.run (steps ++ [e])).store.content? uri = some d' → d' = d :=
      fun d' hd' => Option.some.inj (hd'.symm.trans after)
    refine ⟨hempty, fun hdirty => ?_, fun d' hd' _ => ?_, fun d' hd' _ => .inr ?_⟩
    · rw [Store.isDirty_eq, after, Option.any_some, current.1] at hdirty
      cases hdirty
    · rw [hd d' hd']
      exact current
    · -- the run so far is what came before
      refine ⟨steps, e, [], rfl, ⟨edits, Store.content?_eq_none.mp before, ?_⟩, published.symm⟩
      rw [← hrun, ← Option.isSome_map (f := HeldDocument.undated)]
      rw [Store.content?] at after
      rw [after]
      rfl

/-- A session that was just started. -/
def begun (settings : Settings) (options : Option Value) : Session :=
  (new settings).start options

theorem documents_begun (settings : Settings) (options : Option Value) :
    (begun settings options).store.documents = [] := by
  cases options with
  | none => rfl
  | some v =>
    by_cases h : TooltipStyle.detailed = (Settings.readOrDefault v).style <;>
      simp [begun, start, configure, Store.restyle, new, h]

theorem watchers_begun (settings : Settings) (options : Option Value) :
    (begun settings options).watchers = [] := by
  cases options <;> rfl

theorem tended_run (settings : Settings) (options : Option Value) (steps : List Step) (uri : Uri) :
    (begun settings options).Tended steps uri := by
  induction steps using List.reverseRecOn with
  | nil =>
    have hnone : (begun settings options).store.content? uri = none := by
      rw [Store.content?, Store.peek?, documents_begun]
      rfl
    refine .of_none (fun w hw => ?_) hnone
    rw [run_nil, watchers_begun] at hw
    cases hw
  | append_singleton steps e ih => exact ih.concat e

/-- When nothing of a document is awaited any more, the last diagnostics published for it are those
    of the text that is held, exactly if the following holds: wherever an edit or a save took the
    document in and nothing was published for it since, these diagnostics had been published last
    before. -/
theorem lastPublished?_eq_iff (settings : Settings) (options : Option Value) (steps : List Step)
    (uri : Uri) (d : HeldDocument)
    (held : ((begun settings options).run steps).store.peek? uri = some d)
    (quiet : ¬ ((begun settings options).run steps).Awaits uri) :
    ((begun settings options).run steps).lastPublished? uri
        = some (Analysis.ofText ((begun settings options).run steps).store.style d.text).diagnostics
      ↔ ∀ before, (begun settings options).UnannouncedSince steps uri before →
          ((begun settings options).run before).lastPublished? uri
            = some (Analysis.ofText ((begun settings options).run steps).store.style
                d.text).diagnostics := by
  have htended := tended_run settings options steps uri
  have hcontent : ((begun settings options).run steps).store.content? uri = some d.undated := by
    rw [Store.content?, held, Option.map_some]
  -- a dirty document would be awaited
  have hclean : d.undated.dirty = false := by
    by_contra hdirty
    apply quiet
    apply htended.dirty
    rw [Store.isDirty_eq, hcontent]
    exact Bool.not_eq_false _ ▸ hdirty
  have hanalysis := (htended.faithful _ hcontent hclean).2
  -- what was published before an unannounced entry is still what was published last
  constructor
  · rintro hlast before ⟨e, after, -, -, hsince⟩
    rw [lastPublished?, hsince]
    exact hlast
  · intro hbefore
    rcases htended.clean _ hcontent hclean with hlast | ⟨before, hun⟩
    · rw [hlast, hanalysis]
      rfl
    · obtain ⟨e, after, -, -, hsince⟩ := id hun
      rw [lastPublished?, ← hsince]
      exact hbefore before hun

/-- A document with nothing in it, and nothing wrong. -/
def emptyDocument : String :=
  "\x7b\"header\":\x7b\"version\":\"1\",\"author\":\"a\",\"timestamp\":\"t\"\x7d,"
    ++ "\"schemas\":\x7b\x7d,\"data\":[]\x7d"

/-- A session that holds one document at a time. -/
def roomForOne : Session :=
  begun { maxDocuments := 1 } none

/-- A document is dropped when another one is opened, and then edited: one brace is left of it. -/
def editAfterDrop : List Step :=
  [.event (.opened "file:///w/a.ifcx" emptyDocument),
    .event (.opened "file:///w/b.ifcx" emptyDocument),
    .event (.changed "file:///w/a.ifcx" ["\x7b"]), .receive 0, .fire 0]

/-- The edited document is held with its new text, and nothing is awaited. -/
theorem editAfterDrop_settled :
    (∃ d, (roomForOne.run editAfterDrop).store.peek? "file:///w/a.ifcx" = some d
        ∧ d.text = "\x7b")
      ∧ ∀ uri, ¬ (roomForOne.run editAfterDrop).Awaits uri := by
  constructor
  · with_unfolding_all exact ⟨_, rfl, rfl⟩
  · rintro uri ⟨w, hw, -, hpending⟩
    have hrest : (roomForOne.run editAfterDrop).watchers.all (fun w => !w.isPending) = true := by
      with_unfolding_all rfl
    have := List.all_eq_true.mp hrest w hw
    rw [hpending] at this
    cases this

/-- Nothing was wrong with the text that was published, and one error is due for the new one. -/
theorem lastPublished?_editAfterDrop_ne :
    (roomForOne.run editAfterDrop).lastPublished? "file:///w/a.ifcx"
      ≠ some (Analysis.ofText (roomForOne.run editAfterDrop).store.style "\x7b").diagnostics := by
  intro hlast
  have hnone : (roomForOne.run editAfterDrop).lastPublished? "file:///w/a.ifcx" = some [] := by
    with_unfolding_all rfl
  have hone : (Analysis.ofText (roomForOne.run editAfterDrop).store.style
      "\x7b").diagnostics.length = 1 := by
    with_unfolding_all rfl
  have hempty := Option.some.inj (hnone.symm.trans hlast)
  have : (0 : Nat) = 1 := (congrArg List.length hempty).trans hone
  omega

/-- A document is opened, and nothing else happens. -/
def openedOnly : List Step :=
  [.event (.opened "file:///w/a.ifcx" emptyDocument)]

/-- The edit of a document that was dropped is not published. What is published for a document that
    was just opened is that of its text. -/
theorem lastPublished?_eq_iff_editAfterDrop :
    (∃ d, (roomForOne.run editAfterDrop).store.peek? "file:///w/a.ifcx" = some d
        ∧ ¬ (roomForOne.run editAfterDrop).Awaits "file:///w/a.ifcx"
        ∧ (roomForOne.run editAfterDrop).lastPublished? "file:///w/a.ifcx"
          ≠ some (Analysis.ofText (roomForOne.run editAfterDrop).store.style d.text).diagnostics
        ∧ ¬ ∀ before, roomForOne.UnannouncedSince editAfterDrop "file:///w/a.ifcx" before →
          (roomForOne.run before).lastPublished? "file:///w/a.ifcx"
            = some (Analysis.ofText (roomForOne.run editAfterDrop).store.style
                d.text).diagnostics)
      ∧ ∃ d, (roomForOne.run openedOnly).store.peek? "file:///w/a.ifcx" = some d
        ∧ ¬ (roomForOne.run openedOnly).Awaits "file:///w/a.ifcx"
        ∧ (roomForOne.run openedOnly).lastPublished? "file:///w/a.ifcx"
          = some (Analysis.ofText (roomForOne.run openedOnly).store.style d.text).diagnostics
        ∧ ∀ before, roomForOne.UnannouncedSince openedOnly "file:///w/a.ifcx" before →
          (roomForOne.run before).lastPublished? "file:///w/a.ifcx"
            = some (Analysis.ofText (roomForOne.run openedOnly).store.style
                d.text).diagnostics := by
  constructor
  · -- the document comes in again by an edit, for which nothing is due
    obtain ⟨⟨d, hd, htext⟩, hquiet⟩ := editAfterDrop_settled
    have hiff := lastPublished?_eq_iff { maxDocuments := 1 } none editAfterDrop _ d hd (hquiet _)
    have hne := lastPublished?_editAfterDrop_ne
    rw [← htext] at hne
    exact ⟨d, hd, hquiet _, hne, mt hiff.2 hne⟩
  · -- an opened document is announced at once
    have hheld : ∃ d, (roomForOne.run openedOnly).store.peek? "file:///w/a.ifcx" = some d
        ∧ d.text = emptyDocument := by
      with_unfolding_all exact ⟨_, rfl, rfl⟩
    obtain ⟨d, hd, htext⟩ := hheld
    have hquiet : ¬ (roomForOne.run openedOnly).Awaits "file:///w/a.ifcx" := by
      rintro ⟨w, hw, -⟩
      have hnone : (roomForOne.run openedOnly).watchers = [] := by
        with_unfolding_all rfl
      rw [hnone] at hw
      cases hw
    have hiff := lastPublished?_eq_iff { maxDocuments := 1 } none openedOnly _ d hd hquiet
    have hlast : (roomForOne.run openedOnly).lastPublished? "file:///w/a.ifcx"
        = some (Analysis.ofText (roomForOne.run openedOnly).store.style d.text).diagnostics := by
      rw [htext]
      with_unfolding_all rfl
    exact ⟨d, hd, hquiet, hlast, hiff.1 hlast⟩

/-- The last diagnostics published for a document are not always those of its text. -/
theorem not_forall_lastPublished?_eq :
    ¬ ∀ (settings : Settings) (options : Option Value) (steps : List Step) (uri : Uri)
        (d : HeldDocument), ((begun settings options).run steps).store.peek? uri = some d →
        (∀ other, ¬ ((begun settings options).run steps).Awaits other) →
        ((begun settings options).run steps).lastPublished? uri
          = some (Analysis.ofText ((begun settings options).run steps).store.style
              d.text).diagnostics := by
  intro h
  obtain ⟨⟨d, hd, htext⟩, hquiet⟩ := editAfterDrop_settled
  have hlast := h { maxDocuments := 1 } none editAfterDrop _ d hd hquiet
  rw [htext] at hlast
  exact lastPublished?_editAfterDrop_ne hlast

end Session

end BimEditor
