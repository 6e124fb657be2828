/-
  BimEditor.Proofs.Workspace.Effects

  What a step of a session can mean for one document. It may leave the document as it is, drop it,
  bring it in order with its diagnostics published, make it dirty while a watcher is signalled, or
  take it in without publishing anything. `Effect` lists these cases and `effect_step` says that
  every step has one of them, so that a statement about runs is proved by cases on the effect and
  not on the step.

  Opening a document publishes its diagnostics at once, whether it was held before or not. An edit
  or a save publishes only what is dirty, which a document is not that just came in.
-/
import BimEditor.Proofs.Workspace.Steps

namespace BimEditor

open BimEditor.Json

/-! ## What was published -/

/-- The diagnostics that a notice publishes for a document. -/
def Notice.diagnosticsFor? (uri : Uri) : Notice → Option (List Diagnostic)
  | .diagnostics other found => if other = uri then some found else none
  | .message _ => none

namespace Session

/-- All diagnostics published for a document, in order. -/
def published (s : Session) (uri : Uri) : List (List Diagnostic) :=
  s.outbox.filterMap (Notice.diagnosticsFor? uri)

/-- The last diagnostics published for a document. -/
def lastPublished? (s : Session) (uri : Uri) : Option (List Diagnostic) :=
  (s.published uri).getLast?

theorem published_post (s : Session) (notice : Notice) (uri : Uri) :
    (s.post notice).published uri = s.published uri ++ (notice.diagnosticsFor? uri).toList := by
  rw [published, post, List.filterMap_append, published]
  cases h : notice.diagnosticsFor? uri <;> simp [h]

theorem published_post_of_ne {other uri : Uri} (s : Session) (diagnostics : List Diagnostic)
    (h : uri ≠ other) :
    (s.post (.diagnostics other diagnostics)).published uri = s.published uri := by
  simp [published_post, Notice.diagnosticsFor?, Ne.symm h]

theorem lastPublished?_post (s : Session) (uri : Uri) (diagnostics : List Diagnostic) :
    (s.post (.diagnostics uri diagnostics)).lastPublished? uri = some diagnostics := by
  simp [lastPublished?, published_post, Notice.diagnosticsFor?]

/-! ## Documents in order -/

/-- The document is held, its analysis is current, and the diagnostics of that are the last ones
    published for it. -/
def Shows (s : Session) (uri : Uri) : Prop :=
  ∃ d, s.store.content? uri = some d ∧ d.Current s.store.style
    ∧ s.lastPublished? uri = some d.analysis.diagnostics

/-- If the document is held and clean, its analysis is current. -/
def Faithful (s : Session) (uri : Uri) : Prop :=
  ∀ d, s.store.content? uri = some d → d.dirty = false → d.Current s.store.style

/-- Nothing of the document changed in the store, and nothing was published for it. -/
structure Unchanged (s s' : Session) (uri : Uri) : Prop where
  content : s'.store.content? uri = s.store.content? uri
  style : s'.store.style = s.store.style
  published : s'.published uri = s.published uri

theorem Unchanged.rfl {s : Session} {uri : Uri} : Unchanged s s uri :=
  ⟨Eq.refl _, Eq.refl _, Eq.refl _⟩

theorem Unchanged.trans {s t u : Session} {uri : Uri} (h : Unchanged s t uri)
    (h' : Unchanged t u uri) : Unchanged s u uri :=
  ⟨h'.content.trans h.content, h'.style.trans h.style, h'.published.trans h.published⟩

theorem Shows.of_unchanged {s s' : Session} {uri : Uri} (h : s.Shows uri)
    (hsame : Unchanged s s' uri) : s'.Shows uri := by
  rw [Shows, hsame.content, hsame.style, lastPublished?, hsame.published]
  exact h

theorem Shows.isDirty {s : Session} {uri : Uri} (h : s.Shows uri) :
    s.store.isDirty uri = false := by
  obtain ⟨d, hd, hcurrent, -⟩ := h
  rw [Store.isDirty_eq, hd]
  exact hcurrent.1

/-! ## Analysing -/

theorem watchers_analyseIfDirty (s : Session) (uri : Uri) :
    (s.analyseIfDirty uri).watchers = s.watchers := by
  rw [analyseIfDirty]
  split
  · split <;> rfl
  · rfl

/-- A document that is dirty is analysed and has its diagnostics published. -/
theorem shows_analyseIfDirty {s : Session} {uri : Uri} (h : s.store.isDirty uri = true) :
    (s.analyseIfDirty uri).Shows uri := by
  have hheld := h
  rw [Store.isDirty_eq, Option.any_eq_true] at hheld
  obtain ⟨d, hd, -⟩ := hheld
  have hanalyse : s.analyseIfDirty uri = s.handIn uri (.ofText s.store.style d.text) := by
    rw [analyseIfDirty, if_pos h, Store.analyse?_eq, hd]
    rfl
  rw [hanalyse]
  refine ⟨{ d with analysis := .ofText s.store.style d.text, dirty := false }, ?_, ⟨rfl, rfl⟩,
    lastPublished?_post _ _ _⟩
  -- the analysis is accepted because it is one of the text that is held
  rw [handIn, post, Store.content?_accept, if_pos rfl, hd, Option.map_some, Store.analysed,
    if_pos (Analysis.text_ofText _ _).symm]

theorem unchanged_analyseIfDirty {s : Session} {other uri : Uri} (h : uri ≠ other) :
    Unchanged s (s.analyseIfDirty other) uri := by
  rw [analyseIfDirty]
  split
  · split
    · refine ⟨?_, rfl, published_post_of_ne _ _ h⟩
      rw [handIn, post, Store.content?_accept, if_neg (Ne.symm h)]
    · exact .rfl
  · exact .rfl

theorem Shows.analyseIfDirty {s : Session} {uri : Uri} (h : s.Shows uri) (other : Uri) :
    (s.analyseIfDirty other).Shows uri := by
  by_cases hne : uri = other
  · subst hne
    rw [Session.analyseIfDirty, h.isDirty]
    exact h
  · exact h.of_unchanged (unchanged_analyseIfDirty hne)

/-- A document that is dirty and among those to be analysed ends up in order. -/
theorem shows_foldl_analyseIfDirty {uri : Uri} (uris : List Uri) {s : Session}
    (h : s.Shows uri ∨ s.store.isDirty uri = true ∧ uri ∈ uris) :
    (uris.foldl analyseIfDirty s).Shows uri := by
  -- a name may be listed twice: a document in order stays in order
  induction uris generalizing s with
  | nil => exact h.resolve_right fun hmem => absurd hmem.2 List.not_mem_nil
  | cons other rest ih =>
    apply ih
    rcases h with hshows | ⟨hdirty, hmem⟩
    · exact .inl (hshows.analyseIfDirty other)
    · by_cases hne : uri = other
      · subst hne
        exact .inl (shows_analyseIfDirty hdirty)
      · refine .inr ⟨?_, (List.mem_cons.mp hmem).resolve_left hne⟩
        rw [Store.isDirty_eq, (unchanged_analyseIfDirty hne).content, ← Store.isDirty_eq]
        exact hdirty

theorem watchers_foldl_analyseIfDirty (uris : List Uri) (s : Session) :
    (uris.foldl analyseIfDirty s).watchers = s.watchers := by
  induction uris generalizing s with
  | nil => rfl
  | cons uri rest ih => rw [List.foldl_cons, ih, watchers_analyseIfDirty]

end Session

/-! ## Effects of steps -/

/-- An edit or a save of the document. -/
inductive Step.Edits (uri : Uri) : Step → Prop
  | changed (texts : List String) : Edits uri (.event (.changed uri texts))
  | saved (text : Option String) : Edits uri (.event (.saved uri text))

namespace Session

/-- What a step from `s` to `s'` can mean for a document. -/
inductive Effect (e : Step) (s s' : Session) (uri : Uri) : Prop
  | gone (after : s'.store.content? uri = none)
  | kept (same : Unchanged s s' uri)
      (awaits : s.store.isDirty uri = true → s.Awaits uri → s'.Awaits uri)
  | shown (after : s'.Shows uri)
  | awaited (dirty : s'.store.isDirty uri = true) (awaits : s'.Awaits uri)
  /-- The document is taken in, and nothing is published for it. -/
  | admitted {d : HeldDocument} (edits : e.Edits uri) (before : s.store.content? uri = none)
      (after : s'.store.content? uri = some d) (current : d.Current s'.store.style)
      (published : s'.published uri = s.published uri)

variable {e : Step} {s s' : Session} {uri other : Uri}

theorem Effect.frame (same : Unchanged s s' uri) (h : Attends s s') : Effect e s s' uri :=
  .kept same fun _ => h.awaits uri

/-- What is done after taking in the text of another document may leave this one as it is. -/
theorem effect_put_of_ne {text : String} (h : uri ≠ other)
    (same : Unchanged { s with store := (s.store.put other text).1 } s' uri)
    (hattends : Attends s s') : Effect e s s' uri := by
  rcases s.store.content?_put_of_ne text h with hnone | hsame
  · exact .gone (same.content.trans hnone)
  · refine .frame ⟨same.content.trans hsame, ?_, same.published⟩ hattends
    exact same.style.trans (s.store.style_put other text)

/-- A document that comes in again and is clean then was clean before; one that comes in for the
    first time does so unannounced. -/
theorem effect_put_of_clean {text : String} (edits : e.Edits uri)
    (h : (s.store.put uri text).1.isDirty uri = false) :
    Effect e s { s with store := (s.store.put uri text).1 } uri := by
  have htaken := s.store.taken_put uri text
  generalize s.store.put uri text = r at htaken h ⊢
  cases htaken with
  | refused => exact .frame .rfl (.of_eq rfl)
  | @edited store d before after others style =>
    -- a text with the same fingerprint is not taken for another one
    by_cases hprint : d.print = fingerprint text
    · rw [Store.edited, if_pos hprint, ← before] at after
      exact .frame ⟨after, style, rfl⟩ (.of_eq rfl)
    · rw [Store.edited, if_neg hprint] at after
      simp [Store.isDirty_eq, after] at h
  | admitted before after others style =>
    refine .admitted edits before after ?_ rfl
    rw [style]
    exact s.store.current_admitted text

/-- A look at the document puts it in order if it is dirty, and changes nothing if it is clean. -/
theorem effect_analyseIfDirty (h : s'.store.isDirty uri = false → Effect e s s' uri) :
    Effect e s (s'.analyseIfDirty uri) uri := by
  by_cases hdirty : s'.store.isDirty uri = true
  · exact .shown (shows_analyseIfDirty hdirty)
  · rw [analyseIfDirty, if_neg hdirty]
    exact h (Bool.not_eq_true _ ▸ hdirty)

theorem Faithful.put (h : s.Faithful uri) (text : String) :
    { s with store := (s.store.put uri text).1 }.Faithful uri := by
  have htaken := s.store.taken_put uri text
  generalize s.store.put uri text = r at htaken ⊢
  intro d hd hclean
  cases htaken with
  | refused => exact h d hd hclean
  | @edited store d' before after others style =>
    obtain rfl := Option.some.inj (after.symm.trans hd)
    by_cases hprint : d'.print = fingerprint text
    · rw [Store.edited, if_pos hprint] at hclean ⊢
      rw [style]
      exact h d' before hclean
    · rw [Store.edited, if_neg hprint] at hclean
      cases hclean
  | admitted before after others style =>
    obtain rfl := Option.some.inj (after.symm.trans hd)
    rw [style]
    exact s.store.current_admitted text

/-! ### Opening -/

/-- Publish the diagnostics of a document, after an analysis if it is dirty. -/
def announce (s : Session) (uri : Uri) : Session :=
  if s.store.isDirty uri then s.analyseIfDirty uri
  else
    match s.store.analysis? uri with
    | (store, some a) => { s with store := store }.post (.diagnostics uri a.diagnostics)
    | (_, none) => s

/-- A text that is not too large is taken in and announced. -/
theorem opened_eq {text : String} (h : ¬ s.store.maxDocumentSize < text.utf8ByteSize) :
    s.opened uri text = { s with store := (s.store.put uri text).1 }.announce uri := by
  rw [opened, if_neg h]
  rfl

/-- A clean document is published as it is. -/
theorem announce_of_clean (h : s.store.isDirty uri = false) :
    s.announce uri
      = match s.store.content? uri with
        | some d =>
          { s with store := s.store.touch uri }.post (.diagnostics uri d.analysis.diagnostics)
        | none => s := by
  rw [announce, h]
  simp only [Store.analysis?, Store.get?, Store.content?]
  cases s.store.peek? uri <;> rfl

theorem shows_announce (h : s.Faithful uri) :
    (s.announce uri).store.content? uri = none ∨ (s.announce uri).Shows uri := by
  by_cases hdirty : s.store.isDirty uri = true
  · right
    rw [announce, if_pos hdirty]
    exact shows_analyseIfDirty hdirty
  · rw [Bool.not_eq_true] at hdirty
    rw [announce_of_clean hdirty]
    cases hd : s.store.content? uri with
    | none => exact .inl hd
    | some d =>
      right
      refine ⟨d, ?_, ?_, lastPublished?_post _ _ _⟩
      · exact (s.store.content?_touch uri uri).trans hd
      · apply h d hd
        rw [Store.isDirty_eq, hd] at hdirty
        exact hdirty

theorem unchanged_announce (h : uri ≠ other) : Unchanged s (s.announce other) uri := by
  by_cases hdirty : s.store.isDirty other = true
  · rw [announce, if_pos hdirty]
    exact unchanged_analyseIfDirty h
  · rw [announce_of_clean (Bool.not_eq_true _ ▸ hdirty)]
    split
    · exact ⟨s.store.content?_touch other uri, rfl, published_post_of_ne _ _ h⟩
    · exact .rfl

theorem watchers_announce (s : Session) (uri : Uri) : (s.announce uri).watchers = s.watchers := by
  by_cases hdirty : s.store.isDirty uri = true
  · rw [announce, if_pos hdirty, watchers_analyseIfDirty]
  · rw [announce_of_clean (Bool.not_eq_true _ ▸ hdirty)]
    split <;> rfl

theorem watchers_opened (s : Session) (uri : Uri) (text : String) :
    (s.opened uri text).watchers = s.watchers := by
  by_cases hsize : s.store.maxDocumentSize < text.utf8ByteSize
  · rw [opened, if_pos hsize]
    rfl
  · rw [opened_eq hsize, watchers_announce]

theorem effect_opened (h : s.Faithful uri) (text : String) :
    Effect e s (s.opened other text) uri := by
  by_cases hsize : s.store.maxDocumentSize < text.utf8ByteSize
  · -- a text that is too large brings a message and nothing else
    rw [opened, if_pos hsize]
    refine .frame ⟨rfl, rfl, ?_⟩ (.of_eq rfl)
    simp [published_post, Notice.diagnosticsFor?]
  · have hattends : Attends s (s.opened other text) := .of_eq (s.watchers_opened other text)
    rw [opened_eq hsize] at hattends ⊢
    by_cases hne : uri = other
    · subst hne
      rcases shows_announce (h.put text) with hnone | hshows
      · exact .gone hnone
      · exact .shown hshows
    · exact effect_put_of_ne hne (unchanged_announce hne) hattends

/-! ### Editing, saving and closing -/

theorem store_signal (s : Session) (uri : Uri) : (s.signal uri).store = s.store := by
  rw [signal]
  split <;> rfl

theorem published_signal (s : Session) (uri other : Uri) :
    (s.signal uri).published other = s.published other := by
  rw [signal]
  split <;> rfl

theorem unchanged_signal (s : Session) (uri other : Uri) : Unchanged s (s.signal uri) other :=
  ⟨by rw [store_signal], by rw [store_signal], published_signal s uri other⟩

theorem changed_eq {texts : List String} {text : String} (h : texts.getLast? = some text) :
    s.changed uri texts
      = if (s.store.put uri text).2 then { s with store := (s.store.put uri text).1 }.signal uri
        else s := by
  rw [changed, h]
  rcases hput : s.store.put uri text with ⟨store, _ | _⟩
  · simp [hput]
  · simp [hput]

theorem attends_changed (s : Session) (uri : Uri) (texts : List String) :
    Attends s (s.changed uri texts) := by
  cases htext : texts.getLast? with
  | none =>
    rw [changed, htext]
    exact .of_eq rfl
  | some text =>
    rw [changed_eq htext]
    split
    · have htaken : Attends s { s with store := (s.store.put uri text).1 } := .of_eq rfl
      exact htaken.trans (attends_signal _ uri)
    · exact .of_eq rfl

theorem effect_changed (texts : List String) :
    Effect (.event (.changed other texts)) s (s.changed other texts) uri := by
  have hattends := s.attends_changed other texts
  cases htext : texts.getLast? with
  | none =>
    rw [changed, htext]
    exact .frame .rfl (.of_eq rfl)
  | some text =>
    rw [changed_eq htext] at hattends ⊢
    by_cases hne : uri = other
    · -- the document itself is edited, or comes in with this text
      subst hne
      have htaken := s.store.taken_put uri text
      generalize s.store.put uri text = r at htaken hattends ⊢
      cases htaken with
      | refused => exact .frame .rfl (.of_eq rfl)
      | @edited store d before after others style =>
        rw [if_pos rfl] at hattends ⊢
        have hsignal := { s with store := store }.unchanged_signal uri uri
        by_cases hprint : d.print = fingerprint text
        · rw [Store.edited, if_pos hprint, ← before] at after
          have hsame : Unchanged s { s with store := store } uri := ⟨after, style, rfl⟩
          exact .frame (hsame.trans hsignal) hattends
        · rw [Store.edited, if_neg hprint] at after
          refine .awaited ?_ (awaits_signal _ uri)
          rw [Store.isDirty_eq, hsignal.content, after]
          rfl
      | @admitted store before after others style =>
        rw [if_pos rfl]
        have hsignal := { s with store := store }.unchanged_signal uri uri
        refine .admitted (.changed texts) before (hsignal.content.trans after) ?_ hsignal.published
        rw [hsignal.style, style]
        exact s.store.current_admitted text
    · -- another document is edited: this one may be dropped for it
      split at hattends
      · rename_i htaken
        rw [if_pos htaken]
        exact effect_put_of_ne hne (unchanged_signal _ _ _) hattends
      · rename_i hrefused
        rw [if_neg hrefused]
        exact .frame .rfl hattends

theorem watchers_saved (s : Session) (uri : Uri) (text : Option String) :
    (s.saved uri text).watchers = s.watchers := by
  cases text with
  | none => exact watchers_analyseIfDirty s uri
  | some text => exact watchers_analyseIfDirty { s with store := (s.store.put uri text).1 } uri

/-- A save looks at the document at once, after taking in the text that came with it. -/
theorem effect_saved (text : Option String) :
    Effect (.event (.saved other text)) s (s.saved other text) uri := by
  have hattends : Attends s (s.saved other text) := .of_eq (s.watchers_saved other text)
  cases text with
  | none =>
    by_cases hne : uri = other
    · subst hne
      exact effect_analyseIfDirty fun _ => .frame .rfl (.of_eq rfl)
    · exact .frame (unchanged_analyseIfDirty hne) hattends
  | some text =>
    by_cases hne : uri = other
    · subst hne
      exact effect_analyseIfDirty fun hclean => effect_put_of_clean (.saved text) hclean
    · exact effect_put_of_ne hne (unchanged_analyseIfDirty hne) hattends

theorem attends_closed (s : Session) (uri : Uri) : Attends s (s.closed uri) := by
  have hremoved : Attends s { s with store := (s.store.remove uri).1 } := .of_eq rfl
  exact (hremoved.trans (attends_detach _ uri)).trans (.of_eq rfl)

theorem effect_closed : Effect e s (s.closed other) uri := by
  have hremove := s.store.content?_remove other uri
  by_cases hne : uri = other
  · rw [if_pos hne.symm] at hremove
    exact .gone hremove
  · rw [if_neg (Ne.symm hne)] at hremove
    exact .frame ⟨hremove, rfl, published_post_of_ne _ _ hne⟩ (s.attends_closed other)

/-! ### Settings -/

/-- Where another style is set, every document that is held is dirty for the moment. -/
theorem configure_cases (s : Session) (settings : Settings) :
    ∃ store, (store.style = s.store.style ∧ (∀ uri, store.content? uri = s.store.content? uri)
          ∧ s.configure settings = ({ s with settings := settings, store := store }, false))
      ∨ ((∀ uri ∈ store.uris, store.isDirty uri = true)
          ∧ s.configure settings = ({ s with settings := settings, store := store }, true)) := by
  let limited : Store := { s.store with
    maxDocuments := settings.maxDocuments
    maxDocumentSize := settings.maxDocumentSize }
  rcases limited.restyle_cases settings.style with ⟨-, hrestyle⟩ | ⟨store, hrestyle, hcontent⟩
  · refine ⟨limited, .inl ⟨rfl, fun _ => rfl, ?_⟩⟩
    rw [configure, hrestyle]
  · refine ⟨store, .inr ⟨fun uri huri => ?_, ?_⟩⟩
    · rw [Store.mem_uris, hcontent, Option.isSome_map, Option.isSome_iff_exists] at huri
      obtain ⟨d, hd⟩ := huri
      rw [Store.isDirty_eq, hcontent, hd]
      rfl
    · rw [configure, hrestyle]

theorem watchers_configured (s : Session) (settings : Value) :
    (s.configured settings).watchers = s.watchers := by
  rw [configured]
  obtain ⟨store, ⟨-, -, h⟩ | ⟨-, h⟩⟩ := s.configure_cases (Settings.readOrDefault settings)
  · rw [h]
  · rw [h]
    exact watchers_foldl_analyseIfDirty _ _

theorem content?_foldl_analyseIfDirty_of_not_mem {uris : List Uri} (h : uri ∉ uris) :
    (uris.foldl analyseIfDirty s).store.content? uri = s.store.content? uri := by
  induction uris generalizing s with
  | nil => rfl
  | cons other rest ih =>
    rw [List.mem_cons, not_or] at h
    rw [List.foldl_cons, ih h.2, (unchanged_analyseIfDirty h.1).content]

theorem effect_configured (settings : Value) : Effect e s (s.configured settings) uri := by
  have hattends : Attends s (s.configured settings) := .of_eq (s.watchers_configured settings)
  rw [configured] at hattends ⊢
  obtain ⟨store, ⟨hstyle, hcontent, h⟩ | ⟨hdirty, h⟩⟩ :=
    s.configure_cases (Settings.readOrDefault settings)
  · rw [h]
    exact .frame ⟨hcontent uri, hstyle, rfl⟩ (.of_eq rfl)
  · -- every document that is held is listed, so that none stays dirty
    rw [h]
    by_cases hheld : uri ∈ store.uris
    · exact .shown (shows_foldl_analyseIfDirty _ (.inr ⟨hdirty uri hheld, hheld⟩))
    · apply Effect.gone
      rw [content?_foldl_analyseIfDirty_of_not_mem hheld]
      simpa [Store.mem_uris] using hheld

/-! ### Firings and all steps -/

theorem effect_fire (h : s.EmptyHanded) (i : Nat) : Effect e s (s.step (.fire i)) uri := by
  rcases fire_cases h i with hnothing | ⟨w, hw, hfire⟩
  · rw [hnothing]
    exact .frame .rfl (.of_eq rfl)
  · rw [hfire]
    by_cases hne : uri = w.uri
    · -- the watcher comes to rest, but then the document is not dirty any more
      subst hne
      refine effect_analyseIfDirty fun hclean => .kept ⟨rfl, rfl, rfl⟩ fun hdirty => ?_
      exact absurd hdirty (by rw [hclean]; decide)
    · refine .kept ?_ fun _ hawaits => ?_
      · have hrested : Unchanged s { s with watchers := s.watchers.set i w.rested } uri :=
          ⟨rfl, rfl, rfl⟩
        exact hrested.trans (unchanged_analyseIfDirty hne)
      · rw [Awaits, watchers_analyseIfDirty]
        exact awaits_set_rested hw hne hawaits

theorem effect_respond (r : Request) : Effect e s (s.respond r).1 uri := by
  obtain ⟨phase, store, rfl | ⟨other, rfl⟩, h⟩ := s.respond_cases r
  · rw [h]
    exact .frame ⟨rfl, rfl, rfl⟩ (.of_eq rfl)
  · rw [h]
    exact .frame ⟨s.store.content?_touch other uri, rfl, rfl⟩ (.of_eq rfl)

/-- Every step means one of these to a document. -/
theorem effect_step (e : Step) (hempty : s.EmptyHanded) (h : s.Faithful uri) :
    Effect e s (s.step e) uri := by
  cases e with
  | event e =>
    cases e with
    | ready => exact .frame .rfl (.of_eq rfl)
    | opened other text => exact effect_opened h text
    | changed other texts => exact effect_changed texts
    | saved other text => exact effect_saved text
    | closed other => exact effect_closed
    | configured settings => exact effect_configured settings
  | request r => exact effect_respond r
  | receive i => exact .frame ⟨rfl, rfl, rfl⟩ (s.attends_receive i)
  | fire i => exact effect_fire hempty i
  | elapse time => exact .frame ⟨rfl, rfl, rfl⟩ (.of_eq rfl)
  | prune => exact .frame ⟨rfl, rfl, rfl⟩ s.attends_prune

theorem emptyHanded_step (e : Step) (h : s.EmptyHanded) : (s.step e).EmptyHanded := by
  cases e with
  | event e =>
    cases e with
    | ready => exact h
    | opened uri text => exact (Attends.of_eq (s.watchers_opened uri text)).emptyHanded h
    | changed uri texts => exact (s.attends_changed uri texts).emptyHanded h
    | saved uri text => exact (Attends.of_eq (s.watchers_saved uri text)).emptyHanded h
    | closed uri => exact (s.attends_closed uri).emptyHanded h
    | configured settings => exact (Attends.of_eq (s.watchers_configured settings)).emptyHanded h
  | request r =>
    obtain ⟨phase, store, -, hrespond⟩ := s.respond_cases r
    rw [step, hrespond]
    exact h
  | receive i => exact (s.attends_receive i).emptyHanded h
  | fire i =>
    rcases fire_cases h i with hnothing | ⟨w, hw, hfire⟩
    · rw [hnothing]
      exact h
    · rw [hfire, EmptyHanded, watchers_analyseIfDirty]
      exact emptyHanded_set_rested h i w
  | elapse time => exact h
  | prune => exact s.attends_prune.emptyHanded h

end Session

end BimEditor
