/-
  BimEditor.Proofs.Workspace.Attention

  No edit is forgotten. Here a watcher's waking and its handing in are two moves, between which
  anything may happen: the document may be edited, saved, closed, opened again or dropped, and its
  watcher may be detached and replaced by another one.

  A watcher minds a text if it will look at the document again, or holds an analysis of that text
  (`Watcher.Minds`). A watcher that wakes up forgets its signals, but then it holds the text of that
  moment; one whose analysis is refused had minded another text, and the edit that brought the text
  of now has left a signal. So the text of a dirty document is minded after every move
  (`Minded.move`), and in every play (`exists_watcher_minds`).
-/
import BimEditor.Proofs.Workspace.Publication

namespace BimEditor

open BimEditor.Json

/-! ## Moves -/

/-- Something that happens to a session at once, where waking up and handing in are two things. -/
inductive Move where
  | step (e : Step)
  /-- The watcher at that place wakes up. -/
  | wake (i : Nat)
  /-- The watcher at that place hands its analysis in. -/
  | finish (i : Nat)

namespace Session

/-- The session after a move. -/
def move (s : Session) : Move → Session
  | .step e => s.step e
  | .wake i => s.wake i
  | .finish i => s.finish i

/-- The session after moves, one after the other. -/
def play (s : Session) (moves : List Move) : Session :=
  moves.foldl move s

end Session

/-! ## Watchers that mind a text -/

/-- The watcher will look at its document again, or holds an analysis of that text. -/
inductive Watcher.Minds (w : Watcher) (text : String) : Prop
  /-- A signal was not received yet. -/
  | signalled (signals : w.signals ≠ 0)
  /-- A signal was received, and the watcher sleeps. -/
  | sleeping {wakeTime : Nat} (state : w.state = .sleeping wakeTime)
  /-- The watcher has not handed its analysis in yet, which is one of that text. -/
  | holding {style : TooltipStyle} (state : w.state = .holding (.ofText style text))

namespace Watcher

variable {w : Watcher} {text : String}

theorem Minds.receive (h : w.Minds text) (now delay : Nat) : (w.receive now delay).Minds text := by
  cases hstate : w.state with
  | idle =>
    cases h with
    | signalled signals =>
      -- the signal turns into a sleep
      rw [Watcher.receive, hstate]
      simp only [signals, ↓reduceIte]
      exact .sleeping rfl
    | sleeping state => rw [hstate] at state; cases state
    | holding state => rw [hstate] at state; cases state
  | sleeping t =>
    rw [Watcher.receive, hstate]
    exact h
  | holding a =>
    rw [Watcher.receive, hstate]
    exact h

theorem uri_wake (w : Watcher) (store : Store) : (w.wake store).uri = w.uri := by
  unfold wake
  split <;> rfl

theorem uri_finish (w : Watcher) : w.finish.uri = w.uri := by
  unfold finish
  split <;> rfl

/-- A watcher of a dirty document that wakes up holds the text of that moment. -/
theorem Minds.wake {store : Store} {d : HeldDocument} (h : w.Minds d.text)
    (held : store.content? w.uri = some d) (dirty : d.dirty = true) :
    (w.wake store).Minds d.text := by
  cases hstate : w.state with
  | sleeping t =>
    have hdirty : store.isDirty w.uri = true := by
      rw [Store.isDirty_eq, held]
      exact dirty
    have hanalyse : store.analyse? w.uri = some (.ofText store.style d.text) := by
      rw [Store.analyse?_eq, held]
      rfl
    have hwake : (w.wake store).state = .holding (.ofText store.style d.text) := by
      simp only [Watcher.wake, hstate, hdirty, hanalyse, ↓reduceIte]
    exact .holding hwake
  | idle =>
    rw [Watcher.wake, hstate]
    exact h
  | holding a =>
    rw [Watcher.wake, hstate]
    exact h

/-- A watcher that handed in an analysis of another text has a signal to receive. -/
theorem Minds.finish {a : Analysis} (h : w.Minds text) (state : w.state = .holding a)
    (other : text ≠ a.text) : w.finish.Minds text := by
  rw [Watcher.finish, state]
  cases h with
  | signalled signals => exact .signalled signals
  | sleeping hstate => rw [state] at hstate; cases hstate
  | holding hstate =>
    rw [state] at hstate
    cases hstate
    exact absurd (Analysis.text_ofText _ _).symm other

theorem Minds.isDone (h : w.Minds text) : w.isDone = false := by
  cases h with
  | signalled signals =>
    unfold Watcher.isDone
    split
    · simp [signals]
    · rfl
  | sleeping state => simp [Watcher.isDone, state]
  | holding state => simp [Watcher.isDone, state]

end Watcher

/-! ## Sessions that mind their documents -/

namespace Session

/-- A watcher of the document minds that text. -/
def Minds (s : Session) (uri : Uri) (text : String) : Prop :=
  ∃ w ∈ s.watchers, w.uri = uri ∧ w.Minds text

/-- If the document is held and dirty, its text is minded. -/
def Minded (s : Session) (uri : Uri) : Prop :=
  ∀ d, s.store.content? uri = some d → d.dirty = true → s.Minds uri d.text

variable {s s' : Session} {uri other : Uri} {text : String}

theorem minded_of_clean (h : s.store.isDirty uri = false) : s.Minded uri := by
  intro d hd hdirty
  rw [Store.isDirty_eq, hd, Option.any_some, hdirty] at h
  cases h

theorem minded_of_none (h : s.store.content? uri = none) : s.Minded uri := by
  intro d hd
  rw [h] at hd
  cases hd

theorem Minded.frame (h : s.Minded uri) (same : s'.store.content? uri = s.store.content? uri)
    (keeps : ∀ text, s.Minds uri text → s'.Minds uri text) : s'.Minded uri := by
  intro d hd hdirty
  rw [same] at hd
  exact keeps d.text (h d hd hdirty)

/-! ### Changes of watchers -/

theorem Minds.of_eq (h : s.Minds uri text) (hwatchers : s'.watchers = s.watchers) :
    s'.Minds uri text := by
  rw [Minds, hwatchers]
  exact h

theorem Minds.of_map (h : s.Minds uri text) {f : Watcher → Watcher}
    (hwatchers : s'.watchers = s.watchers.map f) (huri : ∀ w, (f w).uri = w.uri)
    (hminds : ∀ w, w.Minds text → (f w).Minds text) : s'.Minds uri text := by
  obtain ⟨w, hw, rfl, hw'⟩ := h
  refine ⟨f w, ?_, huri w, hminds w hw'⟩
  rw [hwatchers]
  exact List.mem_map_of_mem hw

/-- One watcher may change if it does not lose what it minds of this document. -/
theorem Minds.of_modify (h : s.Minds uri text) {i : Nat} {f : Watcher → Watcher}
    (hwatchers : s'.watchers = s.watchers.modify i f) (huri : ∀ w, (f w).uri = w.uri)
    (hminds : ∀ w, s.watchers[i]? = some w → w.uri = uri → w.Minds text → (f w).Minds text) :
    s'.Minds uri text := by
  obtain ⟨w, hw, hwuri, hwminds⟩ := h
  obtain ⟨j, hj⟩ := List.mem_iff_getElem?.mp hw
  have hafter : s'.watchers[j]? = some (if i = j then f w else w) := by
    rw [hwatchers, List.getElem?_modify, hj]
    rfl
  refine ⟨_, List.mem_of_getElem? hafter, ?_, ?_⟩
  · split
    · exact (huri w).trans hwuri
    · exact hwuri
  · split
    · subst j
      exact hminds w hj hwuri hwminds
    · exact hwminds

theorem Minds.signal (h : s.Minds uri text) (other : Uri) : (s.signal other).Minds uri text := by
  rw [Session.signal]
  split
  · refine h.of_map rfl (fun w => ?_) (fun w hw => ?_)
    · split <;> rfl
    · split
      · exact .signalled (Nat.succ_ne_zero _)
      · exact hw
  · obtain ⟨w, hw, hrest⟩ := h
    exact ⟨w, List.mem_append_left _ hw, hrest⟩

/-- After a signal, any text of the document is minded. -/
theorem minds_signal (s : Session) (uri : Uri) (text : String) : (s.signal uri).Minds uri text := by
  rw [Session.signal]
  split
  · rename_i hany
    obtain ⟨w, hw, hfor⟩ := List.any_eq_true.mp hany
    refine ⟨w.signal, List.mem_map.mpr ⟨w, hw, if_pos hfor⟩, ?_, .signalled (Nat.succ_ne_zero _)⟩
    exact beq_iff_eq.mp (Bool.and_eq_true_iff.mp hfor).2
  · exact ⟨Watcher.signal { uri := uri }, by simp, rfl, .signalled (Nat.succ_ne_zero _)⟩

theorem Minds.detach (h : s.Minds uri text) (other : Uri) : (s.detach other).Minds uri text := by
  refine h.of_map rfl (fun w => ?_) (fun w hw => ?_)
  · split <;> rfl
  · split
    · -- only sending signals is over
      cases hw with
      | signalled signals => exact .signalled signals
      | sleeping state => exact .sleeping state
      | holding state => exact .holding state
    · exact hw

/-! ### Events -/

theorem isDirty_analyseIfDirty (s : Session) (uri : Uri) :
    (s.analyseIfDirty uri).store.isDirty uri = false := by
  by_cases hdirty : s.store.isDirty uri = true
  · exact (shows_analyseIfDirty hdirty).isDirty
  · rw [analyseIfDirty, if_neg hdirty]
    exact Bool.not_eq_true _ ▸ hdirty

theorem isDirty_announce (s : Session) (uri : Uri) :
    (s.announce uri).store.isDirty uri = false := by
  by_cases hdirty : s.store.isDirty uri = true
  · rw [announce, if_pos hdirty]
    exact isDirty_analyseIfDirty s uri
  · have hclean : s.store.isDirty uri = false := Bool.not_eq_true _ ▸ hdirty
    rw [announce_of_clean hclean]
    split
    · rw [post, Store.isDirty_eq, Store.content?_touch, ← Store.isDirty_eq]
      exact hclean
    · exact hclean

/-- What is done after taking in the text of another document may leave this one as it is. -/
theorem Minded.put_of_ne (h : s.Minded uri) (hne : uri ≠ other)
    (same : s'.store.content? uri = (s.store.put other text).1.content? uri)
    (hwatchers : s'.watchers = s.watchers) : s'.Minded uri := by
  rcases s.store.content?_put_of_ne text hne with hnone | hsame
  · exact minded_of_none (same.trans hnone)
  · exact h.frame (same.trans hsame) fun _ hminds => hminds.of_eq hwatchers

theorem Minded.opened (h : s.Minded uri) (other : Uri) (text : String) :
    (s.opened other text).Minded uri := by
  by_cases hsize : s.store.maxDocumentSize < text.utf8ByteSize
  · rw [Session.opened, if_pos hsize]
    exact h.frame rfl fun _ hminds => hminds.of_eq rfl
  · have hwatchers := s.watchers_opened other text
    rw [opened_eq hsize] at hwatchers ⊢
    by_cases hne : uri = other
    · subst hne
      exact minded_of_clean (isDirty_announce _ _)
    · exact h.put_of_ne hne (unchanged_announce hne).content hwatchers

theorem Minded.saved (h : s.Minded uri) (other : Uri) (text : Option String) :
    (s.saved other text).Minded uri := by
  have hwatchers := s.watchers_saved other text
  by_cases hne : uri = other
  · subst hne
    exact minded_of_clean (isDirty_analyseIfDirty _ _)
  · cases text with
    | none =>
      refine h.frame (unchanged_analyseIfDirty hne).content fun _ hminds => ?_
      exact hminds.of_eq hwatchers
    | some text => exact h.put_of_ne hne (unchanged_analyseIfDirty hne).content hwatchers

theorem Minded.changed (h : s.Minded uri) (other : Uri) (texts : List String) :
    (s.changed other texts).Minded uri := by
  cases htext : texts.getLast? with
  | none =>
    rw [Session.changed, htext]
    exact h
  | some text =>
    rw [changed_eq htext]
    split
    · by_cases hne : uri = other
      · -- the document itself is edited: whatever its text is now, there is a signal for it
        subst hne
        intro d _ _
        exact minds_signal _ uri d.text
      · have hput : { s with store := (s.store.put other text).1 }.Minded uri :=
          h.put_of_ne hne rfl rfl
        refine hput.frame (unchanged_signal _ other uri).content fun _ hminds => ?_
        exact hminds.signal other
    · exact h

theorem Minded.closed (h : s.Minded uri) (other : Uri) : (s.closed other).Minded uri := by
  have hremove := s.store.content?_remove other uri
  split at hremove
  · exact minded_of_none hremove
  · refine h.frame hremove fun text hminds => ?_
    have hremoved : { s with store := (s.store.remove other).1 }.Minds uri text := hminds.of_eq rfl
    exact (hremoved.detach other).of_eq rfl

theorem Minded.configured (h : s.Minded uri) (settings : Value) :
    (s.configured settings).Minded uri := by
  have hwatchers := s.watchers_configured settings
  rw [Session.configured] at hwatchers ⊢
  obtain ⟨store, ⟨-, hcontent, hconfigure⟩ | ⟨hdirty, hconfigure⟩⟩ :=
    s.configure_cases (Settings.readOrDefault settings)
  · rw [hconfigure]
    exact h.frame (hcontent uri) fun _ hminds => hminds.of_eq rfl
  · -- every document is made dirty and analysed at once
    rw [hconfigure]
    by_cases hheld : uri ∈ store.uris
    · exact minded_of_clean
        (shows_foldl_analyseIfDirty _ (.inr ⟨hdirty uri hheld, hheld⟩)).isDirty
    · apply minded_of_none
      rw [content?_foldl_analyseIfDirty_of_not_mem hheld]
      simpa [Store.mem_uris] using hheld

/-! ### Watchers -/

theorem Minded.receive (h : s.Minded uri) (i : Nat) : (s.receive i).Minded uri := by
  refine h.frame rfl fun _ hminds => ?_
  refine hminds.of_modify rfl (fun w => w.uri_receive _ _) fun w _ _ hw => ?_
  exact hw.receive _ _

theorem Minded.wake (h : s.Minded uri) (i : Nat) : (s.wake i).Minded uri := by
  intro d hd hdirty
  refine (h d hd hdirty).of_modify rfl (fun w => w.uri_wake s.store) fun w _ hw hminds => ?_
  subst hw
  exact hminds.wake hd hdirty

/-- A watcher that holds an analysis hands it in. Any other one does nothing. -/
theorem finish_cases (s : Session) (i : Nat) :
    s.finish i = s
      ∨ ∃ w a, s.watchers[i]? = some w ∧ w.state = .holding a
          ∧ s.finish i
            = { s with watchers := s.watchers.modify i Watcher.finish }.handIn w.uri a := by
  cases hw : s.watchers[i]? with
  | none =>
    left
    rw [finish, hw]
  | some w =>
    cases hstate : w.state with
    | idle => exact .inl (by simp [finish, hw, Watcher.held?, hstate])
    | sleeping t => exact .inl (by simp [finish, hw, Watcher.held?, hstate])
    | holding a => exact .inr ⟨w, a, rfl, hstate, by simp [finish, hw, Watcher.held?, hstate]⟩

theorem Minded.finish (h : s.Minded uri) (i : Nat) : (s.finish i).Minded uri := by
  rcases s.finish_cases i with hnothing | ⟨w, a, hw, hstate, hfinish⟩
  · rw [hnothing]
    exact h
  · rw [hfinish]
    intro d' hd' hdirty
    rw [handIn, post, Store.content?_accept] at hd'
    split at hd'
    · obtain ⟨d, hd, rfl⟩ := Option.map_eq_some_iff.mp hd'
      by_cases htext : d.text = a.text
      · -- the analysis is taken, and the document is clean
        rw [Store.analysed, if_pos htext] at hdirty
        cases hdirty
      · rw [Store.analysed, if_neg htext] at hdirty ⊢
        refine (h d hd hdirty).of_modify rfl Watcher.uri_finish fun v hv _ hminds => ?_
        obtain rfl := Option.some.inj (hw.symm.trans hv)
        exact hminds.finish hstate htext
    · -- the watcher has to do with another document
      rename_i hne
      refine (h d' hd' hdirty).of_modify rfl Watcher.uri_finish fun v hv hvuri _ => ?_
      obtain rfl := Option.some.inj (hw.symm.trans hv)
      exact absurd hvuri hne

/-! ## Plays -/

theorem Minded.step (h : s.Minded uri) (e : Step) : (s.step e).Minded uri := by
  cases e with
  | event e =>
    cases e with
    | ready => exact h
    | opened other text => exact h.opened other text
    | changed other texts => exact h.changed other texts
    | saved other text => exact h.saved other text
    | closed other => exact h.closed other
    | configured settings => exact h.configured settings
  | request r =>
    obtain ⟨phase, store, hused, hrespond⟩ := s.respond_cases r
    rw [Session.step, hrespond]
    refine h.frame ?_ fun _ hminds => hminds.of_eq rfl
    rcases hused with rfl | ⟨other, rfl⟩
    · rfl
    · exact s.store.content?_touch other uri
  | receive i => exact h.receive i
  | fire i => exact (h.wake i).finish i
  | elapse time => exact h.frame rfl fun _ hminds => hminds.of_eq rfl
  | prune =>
    refine h.frame rfl fun _ hminds => ?_
    obtain ⟨w, hw, huri, hwminds⟩ := hminds
    exact ⟨w, List.mem_filter.mpr ⟨hw, by simp [hwminds.isDone]⟩, huri, hwminds⟩

theorem Minded.move (h : s.Minded uri) (m : Move) : (s.move m).Minded uri := by
  cases m with
  | step e => exact h.step e
  | wake i => exact h.wake i
  | finish i => exact h.finish i

theorem Minded.play (h : s.Minded uri) (moves : List Move) : (s.play moves).Minded uri := by
  induction moves generalizing s with
  | nil => exact h
  | cons m rest ih => exact ih (h.move m)

/-- In every play from the start of a session, a document that is held and dirty has a watcher that
    was signalled and did not look at it yet, or that holds an analysis of its current text. -/
theorem exists_watcher_minds (settings : Settings) (options : Option Value) (moves : List Move)
    (uri : Uri) (d : HeldDocument)
    (held : ((begun settings options).play moves).store.peek? uri = some d)
    (dirty : d.dirty = true) :
    ∃ w ∈ ((begun settings options).play moves).watchers, w.uri = uri ∧ w.Minds d.text := by
  have hfirst : (begun settings options).Minded uri := by
    apply minded_of_none
    rw [Store.content?, Store.peek?, documents_begun]
    rfl
  refine hfirst.play moves d.undated ?_ dirty
  rw [Store.content?, held, Option.map_some]

/-- The document is edited again while its watcher has an analysis to hand in. -/
def editedMeanwhile : List Move :=
  [.step (.event (.opened "file:///w/a.ifcx" "\x7b")),
    .step (.event (.changed "file:///w/a.ifcx" ["["])), .step (.receive 0), .wake 0,
    .step (.event (.changed "file:///w/a.ifcx" ["[["])), .finish 0]

/-- The analysis of the first edit is refused, and the second edit is minded: when the watcher has
    looked again, the document is clean and has the analysis of that edit. -/
theorem exists_watcher_minds_editedMeanwhile :
    (∃ d, ((begun {} none).play editedMeanwhile).store.peek? "file:///w/a.ifcx" = some d
        ∧ d.dirty = true
        ∧ ∃ w ∈ ((begun {} none).play editedMeanwhile).watchers,
          w.uri = "file:///w/a.ifcx" ∧ w.Minds d.text)
      ∧ ∃ d, ((begun {} none).play
            (editedMeanwhile ++ [.step (.receive 0), .wake 0, .finish 0])).store.peek?
              "file:///w/a.ifcx" = some d
        ∧ d.dirty = false ∧ d.text = "[[" ∧ d.analysis.text = "[[" := by
  constructor
  · have hdirty : ∃ d,
        ((begun {} none).play editedMeanwhile).store.peek? "file:///w/a.ifcx" = some d
          ∧ d.dirty = true := by
      with_unfolding_all exact ⟨_, rfl, rfl⟩
    obtain ⟨d, hd, hd'⟩ := hdirty
    exact ⟨d, hd, hd', exists_watcher_minds {} none editedMeanwhile _ d hd hd'⟩
  · with_unfolding_all exact ⟨_, rfl, rfl, rfl, rfl⟩

end Session

end BimEditor
