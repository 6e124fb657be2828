/-
  BimEditor.Proofs.Workspace.Steps

  Sessions as runs of atomic steps: an event or a request is taken in, a watcher receives a signal,
  a watcher fires (it wakes up and hands its analysis in), time passes, and watchers with nothing
  left to do are let go. The steps may come in any order, and a watcher may fire early or late. What
  a session itself does is one such run (`notify_eq_run`, `wait_eq_run`, `request_eq_run`), so what
  holds of all runs holds of it.

  A firing in a session whose watchers hold nothing (`EmptyHanded`) is a look at one document: the
  watcher rests, and the document it watches is analysed if it is dirty (`fire_cases`).
-/
import BimEditor.Proofs.Workspace.Contents
import BimEditor.Workspace.Session

namespace BimEditor

open BimEditor.Json

/-! ## Runs -/

/-- Something that happens to a session at once. -/
inductive Step where
  | event (e : Event)
  | request (r : Request)
  /-- The watcher at that place receives a signal. -/
  | receive (i : Nat)
  /-- The watcher at that place wakes up and hands its analysis in. -/
  | fire (i : Nat)
  /-- Time passes until then, unless it is later already. -/
  | elapse (time : Nat)
  /-- Watchers that will never do anything again are let go. -/
  | prune

namespace Session

/-- The session after a step. -/
def step (s : Session) : Step → Session
  | .event e => s.handle e
  | .request r => (s.respond r).1
  | .receive i => s.receive i
  | .fire i => (s.wake i).finish i
  | .elapse time => { s with now := max s.now time }
  | .prune => { s with watchers := s.watchers.filter fun w => !w.isDone }

/-- The session after steps, one after the other. -/
def run (s : Session) (steps : List Step) : Session :=
  steps.foldl step s

@[simp]
theorem run_nil (s : Session) : s.run [] = s := rfl

@[simp]
theorem run_cons (s : Session) (e : Step) (steps : List Step) :
    s.run (e :: steps) = (s.step e).run steps := rfl

theorem run_append (s : Session) (first rest : List Step) :
    s.run (first ++ rest) = (s.run first).run rest :=
  List.foldl_append

theorem run_concat (s : Session) (steps : List Step) (e : Step) :
    s.run (steps ++ [e]) = (s.run steps).step e := by
  rw [run_append, run_cons, run_nil]

/-! ## A session's own runs -/

theorem passUntil_eq_run (s : Session) (time : Nat) : ∃ steps, s.passUntil time = s.run steps := by
  have hfold : ∀ (due : List (Nat × Nat)) (s : Session), ∃ steps,
      due.foldl (fun s entry => ({ s with now := max s.now entry.1 }.wake entry.2).finish entry.2) s
        = s.run steps := by
    intro due
    induction due with
    | nil => exact fun s => ⟨[], rfl⟩
    | cons entry due ih =>
      intro s
      obtain ⟨steps, hsteps⟩ :=
        ih (({ s with now := max s.now entry.1 }.wake entry.2).finish entry.2)
      -- time passes until the watcher is due, and then it fires
      refine ⟨.elapse entry.1 :: .fire entry.2 :: steps, ?_⟩
      rw [List.foldl_cons, hsteps, run_cons, run_cons, step, step]
  obtain ⟨steps, hsteps⟩ := hfold (s.dueBy time) s
  refine ⟨steps ++ [.elapse time, .prune], ?_⟩
  rw [run_append, run_cons, run_cons, run_nil, step, step, ← hsteps]
  rfl

theorem notify_eq_run {s : Session} (h : s.phase = .running) (e : Event) :
    ∃ steps, s.notify e = s.run (.event e :: steps) := by
  have hreceive : ∀ (places : List Nat) (s : Session),
      places.foldl receive s = s.run (places.map .receive) := by
    intro places
    induction places with
    | nil => exact fun _ => rfl
    | cons i places ih => exact fun s => ih (s.receive i)
  obtain ⟨steps, hsteps⟩ := passUntil_eq_run
    ((List.range (s.handle e).watchers.length).foldl receive (s.handle e)) (s.handle e).now
  -- every watcher is offered a signal before those that are due fire
  refine ⟨(List.range (s.handle e).watchers.length).map .receive ++ steps, ?_⟩
  rw [notify, h, run_cons, run_append, ← hreceive]
  exact hsteps

theorem wait_eq_run (s : Session) (duration : Nat) : ∃ steps, s.wait duration = s.run steps :=
  passUntil_eq_run s (s.now + duration)

theorem request_eq_run {s : Session} (h : s.phase = .running) (r : Request) :
    (s.request r).1 = s.run [.request r] := by
  simp only [request, h]
  rfl

end Session

/-! ## Watchers -/

namespace Watcher

/-- Something is still to come: a signal was not received yet, or an analysis not handed in. -/
def isPending (w : Watcher) : Bool :=
  match w.state with
  | .idle => w.signals != 0
  | _ => true

/-- The watcher with nothing to come. -/
def rested (w : Watcher) : Watcher :=
  { w with signals := 0, state := .idle }

theorem isPending_signal (w : Watcher) : w.signal.isPending = true := by
  simp only [isPending, signal]
  split
  · simp
  · rfl

theorem isPending_receive (w : Watcher) (now delay : Nat) :
    (w.receive now delay).isPending = w.isPending := by
  cases hstate : w.state with
  | idle =>
    by_cases hsignals : w.signals = 0
    · simp [receive, hstate, hsignals]
    · simp [receive, isPending, hstate, hsignals]
  | sleeping t => simp [receive, hstate]
  | holding a => simp [receive, hstate]

theorem uri_receive (w : Watcher) (now delay : Nat) : (w.receive now delay).uri = w.uri := by
  unfold receive
  split
  · split <;> rfl
  · rfl

theorem held?_receive {w : Watcher} (now delay : Nat) (h : w.held? = none) :
    (w.receive now delay).held? = none := by
  unfold receive
  split
  · split
    · exact h
    · rfl
  · exact h

end Watcher

namespace Session

/-- Something is still to come from a watcher of the document. -/
def Awaits (s : Session) (uri : Uri) : Prop :=
  ∃ w ∈ s.watchers, w.uri = uri ∧ w.isPending = true

/-- No watcher has an analysis to hand in: wakings and hand-ins come in pairs. -/
def EmptyHanded (s : Session) : Prop :=
  ∀ w ∈ s.watchers, w.held? = none

/-- What was awaited is still awaited, and no watcher comes to hold an analysis. -/
structure Attends (s s' : Session) : Prop where
  awaits : ∀ uri, s.Awaits uri → s'.Awaits uri
  emptyHanded : s.EmptyHanded → s'.EmptyHanded

theorem Attends.trans {s t u : Session} (h : Attends s t) (h' : Attends t u) : Attends s u where
  awaits uri hs := h'.awaits uri (h.awaits uri hs)
  emptyHanded hs := h'.emptyHanded (h.emptyHanded hs)

theorem Attends.of_eq {s s' : Session} (h : s'.watchers = s.watchers) : Attends s s' where
  awaits uri hs := by
    rw [Awaits, h]
    exact hs
  emptyHanded hs := by
    rw [EmptyHanded, h]
    exact hs

/-- Watchers may change if each stays with its document and does not come to rest. -/
theorem Attends.of_map {s s' : Session} {f : Watcher → Watcher}
    (h : s'.watchers = s.watchers.map f) (huri : ∀ w, (f w).uri = w.uri)
    (hpending : ∀ w, w.isPending = true → (f w).isPending = true)
    (hheld : ∀ w, w.held? = none → (f w).held? = none) : Attends s s' := by
  constructor
  · rintro uri ⟨w, hw, rfl, hp⟩
    refine ⟨f w, ?_, huri w, hpending w hp⟩
    rw [h]
    exact List.mem_map_of_mem hw
  · intro hempty w hw
    rw [h] at hw
    obtain ⟨v, hv, rfl⟩ := List.mem_map.mp hw
    exact hheld v (hempty v hv)

theorem attends_signal (s : Session) (uri : Uri) : Attends s (s.signal uri) := by
  rw [signal]
  split
  · apply Attends.of_map rfl
    · intro w
      split <;> rfl
    · intro w hw
      split
      · exact w.isPending_signal
      · exact hw
    · intro w hw
      split
      · exact hw
      · exact hw
  · -- no watcher is attached, and a new one gets the signal
    constructor
    · rintro other ⟨w, hw, hrest⟩
      exact ⟨w, List.mem_append_left _ hw, hrest⟩
    · intro hempty w hw
      rcases List.mem_append.mp hw with hw | hw
      · exact hempty w hw
      · rw [List.mem_singleton.mp hw]
        rfl

/-- After a signal, the document is awaited. -/
theorem awaits_signal (s : Session) (uri : Uri) : (s.signal uri).Awaits uri := by
  rw [signal]
  split
  · rename_i hany
    obtain ⟨w, hw, hfor⟩ := List.any_eq_true.mp hany
    refine ⟨w.signal, List.mem_map.mpr ⟨w, hw, if_pos hfor⟩, ?_, w.isPending_signal⟩
    exact beq_iff_eq.mp (Bool.and_eq_true_iff.mp hfor).2
  · exact ⟨Watcher.signal { uri := uri }, by simp, rfl, rfl⟩

theorem attends_detach (s : Session) (uri : Uri) : Attends s (s.detach uri) := by
  apply Attends.of_map rfl
  · intro w
    split <;> rfl
  · intro w hw
    split <;> exact hw
  · intro w hw
    split <;> exact hw

theorem attends_receive (s : Session) (i : Nat) : Attends s (s.receive i) := by
  constructor
  · rintro uri ⟨w, hw, rfl, hp⟩
    obtain ⟨j, hj⟩ := List.mem_iff_getElem?.mp hw
    have hafter : (s.receive i).watchers[j]?
        = some (if i = j then w.receive s.now s.settings.debounce else w) := by
      rw [receive, List.getElem?_modify, hj]
      rfl
    -- a signal that is received turns into a sleep, and something is still to come
    refine ⟨_, List.mem_of_getElem? hafter, ?_, ?_⟩
    · split
      · exact w.uri_receive _ _
      · rfl
    · split
      · exact (w.isPending_receive _ _).trans hp
      · exact hp
  · intro hempty w hw
    obtain ⟨j, hj⟩ := List.mem_iff_getElem?.mp hw
    rw [receive, List.getElem?_modify, Option.map_eq_map, Option.map_eq_some_iff] at hj
    obtain ⟨v, hv, rfl⟩ := hj
    have hv' := hempty v (List.mem_of_getElem? hv)
    split
    · exact v.held?_receive _ _ hv'
    · exact hv'

theorem attends_prune (s : Session) : Attends s (s.step .prune) := by
  constructor
  · rintro uri ⟨w, hw, huri, hp⟩
    refine ⟨w, List.mem_filter.mpr ⟨hw, ?_⟩, huri, hp⟩
    -- a watcher that is done has nothing to come
    unfold Watcher.isPending at hp
    unfold Watcher.isDone
    split at hp <;> simp_all
  · exact fun hempty w hw => hempty w (List.mem_filter.mp hw).1

/-! ## Firings -/

/-- A firing wakes a watcher that sleeps, which then rests while its document is analysed if it is
    dirty. Any other firing does nothing. -/
theorem fire_cases {s : Session} (h : s.EmptyHanded) (i : Nat) :
    s.step (.fire i) = s
      ∨ ∃ w, s.watchers[i]? = some w
          ∧ s.step (.fire i)
            = { s with watchers := s.watchers.set i w.rested }.analyseIfDirty w.uri := by
  cases hw : s.watchers[i]? with
  | none =>
    have hlength := List.getElem?_eq_none_iff.mp hw
    left
    simp only [step, wake, finish, List.modify_eq_self hlength, hw]
  | some w =>
    have hset : ∀ f : Watcher → Watcher, s.watchers.modify i f = s.watchers.set i (f w) := by
      intro f
      rw [List.modify_eq_set, hw, Option.getD_some]
    obtain ⟨hi, hget⟩ := List.getElem?_eq_some_iff.mp hw
    have hself : s.watchers.set i w = s.watchers := by
      rw [← hget, List.set_getElem_self]
    cases hstate : w.state with
    | holding a =>
      have := h w (List.mem_of_getElem? hw)
      simp [Watcher.held?, hstate] at this
    | idle =>
      left
      simp [step, wake, finish, hset, Watcher.wake, hstate, hself, hw, Watcher.held?]
    | sleeping t =>
      -- waking and handing in change the same place of the list, so one change is left
      right
      refine ⟨w, rfl, ?_⟩
      simp only [step, wake, finish, hset, Watcher.wake, hstate, analyseIfDirty]
      by_cases hdirty : s.store.isDirty w.uri = true
      · cases ha : s.store.analyse? w.uri with
        | none => simp [hdirty, hi, Watcher.held?, Watcher.rested]
        | some a =>
          simp [hdirty, hi, Watcher.held?, Watcher.rested, Watcher.finish, List.modify_eq_set]
      · simp [hdirty, hi, Watcher.held?, Watcher.rested]

/-- While one watcher comes to rest, the others are attended to as before. -/
theorem awaits_set_rested {s : Session} {i : Nat} {w : Watcher} {uri : Uri}
    (hw : s.watchers[i]? = some w) (hne : uri ≠ w.uri) (h : s.Awaits uri) :
    { s with watchers := s.watchers.set i w.rested }.Awaits uri := by
  obtain ⟨v, hv, rfl, hp⟩ := h
  obtain ⟨j, hj⟩ := List.mem_iff_getElem?.mp hv
  have hij : i ≠ j := by
    rintro rfl
    rw [hw] at hj
    exact hne (congrArg Watcher.uri (Option.some.inj hj)).symm
  refine ⟨v, ?_, rfl, hp⟩
  apply List.mem_of_getElem?
  rw [List.getElem?_set_ne hij]
  exact hj

theorem emptyHanded_set_rested {s : Session} (h : s.EmptyHanded) (i : Nat) (w : Watcher) :
    { s with watchers := s.watchers.set i w.rested }.EmptyHanded := by
  intro v hv
  rcases List.mem_or_eq_of_mem_set hv with hv | rfl
  · exact h v hv
  · rfl

/-! ## Requests -/

/-- The stores differ by one use of a document, or not at all. -/
def AtMostUsed (store store' : Store) : Prop :=
  store' = store ∨ ∃ uri, store' = store.touch uri

theorem atMostUsed_get? (store : Store) (uri : Uri) : AtMostUsed store (store.get? uri).1 := by
  rcases store.get?_cases uri with h | h
  · exact .inl h
  · exact .inr ⟨uri, h⟩

theorem atMostUsed_command (store : Store) (name : String) (arguments : List Value) :
    AtMostUsed store (Command.run store name arguments).1 := by
  rw [Command.run]
  cases Command.parse name arguments with
  | error e => exact .inl rfl
  | ok query =>
    have hget := atMostUsed_get? store query.1
    simp only [Store.analysis?]
    cases (store.get? query.1).2 with
    | none => exact hget
    | some d => exact hget

/-- A request uses at most one document and does nothing else to the documents. -/
theorem respond_cases (s : Session) (r : Request) :
    ∃ phase store, AtMostUsed s.store store
      ∧ (s.respond r).1 = { s with phase := phase, store := store } := by
  cases r with
  | start options => exact ⟨_, _, .inl rfl, rfl⟩
  | hover uri p => exact ⟨_, _, atMostUsed_get? s.store uri, rfl⟩
  | definition uri p => exact ⟨_, _, atMostUsed_get? s.store uri, rfl⟩
  | references uri p withDefinition => exact ⟨_, _, atMostUsed_get? s.store uri, rfl⟩
  | folding uri => exact ⟨_, _, atMostUsed_get? s.store uri, rfl⟩
  | tokens uri => exact ⟨_, _, atMostUsed_get? s.store uri, rfl⟩
  | command name arguments =>
    refine ⟨s.phase, _, atMostUsed_command s.store name arguments, ?_⟩
    rw [respond]
    split <;> simp_all
  | shutdown => exact ⟨_, _, .inl rfl, rfl⟩

end Session

end BimEditor
