/-
  BimEditor.Workspace.Watcher

  Watchers: one for each document that is being edited. A watcher waits for a signal that the
  document was edited, sleeps for a while so that a burst of edits is answered once, and then has
  the document analysed if it is still dirty. Signals that arrive while it sleeps are answered by
  the same analysis.
-/
import BimEditor.Workspace.Store

namespace BimEditor

/-- What a watcher is doing. -/
inductive WatcherState where
  /-- It waits for a signal. -/
  | idle
  /-- It received a signal and sleeps until that time. -/
  | sleeping (wakeTime : Nat)
  /-- It has this analysis of the document to hand in. -/
  | holding (analysis : Analysis)
deriving Inhabited

/-- A watcher of a document. -/
structure Watcher where
  uri : Uri
  /-- Signals that were sent and not yet received. -/
  signals : Nat := 0
  /-- Signals can still be sent to it. -/
  attached : Bool := true
  state : WatcherState := .idle
deriving Inhabited

namespace Watcher

/-- Send a signal to the watcher. -/
def signal (w : Watcher) : Watcher :=
  { w with signals := w.signals + 1 }

/-- The longest sleep of a watcher, in milliseconds: thirty years of 365 days. -/
def longestSleep : Nat := 30 * 365 * 24 * 60 * 60 * 1000

/-- Receive a signal, if one is there and the watcher waits for it, and sleep for `delay`, or for as
    long as a watcher can. -/
def receive (now delay : Nat) (w : Watcher) : Watcher :=
  match w.state with
  | .idle =>
    if w.signals = 0 then w
    else { w with signals := w.signals - 1, state := .sleeping (now + min delay longestSleep) }
  | _ => w

/-- Wake up: forget the signals that came during the sleep, and analyse the document as it is now
    if it is dirty. -/
def wake (store : Store) (w : Watcher) : Watcher :=
  match w.state with
  | .sleeping _ =>
    let next :=
      if store.isDirty w.uri then
        match store.analyse? w.uri with
        | some a => .holding a
        | none => .idle
      else .idle
    { w with signals := 0, state := next }
  | _ => w

/-- The watcher handed its analysis in. -/
def finish (w : Watcher) : Watcher :=
  match w.state with
  | .holding _ => { w with state := .idle }
  | _ => w

/-- The analysis to hand in. -/
def held? (w : Watcher) : Option Analysis :=
  match w.state with
  | .holding a => some a
  | _ => none

/-- When the watcher wakes up. -/
def due? (w : Watcher) : Option Nat :=
  match w.state with
  | .sleeping t => some t
  | _ => none

/-- The watcher will never do anything again. -/
def isDone (w : Watcher) : Bool :=
  match w.state with
  | .idle => !w.attached && w.signals == 0
  | _ => false

end Watcher

end BimEditor
