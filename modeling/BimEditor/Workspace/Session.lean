/-
  BimEditor.Workspace.Session

  A session of an editor with this library: documents are opened, edited, saved and closed, settings
  change, questions are asked, and time passes. Edits are analysed after a delay, everything else
  at once. What the session has to say on its own account goes to an outbox.
-/
import BimEditor.Analysis.Hover
import BimEditor.Analysis.Symbol
import BimEditor.Analysis.Token
import BimEditor.Workspace.Command
import BimEditor.Workspace.Settings
import BimEditor.Workspace.Watcher

namespace BimEditor

open BimEditor.Json BimEditor.Text

/-! ## States and messages -/

/-- A range of a document. -/
structure Location where
  uri : Uri
  range : Range
deriving DecidableEq, Repr, Inhabited

/-- What a session says on its own account. -/
inductive Notice where
  /-- The diagnostics of a document are now these. -/
  | diagnostics (uri : Uri) (diagnostics : List Diagnostic)
  /-- An error that is shown to the user. -/
  | message (text : String)
deriving DecidableEq, Repr

/-- How far a session is. -/
inductive Phase where
  /-- It was not started yet. -/
  | fresh
  | running
  /-- It was shut down. -/
  | stopped
deriving DecidableEq, Repr, Inhabited

/-- A session. -/
structure Session where
  phase : Phase := .fresh
  settings : Settings
  store : Store
  watchers : List Watcher := []
  /-- The time, in milliseconds. -/
  now : Nat := 0
  /-- What is still to be sent, in order. -/
  outbox : List Notice := []
deriving Inhabited

/-- What an editor tells a session. -/
inductive Event where
  /-- The editor is ready. -/
  | ready
  | opened (uri : Uri) (text : String)
  /-- The document has new texts, of which the last one counts. -/
  | changed (uri : Uri) (texts : List String)
  /-- The document was saved, possibly with its text. -/
  | saved (uri : Uri) (text : Option String)
  | closed (uri : Uri)
  /-- The settings are now these. -/
  | configured (settings : Value)

/-- What an editor asks a session. -/
inductive Request where
  /-- Start the session, possibly with settings. -/
  | start (options : Option Value)
  | hover (uri : Uri) (position : Position)
  | definition (uri : Uri) (position : Position)
  | references (uri : Uri) (position : Position) (withDefinition : Bool)
  | folding (uri : Uri)
  | tokens (uri : Uri)
  | command (name : String) (arguments : List Value)
  /-- Shut the session down. -/
  | shutdown

/-- The answer to a request; `none` where there is nothing to answer. -/
inductive Answer where
  | started
  | hover (hover : Option Hover)
  | definition (location : Option Location)
  | references (locations : Option (List Location))
  | folding (ranges : Option (List FoldingRange))
  | tokens (tokens : Option (List SemanticToken))
  | command (text : String)
  | stopped

/-- Why a request is not answered. -/
inductive Refusal where
  /-- The session was not started yet. -/
  | notStarted
  /-- The session was started already, or is shut down. -/
  | outOfOrder
  | command (error : CommandError)
deriving DecidableEq, Repr

namespace Refusal

/-- The number of a refusal. -/
def code : Refusal → Int
  | .notStarted => -32002
  | .outOfOrder => -32600
  | .command _ => -32602

/-- The wording of a refusal. -/
def message : Refusal → String
  | .notStarted => "Server not initialized"
  | .outOfOrder => "Invalid request"
  | .command error => error.message

end Refusal

namespace Session

/-- A session that was not started yet. -/
def new (settings : Settings) : Session where
  settings := settings
  store := { maxDocuments := settings.maxDocuments, maxDocumentSize := settings.maxDocumentSize }

/-! ## Diagnostics -/

/-- Put a notice into the outbox. -/
def post (s : Session) (notice : Notice) : Session :=
  { s with outbox := s.outbox ++ [notice] }

/-- Hand in an analysis of a document and publish its diagnostics. -/
def handIn (s : Session) (uri : Uri) (a : Analysis) : Session :=
  { s with store := s.store.accept uri a }.post (.diagnostics uri a.diagnostics)

/-- Analyse a document that is dirty. -/
def analyseIfDirty (s : Session) (uri : Uri) : Session :=
  if s.store.isDirty uri then
    match s.store.analyse? uri with
    | some a => s.handIn uri a
    | none => s
  else s

/-! ## Watchers -/

/-- Signal an edit to the watcher of a document, a new one if it has none. -/
def signal (s : Session) (uri : Uri) : Session :=
  let isFor (w : Watcher) : Bool := w.attached && w.uri == uri
  if s.watchers.any isFor then
    { s with watchers := s.watchers.map fun w => if isFor w then w.signal else w }
  else { s with watchers := s.watchers ++ [Watcher.signal { uri := uri }] }

/-- Send no more signals to the watchers of a document. -/
def detach (s : Session) (uri : Uri) : Session :=
  { s with
    watchers := s.watchers.map fun w => if w.uri == uri then { w with attached := false } else w }

/-- The watcher at a place receives a signal. -/
def receive (s : Session) (i : Nat) : Session :=
  { s with watchers := s.watchers.modify i (Watcher.receive s.now s.settings.debounce) }

/-- The watcher at a place wakes up. -/
def wake (s : Session) (i : Nat) : Session :=
  { s with watchers := s.watchers.modify i (Watcher.wake s.store) }

/-- The watcher at a place hands its analysis in. -/
def finish (s : Session) (i : Nat) : Session :=
  match s.watchers[i]? with
  | some w =>
    match w.held? with
    | some a => { s with watchers := s.watchers.modify i Watcher.finish }.handIn w.uri a
    | none => s
  | none => s

/-- The places of the watchers that wake up by a time, in the order in which they do. -/
def dueBy (s : Session) (time : Nat) : List (Nat × Nat) :=
  let due := s.watchers.zipIdx.filterMap fun (w, i) => w.due?.map fun t => (t, i)
  (due.filter fun (t, _) => t ≤ time).mergeSort fun a b => a.1 ≤ b.1

/-- Let time pass until `time`: the watchers that are due wake up, one after the other. -/
def passUntil (s : Session) (time : Nat) : Session :=
  -- a watcher that woke up is idle again, so none is due twice
  let s := (s.dueBy time).foldl (fun s (t, i) => ({ s with now := max s.now t }.wake i).finish i) s
  { s with now := max s.now time, watchers := s.watchers.filter fun w => !w.isDone }

/-- After an event: the watchers that wait receive their signals. -/
def settle (s : Session) : Session :=
  ((List.range s.watchers.length).foldl receive s).passUntil s.now

/-- Let milliseconds pass. -/
def wait (s : Session) (duration : Nat) : Session :=
  s.passUntil (s.now + duration)

/-! ## Events -/

/-- Replace the settings, and tell whether the style changed. -/
def configure (s : Session) (settings : Settings) : Session × Bool :=
  let store := { s.store with
    maxDocuments := settings.maxDocuments
    maxDocumentSize := settings.maxDocumentSize }
  let (store, restyled) := store.restyle settings.style
  ({ s with settings := settings, store := store }, restyled)

/-- The complaint about a document that is too large. -/
def oversizeText (size limit : Nat) : String :=
  "Document too large: " ++ toString size ++ " bytes exceeds maximum of " ++ toString limit
    ++ " bytes (" ++ toString (limit / megabyte) ++ " MB)"

/-- A document is opened. -/
def opened (s : Session) (uri : Uri) (text : String) : Session :=
  if s.store.maxDocumentSize < text.utf8ByteSize then
    s.post (.message (oversizeText text.utf8ByteSize s.store.maxDocumentSize))
  else
    let s := { s with store := (s.store.put uri text).1 }
    if s.store.isDirty uri then s.analyseIfDirty uri
    -- a new document was analysed when it was taken in: only its diagnostics are due
    else
      match s.store.analysis? uri with
      | (store, some a) => { s with store := store }.post (.diagnostics uri a.diagnostics)
      | (_, none) => s

/-- A document is edited. -/
def changed (s : Session) (uri : Uri) (texts : List String) : Session :=
  match texts.getLast? with
  | none => s
  | some text =>
    match s.store.put uri text with
    | (store, true) => { s with store := store }.signal uri
    | (_, false) => s

/-- A document is saved. -/
def saved (s : Session) (uri : Uri) (text : Option String) : Session :=
  let s := match text with
    | some text => { s with store := (s.store.put uri text).1 }
    | none => s
  s.analyseIfDirty uri

/-- A document is closed. -/
def closed (s : Session) (uri : Uri) : Session :=
  ({ s with store := (s.store.remove uri).1 }.detach uri).post (.diagnostics uri [])

/-- The settings change. With another style, all documents are analysed again. -/
def configured (s : Session) (settings : Value) : Session :=
  match s.configure (Settings.readOrDefault settings) with
  | (s, true) => s.store.uris.foldl analyseIfDirty s
  | (s, false) => s

/-- Take an event in. -/
def handle (s : Session) : Event → Session
  | .ready => s
  | .opened uri text => s.opened uri text
  | .changed uri texts => s.changed uri texts
  | .saved uri text => s.saved uri text
  | .closed uri => s.closed uri
  | .configured settings => s.configured settings

/-- Tell a session about an event, which counts only while it is running. -/
def notify (s : Session) (e : Event) : Session :=
  match s.phase with
  | .running => (s.handle e).settle
  | _ => s

/-! ## Requests -/

/-- Ask something about the latest analysis of a document, which is a use of it. -/
def ask {α : Type} (s : Session) (uri : Uri) (question : Analysis → α) : Session × Option α :=
  let (store, a) := s.store.analysis? uri
  ({ s with store := store }, a.map question)

/-- Where a symbol is defined in an open document other than `uri`. -/
def definitionElsewhere? (s : Session) (uri : Uri) (symbol : Symbol) : Option Location :=
  s.store.documents.findSome? fun (other, d) =>
    if other == uri then none else (d.analysis.definition? symbol).map fun range => ⟨other, range⟩

/-- Where the symbol at a position is defined: in the document itself, or, for a schema, in another
    open one. -/
def definitionAt? (s : Session) (uri : Uri) (p : Position) (a : Analysis) : Option Location := do
  let symbol ← a.symbolAt? p
  match a.definition? symbol with
  | some range => return ⟨uri, range⟩
  | none => if symbol.isSchema then s.definitionElsewhere? uri symbol else none

/-- The places that mention the symbol at a position. -/
def referencesAt? (uri : Uri) (p : Position) (withDefinition : Bool) (a : Analysis) :
    Option (List Location) :=
  (a.symbolAt? p).map fun symbol =>
    (a.references symbol withDefinition).map fun range => ⟨uri, range⟩

/-- Start a session. -/
def start (s : Session) (options : Option Value) : Session :=
  match options with
  | some v => { (s.configure (Settings.readOrDefault v)).1 with phase := .running }
  | none => { s with phase := .running }

/-- Answer a request to a running session. -/
def respond (s : Session) : Request → Session × Except Refusal Answer
  | .start _ => (s, .error .outOfOrder)
  | .hover uri p =>
    let (s, h) := s.ask uri fun a => a.hover? p
    (s, .ok (.hover h.join))
  | .definition uri p =>
    let (s, d) := s.ask uri fun a => s.definitionAt? uri p a
    (s, .ok (.definition d.join))
  | .references uri p withDefinition =>
    let (s, r) := s.ask uri (referencesAt? uri p withDefinition)
    (s, .ok (.references r.join))
  | .folding uri =>
    let (store, d) := s.store.get? uri
    ({ s with store := store },
      .ok (.folding (d.map fun d => FoldingRange.ofText s.settings.leastElements d.text.toList)))
  | .tokens uri =>
    let (s, t) := s.ask uri Analysis.semanticTokens
    (s, .ok (.tokens t))
  | .command name arguments =>
    match Command.run s.store name arguments with
    | (store, .ok text) => ({ s with store := store }, .ok (.command text))
    | (store, .error e) => ({ s with store := store }, .error (.command e))
  | .shutdown => ({ s with phase := .stopped }, .ok .stopped)

/-- Answer a request. Before the start only the start is answered, and nothing is after the
    shutdown. -/
def request (s : Session) (r : Request) : Session × Except Refusal Answer :=
  match s.phase, r with
  | .fresh, .start options => (s.start options, .ok .started)
  | .fresh, _ => (s, .error .notStarted)
  | .running, r => s.respond r
  | .stopped, _ => (s, .error .outOfOrder)

end Session

end BimEditor
