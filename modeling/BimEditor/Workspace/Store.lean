/-
  BimEditor.Workspace.Store

  The open documents: each with its text and its latest analysis. A document is dirty while its
  analysis may be out of date. The store holds a limited number of documents and drops the one that
  was not used for the longest time to make room for another.
-/
import BimEditor.Analysis.Diagnostic
import BimEditor.Text.SipHash

namespace BimEditor

open BimEditor.Json BimEditor.Text

/-- The name that an editor gives to a document. -/
abbrev Uri := String

/-- A number that tells texts apart, to notice an edit: their SipHash with one round for each word
    and three at the end. A byte that no text holds marks the end of the text. -/
def fingerprint (text : String) : UInt64 :=
  SipHash.hash { wordRounds := 1, lastRounds := 3 } (utf8Bytes text.toList ++ [0xff])

/-- A document that is held. -/
structure HeldDocument where
  text : String
  /-- The fingerprint of the text. -/
  print : UInt64
  /-- The latest analysis, which may be one of an earlier text. -/
  analysis : Analysis
  /-- The document has to be analysed again. -/
  dirty : Bool
  /-- When the document was last used. -/
  lastUse : Nat
deriving Inhabited

/-- The documents that are held, and how often they were found. The three counts have no bound; each
    operation adds at most one to any of them, so counters of 64 bits hold the same numbers for
    fewer than 2 ^ 64 operations. -/
structure Store where
  documents : Keyed HeldDocument := []
  maxDocuments : Nat
  maxDocumentSize : Nat
  /-- How schemas are described in new analyses. -/
  style : TooltipStyle := .detailed
  /-- Documents that were held already when their text came. -/
  hits : Nat := 0
  /-- Documents that were not. -/
  misses : Nat := 0
  /-- Documents dropped to make room. -/
  evictions : Nat := 0
  /-- The time of the next use. -/
  clock : Nat := 0
deriving Inhabited

namespace Store

/-! ## Looking -/

/-- The document of that name, without counting this as a use. -/
def peek? (s : Store) (uri : Uri) : Option HeldDocument :=
  Keyed.get? uri s.documents

/-- The names of the documents that are held. -/
def uris (s : Store) : List Uri :=
  Keyed.names s.documents

/-- The document is held and has to be analysed again. -/
def isDirty (s : Store) (uri : Uri) : Bool :=
  (s.peek? uri).any (·.dirty)

/-! ## Using -/

/-- Note a use of a document. -/
def touch (s : Store) (uri : Uri) : Store :=
  { s with
    documents := Keyed.adjust uri (fun d => { d with lastUse := s.clock }) s.documents
    clock := s.clock + 1 }

/-- The document of that name, which is a use of it. -/
def get? (s : Store) (uri : Uri) : Store × Option HeldDocument :=
  match s.peek? uri with
  | some d => (s.touch uri, some d)
  | none => (s, none)

/-- The latest analysis of a document, which is a use of it. -/
def analysis? (s : Store) (uri : Uri) : Store × Option Analysis :=
  let (s, d) := s.get? uri
  (s, d.map (·.analysis))

/-! ## Dropping -/

/-- The document that was not used for the longest time. -/
def oldest? (documents : Keyed HeldDocument) : Option (Uri × HeldDocument) :=
  documents.foldl (fun best entry =>
    match best with
    | none => some entry
    | some old => if entry.2.lastUse < old.2.lastUse then some entry else some old) none

/-- The documents without the one of that name. -/
def without (uri : Uri) (documents : Keyed HeldDocument) : Keyed HeldDocument :=
  documents.filter fun entry => entry.1 != uri

/-- Drop the document that was not used for the longest time. -/
def evict (s : Store) : Store :=
  match oldest? s.documents with
  | some (uri, _) => { s with documents := without uri s.documents, evictions := s.evictions + 1 }
  | none => s

/-- Drop a document, and tell whether it was held. -/
def remove (s : Store) (uri : Uri) : Store × Bool :=
  ({ s with documents := without uri s.documents }, Keyed.has uri s.documents)

/-- Drop all documents and start counting again. -/
def clear (s : Store) : Store :=
  { s with documents := [], hits := 0, misses := 0, evictions := 0 }

/-! ## Texts -/

/-- A document that just came in, with its analysis. -/
def admitted (s : Store) (text : String) : HeldDocument where
  text := text
  print := fingerprint text
  analysis := .ofText s.style text
  dirty := false
  lastUse := s.clock

/-- A document whose text came again: dirty if it is another one. -/
def edited (d : HeldDocument) (text : String) : HeldDocument :=
  if d.print = fingerprint text then d
  else { d with text := text, print := fingerprint text, dirty := true }

/-- Hold a text that is not held yet, after making room for it. -/
def insert (s : Store) (uri : Uri) (text : String) : Store :=
  let s := { s with misses := s.misses + 1 }
  -- one document makes room, also where the limit has shrunk by more since
  let s := if s.maxDocuments ≤ s.documents.length then s.evict else s
  { s with documents := s.documents ++ [(uri, s.admitted text)], clock := s.clock + 1 }

/-- Take in the text of a document, and tell whether it was taken: one that is too large is not. A
    new document is analysed at once; an edited one becomes dirty. -/
def put (s : Store) (uri : Uri) (text : String) : Store × Bool :=
  if s.maxDocumentSize < text.utf8ByteSize then (s, false)
  else if Keyed.has uri s.documents then
    (({ s with
        documents := Keyed.adjust uri (fun d => edited d text) s.documents
        hits := s.hits + 1 } : Store).touch uri, true)
  else (s.insert uri text, true)

/-! ## Analyses -/

/-- Count a document as analysed. -/
def markClean (s : Store) (uri : Uri) : Store :=
  { s with documents := Keyed.adjust uri (fun d => { d with dirty := false }) s.documents }

/-- The analysis that a document should have, of its current text in the current style. -/
def analyse? (s : Store) (uri : Uri) : Option Analysis :=
  (s.peek? uri).map fun d => .ofText s.style d.text

/-- A document with a new analysis, unless that is one of another text. -/
def analysed (d : HeldDocument) (a : Analysis) : HeldDocument :=
  if d.text = a.text then { d with analysis := a, dirty := false } else d

/-- Take in an analysis, unless the document has got another text since. -/
def accept (s : Store) (uri : Uri) (a : Analysis) : Store :=
  { s with documents := Keyed.adjust uri (fun d => analysed d a) s.documents }

/-- Describe schemas in another style from now on, and tell whether that changes anything. If so,
    all documents have to be analysed again. -/
def restyle (s : Store) (style : TooltipStyle) : Store × Bool :=
  if s.style = style then (s, false)
  else
    ({ s with
        style := style
        documents := s.documents.map fun (uri, d) => (uri, { d with dirty := true }) }, true)

end Store

end BimEditor
