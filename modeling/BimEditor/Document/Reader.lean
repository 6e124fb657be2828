/-
  BimEditor.Document.Reader

  From a text to a document together with the tree it was read from. The envelope is checked
  strictly: a header with three non-empty fields, a table of schemas, a list of data. Inside it the
  reading is lenient, so that one broken entry does not hide the others from an editor.
-/
import BimEditor.Document.Problem
import BimEditor.Document.Wire
import BimEditor.Json.Reader
import BimEditor.Json.Writer

namespace BimEditor

open BimEditor.Json BimEditor.Text

/-! ## The envelope -/

/-- The problem of a value that does not have the shape it should have. -/
def misfit (t : Tree) (cause : Misfit) : Problem :=
  .misshapen t.span.start cause

/-- A member that is there and not `null`. -/
def presentMember? (name : String) (t : Tree) : Option Tree :=
  (t.get? name).filter fun v => !v.isNull

/-- A field of the header that holds a non-empty string. -/
def headerField (header : Tree) (field : String) : Except Problem String :=
  match (header.get? field).bind Tree.string? with
  | some s => if s.isEmpty then .error (misfit header (.missingHeaderField field)) else .ok s
  | none => .error (misfit header (.missingHeaderField field))

/-- A member that must be there and must have the right shape. -/
def shapedMember {α : Type} (root : Tree) (field : String) (shape : Tree → Option α) :
    Except Problem α :=
  match presentMember? field root with
  | none => .error (misfit root (.missingField field))
  | some v =>
    match shape v with
    | none => .error (misfit v (.wrongType field))
    | some a => .ok a

/-- The parts of a tree that make it a document. -/
structure Envelope where
  header : Header
  schemas : List (Key × Tree)
  data : List Tree

/-- The envelope of a document, or the first thing that is missing from it. -/
def Envelope.ofTree (root : Tree) : Except Problem Envelope := do
  if root.members?.isNone then throw (misfit root .notAnObject)
  let header ← match presentMember? "header" root with
    | some header => pure header
    | none => throw (misfit root .missingHeader)
  let version ← headerField header "version"
  let author ← headerField header "author"
  let timestamp ← headerField header "timestamp"
  let schemas ← shapedMember root "schemas" Tree.members?
  let data ← shapedMember root "data" Tree.items?
  return ⟨⟨version, author, timestamp⟩, schemas, data⟩

/-- The document in an envelope. -/
def Envelope.document (e : Envelope) : Document where
  header := e.header
  schemas := Keyed.collect (e.schemas.map fun (key, t) => (key.name, Schema.ofValue t.toValue))
  data := e.data.map fun t => Node.ofValue t.toValue

/-! ## Documents with their source -/

/-- A document and the tree it was read from. -/
structure ParsedDocument where
  document : Document
  tree : Tree
deriving Inhabited

namespace ParsedDocument

/-- The members of the schema table, repeated names included. -/
def schemaMembers (p : ParsedDocument) : List (Key × Tree) :=
  ((p.tree.get? "schemas").bind Tree.members?).getD []

/-- The name of a schema where it is defined. -/
def schemaDefinition? (p : ParsedDocument) (name : String) : Option Span :=
  ((p.tree.get? "schemas").bind (Tree.entry? name)).map fun entry => entry.1.content

/-- The items of the data list. -/
def dataItems (p : ParsedDocument) : List Tree :=
  ((p.tree.get? "data").bind Tree.items?).getD []

/-- Each node with the tree it was read from. -/
def entries (p : ParsedDocument) : List (Node × Tree) :=
  p.document.data.zip p.dataItems

end ParsedDocument

/-- Read a text as a document. -/
def ParsedDocument.read (limits : Limits) (text : List Char) : Except Problem ParsedDocument :=
  match Json.read limits text with
  | .error fault => .error (.unreadable fault)
  | .ok tree => do
    let envelope ← Envelope.ofTree tree
    return ⟨envelope.document, tree⟩

/-- Read a text as a document and forget where its parts stand. -/
def Document.read (limits : Limits) (text : List Char) : Except Problem Document :=
  (ParsedDocument.read limits text).map (·.document)

/-- The compact text of a document. -/
def Document.text (d : Document) : List Char :=
  d.toValue.compact

end BimEditor
