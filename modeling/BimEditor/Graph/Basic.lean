/-
  BimEditor.Graph.Basic

  The graph of identifiers of a document: for each identifier what it is called, who its parent is,
  its children and what it inherits from, and where it is defined. A node has a name only because
  another node lists it among its children.
-/
import BimEditor.Document.Reader

namespace BimEditor

open BimEditor.Json BimEditor.Text

/-- All that a document says about one identifier. -/
structure GraphNode where
  identifier : String
  /-- The name that the parent gives it. -/
  name : Option String := none
  parent : Option String := none
  inherits : List String := []
  children : List String := []
  /-- The names of its children, by identifier. -/
  childNames : Keyed String := []
  /-- Where the identifier is defined. -/
  span : Option Span := none
deriving DecidableEq, Repr, Inhabited

/-- The identifiers of a document, in the order of their first occurrence. -/
structure IdentifierGraph where
  nodes : Keyed GraphNode := []
deriving DecidableEq, Repr, Inhabited

/-- One node calling another one its child. -/
structure ChildReference where
  parent : String
  name : String
  child : String
deriving DecidableEq, Repr, Inhabited

namespace IdentifierGraph

/-! ## Building -/

/-- Take a node with an identifier into the graph. The first one of an identifier says where it is
    defined, the last one that inherits from anything what it inherits from. -/
def register (nodes : Keyed GraphNode) (node : Node) (span : Option Span) : Keyed GraphNode :=
  let known :=
    if Keyed.has node.identifier nodes then nodes
    else nodes ++ [(node.identifier, { identifier := node.identifier, span := span })]
  if node.inherits.any fun i => !i.isEmpty then
    Keyed.adjust node.identifier (fun info => { info with inherits := node.inheritTargets }) known
  else known

/-- Take a reference into the graph: the parent gets a child, and the child its name and parent. -/
def link (nodes : Keyed GraphNode) (ref : ChildReference) : Keyed GraphNode :=
  let adopted := Keyed.adjust ref.parent
    (fun info => { info with
      children := info.children ++ [ref.child]
      childNames := info.childNames.put ref.child ref.name }) nodes
  Keyed.adjust ref.child
    (fun info => { info with name := some ref.name, parent := some ref.parent }) adopted

/-- The references among the nodes that have an identifier, in order. -/
def references (nodes : List Node) : List ChildReference :=
  (nodes.filter Node.isIdentified).flatMap fun node =>
    node.childEntries.map fun (name, child) => ⟨node.identifier, name, child⟩

/-- The graph of nodes, each given with the place where its identifier stands. -/
def ofEntries (entries : List (Node × Option Span)) : IdentifierGraph :=
  let identified := entries.filter fun entry => entry.1.isIdentified
  let registered := identified.foldl (fun nodes (node, span) => register nodes node span) []
  ⟨(references (entries.map (·.1))).foldl link registered⟩

/-- Where the identifier of an entry of the data list stands, if it is a string. -/
def identifierSpan? (t : Tree) : Option Span :=
  (t.get? "identifier").bind fun v => v.string?.map fun _ => v.content

/-- The graph of a document that was read from a text. -/
def ofParsed (p : ParsedDocument) : IdentifierGraph :=
  ofEntries (p.entries.map fun (node, t) => (node, identifierSpan? t))

/-- The graph of a document without places. -/
def ofDocument (d : Document) : IdentifierGraph :=
  ofEntries (d.data.map fun node => (node, none))

/-! ## Looking up -/

/-- What is known about an identifier. -/
def get? (g : IdentifierGraph) (identifier : String) : Option GraphNode :=
  Keyed.get? identifier g.nodes

/-- Some node has that identifier. -/
def has (g : IdentifierGraph) (identifier : String) : Bool :=
  Keyed.has identifier g.nodes

/-- The identifiers, in order. -/
def identifiers (g : IdentifierGraph) : List String :=
  Keyed.names g.nodes

/-- The nodes, in order. -/
def infos (g : IdentifierGraph) : List GraphNode :=
  g.nodes.map (·.2)

/-- Number of identifiers. -/
def size (g : IdentifierGraph) : Nat :=
  g.nodes.length

/-- What an identifier is called. -/
def nameOf? (g : IdentifierGraph) (identifier : String) : Option String :=
  (g.get? identifier).bind (·.name)

/-- Where an identifier is defined. -/
def definition? (g : IdentifierGraph) (identifier : String) : Option Span :=
  (g.get? identifier).bind (·.span)

end IdentifierGraph

end BimEditor
