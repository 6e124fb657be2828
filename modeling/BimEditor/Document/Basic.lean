/-
  BimEditor.Document.Basic

  IFCX documents: a header, a table of schemas, and the nodes of a building model. Nodes refer to
  each other by identifier, as children (which also names the child) and as what they inherit from.
-/
import BimEditor.Schema.Conformance

namespace BimEditor

open BimEditor.Json

/-- What a document says about itself. -/
structure Header where
  version : String
  author : String
  timestamp : String
deriving DecidableEq, Repr, Inhabited

/-- What a node inherits from, written as a mapping or as a list. Entries that are no strings are
    kept and refer to nothing. -/
inductive Inherits where
  | mapping (entries : Keyed Value)
  | list (entries : List Value)
deriving DecidableEq, Inhabited

namespace Inherits

/-- All entries, in order. -/
def values : Inherits → List Value
  | .mapping entries => entries.map (·.2)
  | .list entries => entries

/-- The identifiers inherited from, in order. -/
def targets (i : Inherits) : List String :=
  i.values.filterMap Value.string?

/-- There are no entries at all. -/
def isEmpty (i : Inherits) : Bool :=
  i.values.isEmpty

end Inherits

/-- A node of the model. A node without an identifier has the empty one. -/
structure Node where
  identifier : String := ""
  children : Option (Keyed Value) := none
  inherits : Option Inherits := none
  attributes : Option (Keyed Value) := none
deriving DecidableEq, Inhabited

namespace Node

/-- The identifiers that the node inherits from. -/
def inheritTargets (n : Node) : List String :=
  match n.inherits with
  | some i => i.targets
  | none => []

/-- The children that are identifiers, each with the name the node gives it. -/
def childEntries (n : Node) : List (String × String) :=
  (n.children.getD []).filterMap fun (name, v) => v.string?.map fun id => (name, id)

/-- The node has an identifier. -/
def isIdentified (n : Node) : Bool :=
  !n.identifier.isEmpty

end Node

/-- A document. -/
structure Document where
  header : Header
  schemas : SchemaTable
  data : List Node
deriving DecidableEq, Inhabited

namespace Document

/-- The first node with that identifier. -/
def find? (d : Document) (identifier : String) : Option Node :=
  d.data.find? fun node => node.identifier == identifier

/-- The nodes that the first node with that identifier has as children. -/
def childNodes (d : Document) (parent : String) : List Node :=
  match d.find? parent with
  | some node => node.childEntries.filterMap fun (_, id) => d.find? id
  | none => []

/-- The nodes that inherit from an identifier. -/
def inheritingNodes (d : Document) (base : String) : List Node :=
  d.data.filter fun node => node.inheritTargets.contains base

/-- The type of the schema of that name. -/
def schema? (d : Document) (name : String) : Option TypeDescription :=
  Keyed.get? name d.schemas

/-- The node has an identifier, and each of its attributes that names a schema conforms to it. -/
def isValidNode (d : Document) (node : Node) : Bool :=
  node.isIdentified && (node.attributes.getD []).all fun (name, v) =>
    (SchemaTable.accepts? d.schemas name v).getD true

end Document

end BimEditor
