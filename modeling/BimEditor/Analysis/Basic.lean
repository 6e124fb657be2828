/-
  BimEditor.Analysis.Basic

  All that an editor wants to know about one version of a document, computed at once: the document
  and its tree, the graph of identifiers, the catalog of schemas, the tokens, and what is wrong. A
  text that cannot be read as a document has a problem and nothing else.
-/
import BimEditor.Analysis.Decoration
import BimEditor.Schema.Catalog
import BimEditor.Text.Position

namespace BimEditor

open BimEditor.Json BimEditor.Text

/-- An attribute whose value does not conform to its schema. -/
structure InvalidAttribute where
  /-- The node that has the attribute. -/
  identifier : String
  /-- The name of the attribute, which is that of its schema. -/
  name : String
  /-- The key of the attribute, quotes excluded. -/
  span : Span
deriving DecidableEq, Repr, Inhabited

/-- What is known about one version of a document. Every span refers to `text`. -/
structure Analysis where
  text : String
  parsed : Option ParsedDocument
  graph : IdentifierGraph
  catalog : Catalog
  decorations : List Decoration
  problem : Option Problem
  invalidAttributes : List InvalidAttribute
deriving Inhabited

/-! ## Attributes -/

/-- The members of the attributes of an entry of the data list, repeated names included. -/
def attributeMembers (entry : Tree) : List (Key × Tree) :=
  ((entry.get? "attributes").bind Tree.members?).getD []

namespace ParsedDocument

/-- Whether a member of a node's attributes conforms to the schema that its key names. -/
def conforms? (p : ParsedDocument) (member : Key × Tree) : Option Bool :=
  SchemaTable.accepts? p.document.schemas member.1.name member.2.toValue

/-- The attributes of all nodes that do not conform to their schemas, in document order. -/
def invalidAttributes (p : ParsedDocument) : List InvalidAttribute :=
  p.entries.flatMap fun (node, entry) =>
    ((attributeMembers entry).filter fun member => p.conforms? member == some false).map
      fun (key, _) => ⟨node.identifier, key.name, key.content⟩

/-- Whether the attribute whose key stands at a span conforms to its schema, if one does. -/
def attributeConforms? (p : ParsedDocument) (span : Span) : Option Bool :=
  p.entries.findSome? fun (_, entry) =>
    ((attributeMembers entry).find? fun (key, _) => key.content == span).bind p.conforms?

end ParsedDocument

/-! ## Analysing a text -/

namespace Analysis

/-- The analysis of a text that cannot be read. -/
def ofProblem (style : TooltipStyle) (text : String) (problem : Problem) : Analysis where
  text := text
  parsed := none
  graph := {}
  catalog := { style := style }
  decorations := []
  problem := some problem
  invalidAttributes := []

/-- The analysis of a text that was read. -/
def ofParsed (style : TooltipStyle) (text : String) (p : ParsedDocument) : Analysis :=
  let graph := IdentifierGraph.ofParsed p
  { text := text
    parsed := some p
    graph := graph
    catalog := Catalog.load { style := style } p.document
    decorations := Decoration.ofParsed p graph
    problem := none
    invalidAttributes := p.invalidAttributes }

/-- The analysis of a text, with schemas described in the given style. -/
def ofText (style : TooltipStyle) (text : String) : Analysis :=
  match ParsedDocument.read Limits.standard text.toList with
  | .ok p => ofParsed style text p
  | .error problem => ofProblem style text problem

/-- The style in which schemas are described. -/
def style (a : Analysis) : TooltipStyle :=
  a.catalog.style

/-- The token that a position touches. -/
def decorationAt? (a : Analysis) (p : Position) : Option Decoration :=
  (offset? a.text.toList p).bind (Decoration.at? a.decorations)

/-- The range of a span. -/
def range (a : Analysis) (span : Span) : Range :=
  Text.range a.text.toList span

end Analysis

end BimEditor
