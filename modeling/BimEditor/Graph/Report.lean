/-
  BimEditor.Graph.Report

  The graph of identifiers in words: a Markdown description of one node, and a report in JSON of all
  of them.
-/
import BimEditor.Graph.Basic
import BimEditor.Json.Writer

namespace BimEditor

open BimEditor.Json

namespace IdentifierGraph

/-! ## One node in Markdown -/

/-- A name that says something. -/
def properName? (name : Option String) : Option String :=
  name.filter fun n => !n.isEmpty

/-- The name of an identifier in parentheses, if it has one. -/
def nameSuffix (g : IdentifierGraph) (identifier : String) : String :=
  match properName? (g.nameOf? identifier) with
  | some name => " (" ++ name ++ ")"
  | none => ""

/-- The title of a node and its identifier. -/
def headline (node : GraphNode) : String :=
  "### " ++ (properName? node.name).getD "Unnamed Node" ++ "\n\n**Identifier**: `"
    ++ node.identifier ++ "`\n\n"

/-- The line for one identifier that a node inherits from. -/
def targetLine (g : IdentifierGraph) (target : String) : String :=
  "- `" ++ target ++ "`" ++ g.nameSuffix target ++ "\n"

/-- What a node inherits from. -/
def inheritsText (g : IdentifierGraph) (node : GraphNode) : String :=
  if node.inherits.isEmpty then ""
  else "**Inherits from**:\n" ++ String.join (node.inherits.map g.targetLine) ++ "\n"

/-- The parent of a node. -/
def parentText (g : IdentifierGraph) (node : GraphNode) : String :=
  match node.parent with
  | some parent => "**Parent**: `" ++ parent ++ "`" ++ g.nameSuffix parent ++ "\n\n"
  | none => ""

/-- The children of a node. -/
def childrenText (node : GraphNode) : String :=
  if node.children.isEmpty then ""
  else
    "**Children** (" ++ toString node.children.length ++ "):\n"
      ++ String.join (node.children.map fun child =>
          "- `" ++ child ++ "` (" ++ (properName? (Keyed.get? child node.childNames)).getD "Unnamed"
            ++ ")\n")

/-- A node described in Markdown. -/
def describe (g : IdentifierGraph) (identifier : String) : String :=
  match g.get? identifier with
  | none => "**Unknown Identifier**: " ++ identifier
  | some node => headline node ++ g.inheritsText node ++ g.parentText node ++ childrenText node

/-! ## All nodes in JSON -/

end IdentifierGraph

/-- A node as a value. -/
def GraphNode.toValue (n : GraphNode) : Value :=
  .object (("identifier", .string n.identifier)
    :: optionalMember "name" (n.name.map .string)
    ++ optionalMember "parent" (n.parent.map .string)
    ++ optionalMember "inherits"
        (if n.inherits.isEmpty then none else some (stringArray n.inherits))
    ++ [("children", stringArray n.children),
        ("childrenNames", .object (n.childNames.map fun (id, name) => (id, .string name)))]
    ++ optionalMember "position" (n.span.map fun s => .nat s.start))

/-- All nodes of a graph and their number, as a value. -/
def IdentifierGraph.reportValue (g : IdentifierGraph) : Value :=
  .object [("summary", .object [("totalNodes", .nat g.size)]),
    ("nodes", .array (g.infos.map GraphNode.toValue))]

/-- The report on a graph. -/
def IdentifierGraph.report (g : IdentifierGraph) : String :=
  g.reportValue.prettyText

end BimEditor
