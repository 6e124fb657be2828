/-
  BimEditor.Analysis.Hover

  What an editor shows for the token under the cursor: the description of a node, or the tooltip of
  a schema. On the key of an attribute the tooltip also tells whether the value conforms.
-/
import BimEditor.Analysis.Basic
import BimEditor.Graph.Report

namespace BimEditor

open BimEditor.Text

/-- A Markdown text for a piece of a document. -/
structure Hover where
  text : String
  range : Range
deriving DecidableEq, Repr, Inhabited

namespace Analysis

/-- Whether the attribute at a use of a schema conforms to that schema, if it is one. -/
def attributeConforms? (a : Analysis) (d : Decoration) : Option Bool :=
  match d.kind with
  | .schemaUsage => a.parsed.bind fun p => p.attributeConforms? d.span
  | _ => none

/-- What the tooltip of a schema ends with. -/
def verdict : Option Bool → String
  | some true => "\n\n---\n\n✓ Value matches the schema"
  | some false => "\n\n---\n\n⚠ Value does not match the schema"
  | none => ""

/-- What is said about a token. -/
def hoverText? (a : Analysis) (d : Decoration) : Option String :=
  match d.kind with
  | .identifier => some (a.graph.describe d.target)
  | _ =>
    (a.catalog.tooltip? d.target).map fun tooltip => tooltip ++ verdict (a.attributeConforms? d)

/-- What is shown at a position. -/
def hover? (a : Analysis) (p : Position) : Option Hover := do
  let d ← a.decorationAt? p
  let text ← a.hoverText? d
  return ⟨text, a.range d.span⟩

end Analysis

end BimEditor
