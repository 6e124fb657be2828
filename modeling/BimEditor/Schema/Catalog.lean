/-
  BimEditor.Schema.Catalog

  The schemas of one document, ready to be looked up and described. Loading a text replaces the
  whole table, or leaves it as it was if the text cannot be read.
-/
import BimEditor.Document.Reader
import BimEditor.Schema.Tooltip

namespace BimEditor

open BimEditor.Json

/-- A table of schemas and the style they are described in. -/
structure Catalog where
  schemas : SchemaTable := []
  style : TooltipStyle := .detailed
deriving Inhabited

namespace Catalog

/-- Replace the table by the one of a document. -/
def load (c : Catalog) (d : Document) : Catalog :=
  { c with schemas := d.schemas }

/-- Replace the table by the one of a text, if that can be read. -/
def loadText (c : Catalog) (limits : Limits) (text : List Char) : Except Problem Catalog := do
  let d ← Document.read limits text
  return c.load d

/-- The tooltip of the schema of exactly that name. -/
def tooltip? (c : Catalog) (name : String) : Option String :=
  (Keyed.get? name c.schemas).map fun t => t.tooltip c.style name

/-- The type of the schema of exactly that name. -/
def type? (c : Catalog) (name : String) : Option TypeDescription :=
  Keyed.get? name c.schemas

/-- The full name that a name stands for: the name itself if a schema has it, or else the one name
    that ends in the same segment. -/
def resolve? (c : Catalog) (name : String) : Option String :=
  if Keyed.has name c.schemas then some name
  else
    match (Keyed.names c.schemas).filter fun full => lastSegment full == lastSegment name with
    | [full] => some full
    | _ => none

end Catalog

end BimEditor
