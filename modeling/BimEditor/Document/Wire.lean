/-
  BimEditor.Document.Wire

  Documents as JSON values: the strict reader, which asks every part to be well formed; the lenient
  readers for single entries, which take what has the wrong shape as absent; and the writer.
-/
import BimEditor.Document.Basic
import BimEditor.Schema.Wire

namespace BimEditor

open BimEditor.Json

/-! ## Headers -/

namespace Header

/-- The header that a value holds. -/
def ofValue? (v : Value) : Option Header := do
  let field ← v.record? ["version", "author", "timestamp"]
  let version ← required (field "version") readString
  let author ← required (field "author") readString
  let timestamp ← required (field "timestamp") readString
  return ⟨version, author, timestamp⟩

/-- The header as a value. -/
def toValue (h : Header) : Value :=
  .object [("version", .string h.version), ("author", .string h.author),
    ("timestamp", .string h.timestamp)]

end Header

/-! ## Schemas -/

namespace Schema

/-- The type that an entry of the schema table holds. -/
def ofValue? (v : Value) : Option TypeDescription := do
  let field ← v.record? ["value"]
  required (field "value") fun w _ => TypeDescription.ofValue? w

/-- The tag that an entry carries, whatever else is wrong with it. -/
def tagOf (v : Value) : String :=
  (((v.member? "value").bind (Value.member? "dataType")).bind Value.string?).getD ""

/-- The type of an entry; one that cannot be read keeps its tag. -/
def ofValue (v : Value) : TypeDescription :=
  (ofValue? v).getD (.unrecognized {} (tagOf v))

/-- An entry of the schema table as a value. -/
def toValue (t : TypeDescription) : Value :=
  .object [("value", t.toValue)]

end Schema

/-! ## Nodes -/

namespace Inherits

/-- What an object or an array says a node inherits from. -/
def ofValue? : Value → Option Inherits
  | .object entries => some (.mapping entries)
  | .array entries => some (.list entries)
  | .scalar _ => none

/-- The entries as a value. -/
def toValue : Inherits → Value
  | .mapping entries => .object entries
  | .list entries => .array entries

end Inherits

namespace Node

/-- The node that a value holds, if all of it is well formed. -/
def ofValue? (v : Value) : Option Node := do
  let field ← v.record? ["identifier", "children", "inherits", "attributes"]
  let identifier ← defaulted (field "identifier") "" readString
  let children ← optional (field "children") readMembers
  let inherits ← optional (field "inherits") fun w _ => Inherits.ofValue? w
  let attributes ← optional (field "attributes") readMembers
  return ⟨identifier, children, inherits, attributes⟩

/-- The node that a value holds; what has the wrong shape is absent. -/
def ofValue (v : Value) : Node where
  identifier := ((v.member? "identifier").bind Value.string?).getD ""
  children := (v.member? "children").bind Value.members?
  inherits := (v.member? "inherits").bind Inherits.ofValue?
  attributes := (v.member? "attributes").bind Value.members?

/-- The node as a value. -/
def toValue (n : Node) : Value :=
  .object (("identifier", .string n.identifier)
    :: optionalMember "children" (n.children.map .object)
    ++ optionalMember "inherits" (n.inherits.map Inherits.toValue)
    ++ optionalMember "attributes" (n.attributes.map .object))

end Node

/-! ## Documents -/

namespace Document

/-- The document that a value holds, if all of it is well formed. -/
def ofValue? (v : Value) : Option Document := do
  let field ← v.record? ["header", "schemas", "data"]
  let header ← required (field "header") fun w _ => Header.ofValue? w
  let schemas ← required (field "schemas") fun w _ => do
    let entries ← w.members?
    entries.mapM fun (name, entry) => return (name, ← Schema.ofValue? entry)
  let data ← required (field "data") fun w _ => do
    let entries ← w.items?
    entries.mapM Node.ofValue?
  return ⟨header, schemas, data⟩

/-- The document as a value. -/
def toValue (d : Document) : Value :=
  .object [("header", d.header.toValue),
    ("schemas", .object (d.schemas.map fun (name, t) => (name, Schema.toValue t))),
    ("data", .array (d.data.map Node.toValue))]

end Document

end BimEditor
