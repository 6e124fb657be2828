/-
  BimEditor.Analysis.Decoration

  The tokens of a document that mean something to an editor: the names of schemas, where they are
  defined and where they are used, and the identifiers of nodes. They are sorted by their place, so
  that the token under a cursor is the last one that starts at or before it.
-/
import BimEditor.Graph.Basic

namespace BimEditor

open BimEditor.Json BimEditor.Text

/-- What a token is. -/
inductive DecorationKind where
  /-- A key of the schema table. -/
  | schemaDefinition
  /-- Any other key that names a schema. -/
  | schemaUsage
  /-- A string equal to the identifier of a node. -/
  | identifier
deriving DecidableEq, Repr, Inhabited

/-- A token of a document, quotes excluded. -/
structure Decoration where
  span : Span
  kind : DecorationKind
  /-- The schema or the identifier that it names. -/
  target : String
  /-- This is where the target is defined. -/
  isDefinition : Bool
deriving DecidableEq, Repr, Inhabited

namespace Decoration

/-! ## Finding the tokens -/

/-- The definitions of schemas. -/
def schemaDefinitions (p : ParsedDocument) : List Decoration :=
  p.schemaMembers.map fun (key, _) => ⟨key.content, .schemaDefinition, key.name, true⟩

/-- What a string of a document means, apart from defining a schema. -/
def ofString? (p : ParsedDocument) (g : IdentifierGraph) (token : StringToken) :
    Option Decoration :=
  if token.role = .key ∧ Keyed.has token.text p.document.schemas
      ∧ ¬ (p.schemaMembers.any fun (key, _) => key.content == token.span) then
    some ⟨token.span, .schemaUsage, token.text, false⟩
  else if g.has token.text then
    some ⟨token.span, .identifier, token.text, g.definition? token.text == some token.span⟩
  else none

/-- All tokens of a document that mean something, sorted by their place. -/
def ofParsed (p : ParsedDocument) (g : IdentifierGraph) : List Decoration :=
  (schemaDefinitions p ++ p.tree.strings.filterMap (ofString? p g)).mergeSort
    fun a b => a.span.start ≤ b.span.start

/-! ## Looking them up -/

/-- The token that an offset touches: the last one that starts at or before it, if that reaches
    so far. -/
def at? (ds : List Decoration) (offset : Nat) : Option Decoration :=
  ((ds.takeWhile fun d => d.span.start ≤ offset).getLast?).filter fun d => d.span.touches offset

/-- The tokens that name a target, in document order. -/
def occurrences (ds : List Decoration) (target : String) : List Decoration :=
  ds.filter fun d => d.target == target

end Decoration

end BimEditor
