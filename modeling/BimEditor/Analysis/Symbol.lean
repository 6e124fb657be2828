/-
  BimEditor.Analysis.Symbol

  From a token to what it refers to, where that is defined, and where else it is mentioned.
-/
import BimEditor.Analysis.Basic

namespace BimEditor

open BimEditor.Json BimEditor.Text

/-- What a token refers to. -/
inductive Symbol where
  | identifier (name : String)
  /-- A schema, of this document or of another one. -/
  | schema (name : String)
deriving DecidableEq, Repr, Inhabited

/-- The name of what is referred to. -/
def Symbol.name : Symbol → String
  | .identifier name => name
  | .schema name => name

/-- A schema is referred to. -/
def Symbol.isSchema : Symbol → Bool
  | .identifier _ => false
  | .schema _ => true

/-- What a marked token refers to. -/
def Decoration.symbol (d : Decoration) : Symbol :=
  match d.kind with
  | .identifier => .identifier d.target
  | _ => .schema d.target

namespace Analysis

/-- The first key inside the data list that an offset touches. -/
def keyAt? (a : Analysis) (offset : Nat) : Option String := do
  let p ← a.parsed
  let data ← p.tree.get? "data"
  let token ← data.strings.find? fun token => token.role == .key && token.span.touches offset
  return token.text

/-- What the text at a position refers to. A key that names no schema of this document may name
    one of another document. -/
def symbolAt? (a : Analysis) (p : Position) : Option Symbol := do
  let offset ← offset? a.text.toList p
  match Decoration.at? a.decorations offset with
  | some d => return d.symbol
  | none => return .schema (← a.keyAt? offset)

/-- Where a symbol is defined in this document. A schema may be referred to by the last segment of
    its name. -/
def definitionSpan? (a : Analysis) : Symbol → Option Span
  | .identifier id => a.graph.definition? id
  | .schema name => do
    let p ← a.parsed
    match p.schemaDefinition? name with
    | some span => return span
    | none =>
      let full ← a.catalog.resolve? name
      p.schemaDefinition? full

/-- The range where a symbol is defined in this document. -/
def definition? (a : Analysis) (s : Symbol) : Option Range :=
  (a.definitionSpan? s).map a.range

/-- The tokens that refer to a symbol, with or without those that define it. -/
def mentions (a : Analysis) (s : Symbol) (withDefinition : Bool) : List Decoration :=
  (Decoration.occurrences a.decorations s.name).filter fun d =>
    ((d.kind != .identifier) == s.isSchema) && (withDefinition || !d.isDefinition)

/-- The ranges of the tokens that refer to a symbol, in document order. -/
def references (a : Analysis) (s : Symbol) (withDefinition : Bool) : List Range :=
  (a.mentions s withDefinition).map fun d => a.range d.span

end Analysis

end BimEditor
