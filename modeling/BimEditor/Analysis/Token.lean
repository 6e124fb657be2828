/-
  BimEditor.Analysis.Token

  Semantic tokens: the marked tokens of a document, for an editor to colour. Each one is given by
  its distance from the one before it.
-/
import BimEditor.Analysis.Basic

namespace BimEditor

open BimEditor.Text

/-- What a token is to be coloured as. -/
inductive TokenType where
  | schema
  | identifier
deriving DecidableEq, Repr, Inhabited

namespace TokenType

/-- The name of a token type in the legend: schemas are coloured as types, identifiers as
    variables. -/
def name : TokenType → String
  | .schema => "type"
  | .identifier => "variable"

/-- All token types, in the order of the legend. -/
def all : List TokenType :=
  [.schema, .identifier]

/-- The place of a token type in the legend. -/
def index : TokenType → Nat
  | .schema => 0
  | .identifier => 1

/-- The token type of a marked token. -/
def ofKind : DecorationKind → TokenType
  | .identifier => .identifier
  | _ => .schema

end TokenType

/-- The names of the token modifiers, in the order of the legend. -/
def tokenModifiers : List String :=
  ["definition"]

/-- A token on one line. -/
structure PlacedToken where
  line : Nat
  start : Nat
  length : Nat
  type : TokenType
  isDefinition : Bool
deriving DecidableEq, Repr, Inhabited

/-- A token by its distance from the one before it: in lines, and in columns if it is on the same
    line, or from the start of its own line if not. -/
structure SemanticToken where
  deltaLine : Nat
  deltaStart : Nat
  length : Nat
  type : TokenType
  isDefinition : Bool
deriving DecidableEq, Repr, Inhabited

namespace PlacedToken

/-- The place of a marked token. One that is empty or reaches into another line has none. -/
def ofDecoration? (text : List Char) (d : Decoration) : Option PlacedToken :=
  let start := (position text d.span.start).toPlace
  let stop := (position text d.span.stop).toPlace
  if stop.line ≠ start.line ∨ stop.character ≤ start.character then none
  else some ⟨start.line, start.character, stop.character - start.character,
    TokenType.ofKind d.kind, d.isDefinition⟩

/-- The distances between tokens, where the last token before them starts at `(line, start)`. -/
def encodeFrom (line start : Nat) : List PlacedToken → List SemanticToken
  | [] => []
  | t :: ts =>
    let deltaStart := if t.line = line then t.start - start else t.start
    ⟨t.line - line, deltaStart, t.length, t.type, t.isDefinition⟩ :: encodeFrom t.line t.start ts

end PlacedToken

namespace SemanticToken

/-- The bits of a token's modifiers. -/
def modifierBits (t : SemanticToken) : Nat :=
  if t.isDefinition then 1 else 0

/-- The five numbers that a token is sent as. -/
def numbers (t : SemanticToken) : List Nat :=
  [t.deltaLine, t.deltaStart, t.length, t.type.index, t.modifierBits]

end SemanticToken

/-- The tokens of an analysed text, each on its line. -/
def Analysis.placedTokens (a : Analysis) : List PlacedToken :=
  a.decorations.filterMap (PlacedToken.ofDecoration? a.text.toList)

/-- The semantic tokens of an analysed text. -/
def Analysis.semanticTokens (a : Analysis) : List SemanticToken :=
  PlacedToken.encodeFrom 0 0 a.placedTokens

end BimEditor
