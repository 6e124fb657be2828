/-
  BimEditor.Workspace.Wire

  What a session sends to an editor, in the JSON of the Language Server Protocol.
-/
import BimEditor.Workspace.Session

namespace BimEditor

open BimEditor.Json BimEditor.Text

/-- A value that may be missing. -/
def optionalValue {α : Type} (toValue : α → Value) : Option α → Value
  | some a => toValue a
  | none => .null

/-! ## Places -/

/-- A position as a value. -/
def Text.Position.toValue (p : Position) : Value :=
  .object [("line", .nat p.line), ("character", .nat p.character)]

/-- A range as a value. -/
def Text.Range.toValue (r : Range) : Value :=
  .object [("start", r.start.toValue), ("end", r.stop.toValue)]

/-- A location as a value. -/
def Location.toValue (l : Location) : Value :=
  .object [("uri", .string l.uri), ("range", l.range.toValue)]

/-- A folding range as a value. -/
def FoldingRange.toValue (r : FoldingRange) : Value :=
  .object [("startLine", .nat r.startLine), ("endLine", .nat r.endLine), ("kind", .string "region")]

/-! ## Remarks -/

/-- The number of a severity. -/
def Severity.number : Severity → Nat
  | .error => 1
  | .warning => 2

/-- A diagnostic as a value. -/
def Diagnostic.toValue (d : Diagnostic) : Value :=
  .object [("range", d.range.toValue), ("severity", .nat d.severity.number),
    ("code", .string d.code), ("source", .string Diagnostic.source), ("message", .string d.message)]

/-- A hover as a value. -/
def Hover.toValue (h : Hover) : Value :=
  .object [("contents", .object [("kind", .string "markdown"), ("value", .string h.text)]),
    ("range", h.range.toValue)]

/-- Semantic tokens as a value: one flat list of numbers. -/
def SemanticToken.listValue (tokens : List SemanticToken) : Value :=
  .object [("data", .array ((tokens.flatMap SemanticToken.numbers).map .nat))]

/-- The method that a notice is sent as. -/
def Notice.method : Notice → String
  | .diagnostics _ _ => "textDocument/publishDiagnostics"
  | .message _ => "window/showMessage"

/-- The parameters that a notice is sent with. -/
def Notice.params : Notice → Value
  | .diagnostics uri ds =>
    .object [("uri", .string uri), ("diagnostics", .array (ds.map Diagnostic.toValue))]
  | .message text => .object [("type", .nat 1), ("message", .string text)]

/-! ## Answers -/

/-- The legend of the semantic tokens. -/
def tokenLegend : Value :=
  .object [("tokenTypes", stringArray (TokenType.all.map TokenType.name)),
    ("tokenModifiers", stringArray tokenModifiers)]

/-- What a session can do for an editor: it takes whole texts, with the text on saving, and answers
    all requests. -/
def capabilities : Value :=
  .object [
    ("textDocumentSync", .object [("openClose", .bool true), ("change", .nat 1),
      ("save", .object [("includeText", .bool true)])]),
    ("hoverProvider", .bool true),
    ("definitionProvider", .bool true),
    ("referencesProvider", .bool true),
    ("foldingRangeProvider", .bool true),
    ("executeCommandProvider", .object [("commands", stringArray Command.all)]),
    ("semanticTokensProvider",
      .object [("legend", tokenLegend), ("range", .bool false), ("full", .bool true)])]

/-- The name and the version that a session goes by. -/
def serverInfo : Value :=
  .object [("name", .string "ifcx-lsp"), ("version", .string "1.0.0")]

/-- An answer as a value. -/
def Answer.toValue : Answer → Value
  | .started => .object [("capabilities", capabilities), ("serverInfo", serverInfo)]
  | .hover h => optionalValue Hover.toValue h
  | .definition l => optionalValue Location.toValue l
  | .references ls => optionalValue (fun ls => .array (ls.map Location.toValue)) ls
  | .folding rs => optionalValue (fun rs => .array (rs.map FoldingRange.toValue)) rs
  | .tokens ts => optionalValue SemanticToken.listValue ts
  | .command text => .string text
  | .stopped => .null

end BimEditor
