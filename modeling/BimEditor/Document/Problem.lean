/-
  BimEditor.Document.Problem

  Why a text is refused as a document: it is no JSON, or it is JSON of the wrong shape. A problem
  knows the offset it lies at; line and column follow from the text.
-/
import BimEditor.Json.Fault

namespace BimEditor

open BimEditor.Text

/-- A departure from the shape that every document has. -/
inductive Misfit where
  | notAnObject
  | missingHeader
  /-- The header has no such field, or no non-empty string in it. -/
  | missingHeaderField (field : String)
  | missingField (field : String)
  | wrongType (field : String)
deriving DecidableEq, Repr

/-- The wording of a misfit. -/
def Misfit.message : Misfit → String
  | .notAnObject => "IFCX document must be a JSON object"
  | .missingHeader => "IFCX file is missing header"
  | .missingHeaderField field => "IFCX header is missing " ++ field
  | .missingField field => "IFCX file is missing " ++ field
  | .wrongType field => "IFCX " ++ field ++ " has the wrong type"

/-- The three kinds of problems. -/
inductive ProblemKind where
  /-- The text is not valid JSON. -/
  | malformed
  /-- Valid JSON without the shape of a document. -/
  | misshapen
  /-- A limit is exceeded. -/
  | refused
deriving DecidableEq, Repr

namespace ProblemKind

/-- The code that diagnostics carry. -/
def code : ProblemKind → String
  | .malformed => "Syntax"
  | .misshapen => "Structure"
  | .refused => "Security"

/-- The name that stands before a message. -/
def title : ProblemKind → String
  | .malformed => "SyntaxError"
  | .misshapen => "StructuralError"
  | .refused => "SecurityError"

end ProblemKind

/-- Why a text is refused as a document. -/
inductive Problem where
  /-- The text cannot be read as JSON. -/
  | unreadable (fault : Json.Fault)
  /-- The value at `offset` does not have the shape it should have. -/
  | misshapen (offset : Nat) (cause : Misfit)
deriving DecidableEq, Repr

namespace Problem

/-- The kind of a problem. -/
def kind : Problem → ProblemKind
  | .unreadable (.malformed _ _) => .malformed
  | .unreadable (.tooLarge _ _) => .refused
  | .unreadable (.tooDeep _ _) => .refused
  | .misshapen _ _ => .misshapen

/-- The wording of a problem. -/
def message : Problem → String
  | .unreadable fault => fault.message
  | .misshapen _ cause => cause.message

/-- Where the problem lies, if it lies at one place. -/
def offset? : Problem → Option Nat
  | .unreadable fault => fault.offset?
  | .misshapen offset _ => some offset

/-- The line of the problem, counted from one; zero if it lies at no one place. -/
def line (text : List Char) (p : Problem) : Nat :=
  match p.offset? with
  | some offset => (lineColumn text offset).line
  | none => 0

/-- The column of the problem. A wrong shape is reported for a whole line. -/
def column? (text : List Char) : Problem → Option Nat
  | .unreadable fault => fault.offset?.map fun offset => (lineColumn text offset).column
  | .misshapen _ _ => none

/-- The problem in one sentence. -/
def display (text : List Char) (p : Problem) : String :=
  p.kind.title ++ " at line " ++ toString (p.line text) ++ ": " ++ p.message

end Problem

end BimEditor
