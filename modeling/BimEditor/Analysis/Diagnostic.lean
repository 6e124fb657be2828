/-
  BimEditor.Analysis.Diagnostic

  What is wrong with a document, as an editor shows it.
-/
import BimEditor.Analysis.Basic

namespace BimEditor

open BimEditor.Text

/-- How bad something is. -/
inductive Severity where
  | error
  | warning
deriving DecidableEq, Repr, Inhabited

/-- A remark on a piece of text. -/
structure Diagnostic where
  range : Range
  severity : Severity
  code : String
  message : String
deriving DecidableEq, Repr, Inhabited

namespace Diagnostic

/-- Whose remarks these are. -/
def source : String := "ifcx"

/-- The column behind any line that an editor shows. -/
def lineEnd : UInt32 := 1000

/-- A problem marks the whole of its line. -/
def ofProblem (text : List Char) (p : Problem) : Diagnostic :=
  let line := p.line text - 1
  { range := ⟨⟨line, 0⟩, ⟨line, lineEnd⟩⟩
    severity := .error
    code := p.kind.code
    message := p.message }

/-- An attribute that does not conform to its schema marks its key. -/
def ofInvalid (text : List Char) (i : InvalidAttribute) : Diagnostic where
  range := Text.range text i.span
  severity := .warning
  code := "InvalidAttribute"
  message := "value of `" ++ i.name ++ "` on `" ++ i.identifier ++ "` does not match its schema"

end Diagnostic

/-- The diagnostics of an analysed text. -/
def Analysis.diagnostics (a : Analysis) : List Diagnostic :=
  a.problem.toList.map (Diagnostic.ofProblem a.text.toList)
    ++ a.invalidAttributes.map (Diagnostic.ofInvalid a.text.toList)

end BimEditor
