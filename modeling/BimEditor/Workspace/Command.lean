/-
  BimEditor.Workspace.Command

  The commands that a user can run on an open document.
-/
import BimEditor.Graph.Report
import BimEditor.Workspace.Store

namespace BimEditor

open BimEditor.Json

/-- Why a command is not run. -/
inductive CommandError where
  | unknownCommand (name : String)
  | missingArgument (index : Nat) (name : String)
  /-- An argument is there and is no string. -/
  | invalidArgument (index : Nat) (name : String)
  | invalidUri (text : String)
  | notOpen (uri : Uri)
deriving DecidableEq, Repr

/-- The wording of an error. -/
def CommandError.message : CommandError → String
  | .unknownCommand name => "unknown command: " ++ name
  | .missingArgument index name => "missing argument " ++ toString index ++ " (" ++ name ++ ")"
  | .invalidArgument index name =>
    "argument " ++ toString index ++ " (" ++ name ++ ") must be a string"
  | .invalidUri text => "invalid document URI `" ++ text ++ "`"
  | .notOpen uri => "document is not open: " ++ uri

namespace Command

/-- The command for a report on all identifiers of a document. -/
def identifierReport : String := "ifcx.identifierReport"

/-- The command for a description of one identifier. -/
def describeIdentifier : String := "ifcx.describeIdentifier"

/-- All commands. -/
def all : List String :=
  [identifierReport, describeIdentifier]

/-! ## Arguments -/

/-- A letter of ASCII. -/
def isLetter (c : Char) : Bool :=
  ('a' ≤ c && c ≤ 'z') || ('A' ≤ c && c ≤ 'Z')

/-- A character that may stand in the scheme of a URI behind its first letter. -/
def isSchemeChar (c : Char) : Bool :=
  isLetter c || Numeric.isDigit c || c == '+' || c == '-' || c == '.'

/-- The text starts with a scheme and a colon. -/
def isAbsoluteUri (text : String) : Bool :=
  match text.toList with
  | c :: s => isLetter c && (s.dropWhile isSchemeChar).head? == some ':'
  | [] => false

/-- The argument at a place, which must be a string. -/
def stringArgument (arguments : List Value) (index : Nat) (name : String) :
    Except CommandError String :=
  match arguments[index]? with
  | none => .error (.missingArgument index name)
  | some (.string s) => .ok s
  | some _ => .error (.invalidArgument index name)

/-- The first argument, which must name a document. -/
def uriArgument (arguments : List Value) : Except CommandError Uri := do
  let text ← stringArgument arguments 0 "uri"
  if isAbsoluteUri text then return text else throw (.invalidUri text)

/-! ## Running -/

/-- What a command asks about a document. -/
inductive Query where
  | report
  | describe (identifier : String)
deriving DecidableEq, Repr

/-- What a command with its arguments asks, and about which document. -/
def parse (name : String) (arguments : List Value) : Except CommandError (Uri × Query) :=
  if name = identifierReport then do
    let uri ← uriArgument arguments
    return (uri, .report)
  else if name = describeIdentifier then do
    let uri ← uriArgument arguments
    let identifier ← stringArgument arguments 1 "identifier"
    return (uri, .describe identifier)
  else .error (.unknownCommand name)

/-- The answer to a query. -/
def Query.answer (a : Analysis) : Query → String
  | .report => a.graph.report
  | .describe identifier => a.graph.describe identifier

/-- Run a command, which is a use of the document it asks about. -/
def run (s : Store) (name : String) (arguments : List Value) : Store × Except CommandError String :=
  match parse name arguments with
  | .error e => (s, .error e)
  | .ok (uri, query) =>
    match s.analysis? uri with
    | (s, some a) => (s, .ok (query.answer a))
    | (s, none) => (s, .error (.notOpen uri))

end Command

end BimEditor
