/-
  BimEditor.Json.Fault

  Why a text is refused as JSON: it is too large, it nests too deeply, or at some offset it departs
  from the grammar. Each cause has its wording here and nowhere else.
-/
import BimEditor.Text.LineColumn

namespace BimEditor.Json

open BimEditor.Text

/-- What the grammar asks for where something else stands. -/
inductive Expected where
  | value
  | key
  | colon
  | memberEnd
  | itemEnd
  | word (spelling : String)
  | digit
  | fractionDigit
  | exponentDigit
deriving DecidableEq, Repr

/-- How an error names what the grammar asks for. -/
def Expected.name : Expected → String
  | .value => "a JSON value"
  | .key => "an object key"
  | .colon => "':'"
  | .memberEnd => "',' or '\x7d'"
  | .itemEnd => "',' or ']'"
  | .word spelling => "'" ++ spelling ++ "'"
  | .digit => "a digit"
  | .fractionDigit => "a digit after the decimal point"
  | .exponentDigit => "a digit in the exponent"

/-- A departure from the JSON grammar. -/
inductive Malformation where
  /-- Something else was asked for than the character found, or than the end of the text. -/
  | unexpected (expected : Expected) (found : Option Char)
  /-- More text follows the value. -/
  | trailing
  | unterminatedString
  /-- A character below U+0020 stands unescaped in a string. -/
  | rawControl
  | unterminatedEscape
  | unknownEscape
  /-- The text has no four more bytes, or they end inside a character. -/
  | incompleteHex
  | badHex
  /-- A high surrogate without an escape behind it. -/
  | unpairedSurrogate
  /-- A high surrogate with something else than a low surrogate behind it. -/
  | badLowSurrogate
  /-- A low surrogate on its own. -/
  | notACharacter
  /-- A number beyond the finite binary64 numbers. -/
  | outOfRange (literal : String)
deriving DecidableEq, Repr

/-- The wording of a malformation. -/
def Malformation.message : Malformation → String
  | .unexpected expected (some c) =>
    "expected " ++ expected.name ++ ", found '" ++ String.singleton c ++ "'"
  | .unexpected expected none => "expected " ++ expected.name ++ ", found end of input"
  | .trailing => "unexpected trailing characters after JSON value"
  | .unterminatedString => "unterminated string"
  | .rawControl => "control character must be escaped inside a string"
  | .unterminatedEscape => "unterminated escape sequence"
  | .unknownEscape => "invalid escape sequence"
  | .incompleteHex => "incomplete \\u escape"
  | .badHex => "invalid hex digits in \\u escape"
  | .unpairedSurrogate => "unpaired surrogate in \\u escape"
  | .badLowSurrogate => "invalid low surrogate in \\u escape"
  | .notACharacter => "invalid \\u escape"
  | .outOfRange literal => "number out of range: " ++ literal

/-- Why a text could not be read as JSON. -/
inductive Fault where
  /-- The text takes more bytes than allowed. -/
  | tooLarge (size limit : Nat)
  /-- The container opened at `offset` nests deeper than allowed. -/
  | tooDeep (offset limit : Nat)
  /-- At `offset` the text departs from the grammar. -/
  | malformed (offset : Nat) (cause : Malformation)
deriving DecidableEq, Repr

namespace Fault

/-- The wording of a fault. -/
def message : Fault → String
  | .tooLarge size limit =>
    "document size " ++ toString size ++ " bytes exceeds limit of " ++ toString limit ++ " bytes"
  | .tooDeep _ limit => "nesting depth exceeds limit of " ++ toString limit
  | .malformed _ cause => cause.message

/-- Where the fault lies, if it lies at one place. -/
def offset? : Fault → Option Nat
  | .tooLarge _ _ => none
  | .tooDeep offset _ => some offset
  | .malformed offset _ => some offset

end Fault

end BimEditor.Json
