/-
  BimEditor.Json.Writer

  The text of a value, in two layouts: compact, without any blank, and pretty, with each item and
  member on a line of its own, indented by two spaces a level.
-/
import BimEditor.Json.Value

namespace BimEditor.Json

/-! ## Strings -/

/-- The lower-case hexadecimal digit for a number below sixteen. -/
def hexDigit (n : Nat) : Char :=
  Char.ofNat (if n < 10 then '0'.toNat + n else 'a'.toNat + (n - 10))

/-- One character of a string: quote, backslash and control characters are escaped, the common ones
    by a letter; everything else stands as it is. -/
def escapeChar (c : Char) : List Char :=
  if c = '"' then ['\\', '"']
  else if c = '\\' then ['\\', '\\']
  else if c = '\x08' then ['\\', 'b']
  else if c = '\x0c' then ['\\', 'f']
  else if c = '\n' then ['\\', 'n']
  else if c = '\r' then ['\\', 'r']
  else if c = '\t' then ['\\', 't']
  else if c.toNat < 0x20 then
    ['\\', 'u', '0', '0', hexDigit (c.toNat / 16), hexDigit (c.toNat % 16)]
  else [c]

/-- A string between quotes. -/
def quoted (s : String) : List Char :=
  '"' :: s.toList.flatMap escapeChar ++ ['"']

/-- The text of a value without parts. -/
def Scalar.text : Scalar → List Char
  | .null => ['n', 'u', 'l', 'l']
  | .bool true => ['t', 'r', 'u', 'e']
  | .bool false => ['f', 'a', 'l', 's', 'e']
  | .number n => n.text
  | .string s => quoted s

namespace Value

/-! ## Compact -/

mutual
/-- The compact text of a value. -/
def compact : Value → List Char
  | .scalar s => s.text
  | .array items => '[' :: compactItems items ++ [']']
  | .object members => '{' :: compactMembers members ++ ['}']

/-- Items, with a comma between two. -/
def compactItems : List Value → List Char
  | [] => []
  | [v] => compact v
  | v :: vs => compact v ++ ',' :: compactItems vs

/-- Members, with a comma between two. -/
def compactMembers : List (String × Value) → List Char
  | [] => []
  | [(k, v)] => quoted k ++ ':' :: compact v
  | (k, v) :: ms => quoted k ++ ':' :: compact v ++ ',' :: compactMembers ms
end

/-! ## Pretty -/

/-- A new line, indented for that level. -/
def newLine (level : Nat) : List Char :=
  '\n' :: List.replicate (2 * level) ' '

mutual
/-- The pretty text of a value whose first line is already indented. -/
def prettyAt (level : Nat) : Value → List Char
  | .scalar s => s.text
  | .array [] => ['[', ']']
  | .array items => '[' :: prettyItems (level + 1) items ++ newLine level ++ [']']
  | .object [] => ['{', '}']
  | .object members => '{' :: prettyMembers (level + 1) members ++ newLine level ++ ['}']

/-- Items, each on a line of its own. -/
def prettyItems (level : Nat) : List Value → List Char
  | [] => []
  | [v] => newLine level ++ prettyAt level v
  | v :: vs => newLine level ++ prettyAt level v ++ ',' :: prettyItems level vs

/-- Members, each on a line of its own. -/
def prettyMembers (level : Nat) : List (String × Value) → List Char
  | [] => []
  | [(k, v)] => newLine level ++ quoted k ++ ':' :: ' ' :: prettyAt level v
  | (k, v) :: ms =>
    newLine level ++ quoted k ++ ':' :: ' ' :: prettyAt level v ++ ',' :: prettyMembers level ms
end

/-- The pretty text of a value. -/
def pretty (v : Value) : List Char :=
  prettyAt 0 v

/-- The compact text as a string. -/
def compactText (v : Value) : String :=
  String.ofList v.compact

/-- The pretty text as a string. -/
def prettyText (v : Value) : String :=
  String.ofList v.pretty

end Value

end BimEditor.Json
