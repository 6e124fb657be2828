/-
  BimEditor.Json.Literal

  Readers for the tokens of JSON that hold text of their own: strings with their escapes, and
  numbers. Each reader starts at a cursor and ends behind the token, or reports the malformation and
  where it lies.
-/
import BimEditor.Json.Fault
import BimEditor.Json.Numeral
import BimEditor.Json.Value
import BimEditor.Text.Cursor

namespace BimEditor.Json

open BimEditor.Numeric BimEditor.Text

/-- The outcome of a reader at `start`. -/
abbrev Outcome (α : Type) (start : Cursor) := Except Fault (Reading α start)

/-- The fault of finding something else than the grammar asks for. -/
def unexpectedAt (expected : Expected) (c : Cursor) : Fault :=
  .malformed c.offset (.unexpected expected c.rest.head?)

/-! ## Escapes -/

/-- A hexadecimal digit of either case. -/
def isHexDigit (c : Char) : Bool :=
  isDigit c || ('a' ≤ c && c ≤ 'f') || ('A' ≤ c && c ≤ 'F')

/-- What a hexadecimal digit is worth. -/
def hexDigitValue (c : Char) : Nat :=
  if isDigit c then digitValue c
  else if 'a' ≤ c then c.toNat - 'a'.toNat + 10
  else c.toNat - 'A'.toNat + 10

/-- The number that a list of hexadecimal digits stands for. -/
def ofHexDigits (ds : List Char) : Nat :=
  ds.foldl (fun n d => 16 * n + hexDigitValue d) 0

/-- The character that a letter behind a backslash stands for. -/
def simpleEscape? : Char → Option Char
  | '"' => some '"'
  | '\\' => some '\\'
  | '/' => some '/'
  | 'b' => some '\x08'
  | 'f' => some '\x0c'
  | 'n' => some '\n'
  | 'r' => some '\r'
  | 't' => some '\t'
  | _ => none

/-- The character with that code point; surrogates have none. -/
def charOfCode? (code : Nat) : Option Char :=
  if code.isValidChar then some (Char.ofNat code) else none

/-- The fault of not finding four hexadecimal digits: too few bytes follow, or other characters. -/
def hexFault (here : Nat) (rest : List Char) : Fault :=
  .malformed here (if (splitBytes? 4 rest).isNone then .incompleteHex else .badHex)

/-- Four hexadecimal digits. -/
def hexCode : (start : Cursor) → Outcome Nat start
  | ⟨here, a :: b :: c :: d :: rest⟩ =>
    if [a, b, c, d].all isHexDigit then
      .ok ⟨ofHexDigits [a, b, c, d], ⟨here + 4, rest⟩, by simp; omega⟩
    else .error (hexFault here (a :: b :: c :: d :: rest))
  | ⟨here, rest⟩ => .error (hexFault here rest)

/-- The code units that stand for a character beyond the basic plane come in pairs. -/
def isHighSurrogate (code : Nat) : Bool :=
  0xD800 ≤ code && code < 0xDC00

/-- The second half of such a pair. -/
def isLowSurrogate (code : Nat) : Bool :=
  0xDC00 ≤ code && code < 0xE000

/-- The code point of a surrogate pair. -/
def pairCode (high low : Nat) : Nat :=
  0x10000 + (high - 0xD800) * 0x400 + (low - 0xDC00)

/-- The character with that code point, or the fault of an escape that began at `start`. -/
def codeChar (start code : Nat) : Except Fault Char :=
  match charOfCode? code with
  | some ch => .ok ch
  | none => .error (.malformed start .notACharacter)

/-- The second half of the escape that began at `start` with the code unit `high`: another `\u`
    and a low surrogate. -/
def lowHalf (start high : Nat) : (c : Cursor) → Outcome Char c
  | ⟨here, '\\' :: 'u' :: rest⟩ => do
    let ⟨low, next, h⟩ ← hexCode ⟨here + 2, rest⟩
    if isLowSurrogate low then
      let ch ← codeChar start (pairCode high low)
      return ⟨ch, next, by simp only [List.length_cons] at h ⊢; omega⟩
    else throw (.malformed start .badLowSurrogate)
  | _ => .error (.malformed start .unpairedSurrogate)

/-- What follows `\u` in an escape that began at `start`. -/
def unicodeEscape (start : Nat) (c : Cursor) : Outcome Char c := do
  let ⟨code, next, h⟩ ← hexCode c
  if isHighSurrogate code then
    let ⟨ch, last, h'⟩ ← lowHalf start code next
    return ⟨ch, last, by omega⟩
  else
    let ch ← codeChar start code
    return ⟨ch, next, h⟩

/-- What follows the backslash of an escape that began at `start`. -/
def escape (start : Nat) : (c : Cursor) → Outcome Char c
  | ⟨_, []⟩ => .error (.malformed start .unterminatedEscape)
  | ⟨here, 'u' :: rest⟩ => do
    let code ← unicodeEscape start ⟨here + 1, rest⟩
    return .withHead code.value code
  | ⟨_, c :: _⟩ =>
    match simpleEscape? c with
    | some ch => .ok (.head ch)
    | none => .error (.malformed start .unknownEscape)

/-! ## Strings -/

/-- A character that ends a run of plain characters in a string. -/
def endsRun (c : Char) : Bool :=
  c == '"' || c == '\\'

/-- The fault of a raw control character at `here`, in a string opened at `opening`. Where neither
    a quote nor a backslash follows any more, the string counts as unterminated. -/
def controlFault (opening here : Nat) (rest : List Char) : Fault :=
  if rest.any endsRun then .malformed here .rawControl
  else .malformed opening .unterminatedString

/-- The characters of a string opened at `opening`, up to and including its closing quote. -/
def stringBody (opening : Nat) : (c : Cursor) → Outcome (List Char) c
  | ⟨_, []⟩ => .error (.malformed opening .unterminatedString)
  | ⟨_, '"' :: _⟩ => .ok (.head [])
  | ⟨here, '\\' :: rest⟩ => do
    let ⟨ch, next, h⟩ ← escape here ⟨here + 1, rest⟩
    let ⟨tail, last, h'⟩ ← stringBody opening next
    return ⟨ch :: tail, last, by simp only [List.length_cons] at h ⊢; omega⟩
  | ⟨here, ch :: rest⟩ =>
    if ch.toNat < 0x20 then .error (controlFault opening here rest)
    else do
      let ⟨tail, last, h⟩ ← stringBody opening ⟨here + ch.utf8Size, rest⟩
      return ⟨ch :: tail, last, by simp only [List.length_cons] at h ⊢; omega⟩
termination_by c => c.rest.length
decreasing_by
  all_goals simp only [List.length_cons] at *
  all_goals omega

/-! ## Numbers -/

/-- One or more digits, or the fault that `expected` was asked for. -/
def someDigits (expected : Expected) : (c : Cursor) → Outcome (List Char) c
  | ⟨here, d :: rest⟩ =>
    if isDigit d then
      .ok ⟨d :: rest.takeWhile isDigit, Cursor.skip isDigit ⟨here + 1, rest⟩, by
        have := Cursor.skip_length_le isDigit ⟨here + 1, rest⟩
        simp only [List.length_cons] at this ⊢
        omega⟩
    else .error (unexpectedAt expected ⟨here, d :: rest⟩)
  | c => .error (unexpectedAt expected c)

/-- The whole digits of a number: a single zero, or digits that start with none. -/
def wholeDigits : (c : Cursor) → Outcome (List Char) c
  | ⟨_, '0' :: _⟩ => .ok (.head ['0'])
  | c => someDigits .digit c

/-- The sign of a number. -/
def sign : (c : Cursor) → Bool × Advance c
  | ⟨here, '-' :: rest⟩ => (true, ⟨⟨here + 1, rest⟩, Nat.le_succ _⟩)
  | c => (false, ⟨c, Nat.le_refl _⟩)

/-- The sign of an exponent, which may also be a plus. -/
def exponentSign : (c : Cursor) → Bool × Advance c
  | ⟨here, '-' :: rest⟩ => (true, ⟨⟨here + 1, rest⟩, Nat.le_succ _⟩)
  | ⟨here, '+' :: rest⟩ => (false, ⟨⟨here + 1, rest⟩, Nat.le_succ _⟩)
  | c => (false, ⟨c, Nat.le_refl _⟩)

/-- A point and the digits behind it, or nothing. -/
def fraction? : (c : Cursor) → Except Fault (Option (List Char) × Advance c)
  | ⟨here, '.' :: rest⟩ => do
    let ⟨ds, next, h⟩ ← someDigits .fractionDigit ⟨here + 1, rest⟩
    return (some ds, ⟨next, by simp only [List.length_cons] at h ⊢; omega⟩)
  | c => .ok (none, ⟨c, Nat.le_refl _⟩)

/-- The letter, sign and digits of an exponent whose letter was just passed. -/
def exponentBody (c : Cursor) : Except Fault ((Bool × List Char) × Advance c) := do
  let (negative, ⟨start, h⟩) := exponentSign c
  let ⟨ds, next, h'⟩ ← someDigits .exponentDigit start
  return ((negative, ds), ⟨next, by omega⟩)

/-- An exponent, or nothing. -/
def exponent? : (c : Cursor) → Except Fault (Option (Bool × List Char) × Advance c)
  | ⟨here, 'e' :: rest⟩ => do
    let (e, ⟨next, h⟩) ← exponentBody ⟨here + 1, rest⟩
    return (some e, ⟨next, by simp only [List.length_cons] at h ⊢; omega⟩)
  | ⟨here, 'E' :: rest⟩ => do
    let (e, ⟨next, h⟩) ← exponentBody ⟨here + 1, rest⟩
    return (some e, ⟨next, by simp only [List.length_cons] at h ⊢; omega⟩)
  | c => .ok (none, ⟨c, Nat.le_refl _⟩)

/-- The spelling of a number. -/
def numeral (c : Cursor) : Outcome Numeral c := do
  let (negative, ⟨afterSign, h₁⟩) := sign c
  let ⟨whole, afterWhole, h₂⟩ ← wholeDigits afterSign
  let (fraction, ⟨afterFraction, h₃⟩) ← fraction? afterWhole
  let (exponent, ⟨next, h₄⟩) ← exponent? afterFraction
  return ⟨⟨negative, whole, fraction, exponent⟩, next, by omega⟩

/-- A number, by the given rule for what a spelling stands for. One beyond the format is reported
    where its spelling starts. -/
def number (value? : Numeral → Option Number) (c : Cursor) : Outcome Number c := do
  let ⟨spelled, next, h⟩ ← numeral c
  match value? spelled with
  | some n => return ⟨n, next, h⟩
  | none =>
    let literal := c.rest.take (c.rest.length - next.rest.length)
    throw (.malformed c.offset (.outOfRange (String.ofList literal)))

/-! ## Words -/

/-- The given word. -/
def word (spelling : String) (meaning : Scalar) (c : Cursor) : Outcome Scalar c :=
  let cs := spelling.toList
  if h : cs.isPrefixOf c.rest = true ∧ cs ≠ [] then
    .ok ⟨meaning, ⟨c.offset + byteLength cs, c.rest.drop cs.length⟩, by
      have hl : cs.length ≠ 0 := by simpa using h.2
      have := (List.isPrefixOf_iff_prefix.1 h.1).length_le
      simp only [List.length_drop]
      omega⟩
  else .error (unexpectedAt (.word spelling) c)

end BimEditor.Json
