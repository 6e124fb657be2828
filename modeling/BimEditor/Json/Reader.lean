/-
  BimEditor.Json.Reader

  The JSON reader: from a text to a tree with spans, or the first fault met from left to right.
  The grammar is the strict one: no comments, no trailing commas, no raw control characters in
  strings. Two limits guard against hostile texts: on the size in bytes and on the nesting depth.
-/
import BimEditor.Json.Literal
import BimEditor.Json.Tree

namespace BimEditor.Json

open BimEditor.Text

/-! ## Limits -/

/-- How large a text may be, in bytes, and how deep it may nest; `none` sets no limit. -/
structure Limits where
  maxSize : Option Nat
  maxDepth : Option Nat
deriving DecidableEq, Repr

namespace Limits

/-- 512 MiB and a depth of 512. -/
def standard : Limits :=
  ⟨some 536870912, some 512⟩

/-- No limits. -/
def unlimited : Limits :=
  ⟨none, none⟩

instance : Inhabited Limits := ⟨standard⟩

end Limits

/-- The limit that a quantity exceeds, if it does. -/
def exceeded? (limit : Option Nat) (n : Nat) : Option Nat :=
  limit.filter fun most => most < n

/-- What a reader goes by: how deep a text may nest, and what the spelling of a number stands
    for. -/
structure Rules where
  maxDepth : Option Nat
  number? : Numeral → Option Number

/-- The rules under limits, with every number read to the nearest one. -/
def Limits.rules (limits : Limits) : Rules :=
  ⟨limits.maxDepth, Numeral.number?⟩

/-- Refuse the container opened at `here` if it lies too deep. -/
def enter (maxDepth : Option Nat) (depth here : Nat) : Except Fault Unit :=
  match exceeded? maxDepth depth with
  | some limit => .error (.tooDeep here limit)
  | none => .ok ()

/-! ## Punctuation -/

/-- A colon. -/
def colon : (c : Cursor) → Outcome Unit c
  | ⟨_, ':' :: _⟩ => .ok (.head ())
  | c => .error (unexpectedAt .colon c)

/-- What follows a member: a comma if another one comes, or the closing brace. -/
def memberEnd : (c : Cursor) → Outcome Bool c
  | ⟨_, ',' :: _⟩ => .ok (.head true)
  | ⟨_, '}' :: _⟩ => .ok (.head false)
  | c => .error (unexpectedAt .memberEnd c)

/-- What follows an item: a comma if another one comes, or the closing bracket. -/
def itemEnd : (c : Cursor) → Outcome Bool c
  | ⟨_, ',' :: _⟩ => .ok (.head true)
  | ⟨_, ']' :: _⟩ => .ok (.head false)
  | c => .error (unexpectedAt .itemEnd c)

/-! ## Scalars -/

/-- A value that starts with none of the two opening brackets. -/
def scalar (value? : Numeral → Option Number) : (c : Cursor) → Outcome Scalar c
  | ⟨here, '"' :: rest⟩ => do
    let body ← stringBody here ⟨here + 1, rest⟩
    return .withHead (.string (String.ofList body.value)) body
  | ⟨here, 't' :: rest⟩ => word "true" (.bool true) ⟨here, 't' :: rest⟩
  | ⟨here, 'f' :: rest⟩ => word "false" (.bool false) ⟨here, 'f' :: rest⟩
  | ⟨here, 'n' :: rest⟩ => word "null" .null ⟨here, 'n' :: rest⟩
  | ⟨here, c :: rest⟩ =>
    if c = '-' ∨ Numeric.isDigit c then do
      let ⟨n, next, h⟩ ← number value? ⟨here, c :: rest⟩
      return ⟨.number n, next, h⟩
    else .error (unexpectedAt .value ⟨here, c :: rest⟩)
  | c => .error (unexpectedAt .value c)

/-! ## Values -/

mutual
/-- A value at the given depth, starting right at the cursor. -/
def tree (rules : Rules) (depth : Nat) : (c : Cursor) → Outcome Tree c
  | ⟨here, '{' :: rest⟩ => do
    enter rules.maxDepth (depth + 1) here
    have hi := Cursor.skipBlanks_length_le ⟨here + 1, rest⟩
    let ⟨members, next, h⟩ ← objectBody rules (depth + 1) (Cursor.skipBlanks ⟨here + 1, rest⟩)
    return ⟨.object ⟨here, next.offset⟩ members, next, by
      simp only [List.length_cons] at hi ⊢; omega⟩
  | ⟨here, '[' :: rest⟩ => do
    enter rules.maxDepth (depth + 1) here
    have hi := Cursor.skipBlanks_length_le ⟨here + 1, rest⟩
    let ⟨items, next, h⟩ ← arrayBody rules (depth + 1) (Cursor.skipBlanks ⟨here + 1, rest⟩)
    return ⟨.array ⟨here, next.offset⟩ items, next, by
      simp only [List.length_cons] at hi ⊢; omega⟩
  | c => do
    let ⟨s, next, h⟩ ← scalar rules.number? c
    return ⟨.leaf ⟨c.offset, next.offset⟩ s, next, h⟩
-- the body of a container and its first part start at the same place: the factor leaves the
-- measure two steps for that
termination_by c => 3 * c.rest.length
decreasing_by
  all_goals simp only [List.length_cons] at *
  all_goals omega

/-- The members of an object up to its closing brace. -/
def objectBody (rules : Rules) (depth : Nat) : (c : Cursor) → Outcome (List (Key × Tree)) c
  | ⟨_, '}' :: _⟩ => .ok (.head [])
  | c => members rules depth c
termination_by c => 3 * c.rest.length + 2
decreasing_by omega

/-- One or more members up to the closing brace. -/
def members (rules : Rules) (depth : Nat) : (c : Cursor) → Outcome (List (Key × Tree)) c
  | ⟨here, '"' :: rest⟩ => do
    let ⟨name, afterKey, h₁⟩ ← stringBody here ⟨here + 1, rest⟩
    have s₁ := afterKey.skipBlanks_length_le
    let ⟨_, afterColon, h₂⟩ ← colon afterKey.skipBlanks
    have s₂ := afterColon.skipBlanks_length_le
    let ⟨value, afterValue, h₃⟩ ← tree rules depth afterColon.skipBlanks
    have s₃ := afterValue.skipBlanks_length_le
    let ⟨more, afterEnd, h₄⟩ ← memberEnd afterValue.skipBlanks
    have s₄ := afterEnd.skipBlanks_length_le
    let member : Key × Tree := (⟨String.ofList name, ⟨here, afterKey.offset⟩⟩, value)
    if more then
      let ⟨others, next, h₅⟩ ← members rules depth afterEnd.skipBlanks
      return ⟨member :: others, next, by simp only [List.length_cons] at h₁ ⊢; omega⟩
    else
      return ⟨[member], afterEnd, by simp only [List.length_cons] at h₁ ⊢; omega⟩
  | c => .error (unexpectedAt .key c)
termination_by c => 3 * c.rest.length + 1
decreasing_by
  all_goals simp only [List.length_cons] at *
  all_goals omega

/-- The items of an array up to its closing bracket. -/
def arrayBody (rules : Rules) (depth : Nat) : (c : Cursor) → Outcome (List Tree) c
  | ⟨_, ']' :: _⟩ => .ok (.head [])
  | c => items rules depth c
termination_by c => 3 * c.rest.length + 2
decreasing_by omega

/-- One or more items up to the closing bracket. -/
def items (rules : Rules) (depth : Nat) (c : Cursor) : Outcome (List Tree) c := do
  let ⟨item, afterItem, h₁⟩ ← tree rules depth c
  have s₁ := afterItem.skipBlanks_length_le
  let ⟨more, afterEnd, h₂⟩ ← itemEnd afterItem.skipBlanks
  have s₂ := afterEnd.skipBlanks_length_le
  if more then
    let ⟨others, next, h₃⟩ ← items rules depth afterEnd.skipBlanks
    return ⟨item :: others, next, by omega⟩
  else
    return ⟨[item], afterEnd, by omega⟩
termination_by 3 * c.rest.length + 1
decreasing_by
  all_goals omega
end

/-! ## Texts -/

/-- Nothing but blanks follows the value. -/
def finish (c : Cursor) : Except Fault Unit :=
  if c.skipBlanks.rest.isEmpty then .ok ()
  else .error (.malformed c.skipBlanks.offset .trailing)

/-- Refuse a text that is too large. -/
def checkSize (maxSize : Option Nat) (text : List Char) : Except Fault Unit :=
  match exceeded? maxSize (byteLength text) with
  | some limit => .error (.tooLarge (byteLength text) limit)
  | none => .ok ()

/-- Read a text that holds one value, by given rules. -/
def readBy (rules : Rules) (text : List Char) : Except Fault Tree := do
  let ⟨t, next, _⟩ ← tree rules 0 (Cursor.atStart text).skipBlanks
  finish next
  return t

/-- Read a text that holds one value. -/
def read (limits : Limits) (text : List Char) : Except Fault Tree := do
  checkSize limits.maxSize text
  readBy limits.rules text

end BimEditor.Json
