/-
  BimEditor.Proofs.Json.Grammar

  The grammar of JSON texts (RFC 8259), as a relation between a text and the value it stands for.
  It says nothing of offsets, cursors or faults, so that the reader can be held against it. Objects
  list all their members in source order, repeated names included.

    * `Blanks`, `Digits`, `Whole`, `Fraction`, `Exponent`, `Spells` - the tokens of numbers and what
      may stand between tokens.
    * `Character`, `Characters` - what may stand between two quotes and what it is decoded to.
    * `ScalarText`, `Derives`, `DerivesText` - values without parts, values, whole texts.

  What number a spelling stands for is left open in `Derives`; `Denotes` is the rule of documents.
-/
import BimEditor.Json.Numeral
import BimEditor.Json.Value

namespace BimEditor.Json

open BimEditor.Numeric

/-! ## Numbers -/

/-- Only characters that may stand between two tokens. -/
def Blanks (s : List Char) : Prop :=
  ∀ c ∈ s, c = ' ' ∨ c = '\t' ∨ c = '\n' ∨ c = '\r'

/-- One or more digits. -/
def Digits (s : List Char) : Prop :=
  s ≠ [] ∧ ∀ c ∈ s, isDigit c = true

/-- The digits before the point: a lone zero, or digits that do not start with one. -/
inductive Whole : List Char → Prop where
  | zero : Whole ['0']
  | digits {d : Char} {ds : List Char} :
      isDigit d = true → d ≠ '0' → (∀ c ∈ ds, isDigit c = true) → Whole (d :: ds)

/-- The point and the digits behind it, or nothing. -/
inductive Fraction : List Char → Option (List Char) → Prop where
  | absent : Fraction [] none
  | present {ds : List Char} : Digits ds → Fraction ('.' :: ds) (some ds)

/-- The sign of an exponent. -/
inductive ExponentSign : List Char → Bool → Prop where
  | none : ExponentSign [] false
  | plus : ExponentSign ['+'] false
  | minus : ExponentSign ['-'] true

/-- An exponent, or nothing. -/
inductive Exponent : List Char → Option (Bool × List Char) → Prop where
  | absent : Exponent [] none
  | present {mark : Char} {sign ds : List Char} {negative : Bool} :
      mark = 'e' ∨ mark = 'E' → ExponentSign sign negative → Digits ds →
      Exponent (mark :: (sign ++ ds)) (some (negative, ds))

/-- The sign of a number. -/
def minusSign (negative : Bool) : List Char :=
  if negative then ['-'] else []

/-- The text of a numeral. -/
inductive Spells : List Char → Numeral → Prop where
  | parts {negative : Bool} {w f e : List Char} {fraction : Option (List Char)}
      {exponent : Option (Bool × List Char)} :
      Whole w → Fraction f fraction → Exponent e exponent →
      Spells (minusSign negative ++ (w ++ (f ++ e))) ⟨negative, w, fraction, exponent⟩

namespace Numeral

/-- The integer `i` is spelled, with neither a fraction nor an exponent. -/
def IsInteger (n : Numeral) (i : Int) : Prop :=
  n.fraction = none ∧ n.exponent = none
    ∧ i = if n.negative then -(ofDigits n.whole : Int) else ofDigits n.whole

/-- The reader of floating-point numbers; none beyond the finite ones. -/
def float? (n : Numeral) : Option Binary64 :=
  Binary64.ofDecimal? n.negative (ofDigits (n.whole ++ n.fractionDigits))
    (n.power cappedExponent - n.fractionDigits.length)

end Numeral

/-- The number that a numeral stands for in a document: an integer that fits a signed or an unsigned
    64-bit word exactly, and otherwise what the reader of floating-point numbers makes of it. -/
inductive Denotes : Numeral → Number → Prop where
  | integer {n : Numeral} {i : WideInt} : n.IsInteger i.val → Denotes n (.integer i)
  | float {n : Numeral} {x : Binary64} :
      (∀ i : WideInt, ¬ n.IsInteger i.val) → n.float? = some x → Denotes n (.float x)

/-! ## Strings -/

/-- What each letter behind a backslash stands for, `u` apart. -/
def escapeTable : List (Char × Char) :=
  [('"', '"'), ('\\', '\\'), ('/', '/'), ('b', '\x08'), ('f', '\x0c'), ('n', '\n'), ('r', '\r'),
   ('t', '\t')]

/-- The sixteen digits in their order, in lower and in upper case. -/
def lowerHexDigits : List Char :=
  ['0', '1', '2', '3', '4', '5', '6', '7', '8', '9', 'a', 'b', 'c', 'd', 'e', 'f']

@[inherit_doc lowerHexDigits]
def upperHexDigits : List Char :=
  ['0', '1', '2', '3', '4', '5', '6', '7', '8', '9', 'A', 'B', 'C', 'D', 'E', 'F']

/-- The hexadecimal digit `c` is worth `n`. -/
def HexDigit (c : Char) (n : Nat) : Prop :=
  lowerHexDigits[n]? = some c ∨ upperHexDigits[n]? = some c

/-- Four hexadecimal digits and the code unit that they stand for. -/
inductive HexCode : List Char → Nat → Prop where
  | digits {a b c d : Char} {i j k l : Nat} :
      HexDigit a i → HexDigit b j → HexDigit c k → HexDigit d l →
      HexCode [a, b, c, d] (((i * 16 + j) * 16 + k) * 16 + l)

/-- One character of a string: as it stands, by a letter, by its code, or by two codes that form a
    surrogate pair. No character has the code of a surrogate, so these occur in pairs only. -/
inductive Character : List Char → Char → Prop where
  | plain {c : Char} : 0x20 ≤ c.toNat → c ≠ '"' → c ≠ '\\' → Character [c] c
  | letter {e c : Char} : (e, c) ∈ escapeTable → Character ['\\', e] c
  | code {ds : List Char} {c : Char} : HexCode ds c.toNat → Character ('\\' :: 'u' :: ds) c
  -- each half of a pair carries ten bits, counted from the first code of more than 16 bits
  | pair {hs ls : List Char} {high low : Nat} {c : Char} :
      HexCode hs high → 0xD800 ≤ high → high < 0xDC00 →
      HexCode ls low → 0xDC00 ≤ low → low < 0xE000 →
      c.toNat = 0x10000 + (high - 0xD800) * 0x400 + (low - 0xDC00) →
      Character ('\\' :: 'u' :: (hs ++ '\\' :: 'u' :: ls)) c

/-- What stands between the quotes of a string, and the characters it is decoded to. -/
inductive Characters : List Char → List Char → Prop where
  | nil : Characters [] []
  | cons {s t cs : List Char} {c : Char} :
      Character s c → Characters t cs → Characters (s ++ t) (c :: cs)

/-! ## Values -/

/-- What the rules for values are about: one value, the items of an array, or the members of an
    object, the last two with at least one entry. -/
inductive Phrase (κ α : Type) where
  | value (v : α)
  | items (vs : List α)
  | members (ms : List (κ × α))

section

variable (denotes : Numeral → Number → Prop)

/-- The text of a value without parts. -/
inductive ScalarText : List Char → Scalar → Prop where
  | nullWord : ScalarText ['n', 'u', 'l', 'l'] .null
  | trueWord : ScalarText ['t', 'r', 'u', 'e'] (.bool true)
  | falseWord : ScalarText ['f', 'a', 'l', 's', 'e'] (.bool false)
  | number {s : List Char} {n : Numeral} {x : Number} :
      Spells s n → denotes n x → ScalarText s (.number x)
  | string {s cs : List Char} :
      Characters s cs → ScalarText ('"' :: (s ++ ['"'])) (.string (String.ofList cs))

/-- The text of a phrase. Blanks stand behind a token, never before one. -/
inductive Derives : List Char → Phrase String Value → Prop where
  | scalar {s : List Char} {x : Scalar} :
      ScalarText denotes s x → Derives s (.value (.scalar x))
  | emptyArray {b : List Char} : Blanks b → Derives ('[' :: (b ++ [']'])) (.value (.array []))
  | array {b s : List Char} {vs : List Value} :
      Blanks b → Derives s (.items vs) → Derives ('[' :: (b ++ (s ++ [']']))) (.value (.array vs))
  | emptyObject {b : List Char} : Blanks b → Derives ('{' :: (b ++ ['}'])) (.value (.object []))
  | object {b s : List Char} {ms : List (String × Value)} :
      Blanks b → Derives s (.members ms) →
      Derives ('{' :: (b ++ (s ++ ['}']))) (.value (.object ms))
  -- the items of an array: the last one, or one with a comma and more behind it
  | lastItem {s b : List Char} {v : Value} :
      Derives s (.value v) → Blanks b → Derives (s ++ b) (.items [v])
  | item {s b₁ b₂ t : List Char} {v : Value} {vs : List Value} :
      Derives s (.value v) → Blanks b₁ → Blanks b₂ → Derives t (.items vs) →
      Derives (s ++ (b₁ ++ ',' :: (b₂ ++ t))) (.items (v :: vs))
  -- the members of an object, in the same way
  | lastMember {k cs b₁ b₂ s b₃ : List Char} {v : Value} :
      Characters k cs → Blanks b₁ → Blanks b₂ → Derives s (.value v) → Blanks b₃ →
      Derives ('"' :: (k ++ '"' :: (b₁ ++ ':' :: (b₂ ++ (s ++ b₃)))))
        (.members [(String.ofList cs, v)])
  | member {k cs b₁ b₂ s b₃ b₄ t : List Char} {v : Value} {ms : List (String × Value)} :
      Characters k cs → Blanks b₁ → Blanks b₂ → Derives s (.value v) → Blanks b₃ → Blanks b₄ →
      Derives t (.members ms) →
      Derives ('"' :: (k ++ '"' :: (b₁ ++ ':' :: (b₂ ++ (s ++ (b₃ ++ ',' :: (b₄ ++ t)))))))
        (.members ((String.ofList cs, v) :: ms))

/-- A whole text: one value between blanks. -/
def DerivesText (text : List Char) (v : Value) : Prop :=
  ∃ b₁ s b₂, text = b₁ ++ (s ++ b₂) ∧ Blanks b₁ ∧ Derives denotes s (.value v) ∧ Blanks b₂

end

end BimEditor.Json
