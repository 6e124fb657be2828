/-
  BimEditor.Proofs.Bytes.Tokens

  The readers of tokens, walking over the bytes of a text by offsets. A reader looks at the byte it
  has come to, jumps over runs of bytes and cuts pieces out of the text; a complaint comes with line
  and column. Every one of these accesses may be refused, and a reader that is refused one has no
  result at all (`Reader`).

  `Follows` says that such a reader is not refused anything and comes to the same result as a reader
  that walks over characters, in the same place of the text. Like the readers themselves, the proofs
  are put together with `Follows.bind`.
-/
import BimEditor.Proofs.Bytes.Position
import BimEditor.Proofs.Bytes.Scanners
import BimEditor.Proofs.Json.Reading

namespace BimEditor.Bytes

open BimEditor.Text BimEditor.Json BimEditor.Numeric

/-! ## Readers -/

/-- A fault together with its line and column, if it lies at one place. -/
structure Report where
  fault : Fault
  position : Option LineColumn
deriving DecidableEq, Repr

/-- What a fault in a text is reported as. -/
def report (text : List Char) (fault : Fault) : Report :=
  ⟨fault, fault.offset?.map (Text.lineColumn text)⟩

/-- A computation that ends in a result or in a report, unless an access is refused. -/
abbrev Reader := ExceptT Report Option

/-- Report a fault at `offset`. -/
def complain {α : Type} (text : Bytes) (offset : Nat) (fault : Fault) : Reader α := do
  let position ← lineColumn text offset
  throw ⟨fault, some position⟩

/-- Report a departure from the grammar. -/
def fail {α : Type} (text : Bytes) (offset : Nat) (cause : Malformation) : Reader α :=
  complain text offset (.malformed offset cause)

/-- Report that something else stands at `pos` than the grammar asks for. -/
def unexpected {α : Type} (text : Bytes) (expected : Expected) (pos : Nat) : Reader α := do
  let rest ← charsFrom text pos
  fail text pos (.unexpected expected rest.head?)

/-! ## Words and numbers -/

/-- The given word. -/
def word (text : Bytes) (spelling : String) (meaning : Scalar) (pos : Nat) :
    Reader (Scalar × Nat) := do
  let rest ← bytesFrom text pos
  if (utf8Bytes spelling.toList).isPrefixOf rest then
    return (meaning, pos + byteLength spelling.toList)
  else unexpected text (.word spelling) pos

/-- The byte of a digit. -/
def isDigitByte (b : UInt8) : Bool :=
  '0'.toNat ≤ b.toNat && b.toNat ≤ '9'.toNat

/-- The place behind one or more digits. -/
def someDigits (text : Bytes) (expected : Expected) (pos : Nat) : Reader Nat :=
  if sees isDigitByte text pos then return skipBytes isDigitByte text pos
  else unexpected text expected pos

/-- The place behind the whole digits of a number. -/
def wholeDigits (text : Bytes) (pos : Nat) : Reader Nat :=
  if sees (isByte '0') text pos then return pos + 1 else someDigits text .digit pos

/-- The place behind a point and its digits, if there are any. -/
def fraction (text : Bytes) (pos : Nat) : Reader Nat :=
  if sees (isByte '.') text pos then someDigits text .fractionDigit (pos + 1) else return pos

/-- A letter that starts an exponent. -/
def isExponentByte (b : UInt8) : Bool :=
  isByte 'e' b || isByte 'E' b

/-- The sign of an exponent. -/
def isSignByte (b : UInt8) : Bool :=
  isByte '-' b || isByte '+' b

/-- The place behind an exponent, if there is one. -/
def exponent (text : Bytes) (pos : Nat) : Reader Nat :=
  if sees isExponentByte text pos then
    someDigits text .exponentDigit (if sees isSignByte text (pos + 1) then pos + 2 else pos + 1)
  else return pos

/-- The place behind the spelling of a number. -/
def numeral (text : Bytes) (pos : Nat) : Reader Nat := do
  let afterWhole ← wholeDigits text (if sees (isByte '-') text pos then pos + 1 else pos)
  let afterFraction ← fraction text afterWhole
  exponent text afterFraction

/-- The number that a literal spells on its own. -/
def literalNumber? (value? : Numeral → Option Number) (literal : List Char) : Option Number :=
  (Json.numeral ⟨0, literal⟩).toOption.bind fun r => value? r.value

/-- A number. Its spelling is passed first and cut out of the text then. -/
def number (text : Bytes) (value? : Numeral → Option Number) (pos : Nat) :
    Reader (Number × Nat) := do
  let stop ← numeral text pos
  let literal ← charsBetween text pos stop
  match literalNumber? value? literal with
  | some n => return (n, stop)
  | none => fail text pos (.outOfRange (String.ofList literal))

/-! ## Strings -/

/-- Four hexadecimal digits. Fewer bytes than four are no refusal here, but a fault of the text. -/
def hexCode (text : Bytes) (pos : Nat) : Reader (Nat × Nat) :=
  match charsBetween text pos (pos + 4) with
  | none => fail text pos .incompleteHex
  | some digits =>
    if digits.all isHexDigit then return (ofHexDigits digits, pos + 4)
    else fail text pos .badHex

/-- The character with that code point, read up to `stop`. -/
def codeChar (text : Bytes) (start code stop : Nat) : Reader (Char × Nat) :=
  match charOfCode? code with
  | some ch => return (ch, stop)
  | none => fail text start .notACharacter

/-- The second half of the escape that began at `start` with the code unit `high`. -/
def lowHalf (text : Bytes) (start high pos : Nat) : Reader (Char × Nat) := do
  let rest ← bytesFrom text pos
  if (utf8Bytes ['\\', 'u']).isPrefixOf rest then
    let (low, next) ← hexCode text (pos + 2)
    if isLowSurrogate low then codeChar text start (pairCode high low) next
    else fail text start .badLowSurrogate
  else fail text start .unpairedSurrogate

/-- What follows `\u` in an escape that began at `start`. -/
def unicodeEscape (text : Bytes) (start pos : Nat) : Reader (Char × Nat) := do
  let (code, next) ← hexCode text pos
  if isHighSurrogate code then lowHalf text start code next
  else codeChar text start code next

/-- What follows the backslash right before `pos`. -/
def escape (text : Bytes) (pos : Nat) : Reader (Char × Nat) :=
  match byteAt text pos with
  | none => fail text (pos - 1) .unterminatedEscape
  | some b =>
    if isByte 'u' b then unicodeEscape text (pos - 1) (pos + 1)
    else
      match simpleEscape? (Char.ofNat b.toNat) with
      | some ch => return (ch, pos + 1)
      | none => fail text (pos - 1) .unknownEscape

/-- A byte that has to be escaped in a string. -/
def isControlByte (b : UInt8) : Bool :=
  b.toNat < 0x20

/-- The characters of a string opened at `opening`, with `out` read already: a run of plain bytes is
    copied as a whole, up to the next quote or backslash. -/
def stringLoop (text : Bytes) (opening start : Nat) (out : List Char) :
    Reader (List Char × Nat) := do
  match ← find endsRunByte text start with
  | none => fail text opening .unterminatedString
  | some stop =>
    let run ← bytesBetween text start stop
    match run.findIdx? isControlByte with
    | some i => fail text (start + i) .rawControl
    | none =>
      let plain ← charsBetween text start stop
      let mark ← byteAt text stop
      if isByte '"' mark then return (out ++ plain, stop + 1)
      else
        let (ch, next) ← escape text (stop + 1)
        text |>.stringLoop opening next (out ++ plain ++ [ch])
partial_fixpoint

/-- The characters of the string whose opening quote stands at `opening`. -/
def string (text : Bytes) (opening : Nat) : Reader (List Char × Nat) :=
  stringLoop text opening (opening + 1) []

/-- A value that starts with none of the two opening brackets. -/
def scalar (text : Bytes) (value? : Numeral → Option Number) (pos : Nat) :
    Reader (Scalar × Nat) := do
  if sees (isByte '"') text pos then
    let (cs, next) ← string text pos
    return (.string (String.ofList cs), next)
  else if sees (isByte 't') text pos then word text "true" (.bool true) pos
  else if sees (isByte 'f') text pos then word text "false" (.bool false) pos
  else if sees (isByte 'n') text pos then word text "null" .null pos
  else if sees (fun b => isByte '-' b || isDigitByte b) text pos then
    let (n, next) ← number text value? pos
    return (.number n, next)
  else unexpected text .value pos

/-! ## Following a reader of characters -/

/-- The second computation is not refused anything. It ends like the first one, whose results `a`
    leave a reader at the place `dest a` of the text and are known to the second one as `out a`. -/
inductive Follows {α β : Type} (text : List Char) (dest : α → Cursor) (out : α → β)
    (x : Except Fault α) (y : Reader β) : Prop where
  | ok {a : α} : x = .ok a → In text (dest a) → y = pure (out a) → Follows text dest out x y
  | error {e : Fault} : x = .error e → y = throw (report text e) → Follows text dest out x y

/-- A reader by offsets follows one by cursors. -/
abbrev Walks {α : Type} {c : Cursor} (text : List Char) (x : Outcome α c) (y : Reader (α × Nat)) :
    Prop :=
  Follows text (·.next) (fun r => (r.value, r.next.offset)) x y

section

variable {α β γ δ : Type} {text : List Char}

/-- An access that is granted leaves the rest to do. -/
theorem lift_bind {x : Option α} {a : α} {f : α → Reader β} (h : x = some a) :
    ((liftM x : Reader α) >>= f) = f a := by
  subst h
  rfl

namespace Follows

variable {dest : α → Cursor} {out : α → β} {dest' : γ → Cursor} {out' : γ → δ}
  {x : Except Fault α} {y : Reader β} {f : α → Except Fault γ} {g : β → Reader δ}

theorem bind (h : Follows text dest out x y)
    (hf : ∀ a, x = .ok a → In text (dest a) → Follows text dest' out' (f a) (g (out a))) :
    Follows text dest' out' (x >>= f) (y >>= g) := by
  cases h with
  | ok hx hin hy =>
    have hrest := hf _ hx hin
    subst hx hy
    exact hrest
  | error hx hy =>
    subst hx hy
    exact .error rfl rfl

/-- A last step that only changes how the result is put together. -/
theorem andThen {out' : γ → β} (h : Follows text dest out x y)
    (hf : ∀ a, ∃ a', f a = .ok a' ∧ dest' a' = dest a ∧ out' a' = out a) :
    Follows text dest' out' (x >>= f) y := by
  cases h with
  | @ok a hx hin hy =>
    obtain ⟨a', ha', hdest, hout⟩ := hf a
    subst hx
    refine .ok ha' ?_ ?_
    · rw [hdest]
      exact hin
    · rw [hout]
      exact hy
  | error hx hy =>
    subst hx
    exact .error rfl hy

end Follows

theorem complain_eq (text : List Char) (offset : Nat) (fault : Fault) :
    (complain text offset fault : Reader α)
      = throw ⟨fault, some (Text.lineColumn text offset)⟩ :=
  lift_bind (lineColumn_eq text offset)

theorem fail_eq (text : List Char) (offset : Nat) (cause : Malformation) :
    (fail text offset cause : Reader α) = throw (report text (.malformed offset cause)) :=
  complain_eq text offset _

theorem Follows.fail {dest : α → Cursor} {out : α → β} {offset : Nat} {cause : Malformation} :
    Follows text dest out (.error (.malformed offset cause)) (fail text offset cause) :=
  .error rfl (fail_eq text offset cause)

/-- The character that was not asked for is there to be named. -/
theorem Follows.unexpected {dest : α → Cursor} {out : α → β} {c : Cursor} (h : In text c)
    (expected : Expected) :
    Follows text dest out (.error (unexpectedAt expected c))
      (unexpected text expected c.offset) := by
  refine .error rfl ?_
  rw [Bytes.unexpected, lift_bind h.charsFrom_eq, fail_eq]
  rfl

/-! ### Words -/

theorem isPrefixOf_utf8Bytes (w s : List Char) :
    (utf8Bytes w).isPrefixOf (utf8Bytes s) = w.isPrefixOf s := by
  rw [Bool.eq_iff_iff, List.isPrefixOf_iff_prefix, List.isPrefixOf_iff_prefix]
  constructor
  · intro h
    induction w generalizing s with
    | nil => exact List.nil_prefix
    | cons x w ih =>
      obtain ⟨bytes, hbytes⟩ := h
      rw [utf8Bytes_cons, List.append_assoc] at hbytes
      cases s with
      | nil => exact absurd (List.append_eq_nil_iff.1 hbytes).1 String.utf8EncodeChar_ne_nil
      | cons y s =>
        rw [utf8Bytes_cons] at hbytes
        obtain rfl := eq_of_encoding_append hbytes
        exact (List.prefix_cons_inj x).2 (ih s ⟨bytes, List.append_cancel_left hbytes⟩)
  · rintro ⟨rest, rfl⟩
    rw [utf8Bytes_append]
    exact List.prefix_append _ _

theorem word_walks {c : Cursor} (h : In text c) {spelling : String} (meaning : Scalar)
    (hspelling : spelling.toList ≠ []) :
    Walks text (Json.word spelling meaning c) (word text spelling meaning c.offset) := by
  rw [word, lift_bind h.bytesFrom_eq, isPrefixOf_utf8Bytes, Json.word]
  split
  · next hprefix =>
    have hdrop : c.rest = spelling.toList ++ c.rest.drop spelling.toList.length := by
      obtain ⟨rest, hrest⟩ := List.isPrefixOf_iff_prefix.1 hprefix.1
      rw [← hrest, List.drop_left]
    rw [if_pos hprefix.1]
    exact .ok rfl (h.passes (s := spelling.toList) ⟨hdrop, rfl⟩) rfl
  · next hprefix =>
    rw [if_neg fun hpre => hprefix ⟨hpre, hspelling⟩]
    exact .unexpected h _

/-! ### Numbers -/

theorem byteClass_digit : ByteClass isDigitByte isDigit where
  short x hx := by
    rw [isDigitByte, toNat_ofNat_short hx, isDigit]
    simp only [char_le_iff]
  long x hx := by
    cases hdigit : isDigit x with
    | false => rfl
    | true =>
      have := toNat_of_isDigit hdigit
      omega
  high b hb := by
    have hnine : '9'.toNat = 57 := rfl
    simp only [isDigitByte, Bool.and_eq_false_iff, decide_eq_false_iff_not]
    omega

/-- What the byte at a cursor tells about the character there. -/
theorem In.sees_cons {o : Nat} {x : Char} {rest : List Char} {p : UInt8 → Bool} {q : Char → Bool}
    (h : In text ⟨o, x :: rest⟩) (hclass : ByteClass p q) : sees p text o = q x :=
  h.sees_eq hclass

theorem In.sees_nil {o : Nat} {p : UInt8 → Bool} {q : Char → Bool} (h : In text ⟨o, []⟩)
    (hclass : ByteClass p q) : sees p text o = false :=
  h.sees_eq hclass

theorem someDigits_follows {c : Cursor} (h : In text c) (expected : Expected) :
    Follows text (·.next) (·.next.offset) (Json.someDigits expected c)
      (someDigits text expected c.offset) := by
  obtain ⟨o, rest⟩ := c
  unfold someDigits
  cases rest with
  | nil =>
    rw [h.sees_nil byteClass_digit]
    exact .unexpected h _
  | cons d rest =>
    rw [h.sees_cons byteClass_digit, Json.someDigits]
    cases hd : isDigit d with
    | true =>
      have hrest : In text ⟨o + 1, rest⟩ := h.byte (utf8Size_of_isDigit hd)
      have hsees : sees isDigitByte text o = true := (h.sees_cons byteClass_digit).trans hd
      have hskip : skipBytes isDigitByte text (o + 1)
          = (Cursor.skip isDigit ⟨o + 1, rest⟩).offset :=
        hrest.skipBytes_eq byteClass_digit
      refine .ok rfl (hrest.skip isDigit) ?_
      rw [if_pos rfl, skipBytes_of_sees hsees, hskip]
    | false => exact .unexpected h _

/-- A character other than `y`, or none at all. -/
theorem In.not_sees {c : Cursor} {y : Char} (h : In text c) (hy : y.toNat < 0x80)
    (hne : ∀ o rest, c = ⟨o, y :: rest⟩ → False) : sees (isByte y) text c.offset = false := by
  obtain ⟨o, rest⟩ := c
  cases rest with
  | nil => exact h.sees_nil (.single hy)
  | cons x rest =>
    rw [h.sees_cons (.single hy), beq_eq_false_iff_ne]
    rintro rfl
    exact hne o rest rfl

theorem wholeDigits_follows {c : Cursor} (h : In text c) :
    Follows text (·.next) (·.next.offset) (Json.wholeDigits c) (wholeDigits text c.offset) := by
  unfold Json.wholeDigits wholeDigits
  split
  · next o rest =>
    rw [h.sees_cons (.single (by decide : '0'.toNat < 0x80))]
    exact .ok rfl (h.byte rfl) rfl
  · next hzero =>
    rw [h.not_sees (by decide) hzero]
    exact someDigits_follows h _

theorem fraction_follows {c : Cursor} (h : In text c) :
    Follows text (fun r => r.2.val) (fun r => r.2.val.offset) (fraction? c)
      (fraction text c.offset) := by
  unfold fraction? fraction
  split
  · next o rest =>
    have hrest : In text ⟨o + 1, rest⟩ := h.byte rfl
    rw [h.sees_cons (.single (by decide : '.'.toNat < 0x80))]
    refine (someDigits_follows hrest .fractionDigit).andThen ?_
    rintro ⟨ds, next, hlt⟩
    exact ⟨_, rfl, rfl, rfl⟩
  · next hpoint =>
    rw [h.not_sees (by decide) hpoint]
    exact .ok rfl h rfl

theorem byteClass_sign : ByteClass isSignByte (fun x => x == '-' || x == '+') :=
  (ByteClass.single (by decide)).or (.single (by decide))

theorem byteClass_exponent : ByteClass isExponentByte isExponentMark :=
  (ByteClass.single (by decide)).or (.single (by decide))

/-- The sign of an exponent is passed if it is there. -/
theorem exponentSign_place {c : Cursor} (h : In text c) :
    In text (exponentSign c).2
      ∧ (exponentSign c).2.val.offset
        = if sees isSignByte text c.offset then c.offset + 1 else c.offset := by
  unfold exponentSign
  split
  · next o rest =>
    rw [h.sees_cons byteClass_sign]
    exact ⟨h.byte rfl, rfl⟩
  · next o rest =>
    rw [h.sees_cons byteClass_sign]
    exact ⟨h.byte rfl, rfl⟩
  · next hminus hplus =>
    have hsees : sees isSignByte text c.offset = false := by
      show sees (fun b => isByte '-' b || isByte '+' b) text c.offset = false
      rw [sees_or, h.not_sees (by decide) hminus, h.not_sees (by decide) hplus]
      rfl
    rw [hsees]
    exact ⟨h, rfl⟩

theorem exponentBody_follows {c : Cursor} (h : In text c) :
    Follows text (fun r => r.2.val) (fun r => r.2.val.offset) (exponentBody c)
      (someDigits text .exponentDigit
        (if sees isSignByte text c.offset then c.offset + 1 else c.offset)) := by
  obtain ⟨hin, hoffset⟩ := exponentSign_place h
  unfold exponentBody
  split
  next negative start hle heq =>
  rw [heq] at hin hoffset
  rw [← hoffset]
  refine (someDigits_follows hin .exponentDigit).andThen ?_
  rintro ⟨ds, next, hlt⟩
  exact ⟨_, rfl, rfl, rfl⟩

theorem exponent_follows {c : Cursor} (h : In text c) :
    Follows text (fun r => r.2.val) (fun r => r.2.val.offset) (exponent? c)
      (exponent text c.offset) := by
  have hletter : ∀ {o : Nat} {x : Char} {rest : List Char}, In text ⟨o, x :: rest⟩ →
      isExponentMark x = true → In text ⟨o + 1, rest⟩
        ∧ exponent text o = someDigits text .exponentDigit
          (if sees isSignByte text (o + 1) then o + 2 else o + 1) := by
    intro o x rest hin hx
    rw [exponent, hin.sees_cons byteClass_exponent, hx]
    exact ⟨hin.byte (byteClass_exponent.utf8Size hx), rfl⟩
  unfold exponent?
  split
  · obtain ⟨hin, heq⟩ := hletter h rfl
    rw [heq]
    refine (exponentBody_follows hin).andThen ?_
    rintro ⟨e, next, hle⟩
    exact ⟨_, rfl, rfl, rfl⟩
  · obtain ⟨hin, heq⟩ := hletter h rfl
    rw [heq]
    refine (exponentBody_follows hin).andThen ?_
    rintro ⟨e, next, hle⟩
    exact ⟨_, rfl, rfl, rfl⟩
  · next hsmall hlarge =>
    have hsees : sees isExponentByte text c.offset = false := by
      show sees (fun b => isByte 'e' b || isByte 'E' b) text c.offset = false
      rw [sees_or, h.not_sees (by decide) hsmall, h.not_sees (by decide) hlarge]
      rfl
    rw [exponent, hsees]
    exact .ok rfl h rfl

theorem numeral_follows {c : Cursor} (h : In text c) :
    Follows text (·.next) (·.next.offset) (Json.numeral c) (numeral text c.offset) := by
  have hsign : In text (sign c).2 ∧ (sign c).2.val.offset
      = if sees (isByte '-') text c.offset then c.offset + 1 else c.offset := by
    unfold sign
    split
    · next o rest =>
      rw [h.sees_cons (.single (by decide : '-'.toNat < 0x80))]
      exact ⟨h.byte rfl, rfl⟩
    · next hminus =>
      rw [h.not_sees (by decide) hminus]
      exact ⟨h, rfl⟩
  unfold Json.numeral numeral
  split
  next negative afterSign hle heq =>
  rw [heq] at hsign
  obtain ⟨hin, hoffset⟩ := hsign
  rw [← hoffset]
  refine (wholeDigits_follows hin).bind ?_
  rintro ⟨whole, afterWhole, h₂⟩ - hwhole
  refine (fraction_follows hwhole).bind ?_
  rintro ⟨fraction, afterFraction, h₃⟩ - hfraction
  refine (exponent_follows hfraction).andThen ?_
  rintro ⟨exponent, next, h₄⟩
  exact ⟨_, rfl, rfl, rfl⟩

/-- A literal is cut out of the text as it was passed, and spells the same number on its own. -/
theorem number_walks {c : Cursor} (h : In text c) (value? : Numeral → Option Number) :
    Walks text (Json.number value? c) (number text value? c.offset) := by
  unfold Json.number number
  refine (numeral_follows h).bind ?_
  rintro ⟨spelled, next, hlt⟩ hnumeral hnext
  have hensures := numeral_ensures c
  rw [hnumeral] at hensures
  obtain ⟨s, hpass, hspells⟩ := hensures.of_ok
  have hliteral : literalNumber? value? s = value? spelled := by
    have hyields := @numeral_yields 0 s [] spelled hspells (Cursor.stopsAt_nil _)
    rw [List.append_nil] at hyields
    obtain ⟨hlt', heq⟩ := hyields
    rw [literalNumber?, heq]
    rfl
  have htake : c.rest.take (c.rest.length - next.rest.length) = s := by
    have hrest : c.rest = s ++ next.rest := hpass.1
    rw [hrest, List.length_append, Nat.add_sub_cancel, List.take_left]
  rw [lift_bind (h.charsBetween_eq hpass), hliteral]
  dsimp only
  cases value? spelled with
  | some n => exact .ok rfl hnext rfl
  | none =>
    dsimp only
    rw [htake]
    exact .fail

/-! ### Escapes -/

theorem In.charsBetween_add {c : Cursor} (h : In text c) (n : Nat) :
    charsBetween text c.offset (c.offset + n) = (splitBytes? n c.rest).map (·.1) := by
  rw [charsBetween, if_pos (Nat.le_add_right _ _), h.charsFrom_eq, Option.bind_some,
    Nat.add_sub_cancel_left]

/-- Four bytes that are hexadecimal digits are four characters. -/
theorem eq_four_of_hexDigits {digits : List Char} (hlength : byteLength digits = 4)
    (hall : digits.all isHexDigit = true) : ∃ a b c d, digits = [a, b, c, d] := by
  have hsize : ∀ s : List Char, s.all isHexDigit = true → byteLength s = s.length := by
    intro s hs
    induction s with
    | nil => rfl
    | cons x s ih =>
      rw [List.all_cons, Bool.and_eq_true] at hs
      have hx := isHexDigit_lt hs.1
      rw [byteLength_cons, List.length_cons, ih hs.2, utf8Size_of_ascii (by omega), Nat.add_comm]
  rw [hsize digits hall] at hlength
  match digits, hlength with
  | [a, b, c, d], _ => exact ⟨a, b, c, d, rfl⟩

theorem hexCode_eq_error {c : Cursor}
    (h : ¬ ∃ a b d e tail, c.rest = a :: b :: d :: e :: tail ∧ [a, b, d, e].all isHexDigit = true) :
    Json.hexCode c = .error (hexFault c.offset c.rest) := by
  unfold Json.hexCode
  split
  · split
    · next hall => exact absurd ⟨_, _, _, _, _, rfl, hall⟩ h
    · rfl
  · rfl

theorem hexCode_walks {c : Cursor} (h : In text c) :
    Walks text (Json.hexCode c) (hexCode text c.offset) := by
  obtain ⟨o, rest⟩ := c
  have hchars : charsBetween text o (o + 4) = (splitBytes? 4 rest).map (·.1) :=
    h.charsBetween_add 4
  rw [hexCode, hchars]
  -- the reader of characters looks for four digits first
  by_cases hdigits : ∃ a b c d tail, rest = a :: b :: c :: d :: tail
      ∧ [a, b, c, d].all isHexDigit = true
  · obtain ⟨a, b, c, d, tail, rfl, hall⟩ := hdigits
    have hcode : HexCode [a, b, c, d] (ofHexDigits [a, b, c, d]) :=
      hexCode_iff.2 ⟨a, b, c, d, rfl, hall, rfl⟩
    have hsplit : splitBytes? 4 ([a, b, c, d] ++ tail) = some ([a, b, c, d], tail) := by
      rw [← byteLength_hexCode hcode, splitBytes?_append]
    rw [Json.hexCode, if_pos hall]
    refine .ok rfl (h.passes (s := [a, b, c, d]) ⟨rfl, ?_⟩) ?_
    · rw [byteLength_hexCode hcode]
    · show (match (splitBytes? 4 ([a, b, c, d] ++ tail)).map (·.1) with
        | none => fail text o .incompleteHex
        | some digits => if digits.all isHexDigit then pure (ofHexDigits digits, o + 4)
          else fail text o .badHex) = _
      rw [hsplit, Option.map_some]
      dsimp only
      rw [if_pos hall]
  · rw [hexCode_eq_error hdigits]
    unfold hexFault
    cases hsplit : splitBytes? 4 rest with
    | none => exact .fail
    | some parts =>
      obtain ⟨digits, tail⟩ := parts
      have hnot : ¬ digits.all isHexDigit = true := by
        intro hall
        obtain ⟨a, b, c, d, rfl⟩ := eq_four_of_hexDigits (byteLength_of_splitBytes? hsplit) hall
        exact hdigits ⟨a, b, c, d, tail, splitBytes?_eq_append hsplit, hall⟩
      rw [Option.map_some]
      dsimp only
      rw [if_neg hnot]
      exact .fail

theorem codeChar_walks {c next : Cursor} {start code : Nat} (h : In text next)
    (hlt : next.rest.length < c.rest.length) :
    Walks text (Json.codeChar start code >>= fun ch => pure (⟨ch, next, hlt⟩ : Reading Char c))
      (codeChar text start code next.offset) := by
  unfold Json.codeChar codeChar
  cases charOfCode? code with
  | some ch => exact .ok rfl h rfl
  | none => exact .fail

theorem lowHalf_walks {c : Cursor} (h : In text c) (start high : Nat) :
    Walks text (Json.lowHalf start high c) (lowHalf text start high c.offset) := by
  rw [lowHalf, lift_bind h.bytesFrom_eq, isPrefixOf_utf8Bytes]
  unfold Json.lowHalf
  split
  · next o rest =>
    have hrest : In text ⟨o + 2, rest⟩ := h.passes (s := ['\\', 'u']) ⟨rfl, rfl⟩
    rw [if_pos (by rfl)]
    refine (hexCode_walks hrest).bind ?_
    rintro ⟨low, next, hlt⟩ - hnext
    dsimp only
    split
    · exact codeChar_walks hnext _
    · exact .fail
  · next hescape =>
    have hnot : ¬ (['\\', 'u'].isPrefixOf c.rest = true) := by
      intro hprefix
      obtain ⟨rest, hrest⟩ := List.isPrefixOf_iff_prefix.1 hprefix
      exact hescape c.offset rest (congrArg (Cursor.mk c.offset) hrest.symm)
    rw [if_neg hnot]
    exact .fail

theorem unicodeEscape_walks {c : Cursor} (h : In text c) (start : Nat) :
    Walks text (Json.unicodeEscape start c) (unicodeEscape text start c.offset) := by
  unfold Json.unicodeEscape unicodeEscape
  refine (hexCode_walks h).bind ?_
  rintro ⟨code, next, hlt⟩ - hnext
  dsimp only
  split
  · refine (lowHalf_walks hnext start code).andThen ?_
    rintro ⟨ch, last, hlt'⟩
    exact ⟨_, rfl, rfl, rfl⟩
  · exact codeChar_walks hnext hlt

/-- The letters behind a backslash are told by their bytes. -/
theorem byteClass_escape (ch : Char) :
    ByteClass (fun b => simpleEscape? (Char.ofNat b.toNat) == some ch)
      (fun x => simpleEscape? x == some ch) := by
  have hshort : ∀ x : Char, 0x80 ≤ x.toNat → (simpleEscape? x == some ch) = false := by
    intro x hx
    rw [beq_eq_false_iff_ne]
    intro hsome
    have htable : ∀ y ∈ escapeTable, y.1.toNat < 0x80 := by decide
    exact absurd (htable _ (simpleEscape?_eq_some_iff.1 hsome)) (Nat.not_lt_of_le hx)
  refine ⟨fun x hx => ?_, hshort, fun b hb => ?_⟩
  · rw [toNat_ofNat_short hx, Char.ofNat_toNat]
  · have hvalid : b.toNat.isValidChar := .inl (by have := b.toNat_lt; omega)
    refine hshort _ ?_
    rw [toNat_ofNat hvalid]
    exact hb

theorem escape_walks {start : Nat} {rest : List Char} (h : In text ⟨start + 1, rest⟩) :
    Walks text (Json.escape start ⟨start + 1, rest⟩) (escape text (start + 1)) := by
  unfold escape
  cases rest with
  | nil =>
    rw [h.byteAt_nil]
    exact .fail
  | cons x rest =>
    obtain ⟨b, hbyte, hb⟩ := h.byteAt_cons
    have hletter : simpleEscape? (Char.ofNat b.toNat) = simpleEscape? x := by
      refine Option.ext fun ch => ?_
      rw [← beq_iff_eq, ← beq_iff_eq (a := simpleEscape? x)]
      exact Bool.eq_iff_iff.1 (hb (byteClass_escape ch))
    rw [hbyte]
    dsimp only
    rw [hb (.single (by decide : 'u'.toNat < 0x80)), hletter]
    by_cases hx : x = 'u'
    · subst hx
      have hrest : In text ⟨start + 1 + 1, rest⟩ := h.byte rfl
      rw [if_pos (by rfl), Json.escape]
      refine (unicodeEscape_walks hrest start).andThen ?_
      rintro ⟨ch, next, hlt⟩
      exact ⟨_, rfl, rfl, rfl⟩
    · rw [if_neg (by simpa using hx), Json.escape]
      · cases hsimple : simpleEscape? x with
        | some ch =>
          have hsize : x.utf8Size = 1 := (byteClass_escape ch).utf8Size (by simp [hsimple])
          exact .ok rfl (h.byte hsize) rfl
        | none => exact .fail
      · exact hx

/-! ### Strings -/

theorem stringBody_plain_cons {opening o : Nat} {x : Char} {rest : List Char}
    (hx : endsRun x = false) (hcontrol : ¬ x.toNat < 0x20) :
    stringBody opening ⟨o, x :: rest⟩
      = stringBody opening ⟨o + x.utf8Size, rest⟩ >>= fun r =>
        .ok ⟨x :: r.value, r.next, Nat.lt_succ_of_lt r.shorter⟩ := by
  simp only [endsRun, Bool.or_eq_false_iff, beq_eq_false_iff_ne] at hx
  rw [stringBody, if_neg hcontrol]
  · rfl
  · exact hx.1
  · exact hx.2

theorem stringBody_control_cons {opening o : Nat} {x : Char} {rest : List Char}
    (hx : endsRun x = false) (hcontrol : x.toNat < 0x20) :
    stringBody opening ⟨o, x :: rest⟩ = .error (controlFault opening o rest) := by
  simp only [endsRun, Bool.or_eq_false_iff, beq_eq_false_iff_ne] at hx
  rw [stringBody, if_pos hcontrol]
  · exact hx.1
  · exact hx.2

/-- A string that no quote and no backslash follows is not terminated. -/
theorem stringBody_unterminated {opening : Nat} {c : Cursor} (h : ∀ x ∈ c.rest, endsRun x = false) :
    stringBody opening c = .error (.malformed opening .unterminatedString) := by
  obtain ⟨o, rest⟩ := c
  induction rest generalizing o with
  | nil => rw [stringBody]
  | cons x rest ih =>
    obtain ⟨hx, hrest⟩ := List.forall_mem_cons.1 h
    by_cases hcontrol : x.toNat < 0x20
    · have hnone : ¬ (rest.any endsRun = true) := by simpa using hrest
      rw [stringBody_control_cons hx hcontrol, controlFault, if_neg hnone]
    · rw [stringBody_plain_cons hx hcontrol, ih _ hrest]
      rfl

/-- The first control character of a run is reported, if the run has an end. -/
theorem stringBody_control {opening o : Nat} {s rest : List Char} {x : Char}
    (hs : ∀ y ∈ s, endsRun y = false) (hplain : ∀ y ∈ s, ¬ y.toNat < 0x20)
    (hx : endsRun x = false) (hcontrol : x.toNat < 0x20) (hrest : rest.any endsRun = true) :
    stringBody opening ⟨o, s ++ x :: rest⟩
      = .error (.malformed (o + byteLength s) .rawControl) := by
  induction s generalizing o with
  | nil =>
    rw [List.nil_append, stringBody_control_cons hx hcontrol, controlFault, if_pos hrest]
    rfl
  | cons y s ih =>
    obtain ⟨hy, hs⟩ := List.forall_mem_cons.1 hs
    obtain ⟨hy', hplain⟩ := List.forall_mem_cons.1 hplain
    rw [List.cons_append, stringBody_plain_cons hy hy', ih hs hplain, byteLength_cons,
      Nat.add_assoc]
    rfl

/-- A run of plain characters is passed character by character, or copied as a whole. -/
theorem Follows.run {opening o : Nat} {s rest out : List Char} {y : Reader (List Char × Nat)}
    (hs : ∀ x ∈ s, endsRun x = false) (hplain : ∀ x ∈ s, ¬ x.toNat < 0x20)
    (h : Follows text (·.next) (fun r => (out ++ s ++ r.value, r.next.offset))
      (stringBody opening ⟨o + byteLength s, rest⟩) y) :
    Follows text (·.next) (fun r => (out ++ r.value, r.next.offset))
      (stringBody opening ⟨o, s ++ rest⟩) y := by
  induction s generalizing o out with
  | nil => simpa using h
  | cons x s ih =>
    obtain ⟨hx, hs⟩ := List.forall_mem_cons.1 hs
    obtain ⟨hx', hplain⟩ := List.forall_mem_cons.1 hplain
    rw [List.cons_append, stringBody_plain_cons hx hx']
    rw [byteLength_cons, ← Nat.add_assoc, List.append_cons] at h
    refine Follows.andThen (ih hs hplain h) ?_
    intro r
    exact ⟨_, rfl, rfl, by simp⟩

theorem byteClass_control : ByteClass isControlByte (fun x => decide (x.toNat < 0x20)) where
  short x hx := by rw [isControlByte, toNat_ofNat_short hx]
  long x hx := by
    rw [decide_eq_false_iff_not]
    omega
  high b hb := by
    rw [isControlByte, decide_eq_false_iff_not]
    omega

/-- A control character in a run of a string is found among the bytes of the run, and is the fault
    of the string. -/
theorem findIdx?_control {opening o : Nat} {s tail : List Char} {x y : Char}
    (hs : ∀ y ∈ s, endsRun y = false) (hx : endsRun x = true)
    (hfound : s.find? (fun y => decide (y.toNat < 0x20)) = some y) :
    ∃ i, (utf8Bytes s).findIdx? isControlByte = some i
      ∧ stringBody opening ⟨o, s ++ x :: tail⟩ = .error (.malformed (o + i) .rawControl) := by
  obtain ⟨hy, s₁, s₂, rfl, hs₁⟩ := List.find?_eq_some_iff_append.1 hfound
  have hplain : ∀ y ∈ s₁, decide (y.toNat < 0x20) = false := by simpa using hs₁
  obtain ⟨hrun, hrun'⟩ := List.forall_mem_append.1 hs
  have hindex := @ByteClass.findIdx?_append _ _ byteClass_control [] (by simp) s₁ s₂ y hplain hy
  rw [List.nil_append, List.length_nil, Nat.zero_add] at hindex
  refine ⟨byteLength s₁, hindex, ?_⟩
  rw [List.append_assoc, List.cons_append]
  apply stringBody_control hrun
  · simpa using hplain
  · exact (List.forall_mem_cons.1 hrun').1
  · simpa using hy
  · simp [hx]

/-- A string is read run by run. -/
theorem stringLoop_follows {c : Cursor} (h : In text c) (opening : Nat) (out : List Char) :
    Follows text (·.next) (fun r => (out ++ r.value, r.next.offset)) (stringBody opening c)
      (stringLoop text opening c.offset out) := by
  induction hlength : c.rest.length using Nat.strongRecOn generalizing c out with
  | ind n ih =>
    obtain ⟨o, rest⟩ := c
    dsimp only at hlength
    rw [stringLoop]
    rcases h.near.find_cases byteClass_endsRun with
      ⟨hfind, hnone⟩ | ⟨s, x, tail, hrest, hs, hx, hfind⟩
    · rw [lift_bind hfind, stringBody_unterminated hnone]
      exact .fail
    · dsimp only at hrest hfind
      subst hrest
      have hpass : Cursor.Passes ⟨o, s ++ x :: tail⟩ s ⟨o + byteLength s, x :: tail⟩ := ⟨rfl, rfl⟩
      have hmark : In text ⟨o + byteLength s, x :: tail⟩ := h.passes hpass
      have hbytes : bytesBetween text o (o + byteLength s) = some (utf8Bytes s) :=
        h.bytesBetween_eq hpass
      have hchars : charsBetween text o (o + byteLength s) = some s := h.charsBetween_eq hpass
      obtain ⟨b, hbyte, hb⟩ := hmark.byteAt_cons
      rw [lift_bind hfind]
      dsimp only
      rw [lift_bind hbytes]
      cases hfound : s.find? fun y => decide (y.toNat < 0x20) with
      | some y =>
        obtain ⟨i, hindex, herror⟩ := findIdx?_control hs hx hfound
        rw [hindex, herror]
        exact .fail
      | none =>
        have hplain : ∀ y ∈ s, decide (y.toNat < 0x20) = false := by simpa using hfound
        have hindex := @ByteClass.findIdx?_eq_none _ _ byteClass_control [] (by simp) s hplain
        rw [List.nil_append] at hindex
        rw [hindex]
        dsimp only
        rw [lift_bind hchars, lift_bind hbyte]
        refine .run hs (by simpa using hplain) ?_
        rw [hb (.single (by decide : '"'.toNat < 0x80))]
        rcases Bool.or_eq_true_iff.1 hx with hx | hx
        · obtain rfl := beq_iff_eq.1 hx
          rw [stringBody]
          refine .ok rfl (hmark.byte rfl) ?_
          simp [Reading.head]
        · obtain rfl := beq_iff_eq.1 hx
          have hescape : In text ⟨o + byteLength s + 1, tail⟩ := hmark.byte rfl
          rw [stringBody, if_neg (by decide)]
          refine (escape_walks hescape).bind ?_
          rintro ⟨ch, next, hlt⟩ - hnext
          dsimp only at hlt ⊢
          refine Follows.andThen (ih next.rest.length ?_ hnext (out ++ s ++ [ch]) rfl) ?_
          · simp only [← hlength, List.length_append, List.length_cons]
            omega
          · rintro ⟨cs, last, hlt'⟩
            exact ⟨_, rfl, rfl, by simp⟩

theorem string_walks {opening : Nat} {rest : List Char} (h : In text ⟨opening, '"' :: rest⟩) :
    Walks text (stringBody opening ⟨opening + 1, rest⟩) (string text opening) := by
  have hbody : In text ⟨opening + 1, rest⟩ := h.byte rfl
  have hfollows := stringLoop_follows hbody opening []
  simp only [List.nil_append] at hfollows
  exact hfollows

/-! ### Scalars -/

theorem scalar_walks {c : Cursor} (h : In text c) (value? : Numeral → Option Number) :
    Walks text (Json.scalar value? c) (scalar text value? c.offset) := by
  have hnumber : ByteClass (fun b => isByte '-' b || isDigitByte b)
      (fun x => x == '-' || isDigit x) := (ByteClass.single (by decide)).or byteClass_digit
  have hsingle : ∀ y : Char, y.toNat < 0x80 → ByteClass (isByte y) (· == y) := by
    intro y hy
    exact .single hy
  unfold scalar Json.scalar
  split
  · next o rest =>
    rw [h.sees_cons (hsingle '"' (by decide)), if_pos (by rfl)]
    refine (string_walks h).bind ?_
    rintro ⟨cs, next, hlt⟩ - hnext
    exact .ok rfl hnext rfl
  · next o rest =>
    rw [h.sees_cons (hsingle '"' (by decide)), h.sees_cons (hsingle 't' (by decide))]
    exact word_walks h _ (by decide)
  · next o rest =>
    rw [h.sees_cons (hsingle '"' (by decide)), h.sees_cons (hsingle 't' (by decide)),
      h.sees_cons (hsingle 'f' (by decide))]
    exact word_walks h _ (by decide)
  · next o rest =>
    rw [h.sees_cons (hsingle '"' (by decide)), h.sees_cons (hsingle 't' (by decide)),
      h.sees_cons (hsingle 'f' (by decide)), h.sees_cons (hsingle 'n' (by decide))]
    exact word_walks h _ (by decide)
  · next o x rest hquote ht hf hn =>
    simp only [h.sees_cons (hsingle '"' (by decide)), h.sees_cons (hsingle 't' (by decide)),
      h.sees_cons (hsingle 'f' (by decide)), h.sees_cons (hsingle 'n' (by decide)),
      h.sees_cons hnumber, Bool.or_eq_true, beq_iff_eq]
    rw [if_neg hquote, if_neg ht, if_neg hf, if_neg hn]
    split
    · refine (number_walks h value?).bind ?_
      rintro ⟨n, next, hlt⟩ - hnext
      exact .ok rfl hnext rfl
    · exact .unexpected h _
  · next hquote ht hf hn hother =>
    -- nothing is left but the end of the text
    obtain ⟨o, rest⟩ := c
    cases rest with
    | nil =>
      simp only [h.sees_nil (hsingle '"' (by decide)), h.sees_nil (hsingle 't' (by decide)),
        h.sees_nil (hsingle 'f' (by decide)), h.sees_nil (hsingle 'n' (by decide)),
        h.sees_nil hnumber]
      exact .unexpected h _
    | cons x rest => exact absurd rfl (hother o x rest)

end

end BimEditor.Bytes
