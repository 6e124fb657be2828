/-
  BimEditor.Proofs.Json.FaultPlace

  Where the readers of tokens fail. A fault lies behind a piece of text in which no bracket opens:
  at the token, behind some of the digits of a number, or in a string behind characters that do not
  end it (`Plain`). The readers of values are put together from these.
-/
import BimEditor.Proofs.Json.Reading
import BimEditor.Proofs.Scan.Openings

namespace BimEditor.Json

open BimEditor.Numeric BimEditor.Text BimEditor.Scan

variable {α β : Type} {p q : Spot} {depth : Nat}

/-! ## Where faults lie -/

/-- The fault lies behind the spot, and the brackets `xs` open between the two. -/
def Fault.LiesBehind (p : Spot) (xs : List Opening) (e : Fault) : Prop :=
  ∃ s rest, p.place.rest = s ++ rest ∧ e.offset? = some (p.place.offset + byteLength s)
    ∧ openingsFrom p.depth ⟨p.place.offset, s⟩ = xs

namespace Fault.LiesBehind

theorem here {e : Fault} (h : e.offset? = some p.place.offset) : e.LiesBehind p [] :=
  ⟨[], p.place.rest, rfl, h, openingsFrom_nil⟩

theorem after {e : Fault} {s : List Char} {xs ys : List Opening} (he : e.LiesBehind q ys)
    (h : p.Opens s xs q) : e.LiesBehind p (xs ++ ys) := by
  obtain ⟨t, rest, hrest, hoffset, rfl⟩ := he
  refine ⟨s ++ t, rest, ?_, ?_, h.opens t⟩
  · rw [h.passes.1, hrest, List.append_assoc]
  · rw [hoffset, h.passes.2, byteLength_append, Nat.add_assoc]

end Fault.LiesBehind

/-! ## Readers that open no bracket -/

/-- From `p` the reader passes a piece that opens no bracket, or fails behind one. -/
def Plain (p : Spot) (dest : α → Spot) (x : Except Fault α) : Prop :=
  Ensures (fun a => ∃ s, p.Opens s [] (dest a)) (Fault.LiesBehind p []) x

namespace Plain

variable {x : Except Fault α} {f : α → Except Fault β} {dest : α → Spot} {dest' : β → Spot}

/-- What a reader passes is known already; where it fails is left to say. -/
theorem of_ensures {good : α → Prop} {bad : Fault → Prop} (h : Ensures good bad x)
    (hgood : ∀ a, good a → ∃ s, p.Opens s [] (dest a))
    (hbad : ∀ e, x = .error e → e.LiesBehind p []) : Plain p dest x := by
  cases h with
  | ok h => exact .ok (hgood _ h)
  | error _ => exact .error (hbad _ rfl)

theorem after {s : List Char} (h : p.Opens s [] q) (hx : Plain q dest x) : Plain p dest x := by
  refine Ensures.mono hx ?_ fun e he => he.after h
  rintro a ⟨t, ht⟩
  exact ⟨s ++ t, h.trans ht⟩

theorem bind (h : Plain p dest x) (hf : ∀ a, Plain (dest a) dest' (f a)) :
    Plain p dest' (x >>= f) := by
  cases h with
  | ok h =>
    obtain ⟨s, hs⟩ := h
    exact (hf _).after hs
  | error he => exact .error he

end Plain

/-! ### Numbers and words -/

theorem someDigits_plain (expected : Expected) (c : Cursor) :
    Plain ⟨depth, c⟩ (fun r => ⟨depth, r.next⟩) (someDigits expected c) := by
  refine .of_ensures (someDigits_ensures expected c) ?_ ?_
  · rintro r ⟨hpass, hds⟩
    exact ⟨_, .unmarked hpass (unmarked_digits hds.2)⟩
  · intro e he
    unfold someDigits at he
    split at he
    · split at he
      · cases he
      · cases he
        exact .here rfl
    · cases he
      exact .here rfl

theorem wholeDigits_plain (c : Cursor) :
    Plain ⟨depth, c⟩ (fun r => ⟨depth, r.next⟩) (wholeDigits c) := by
  unfold wholeDigits
  split
  · exact .ok ⟨['0'], .unmarked ((Cursor.Passes.refl _).byte rfl) (by decide)⟩
  · exact someDigits_plain .digit c

theorem fraction?_plain (c : Cursor) :
    Plain ⟨depth, c⟩ (fun r => ⟨depth, r.2⟩) (fraction? c) := by
  unfold fraction?
  split
  · next here rest =>
    have hpoint : Spot.Opens ⟨depth, ⟨here, '.' :: rest⟩⟩ ['.'] [] ⟨depth, ⟨here + 1, rest⟩⟩ :=
      .unmarked ((Cursor.Passes.refl _).byte rfl) (by decide)
    refine .after hpoint ((someDigits_plain .fractionDigit _).bind ?_)
    intro r
    exact .ok ⟨[], .refl _⟩
  · exact .ok ⟨[], .refl _⟩

theorem ExponentSign.unmarked {s : List Char} {negative : Bool} (h : ExponentSign s negative) :
    Unmarked s := by
  cases h <;> decide

theorem exponentBody_plain (c : Cursor) :
    Plain ⟨depth, c⟩ (fun r => ⟨depth, r.2⟩) (exponentBody c) := by
  obtain ⟨s, hsign, hs⟩ := exponentSign_passes c
  unfold exponentBody
  split
  next negative start h heq =>
  rw [heq] at hsign
  refine .after (.unmarked hsign hs.unmarked) ((someDigits_plain .exponentDigit start).bind ?_)
  intro r
  exact .ok ⟨[], .refl _⟩

theorem exponent?_plain (c : Cursor) :
    Plain ⟨depth, c⟩ (fun r => ⟨depth, r.2⟩) (exponent? c) := by
  have hbody : ∀ {x : Char} {here : Nat} {rest : List Char} {dest : _ → Spot}
      {f : _ → Except Fault (Option (Bool × List Char) × Advance ⟨here, x :: rest⟩)},
      isMark x = false → x.utf8Size = 1 → (∀ r, Plain ⟨depth, r.2⟩ dest (f r)) →
      Plain ⟨depth, ⟨here, x :: rest⟩⟩ dest (exponentBody ⟨here + 1, rest⟩ >>= f) := by
    intro x here rest dest f hmark hsize hf
    have hletter : Spot.Opens ⟨depth, ⟨here, x :: rest⟩⟩ [x] [] ⟨depth, ⟨here + 1, rest⟩⟩ :=
      .unmarked ((Cursor.Passes.refl _).byte hsize) (.cons hmark (by decide))
    exact .after hletter ((exponentBody_plain _).bind hf)
  unfold exponent?
  split
  · exact hbody rfl rfl fun r => .ok ⟨[], .refl _⟩
  · exact hbody rfl rfl fun r => .ok ⟨[], .refl _⟩
  · exact .ok ⟨[], .refl _⟩

theorem numeral_plain (c : Cursor) :
    Plain ⟨depth, c⟩ (fun r => ⟨depth, r.next⟩) (numeral c) := by
  have hsign := sign_passes c
  have hminus : ∀ negative, Unmarked (minusSign negative) := by decide
  unfold numeral
  split
  next negative afterSign h heq =>
  rw [heq] at hsign
  refine .after (.unmarked hsign (hminus _)) ((wholeDigits_plain afterSign).bind ?_)
  rintro ⟨whole, afterWhole, h₂⟩
  refine (fraction?_plain afterWhole).bind ?_
  rintro ⟨fraction, afterFraction, h₃⟩
  refine (exponent?_plain afterFraction).bind ?_
  rintro ⟨exponent, next, h₄⟩
  exact .ok ⟨[], .refl _⟩

/-- A number beyond the format is reported where it starts, behind nothing. -/
theorem number_plain (value? : Numeral → Option Number) (c : Cursor) :
    Plain ⟨depth, c⟩ (fun r => ⟨depth, r.next⟩) (number value? c) := by
  have hnumeral := @numeral_plain depth c
  unfold number
  cases hx : numeral c with
  | error e =>
    rw [hx] at hnumeral
    exact .error hnumeral.of_error
  | ok r =>
    rw [hx] at hnumeral
    obtain ⟨s, hs⟩ := hnumeral.of_ok
    rw [ok_bind]
    dsimp only
    split
    · exact .ok ⟨s, hs⟩
    · exact .error (.here rfl)

theorem word_plain (spelling : String) (meaning : Scalar) (c : Cursor)
    (hspelling : Unmarked spelling.toList) :
    Plain ⟨depth, c⟩ (fun r => ⟨depth, r.next⟩) (word spelling meaning c) := by
  refine .of_ensures (word_ensures spelling meaning c) ?_ ?_
  · rintro r ⟨hpass, -⟩
    exact ⟨_, .unmarked hpass hspelling⟩
  · intro e he
    unfold word at he
    dsimp only at he
    split at he
    · cases he
    · cases he
      exact .here rfl

/-! ### Strings -/

/-- The fault lies at `start`, or behind something that may stand between two quotes. -/
def Fault.InString (start : Nat) (c : Cursor) (e : Fault) : Prop :=
  e.offset? = some start ∨ ∃ k rest, c.rest = k ++ rest ∧ Quoted k
    ∧ e.offset? = some (c.offset + byteLength k)

theorem Fault.InString.after {e : Fault} {start : Nat} {c d : Cursor} {k : List Char}
    (h : e.InString start d) (hpass : c.Passes k d) (hk : Quoted k) : e.InString start c := by
  rcases h with h | ⟨t, rest, hrest, ht, hoffset⟩
  · exact .inl h
  · refine .inr ⟨k ++ t, rest, ?_, hk.append ht, ?_⟩
    · rw [hpass.1, hrest, List.append_assoc]
    · rw [hoffset, hpass.2, byteLength_append, Nat.add_assoc]

theorem hexCode_error {c : Cursor} {e : Fault} (h : hexCode c = .error e) :
    e.offset? = some c.offset := by
  unfold hexCode at h
  split at h
  · split at h
    · cases h
    · cases h
      rfl
  · cases h
    rfl

theorem codeChar_error {start code : Nat} {e : Fault} (h : codeChar start code = .error e) :
    e.offset? = some start := by
  unfold codeChar at h
  split at h
  · cases h
  · cases h
    rfl

/-- The step may be followed by what its result allows, and its faults are those given. -/
theorem Ensures.faulting {good : α → Prop} {bad bad' : Fault → Prop} {x : Except Fault α}
    (h : Ensures good bad x) (hbad : ∀ e, x = .error e → bad' e) : Ensures good bad' x := by
  cases h with
  | ok h => exact .ok h
  | error _ => exact .error (hbad _ rfl)

theorem lowHalf_faults (start high : Nat) (c : Cursor) :
    Ensures (fun _ => True) (Fault.InString start c) (lowHalf start high c) := by
  unfold lowHalf
  split
  · next here rest =>
    -- digits that are missing are missed behind the second `\u`
    refine Ensures.bind ((hexCode_ensures _).faulting fun e he => ?_) ?_
    · exact .inr ⟨['\\', 'u'], rest, rfl, .hidden .nil, hexCode_error he⟩
    · rintro ⟨low, next, h⟩ -
      dsimp only
      split
      · refine Ensures.bind ((codeChar_ensures start _).faulting fun e he => ?_) ?_
        · exact .inl (codeChar_error he)
        · exact fun _ _ => .ok trivial
      · exact .error (.inl rfl)
  · exact .error (.inl rfl)

theorem unicodeEscape_faults (start : Nat) (c : Cursor) :
    Ensures (fun _ => True) (Fault.InString start c) (unicodeEscape start c) := by
  unfold unicodeEscape
  refine Ensures.bind ((hexCode_ensures c).faulting fun e he => ?_) ?_
  · exact .inr ⟨[], c.rest, rfl, .nil, hexCode_error he⟩
  · rintro ⟨code, next, h⟩ ⟨s, hpass, hcode⟩
    dsimp only
    split
    · have hlow := (lowHalf_faults start code next).mono (fun _ h => h)
        fun e he => he.after hpass hcode.quoted
      exact hlow.bind fun _ _ => .ok trivial
    · refine Ensures.bind ((codeChar_ensures start code).faulting fun e he => ?_) ?_
      · exact .inl (codeChar_error he)
      · exact fun _ _ => .ok trivial

/-- The faults of an escape lie at its backslash or behind one of its `\u`. -/
theorem escape_faults (here : Nat) (rest : List Char) :
    Ensures (fun _ => True) (Fault.InString here ⟨here, '\\' :: rest⟩)
      (escape here ⟨here + 1, rest⟩) := by
  cases rest with
  | nil => exact .error (.inl rfl)
  | cons x rest =>
    by_cases hx : x = 'u'
    · subst hx
      rw [escape]
      refine Ensures.bind ((unicodeEscape_faults here _).mono (fun _ h => h) fun e he => ?_) ?_
      · have hpass : Cursor.Passes ⟨here, '\\' :: 'u' :: rest⟩ ['\\', 'u'] ⟨here + 1 + 1, rest⟩ :=
          ⟨rfl, rfl⟩
        exact he.after hpass (.hidden .nil)
      · exact fun _ _ => .ok trivial
    · rw [escape]
      · split
        · exact .ok trivial
        · exact .error (.inl rfl)
      · exact hx

theorem Fault.InString.weaken {e : Fault} {start : Nat} {c : Cursor} (h : e.InString c.offset c) :
    e.InString start c := by
  rcases h with h | h
  · exact .inr ⟨[], c.rest, rfl, .nil, h⟩
  · exact .inr h

/-- A fault in a string lies at its opening quote or behind characters that do not end it. -/
theorem stringBody_faults (opening : Nat) (c : Cursor) :
    Ensures (fun _ => True) (Fault.InString opening c) (stringBody opening c) := by
  induction c using stringBody.induct with
  | case1 o =>
    rw [stringBody]
    exact .error (.inl rfl)
  | case2 o rest =>
    rw [stringBody]
    exact .ok trivial
  | case3 here rest ih =>
    rw [stringBody]
    refine Ensures.bind ((escape_ensures here _).faulting fun e he => ?_) ?_
    · have hescape := escape_faults here rest
      rw [he] at hescape
      exact hescape.of_error.weaken
    · rintro ⟨ch, next, h⟩ ⟨s, hpass, hchar⟩
      have hescape : Cursor.Passes ⟨here, '\\' :: rest⟩ ('\\' :: s) next := hpass.byte rfl
      have htail := (ih next h).mono (fun _ h => h) fun e he => he.after hescape hchar.quoted
      exact htail.bind fun _ _ => .ok trivial
  | case4 here ch rest hquote hslash hlow =>
    rw [stringBody, if_pos hlow]
    · unfold controlFault
      split
      · exact .error (.inr ⟨[], _, rfl, .nil, rfl⟩)
      · exact .error (.inl rfl)
    · exact hquote
    · exact hslash
  | case5 here ch rest hquote hslash hlow ih =>
    rw [stringBody, if_neg hlow]
    · have hchar : Cursor.Passes ⟨here, ch :: rest⟩ [ch] ⟨here + ch.utf8Size, rest⟩ :=
        (Cursor.Passes.refl _).cons
      have htail := ih.mono (fun _ h => h) fun e he => he.after hchar (.plain hquote hslash .nil)
      exact htail.bind fun _ _ => .ok trivial
    · exact hquote
    · exact hslash

theorem stringBody_plain (here : Nat) (rest : List Char) :
    Plain ⟨depth, ⟨here, '"' :: rest⟩⟩ (fun r => ⟨depth, r.next⟩)
      (stringBody here ⟨here + 1, rest⟩) := by
  refine .of_ensures (stringBody_ensures here _) ?_ ?_
  · rintro r ⟨s, hpass, hcs⟩
    exact ⟨_, .string (hpass.byte rfl) hcs.quoted⟩
  · intro e he
    have hfault := stringBody_faults here ⟨here + 1, rest⟩
    rw [he] at hfault
    rcases hfault.of_error with h | ⟨k, after, hrest, hk, h⟩
    · exact .here h
    · refine ⟨'"' :: k, after, congrArg ('"' :: ·) hrest, ?_, openingsFrom_brokenString hk⟩
      rw [h, byteLength_cons, ← Nat.add_assoc]
      rfl

/-! ### Scalars and punctuation -/

theorem scalar_plain (value? : Numeral → Option Number) (c : Cursor) :
    Plain ⟨depth, c⟩ (fun r => ⟨depth, r.next⟩) (scalar value? c) := by
  unfold scalar
  split
  · next here rest =>
    refine (stringBody_plain here rest).bind ?_
    intro body
    exact .ok ⟨[], .refl _⟩
  · exact word_plain "true" _ _ (by decide)
  · exact word_plain "false" _ _ (by decide)
  · exact word_plain "null" _ _ (by decide)
  · split
    · refine (number_plain value? _).bind ?_
      rintro ⟨n, next, h⟩
      exact .ok ⟨[], .refl _⟩
    · exact .error (.here rfl)
  · exact .error (.here rfl)

theorem colon_plain (c : Cursor) :
    Plain ⟨depth, c⟩ (fun r => ⟨depth, r.next⟩) (colon c) := by
  unfold colon
  split
  · exact .ok ⟨[':'], .unmarked ((Cursor.Passes.refl _).byte rfl) (by decide)⟩
  · exact .error (.here rfl)

/-- A comma leaves the depth as it is, the closing brace ends one level. -/
theorem memberEnd_plain (c : Cursor) :
    Plain ⟨depth, c⟩ (fun r => ⟨if r.value then depth else depth - 1, r.next⟩) (memberEnd c) := by
  unfold memberEnd
  split
  · exact .ok ⟨[','], .comma ((Cursor.Passes.refl _).byte rfl)⟩
  · exact .ok ⟨['}'], .closing ((Cursor.Passes.refl _).byte rfl) (.inl rfl)⟩
  · exact .error (.here rfl)

theorem itemEnd_plain (c : Cursor) :
    Plain ⟨depth, c⟩ (fun r => ⟨if r.value then depth else depth - 1, r.next⟩) (itemEnd c) := by
  unfold itemEnd
  split
  · exact .ok ⟨[','], .comma ((Cursor.Passes.refl _).byte rfl)⟩
  · exact .ok ⟨[']'], .closing ((Cursor.Passes.refl _).byte rfl) (.inr rfl)⟩
  · exact .error (.here rfl)

theorem opens_skipBlanks (c : Cursor) : ∃ b, Spot.Opens ⟨depth, c⟩ b [] ⟨depth, c.skipBlanks⟩ := by
  obtain ⟨b, hpass, hb⟩ := passes_skipBlanks c
  exact ⟨b, .unmarked hpass hb.unmarked⟩

end BimEditor.Json
