/-
  BimEditor.Proofs.Json.StringText

  The reader of string bodies against the grammar of strings. What it accepts is decoded as the
  grammar says (`stringBody_ensures`), and what the grammar allows it reads to the closing quote and
  not further (`stringBody_yields`).
-/
import BimEditor.Proofs.Json.Grammar
import BimEditor.Proofs.Json.Outcome
import BimEditor.Proofs.Text.Passage

namespace BimEditor.Json

open BimEditor.Numeric BimEditor.Text

/-! ## Codes -/

theorem toNat_ofNat {n : Nat} (h : n.isValidChar) : (Char.ofNat n).toNat = n := by
  rw [Char.ofNat, dif_pos h]
  rfl

theorem char_le_iff {a b : Char} : a ≤ b ↔ a.toNat ≤ b.toNat := by
  rw [Char.le_def, UInt32.le_iff_toNat_le]
  rfl

instance (c : Char) (n : Nat) : Decidable (HexDigit c n) :=
  inferInstanceAs (Decidable (_ ∨ _))

theorem HexDigit.lt {c : Char} {n : Nat} (h : HexDigit c n) : n < 16 := by
  rcases h with h | h
  · exact (List.getElem?_eq_some_iff.1 h).1
  · exact (List.getElem?_eq_some_iff.1 h).1

theorem isHexDigit_lt {c : Char} (h : isHexDigit c = true) : c.toNat < 103 := by
  simp only [isHexDigit, isDigit, Bool.or_eq_true, Bool.and_eq_true, decide_eq_true_eq,
    char_le_iff] at h
  have h9 : '9'.toNat = 57 := rfl
  have hf : 'f'.toNat = 102 := rfl
  have hF : 'F'.toNat = 70 := rfl
  omega

/-- The digits of the grammar are those of the reader. -/
theorem hexDigit_iff {c : Char} {n : Nat} :
    HexDigit c n ↔ isHexDigit c = true ∧ hexDigitValue c = n := by
  constructor
  · intro h
    have hlower : ∀ i < 16, isHexDigit (lowerHexDigits.getD i ' ') = true
        ∧ hexDigitValue (lowerHexDigits.getD i ' ') = i := by decide
    have hupper : ∀ i < 16, isHexDigit (upperHexDigits.getD i ' ') = true
        ∧ hexDigitValue (upperHexDigits.getD i ' ') = i := by decide
    have hn := h.lt
    rcases h with h | h
    · have hc := hlower n hn
      rwa [List.getD_eq_getElem?_getD, h] at hc
    · have hc := hupper n hn
      rwa [List.getD_eq_getElem?_getD, h] at hc
  · rintro ⟨hc, rfl⟩
    -- no digit comes after the last letter of the alphabet that is one
    have hall : ∀ i : Fin 103, isHexDigit (Char.ofNat i) = true →
        HexDigit (Char.ofNat i) (hexDigitValue (Char.ofNat i)) := by decide
    have := hall ⟨c.toNat, isHexDigit_lt hc⟩
    simp only [Char.ofNat_toNat] at this
    exact this hc

theorem ofHexDigits_four (a b c d : Char) :
    ofHexDigits [a, b, c, d]
      = ((hexDigitValue a * 16 + hexDigitValue b) * 16 + hexDigitValue c) * 16
        + hexDigitValue d := by
  simp only [ofHexDigits, List.foldl_cons, List.foldl_nil]
  omega

/-- Four digits and their code, in the terms of the reader. -/
theorem hexCode_iff {s : List Char} {n : Nat} :
    HexCode s n ↔ ∃ a b c d, s = [a, b, c, d] ∧ [a, b, c, d].all isHexDigit = true
      ∧ ofHexDigits [a, b, c, d] = n := by
  constructor
  · rintro ⟨ha, hb, hc, hd⟩
    rw [hexDigit_iff] at ha hb hc hd
    refine ⟨_, _, _, _, rfl, ?_, ?_⟩
    · simp [ha.1, hb.1, hc.1, hd.1]
    · rw [ofHexDigits_four, ha.2, hb.2, hc.2, hd.2]
  · rintro ⟨a, b, c, d, rfl, hall, rfl⟩
    simp only [List.all_cons, List.all_nil, Bool.and_true, Bool.and_eq_true] at hall
    obtain ⟨ha, hb, hc, hd⟩ := hall
    rw [ofHexDigits_four]
    exact .digits (hexDigit_iff.2 ⟨ha, rfl⟩) (hexDigit_iff.2 ⟨hb, rfl⟩) (hexDigit_iff.2 ⟨hc, rfl⟩)
      (hexDigit_iff.2 ⟨hd, rfl⟩)

theorem byteLength_hexCode {s : List Char} {n : Nat} (h : HexCode s n) : byteLength s = 4 := by
  obtain ⟨a, b, c, d, rfl, hall, -⟩ := hexCode_iff.1 h
  have hsize : ∀ x : Char, isHexDigit x = true → x.utf8Size = 1 := by
    intro x hx
    have := isHexDigit_lt hx
    exact utf8Size_of_ascii (by omega)
  simp only [List.all_cons, List.all_nil, Bool.and_true, Bool.and_eq_true] at hall
  obtain ⟨ha, hb, hc, hd⟩ := hall
  simp [hsize a ha, hsize b hb, hsize c hc, hsize d hd]

theorem hexCode_ensures (c : Cursor) :
    Ensures (fun r => ∃ s, c.Passes s r.next ∧ HexCode s r.value) Fault.IsMalformed
      (hexCode c) := by
  unfold hexCode
  split
  · next here a b c d rest =>
    split
    · next hall =>
      have hcode : HexCode [a, b, c, d] (ofHexDigits [a, b, c, d]) :=
        hexCode_iff.2 ⟨a, b, c, d, rfl, hall, rfl⟩
      refine .ok ⟨[a, b, c, d], ⟨rfl, ?_⟩, hcode⟩
      rw [byteLength_hexCode hcode]
    · exact .error trivial
  · exact .error trivial

theorem hexCode_yields {s rest : List Char} {n o : Nat} (h : HexCode s n) :
    Yields (hexCode ⟨o, s ++ rest⟩) n ⟨o + 4, rest⟩ := by
  obtain ⟨a, b, c, d, rfl, hall, rfl⟩ := hexCode_iff.1 h
  refine ⟨by simp; omega, ?_⟩
  simp only [List.cons_append, List.nil_append, hexCode, if_pos hall]

theorem charOfCode?_eq_some_iff {code : Nat} {ch : Char} :
    charOfCode? code = some ch ↔ ch.toNat = code := by
  unfold charOfCode?
  constructor
  · intro h
    split at h
    · next hvalid =>
      obtain rfl := Option.some.inj h
      exact toNat_ofNat hvalid
    · cases h
  · rintro rfl
    have hvalid : ch.toNat.isValidChar := ch.valid
    rw [if_pos hvalid, Char.ofNat_toNat]

theorem codeChar_ensures (start code : Nat) :
    Ensures (fun ch => ch.toNat = code) Fault.IsMalformed (codeChar start code) := by
  unfold codeChar
  split
  · next ch h => exact .ok (charOfCode?_eq_some_iff.1 h)
  · exact .error trivial

theorem codeChar_toNat (start : Nat) (ch : Char) : codeChar start ch.toNat = .ok ch := by
  rw [codeChar, charOfCode?_eq_some_iff.2 rfl]

/-! ## Escapes -/

/-- The table of escapes is that of the reader. -/
theorem simpleEscape?_eq_some_iff {e ch : Char} :
    simpleEscape? e = some ch ↔ (e, ch) ∈ escapeTable := by
  constructor
  · intro h
    unfold simpleEscape? at h
    split at h <;> first | (obtain rfl := Option.some.inj h; decide) | cases h
  · intro h
    simp only [escapeTable, List.mem_cons, Prod.mk.injEq, List.not_mem_nil, or_false] at h
    rcases h with ⟨rfl, rfl⟩ | ⟨rfl, rfl⟩ | ⟨rfl, rfl⟩ | ⟨rfl, rfl⟩ | ⟨rfl, rfl⟩ | ⟨rfl, rfl⟩
      | ⟨rfl, rfl⟩ | ⟨rfl, rfl⟩ <;> rfl

theorem lowHalf_ensures (start high : Nat) (c : Cursor) :
    Ensures (fun r => ∃ ls low, c.Passes ('\\' :: 'u' :: ls) r.next ∧ HexCode ls low
        ∧ isLowSurrogate low = true ∧ r.value.toNat = pairCode high low)
      Fault.IsMalformed (lowHalf start high c) := by
  unfold lowHalf
  split
  · next here rest =>
    refine (hexCode_ensures _).bind ?_
    rintro ⟨low, next, h⟩ ⟨ls, hpass, hcode⟩
    dsimp only
    split
    · next hlow =>
      refine (codeChar_ensures start _).bind ?_
      intro ch hch
      have hu : Cursor.Passes ⟨here + 1, 'u' :: rest⟩ ('u' :: ls) next := hpass.byte rfl
      exact .ok ⟨ls, low, hu.byte rfl, hcode, hlow, hch⟩
    · exact .error trivial
  · exact .error trivial

theorem unicodeEscape_ensures (start : Nat) (c : Cursor) :
    Ensures (fun r => ∃ s, c.Passes s r.next ∧ Character ('\\' :: 'u' :: s) r.value)
      Fault.IsMalformed (unicodeEscape start c) := by
  unfold unicodeEscape
  refine (hexCode_ensures c).bind ?_
  rintro ⟨code, next, h⟩ ⟨hs, hpass, hcode⟩
  dsimp only
  -- the code is the first of a pair, or that of a character
  split
  · next hhigh =>
    refine (lowHalf_ensures start code next).bind ?_
    rintro ⟨ch, last, h'⟩ ⟨ls, low, hpass', hcode', hlow, hch⟩
    simp only [isHighSurrogate, isLowSurrogate, Bool.and_eq_true, decide_eq_true_eq] at hhigh hlow
    exact .ok ⟨_, hpass.trans hpass',
      .pair hcode hhigh.1 hhigh.2 hcode' hlow.1 hlow.2 hch⟩
  · refine (codeChar_ensures start code).bind ?_
    rintro ch rfl
    exact .ok ⟨hs, hpass, .code hcode⟩

theorem escape_ensures (start : Nat) (c : Cursor) :
    Ensures (fun r => ∃ s, c.Passes s r.next ∧ Character ('\\' :: s) r.value)
      Fault.IsMalformed (escape start c) := by
  unfold escape
  split
  · exact .error trivial
  · next here rest =>
    refine (unicodeEscape_ensures start _).bind ?_
    rintro ⟨ch, next, h⟩ ⟨s, hpass, hchar⟩
    exact .ok ⟨_, hpass.byte rfl, hchar⟩
  · next here e rest _ =>
    split
    · next ch hch =>
      have htable := simpleEscape?_eq_some_iff.1 hch
      have hsize : ∀ x ∈ escapeTable, x.1.utf8Size = 1 := by decide
      exact .ok ⟨[e], (Cursor.Passes.refl _).byte (hsize _ htable), .letter htable⟩
    · exact .error trivial

theorem lowHalf_yields {start high low o : Nat} {ls rest : List Char} {ch : Char}
    (h : HexCode ls low) (hlow : isLowSurrogate low = true) (hch : ch.toNat = pairCode high low) :
    Yields (lowHalf start high ⟨o, '\\' :: 'u' :: (ls ++ rest)⟩) ch ⟨o + 6, rest⟩ := by
  rw [lowHalf]
  refine (hexCode_yields h).bind ?_
  intro hlt
  dsimp only
  rw [if_pos hlow, ← hch, codeChar_toNat, ok_bind]
  exact Yields.pure

theorem isHighSurrogate_toNat (ch : Char) : isHighSurrogate ch.toNat = false := by
  have hvalid : ch.toNat.isValidChar := ch.valid
  simp only [isHighSurrogate, Bool.and_eq_false_iff, decide_eq_false_iff_not]
  simp only [Nat.isValidChar] at hvalid
  omega

theorem unicodeEscape_yields_code {start o : Nat} {ds rest : List Char} {ch : Char}
    (h : HexCode ds ch.toNat) :
    Yields (unicodeEscape start ⟨o, ds ++ rest⟩) ch ⟨o + 4, rest⟩ := by
  rw [unicodeEscape]
  refine (hexCode_yields h).bind ?_
  intro hlt
  dsimp only
  rw [isHighSurrogate_toNat, if_neg Bool.false_ne_true, codeChar_toNat, ok_bind]
  exact Yields.pure

theorem unicodeEscape_yields_pair {start o high low : Nat} {hs ls rest : List Char} {ch : Char}
    (h : HexCode hs high) (hhigh : isHighSurrogate high = true) (h' : HexCode ls low)
    (hlow : isLowSurrogate low = true) (hch : ch.toNat = pairCode high low) :
    Yields (unicodeEscape start ⟨o, hs ++ '\\' :: 'u' :: (ls ++ rest)⟩) ch ⟨o + 10, rest⟩ := by
  rw [unicodeEscape]
  refine (hexCode_yields h).bind ?_
  intro hlt
  dsimp only
  rw [if_pos hhigh]
  refine (lowHalf_yields h' hlow hch).bind ?_
  intro hlt'
  exact Yields.pure

/-- Every escape of the grammar is read, and nothing behind it. -/
theorem escape_yields {start o : Nat} {s rest : List Char} {ch : Char}
    (h : Character ('\\' :: s) ch) :
    Yields (escape start ⟨o, s ++ rest⟩) ch ⟨o + byteLength s, rest⟩ := by
  cases h with
  | plain _ _ hne => exact absurd rfl hne
  | @letter e _ htable =>
    have hch := simpleEscape?_eq_some_iff.2 htable
    have hletters : ∀ x ∈ escapeTable, x.1.utf8Size = 1 ∧ x.1 ≠ 'u' := by decide
    obtain ⟨hsize, hu⟩ := hletters _ htable
    have hlen : byteLength [e] = 1 := by simpa using hsize
    rw [List.singleton_append, escape, hch, hlen]
    · exact ⟨_, rfl⟩
    · exact hu
  | @code ds _ hcode =>
    have hlen : byteLength ('u' :: ds) = 5 := by simp [byteLength_hexCode hcode]
    rw [List.cons_append, escape, hlen]
    refine (unicodeEscape_yields_code hcode).bind ?_
    intro hlt
    exact Yields.pure
  | @pair hs ls high low _ hcode hhigh hhigh' hcode' hlow hlow' hch =>
    have hlen : byteLength ('u' :: (hs ++ '\\' :: 'u' :: ls)) = 11 := by
      simp [byteLength_hexCode hcode, byteLength_hexCode hcode']
    rw [List.cons_append, List.append_assoc, List.cons_append, List.cons_append, escape, hlen]
    refine (unicodeEscape_yields_pair hcode ?_ hcode' ?_ hch).bind ?_
    · simp [isHighSurrogate, hhigh, hhigh']
    · simp [isLowSurrogate, hlow, hlow']
    · intro hlt
      exact Yields.pure

/-! ## String bodies -/

/-- What the reader accepts up to the closing quote is decoded as the grammar says. -/
theorem stringBody_ensures (opening : Nat) (c : Cursor) :
    Ensures (fun r => ∃ s, c.Passes (s ++ ['"']) r.next ∧ Characters s r.value)
      Fault.IsMalformed (stringBody opening c) := by
  -- the text ends, the string ends, an escape, a control character, any other character
  induction c using stringBody.induct with
  | case1 o =>
    rw [stringBody]
    exact .error trivial
  | case2 o rest =>
    rw [stringBody]
    exact .ok ⟨[], (Cursor.Passes.refl _).byte rfl, .nil⟩
  | case3 here rest ih =>
    rw [stringBody]
    refine (escape_ensures here _).bind ?_
    rintro ⟨ch, next, h⟩ ⟨s, hpass, hchar⟩
    refine (ih next h).bind ?_
    rintro ⟨tail, last, h'⟩ ⟨t, hpass', htail⟩
    have hescape : Cursor.Passes ⟨here, '\\' :: rest⟩ ('\\' :: s) next := hpass.byte rfl
    have hall := hescape.trans hpass'
    rw [← List.append_assoc] at hall
    exact .ok ⟨_, hall, .cons hchar htail⟩
  | case4 here ch rest hquote hslash hlow =>
    rw [stringBody, if_pos hlow]
    · unfold controlFault
      split
      · exact .error trivial
      · exact .error trivial
    · exact hquote
    · exact hslash
  | case5 here ch rest hquote hslash hlow ih =>
    rw [stringBody, if_neg hlow]
    · refine ih.bind ?_
      rintro ⟨tail, last, h⟩ ⟨t, hpass, htail⟩
      have hplain : Character [ch] ch := .plain (Nat.le_of_not_lt hlow) hquote hslash
      exact .ok ⟨ch :: t, hpass.cons, .cons hplain htail⟩
    · exact hquote
    · exact hslash

theorem stringBody_yields_escape {opening o : Nat} {s t cs rest : List Char} {ch : Char}
    {d : Cursor} (h : Character ('\\' :: s) ch)
    (ht : Yields (stringBody opening ⟨o + byteLength ('\\' :: s), t ++ '"' :: rest⟩) cs d) :
    Yields (stringBody opening ⟨o, '\\' :: (s ++ (t ++ '"' :: rest))⟩) (ch :: cs) d := by
  rw [stringBody]
  refine (escape_yields h).bind ?_
  intro hlt
  have hoffset : o + byteLength ('\\' :: s) = o + 1 + byteLength s := by
    rw [byteLength_cons, utf8Size_of_ascii (by decide), Nat.add_assoc]
  rw [hoffset] at ht
  refine ht.bind ?_
  intro hlt'
  exact Yields.pure

/-- What the grammar allows between two quotes is read up to the second one. -/
theorem stringBody_yields {opening o : Nat} {s cs rest : List Char} (h : Characters s cs) :
    Yields (stringBody opening ⟨o, s ++ '"' :: rest⟩) cs ⟨o + byteLength s + 1, rest⟩ := by
  induction h generalizing o with
  | nil =>
    rw [List.nil_append, stringBody]
    exact ⟨_, rfl⟩
  | @cons s t cs ch hs _ ih =>
    rw [List.append_assoc, byteLength_append, ← Nat.add_assoc]
    have ih' := @ih (o + byteLength s)
    -- a plain character is read by the string's own loop, the other three kinds by `escape`
    cases hs with
    | plain hlow hquote hslash =>
      rw [List.singleton_append, stringBody, if_neg (Nat.not_lt_of_le hlow)]
      · refine ih'.bind ?_
        intro hlt
        exact Yields.pure
      · exact hquote
      · exact hslash
    | letter htable => exact stringBody_yields_escape (.letter htable) ih'
    | code hcode => exact stringBody_yields_escape (.code hcode) ih'
    | pair hcode hhigh hhigh' hcode' hlow hlow' hch =>
      exact stringBody_yields_escape (.pair hcode hhigh hhigh' hcode' hlow hlow' hch) ih'

end BimEditor.Json
