/-
  BimEditor.Proofs.Json.NumberText

  The readers of numbers and words against their grammar. A number has no closing mark: the reader
  takes as much as it can, so that what stands behind a number must not extend it (`Ended`). Under
  that condition it reads every spelling of the grammar (`numeral_yields`); without any condition,
  what it reads is a spelling (`numeral_ensures`).
-/
import BimEditor.Proofs.Json.Grammar
import BimEditor.Proofs.Json.Outcome
import BimEditor.Proofs.Text.Passage

namespace BimEditor.Json

open BimEditor.Numeric BimEditor.Text

/-! ## Digits -/

theorem toNat_of_isDigit {d : Char} (h : isDigit d = true) : 48 ≤ d.toNat ∧ d.toNat ≤ 57 := by
  simp only [isDigit, Bool.and_eq_true, decide_eq_true_eq, Char.le_def,
    UInt32.le_iff_toNat_le] at h
  exact h

theorem utf8Size_of_isDigit {d : Char} (h : isDigit d = true) : d.utf8Size = 1 := by
  have := toNat_of_isDigit h
  exact utf8Size_of_ascii (by omega)

/-- A character that is no digit differs from every digit. -/
theorem ne_of_isDigit {d x : Char} (h : isDigit d = true) (hx : isDigit x = false) : d ≠ x := by
  rintro rfl
  rw [h] at hx
  cases hx

theorem someDigits_ensures (expected : Expected) (c : Cursor) :
    Ensures (fun r => c.Passes r.value r.next ∧ Digits r.value) Fault.IsMalformed
      (someDigits expected c) := by
  unfold someDigits
  split
  · next here d rest =>
    split
    · next hd =>
      have hskip : Cursor.Passes ⟨here + 1, rest⟩ (rest.takeWhile isDigit)
          (Cursor.skip isDigit ⟨here + 1, rest⟩) := Cursor.passes_skip isDigit _
      refine .ok ⟨hskip.byte (utf8Size_of_isDigit hd), List.cons_ne_nil _ _, ?_⟩
      intro x hx
      rcases List.mem_cons.1 hx with rfl | hx
      · exact hd
      · exact List.all_eq_true.1 List.all_takeWhile x hx
    · exact .error trivial
  · exact .error trivial

theorem someDigits_yields {expected : Expected} {o : Nat} {ds rest : List Char} (h : Digits ds)
    (hrest : Cursor.StopsAt isDigit rest) :
    Yields (someDigits expected ⟨o, ds ++ rest⟩) ds ⟨o + byteLength ds, rest⟩ := by
  obtain ⟨hne, hall⟩ := h
  cases ds with
  | nil => exact absurd rfl hne
  | cons d ds =>
    have hd : isDigit d = true := hall d List.mem_cons_self
    have hds : ∀ x ∈ ds, isDigit x = true := fun x hx => hall x (List.mem_cons_of_mem d hx)
    have hskip : Cursor.skip isDigit ⟨o + 1, ds ++ rest⟩ = ⟨o + 1 + byteLength ds, rest⟩ :=
      Cursor.skip_append hds hrest
    have htake : (ds ++ rest).takeWhile isDigit = ds := by
      rw [List.takeWhile_append_of_pos hds, hrest.takeWhile, List.append_nil]
    rw [List.cons_append, someDigits, if_pos hd, byteLength_cons, utf8Size_of_isDigit hd,
      ← Nat.add_assoc]
    refine ⟨?_, ?_⟩
    · simp only [List.length_cons, List.length_append]
      omega
    · simp only [hskip, htake]

theorem wholeDigits_ensures (c : Cursor) :
    Ensures (fun r => c.Passes r.value r.next ∧ Whole r.value) Fault.IsMalformed
      (wholeDigits c) := by
  unfold wholeDigits
  split
  · next here rest => exact .ok ⟨(Cursor.Passes.refl _).byte rfl, .zero⟩
  · next hzero =>
    refine (someDigits_ensures .digit c).mono ?_ fun _ he => he
    rintro ⟨ds, next, h⟩ ⟨hpass, hne, hall⟩
    refine ⟨hpass, ?_⟩
    cases ds with
    | nil => exact absurd rfl hne
    | cons d ds =>
      refine .digits (hall d List.mem_cons_self) ?_ fun x hx => hall x (List.mem_cons_of_mem d hx)
      -- a text that starts with a zero was read as a lone zero
      rintro rfl
      exact hzero c.offset (ds ++ next.rest) (by rw [← List.cons_append, ← hpass.1])

/-- The whole digits of a number do not go on in `rest`. Behind a zero nothing else belongs to
    them. -/
def WholeEnds (w rest : List Char) : Prop :=
  w = ['0'] ∨ Cursor.StopsAt isDigit rest

theorem wholeDigits_yields {o : Nat} {w rest : List Char} (h : Whole w)
    (hrest : WholeEnds w rest) :
    Yields (wholeDigits ⟨o, w ++ rest⟩) w ⟨o + byteLength w, rest⟩ := by
  cases h with
  | zero =>
    rw [List.singleton_append, wholeDigits]
    exact ⟨_, rfl⟩
  | @digits d ds hd hzero hds =>
    -- the first digit is no zero, so that all of them are read in one run
    have hdigits : Digits (d :: ds) := by
      refine ⟨List.cons_ne_nil _ _, ?_⟩
      intro x hx
      rcases List.mem_cons.1 hx with rfl | hx
      · exact hd
      · exact hds x hx
    have hstop : Cursor.StopsAt isDigit rest := by
      rcases hrest with heq | hstop
      · exact absurd (List.cons.inj heq).1 hzero
      · exact hstop
    rw [wholeDigits]
    · exact someDigits_yields hdigits hstop
    · intro here tail heq
      rw [List.cons_append] at heq
      injection heq with _ heq
      exact hzero (List.cons.inj heq).1

/-! ## Signs, fractions and exponents -/

/-- The step yields `b` and stops at `d`, which may be where it began. -/
def Advances {β : Type} {c : Cursor} (x : Except Fault (β × Advance c)) (b : β) (d : Cursor) :
    Prop :=
  ∃ h, x = .ok (b, ⟨d, h⟩)

theorem sign_passes (c : Cursor) : c.Passes (minusSign (sign c).1) (sign c).2 := by
  unfold sign
  split
  · exact (Cursor.Passes.refl _).byte rfl
  · exact Cursor.Passes.refl c

theorem sign_eq {o : Nat} {negative : Bool} {rest : List Char}
    (hrest : negative = false → Cursor.StopsAt (· == '-') rest) :
    ∃ h, sign ⟨o, minusSign negative ++ rest⟩
      = (negative, ⟨⟨o + byteLength (minusSign negative), rest⟩, h⟩) := by
  cases negative with
  | true => exact ⟨_, rfl⟩
  | false =>
    have hsign : sign ⟨o, rest⟩ = (false, ⟨⟨o, rest⟩, Nat.le_refl _⟩) := by
      rw [sign]
      intro here tail
      exact (hrest rfl).ne_cons rfl
    exact ⟨Nat.le_refl _, hsign⟩

theorem exponentSign_passes (c : Cursor) :
    ∃ s, c.Passes s (exponentSign c).2 ∧ ExponentSign s (exponentSign c).1 := by
  unfold exponentSign
  split
  · exact ⟨['-'], (Cursor.Passes.refl _).byte rfl, .minus⟩
  · exact ⟨['+'], (Cursor.Passes.refl _).byte rfl, .plus⟩
  · exact ⟨[], Cursor.Passes.refl c, .none⟩

theorem exponentSign_eq {o : Nat} {negative : Bool} {s ds : List Char} (h : ExponentSign s negative)
    (hds : Cursor.StopsAt (fun x => !isDigit x) ds) :
    ∃ h, exponentSign ⟨o, s ++ ds⟩ = (negative, ⟨⟨o + byteLength s, ds⟩, h⟩) := by
  cases h with
  | minus => exact ⟨_, rfl⟩
  | plus => exact ⟨_, rfl⟩
  | none =>
    have hsign : exponentSign ⟨o, ds⟩ = (false, ⟨⟨o, ds⟩, Nat.le_refl _⟩) := by
      rw [exponentSign]
      · intro here tail
        exact hds.ne_cons rfl
      · intro here tail
        exact hds.ne_cons rfl
    exact ⟨Nat.le_refl _, hsign⟩

theorem fraction?_ensures (c : Cursor) :
    Ensures (fun r => ∃ f, c.Passes f r.2 ∧ Fraction f r.1) Fault.IsMalformed (fraction? c) := by
  unfold fraction?
  split
  · next here rest =>
    refine (someDigits_ensures .fractionDigit _).bind ?_
    rintro ⟨ds, next, h⟩ ⟨hpass, hds⟩
    exact .ok ⟨'.' :: ds, hpass.byte rfl, .present hds⟩
  · exact .ok ⟨[], Cursor.Passes.refl c, .absent⟩

/-- A fraction, or what stands in its place, does not go on in `rest`. -/
def FractionEnds : Option (List Char) → List Char → Prop
  | none, rest => Cursor.StopsAt (· == '.') rest
  | some _, rest => Cursor.StopsAt isDigit rest

theorem fraction?_advances {o : Nat} {f rest : List Char} {x : Option (List Char)}
    (h : Fraction f x) (hrest : FractionEnds x rest) :
    Advances (fraction? ⟨o, f ++ rest⟩) x ⟨o + byteLength f, rest⟩ := by
  cases h with
  | absent =>
    rw [List.nil_append, fraction?]
    · exact ⟨_, rfl⟩
    · intro here tail
      exact Cursor.StopsAt.ne_cons hrest rfl
  | @present ds hds =>
    have hlen : byteLength ('.' :: ds) = 1 + byteLength ds := by simp
    have hdigits : Yields (someDigits .fractionDigit ⟨o + 1, ds ++ rest⟩) ds
        ⟨o + 1 + byteLength ds, rest⟩ := someDigits_yields hds hrest
    obtain ⟨hlt, heq⟩ := hdigits
    rw [List.cons_append, fraction?, heq, ok_bind, hlen, ← Nat.add_assoc]
    exact ⟨_, rfl⟩

theorem exponentBody_ensures (c : Cursor) :
    Ensures (fun r => ∃ s, c.Passes (s ++ r.1.2) r.2 ∧ ExponentSign s r.1.1 ∧ Digits r.1.2)
      Fault.IsMalformed (exponentBody c) := by
  obtain ⟨s, hsign, hnegative⟩ := exponentSign_passes c
  unfold exponentBody
  split
  next negative start h heq =>
  rw [heq] at hsign hnegative
  refine (someDigits_ensures .exponentDigit start).bind ?_
  rintro ⟨ds, next, h'⟩ ⟨hpass, hds⟩
  exact .ok ⟨s, hsign.trans hpass, hnegative, hds⟩

theorem exponentBody_advances {o : Nat} {s ds rest : List Char} {negative : Bool}
    (hsign : ExponentSign s negative) (hds : Digits ds) (hrest : Cursor.StopsAt isDigit rest) :
    Advances (exponentBody ⟨o, s ++ (ds ++ rest)⟩) (negative, ds)
      ⟨o + byteLength s + byteLength ds, rest⟩ := by
  -- a digit is not taken for a sign
  have hstart : Cursor.StopsAt (fun x => !isDigit x) (ds ++ rest) := by
    obtain ⟨hne, hall⟩ := hds
    cases ds with
    | nil => exact absurd rfl hne
    | cons d ds => simp [hall d List.mem_cons_self]
  obtain ⟨h, heq⟩ := @exponentSign_eq o negative s (ds ++ rest) hsign hstart
  have hdigits : Yields (someDigits .exponentDigit ⟨o + byteLength s, ds ++ rest⟩) ds
      ⟨o + byteLength s + byteLength ds, rest⟩ := someDigits_yields hds hrest
  obtain ⟨hlt, heq'⟩ := hdigits
  rw [exponentBody, heq]
  dsimp only
  rw [heq', ok_bind]
  exact ⟨_, rfl⟩

theorem exponent?_ensures (c : Cursor) :
    Ensures (fun r => ∃ e, c.Passes e r.2 ∧ Exponent e r.1) Fault.IsMalformed (exponent? c) := by
  unfold exponent?
  split
  · next here rest =>
    refine (exponentBody_ensures _).bind ?_
    rintro ⟨⟨negative, ds⟩, next, h⟩ ⟨s, hpass, hsign, hds⟩
    exact .ok ⟨'e' :: (s ++ ds), hpass.byte rfl, .present (.inl rfl) hsign hds⟩
  · next here rest =>
    refine (exponentBody_ensures _).bind ?_
    rintro ⟨⟨negative, ds⟩, next, h⟩ ⟨s, hpass, hsign, hds⟩
    exact .ok ⟨'E' :: (s ++ ds), hpass.byte rfl, .present (.inr rfl) hsign hds⟩
  · exact .ok ⟨[], Cursor.Passes.refl c, .absent⟩

/-- A letter that starts an exponent. -/
def isExponentMark (x : Char) : Bool :=
  x == 'e' || x == 'E'

/-- An exponent, or what stands in its place, does not go on in `rest`. -/
def ExponentEnds : Option (Bool × List Char) → List Char → Prop
  | none, rest => Cursor.StopsAt isExponentMark rest
  | some _, rest => Cursor.StopsAt isDigit rest

theorem exponent?_advances {o : Nat} {e rest : List Char} {x : Option (Bool × List Char)}
    (h : Exponent e x) (hrest : ExponentEnds x rest) :
    Advances (exponent? ⟨o, e ++ rest⟩) x ⟨o + byteLength e, rest⟩ := by
  cases h with
  | absent =>
    rw [List.nil_append, exponent?]
    · exact ⟨_, rfl⟩
    · intro here tail
      exact Cursor.StopsAt.ne_cons hrest rfl
    · intro here tail
      exact Cursor.StopsAt.ne_cons hrest rfl
  | @present mark sign ds negative hletter hsign hds =>
    have hbody : Advances (exponentBody ⟨o + 1, sign ++ (ds ++ rest)⟩) (negative, ds)
        ⟨o + 1 + byteLength sign + byteLength ds, rest⟩ := exponentBody_advances hsign hds hrest
    obtain ⟨hle, heq⟩ := hbody
    have hsize : mark.utf8Size = 1 := by
      rcases hletter with rfl | rfl <;> rfl
    have hlen : o + byteLength (mark :: (sign ++ ds))
        = o + 1 + byteLength sign + byteLength ds := by
      rw [byteLength_cons, byteLength_append, hsize]
      omega
    rw [List.cons_append, List.append_assoc, hlen]
    rcases hletter with rfl | rfl
    · rw [exponent?, heq, ok_bind]
      exact ⟨_, rfl⟩
    · rw [exponent?, heq, ok_bind]
      exact ⟨_, rfl⟩

/-! ## Numerals -/

theorem numeral_ensures (c : Cursor) :
    Ensures (fun r => ∃ s, c.Passes s r.next ∧ Spells s r.value) Fault.IsMalformed
      (numeral c) := by
  have hsign := sign_passes c
  unfold numeral
  split
  next negative afterSign h heq =>
  rw [heq] at hsign
  refine (wholeDigits_ensures afterSign).bind ?_
  rintro ⟨whole, afterWhole, h₂⟩ ⟨hpass₂, hwhole⟩
  refine (fraction?_ensures afterWhole).bind ?_
  rintro ⟨fraction, afterFraction, h₃⟩ ⟨f, hpass₃, hfraction⟩
  refine (exponent?_ensures afterFraction).bind ?_
  rintro ⟨exponent, next, h₄⟩ ⟨e, hpass₄, hexponent⟩
  exact .ok ⟨_, hsign.trans (hpass₂.trans (hpass₃.trans hpass₄)), .parts hwhole hfraction hexponent⟩

/-- A character that may continue a number. -/
def extendsNumber (x : Char) : Bool :=
  isDigit x || x == '.' || isExponentMark x

/-- No number goes on in `s`. -/
abbrev Ended (s : List Char) : Prop :=
  Cursor.StopsAt extendsNumber s

theorem Ended.digit {s : List Char} (h : Ended s) : Cursor.StopsAt isDigit s :=
  h.mono fun x hx => by simp [extendsNumber, hx]

theorem Ended.point {s : List Char} (h : Ended s) : Cursor.StopsAt (· == '.') s :=
  h.mono fun x hx => by simp [extendsNumber, hx]

theorem Ended.mark {s : List Char} (h : Ended s) : Cursor.StopsAt isExponentMark s :=
  h.mono fun x hx => by simp [extendsNumber, hx]

/-- An exponent, or what stands in its place, starts with no digit and with no point. -/
theorem Exponent.stops {e rest : List Char} {x : Option (Bool × List Char)} (h : Exponent e x)
    (hrest : Ended rest) :
    Cursor.StopsAt isDigit (e ++ rest) ∧ Cursor.StopsAt (· == '.') (e ++ rest) := by
  cases h with
  | absent => exact ⟨hrest.digit, hrest.point⟩
  | present hletter _ _ =>
    rw [List.cons_append, Cursor.stopsAt_cons, Cursor.stopsAt_cons]
    rcases hletter with rfl | rfl <;> exact ⟨rfl, rfl⟩

theorem Fraction.stops {f rest : List Char} {x : Option (List Char)} (h : Fraction f x)
    (hrest : Cursor.StopsAt isDigit rest) : Cursor.StopsAt isDigit (f ++ rest) := by
  cases h with
  | absent => exact hrest
  | present _ =>
    rw [List.cons_append, Cursor.stopsAt_cons]
    rfl

theorem Whole.head {w : List Char} (h : Whole w) : ∃ d ds, w = d :: ds ∧ isDigit d = true := by
  cases h with
  | zero => exact ⟨'0', [], rfl, rfl⟩
  | digits hd _ _ => exact ⟨_, _, rfl, hd⟩

theorem Whole.stops {w rest : List Char} (h : Whole w) :
    Cursor.StopsAt (· == '-') (w ++ rest) := by
  obtain ⟨d, ds, rfl, hd⟩ := h.head
  rw [List.cons_append, Cursor.stopsAt_cons]
  simpa using ne_of_isDigit hd (by decide : isDigit '-' = false)

/-- The parts of a number are read one after another, if none of them goes on in what follows it. -/
theorem numeral_yields_parts {o : Nat} {negative : Bool} {w f e rest : List Char}
    {fraction : Option (List Char)} {exponent : Option (Bool × List Char)} (hw : Whole w)
    (hf : Fraction f fraction) (he : Exponent e exponent) (hwhole : WholeEnds w (f ++ (e ++ rest)))
    (hfraction : FractionEnds fraction (e ++ rest)) (hexponent : ExponentEnds exponent rest) :
    Yields (numeral ⟨o, minusSign negative ++ (w ++ (f ++ e)) ++ rest⟩)
      ⟨negative, w, fraction, exponent⟩
      ⟨o + byteLength (minusSign negative ++ (w ++ (f ++ e))), rest⟩ := by
  obtain ⟨h₁, hsign⟩ := @sign_eq o negative (w ++ (f ++ (e ++ rest))) fun _ => hw.stops
  obtain ⟨h₂, hwhole⟩ := @wholeDigits_yields (o + byteLength (minusSign negative)) w
    (f ++ (e ++ rest)) hw hwhole
  obtain ⟨h₃, hfraction⟩ := @fraction?_advances
    (o + byteLength (minusSign negative) + byteLength w) f (e ++ rest) fraction hf hfraction
  obtain ⟨h₄, hexponent⟩ := @exponent?_advances
    (o + byteLength (minusSign negative) + byteLength w + byteLength f) e rest exponent he hexponent
  rw [List.append_assoc, List.append_assoc, List.append_assoc]
  simp only [byteLength_append, ← Nat.add_assoc]
  rw [numeral, hsign]
  dsimp only
  rw [hwhole, ok_bind]
  dsimp only
  rw [hfraction, ok_bind]
  dsimp only
  rw [hexponent, ok_bind]
  exact ⟨_, rfl⟩

/-- Every spelling of the grammar is read as a whole. -/
theorem numeral_yields {o : Nat} {s rest : List Char} {n : Numeral} (h : Spells s n)
    (hrest : Ended rest) :
    Yields (numeral ⟨o, s ++ rest⟩) n ⟨o + byteLength s, rest⟩ := by
  cases h with
  | @parts negative w f e fraction exponent hw hf he =>
    -- each part ends because the next one, or what stands in its place, starts with something else
    obtain ⟨hdigit, hpoint⟩ := he.stops hrest
    refine numeral_yields_parts hw hf he (.inr (hf.stops hdigit)) ?_ ?_
    · cases fraction with
      | none => exact hpoint
      | some _ => exact hdigit
    · cases exponent with
      | none => exact hrest.mark
      | some _ => exact hrest.digit

theorem number_ensures (value? : Numeral → Option Number) (c : Cursor) :
    Ensures (fun r => ∃ s n, c.Passes s r.next ∧ Spells s n ∧ value? n = some r.value)
      Fault.IsMalformed (number value? c) := by
  unfold number
  refine (numeral_ensures c).bind ?_
  rintro ⟨spelled, next, h⟩ ⟨s, hpass, hspells⟩
  dsimp only
  split
  · next n hn => exact .ok ⟨s, spelled, hpass, hspells, hn⟩
  · exact .error trivial

theorem number_yields {value? : Numeral → Option Number} {o : Nat} {s rest : List Char}
    {n : Numeral} {x : Number} (h : Spells s n) (hx : value? n = some x) (hrest : Ended rest) :
    Yields (number value? ⟨o, s ++ rest⟩) x ⟨o + byteLength s, rest⟩ := by
  rw [number]
  refine (numeral_yields h hrest).bind ?_
  intro hlt
  dsimp only
  rw [hx]
  exact Yields.pure

theorem Numeral.isInteger_iff {n : Numeral} {i : Int} : n.IsInteger i ↔ n.integer? = some i := by
  obtain ⟨negative, whole, fraction, exponent⟩ := n
  cases fraction with
  | some f => simp [Numeral.IsInteger, Numeral.integer?]
  | none =>
    cases exponent with
    | some e => simp [Numeral.IsInteger, Numeral.integer?]
    | none => simp [Numeral.IsInteger, Numeral.integer?, eq_comm]

theorem WideInt.ofInt?_eq_some_iff {i : Int} {w : WideInt} :
    WideInt.ofInt? i = some w ↔ w.val = i := by
  unfold WideInt.ofInt?
  constructor
  · intro h
    split at h
    · exact (congrArg WideInt.val (Option.some.inj h)).symm
    · cases h
  · rintro rfl
    rw [dif_pos w.fits]

/-- The number that a numeral denotes is the one that documents are read with. -/
theorem denotes_iff {n : Numeral} {x : Number} : Denotes n x ↔ n.number? = some x := by
  have hinteger : ∀ i : WideInt, n.IsInteger i.val ↔ n.integer?.bind WideInt.ofInt? = some i := by
    intro i
    rw [Numeral.isInteger_iff, Option.bind_eq_some_iff]
    constructor
    · intro h
      exact ⟨i.val, h, WideInt.ofInt?_eq_some_iff.2 rfl⟩
    · rintro ⟨j, hj, hi⟩
      rw [hj, WideInt.ofInt?_eq_some_iff.1 hi]
  unfold Numeral.number?
  -- an integer that fits is never taken for a floating-point number
  split
  · next i hi =>
    constructor
    · rintro (hj | ⟨hnone, -⟩)
      · rw [hinteger, hi] at hj
        rw [Option.some.inj hj]
      · exact absurd ((hinteger i).2 hi) (hnone i)
    · rintro ⟨⟩
      exact .integer ((hinteger i).2 hi)
  · next hnone =>
    constructor
    · rintro (hj | ⟨-, hx⟩)
      · rw [hinteger, hnone] at hj
        cases hj
      · exact Option.map_eq_some_iff.2 ⟨_, hx, rfl⟩
    · intro hx
      obtain ⟨y, hy, rfl⟩ := Option.map_eq_some_iff.1 hx
      refine .float (fun i hi => ?_) hy
      rw [hinteger, hnone] at hi
      cases hi

/-! ## Words -/

theorem word_ensures (spelling : String) (meaning : Scalar) (c : Cursor) :
    Ensures (fun r => c.Passes spelling.toList r.next ∧ r.value = meaning) Fault.IsMalformed
      (word spelling meaning c) := by
  unfold word
  dsimp only
  split
  · next h =>
    have hdrop : c.rest = spelling.toList ++ c.rest.drop spelling.toList.length := by
      obtain ⟨rest, hrest⟩ := List.isPrefixOf_iff_prefix.1 h.1
      rw [← hrest, List.drop_left]
    exact .ok ⟨⟨hdrop, rfl⟩, rfl⟩
  · exact .error trivial

theorem word_yields {spelling : String} {meaning : Scalar} {o : Nat} {rest : List Char}
    (h : spelling.toList ≠ []) :
    Yields (word spelling meaning ⟨o, spelling.toList ++ rest⟩) meaning
      ⟨o + byteLength spelling.toList, rest⟩ := by
  have hpre : spelling.toList.isPrefixOf (spelling.toList ++ rest) = true :=
    List.isPrefixOf_iff_prefix.2 (List.prefix_append _ _)
  rw [word, dif_pos ⟨hpre, h⟩]
  refine ⟨by simpa using List.length_pos_iff.2 h, ?_⟩
  simp

end BimEditor.Json
