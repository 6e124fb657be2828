/-
  BimEditor.Proofs.Json.NumberWriting

  The text of a number spells a numeral that denotes the number: an integer by its digits, and a
  binary64 number by the digits of its shortest decimal, with a point or an exponent, so that it is
  never taken for an integer (`number_text_spells`).
-/
import BimEditor.Proofs.Json.Grammar
import BimEditor.Proofs.Numeric.ShortestDecimal

namespace BimEditor.Json

open BimEditor.Numeric

/-! ## Digits -/

theorem isDigit_digitChar : ∀ n < 10, isDigit (digitChar n) = true := by
  decide

theorem digitChar_ne_zero : ∀ n < 10, 0 < n → digitChar n ≠ '0' := by
  decide

theorem isDigit_of_mem_digits {n : Nat} {c : Char} (h : c ∈ digits n) : isDigit c = true := by
  induction n using digits.induct with
  | case1 n hn =>
    rw [digits, if_pos hn, List.mem_singleton] at h
    rw [h]
    exact isDigit_digitChar n hn
  | case2 n hn ih =>
    rw [digits, if_neg hn, List.mem_append, List.mem_singleton] at h
    rcases h with h | rfl
    · exact ih h
    · exact isDigit_digitChar _ (Nat.mod_lt n (by decide))

theorem digits_ne_nil (n : Nat) : digits n ≠ [] := by
  rw [digits]
  split <;> simp

/-- The digits of a positive number do not start with a zero. -/
theorem digits_head {n : Nat} (hn : 0 < n) : ∃ d ds, digits n = d :: ds ∧ d ≠ '0' := by
  induction n using digits.induct with
  | case1 n h =>
    rw [digits, if_pos h]
    exact ⟨_, [], rfl, digitChar_ne_zero n h hn⟩
  | case2 n h ih =>
    obtain ⟨d, ds, hds, hd⟩ := ih (by omega)
    rw [digits, if_neg h, hds]
    exact ⟨d, _, rfl, hd⟩

theorem whole_digits (n : Nat) : Whole (digits n) := by
  rcases Nat.eq_zero_or_pos n with rfl | hn
  · have hzero : digits 0 = ['0'] := by
      rw [digits]
      rfl
    rw [hzero]
    exact .zero
  · obtain ⟨d, ds, hds, hd⟩ := digits_head hn
    have hall : ∀ c ∈ d :: ds, isDigit c = true := fun c hc => isDigit_of_mem_digits (hds ▸ hc)
    rw [hds]
    exact .digits (hall d List.mem_cons_self) hd fun c hc => hall c (List.mem_cons_of_mem d hc)

theorem foldl_digits (n : Nat) (ds : List Char) :
    ds.foldl (fun n d => 10 * n + digitValue d) n = n * 10 ^ ds.length + ofDigits ds := by
  unfold ofDigits
  -- what was read so far counts for as many places as there are digits to come
  induction ds generalizing n with
  | nil => simp
  | cons d ds ih =>
    rw [List.foldl_cons, ih, List.foldl_cons, ih (10 * 0 + digitValue d), List.length_cons,
      Nat.pow_succ]
    ring

theorem ofDigits_append (ds es : List Char) :
    ofDigits (ds ++ es) = ofDigits ds * 10 ^ es.length + ofDigits es := by
  rw [ofDigits, List.foldl_append, foldl_digits]
  rfl

@[simp]
theorem ofDigits_zeros (n : Nat) : ofDigits (List.replicate n '0') = 0 := by
  induction n with
  | zero => rfl
  | succ n ih =>
    rw [List.replicate_succ', ofDigits_append, ih]
    rfl

theorem isDigit_of_mem_zeros (n : Nat) : ∀ c ∈ List.replicate n '0', isDigit c = true := by
  intro c hc
  rw [List.eq_of_mem_replicate hc]
  rfl

/-- What is left of a positive number's digits when the zeros at their end are dropped. -/
structure Significant (ds : List Char) : Prop where
  digits : ∀ c ∈ ds, isDigit c = true
  head : ∃ d r, ds = d :: r ∧ d ≠ '0'

theorem Significant.whole {ds es : List Char} (h : Significant ds)
    (hes : ∀ c ∈ es, isDigit c = true) : Whole (ds ++ es) := by
  obtain ⟨d, r, rfl, hd⟩ := h.head
  refine .digits (h.digits d List.mem_cons_self) hd ?_
  intro c hc
  rcases List.mem_append.1 hc with hc | hc
  · exact h.digits c (List.mem_cons_of_mem d hc)
  · exact hes c hc

theorem digits_eq_significant (n : Nat) :
    ∃ zeros, digits n = significantDigits n ++ List.replicate zeros '0' := by
  refine ⟨((digits n).reverse.takeWhile (· == '0')).length, ?_⟩
  have hzeros : (digits n).reverse.takeWhile (· == '0')
      = List.replicate ((digits n).reverse.takeWhile (· == '0')).length '0' := by
    refine List.eq_replicate_of_mem ?_
    intro c hc
    exact beq_iff_eq.1 (List.all_eq_true.1 List.all_takeWhile c hc)
  -- the zeros at the end are the first digits from behind
  have hsplit := congrArg List.reverse
    (@List.takeWhile_append_dropWhile _ (· == '0') (digits n).reverse)
  rw [List.reverse_append, List.reverse_reverse, hzeros, List.reverse_replicate] at hsplit
  exact hsplit.symm

theorem significant_significantDigits {n : Nat} (hn : 0 < n) :
    Significant (significantDigits n) := by
  obtain ⟨zeros, hsplit⟩ := digits_eq_significant n
  obtain ⟨d, ds, hds, hd⟩ := digits_head hn
  refine ⟨?_, ?_⟩
  · intro c hc
    refine @isDigit_of_mem_digits n c ?_
    rw [hsplit]
    exact List.mem_append_left _ hc
  · rw [hds] at hsplit
    cases hs : significantDigits n with
    | nil =>
      -- only zeros would be left, but the first digit is none
      rw [hs, List.nil_append] at hsplit
      have : d ∈ List.replicate zeros '0' := hsplit ▸ List.mem_cons_self
      exact absurd (List.eq_of_mem_replicate this) hd
    | cons e r =>
      rw [hs, List.cons_append] at hsplit
      exact ⟨e, r, rfl, (List.cons.inj hsplit).1 ▸ hd⟩

/-! ## Exponents -/

/-- The digits of a number below the cap are counted to the end. -/
theorem cappedExponent_digits {n : Nat} (h : n < Numeral.exponentCap) :
    Numeral.cappedExponent (digits n) = n := by
  induction n using digits.induct with
  | case1 n hn =>
    rw [digits, if_pos hn, Numeral.cappedExponent, List.foldl_cons, List.foldl_nil,
      if_pos (by decide), digitValue_digitChar hn]
    omega
  | case2 n hn ih =>
    -- the digits before the last one are below the cap as well
    have hlt : n / 10 < Numeral.exponentCap := by omega
    have hfold := ih hlt
    rw [Numeral.cappedExponent] at hfold
    rw [digits, if_neg hn, Numeral.cappedExponent, List.foldl_append, hfold, List.foldl_cons,
      List.foldl_nil, if_pos hlt, digitValue_digitChar (Nat.mod_lt n (by decide))]
    omega

/-! ## Magnitudes -/

/-- The rational that a numeral spells, its sign left out. -/
def Numeral.magnitude (n : Numeral) : ℚ :=
  ofDigits (n.whole ++ n.fractionDigits)
    * 10 ^ (n.power cappedExponent - n.fractionDigits.length)

/-- With a sign before it, `s` spells a numeral of magnitude `q` that is not that of an integer. -/
def SpellsMagnitude (negative : Bool) (s : List Char) (q : ℚ) : Prop :=
  ∃ n, Spells (minusSign negative ++ s) n ∧ n.negative = negative
    ∧ (n.fraction ≠ none ∨ n.exponent ≠ none) ∧ n.magnitude = q

theorem digits_zero : Digits ['0'] :=
  ⟨List.cons_ne_nil _ _, isDigit_of_mem_zeros 1⟩

/-- Digits around a point. -/
theorem spellsMagnitude_point {w f : List Char} (negative : Bool) (hw : Whole w) (hf : Digits f) :
    SpellsMagnitude negative (w ++ '.' :: f) (ofDigits (w ++ f) * 10 ^ (-(f.length : Int))) := by
  have hspells := @Spells.parts negative w ('.' :: f) [] _ _ hw (.present hf) .absent
  rw [List.append_nil] at hspells
  refine ⟨_, hspells, rfl, .inl (Option.some_ne_none f), ?_⟩
  simp [Numeral.magnitude, Numeral.fractionDigits, Numeral.power]

variable {ds : List Char} {order : Int}

/-! With a point and no exponent, the digits stand behind the point, before it, or around it. In
each case the first one is the digit of `10 ^ order`. -/

/-- A number below one: zeros fill the places between the point and the digits. -/
theorem spellsMagnitude_behind (negative : Bool) (hds : Significant ds) (horder : order < 0) :
    SpellsMagnitude negative (['0'] ++ '.' :: (List.replicate (-order - 1).toNat '0' ++ ds))
      (ofDigits ds * 10 ^ (order + 1 - ds.length)) := by
  obtain ⟨d, r, hcons, -⟩ := hds.head
  have hf : Digits (List.replicate (-order - 1).toNat '0' ++ ds) := by
    refine ⟨by simp [hcons], ?_⟩
    intro c hc
    rcases List.mem_append.1 hc with hc | hc
    · exact isDigit_of_mem_zeros _ c hc
    · exact hds.digits c hc
  have hspells := spellsMagnitude_point negative .zero hf
  have hvalue : ofDigits (['0'] ++ (List.replicate (-order - 1).toNat '0' ++ ds))
      = ofDigits ds := by
    rw [ofDigits_append, ofDigits_append, ofDigits_zeros]
    simp [ofDigits, digitValue]
  have hlength : -((List.replicate (-order - 1).toNat '0' ++ ds).length : Int)
      = order + 1 - ds.length := by
    rw [List.length_append, List.length_replicate]
    omega
  rw [hvalue, hlength] at hspells
  exact hspells

/-- A whole number: zeros fill the places between the digits and the point. -/
theorem spellsMagnitude_before (negative : Bool) (hds : Significant ds) {zeros : Nat}
    (hzeros : order + 1 - ds.length = zeros) :
    SpellsMagnitude negative (ds ++ List.replicate zeros '0' ++ '.' :: ['0'])
      (ofDigits ds * 10 ^ (order + 1 - ds.length)) := by
  have hspells := spellsMagnitude_point negative (hds.whole (isDigit_of_mem_zeros zeros))
    digits_zero
  have hvalue : (ofDigits (ds ++ List.replicate zeros '0' ++ ['0']) : ℚ)
      * 10 ^ (-((['0'].length : Nat) : Int)) = ofDigits ds * 10 ^ (order + 1 - ds.length) := by
    have hzero : ofDigits ['0'] = 0 := rfl
    rw [ofDigits_append, ofDigits_append, ofDigits_zeros, List.length_replicate, hzeros,
      zpow_natCast, hzero]
    push_cast
    rw [List.length_singleton, Nat.cast_one, zpow_neg_one]
    ring
  rw [hvalue] at hspells
  exact hspells

/-- A number with digits on both sides of the point. -/
theorem spellsMagnitude_around (negative : Bool) (hds : Significant ds) {whole : Nat}
    (hwhole : order + 1 = (whole + 1 : Nat)) (hshort : whole + 1 < ds.length) :
    SpellsMagnitude negative (ds.take (whole + 1) ++ '.' :: ds.drop (whole + 1))
      (ofDigits ds * 10 ^ (order + 1 - ds.length)) := by
  have htake : Significant (ds.take (whole + 1)) := by
    refine ⟨fun c hc => hds.digits c (List.mem_of_mem_take hc), ?_⟩
    obtain ⟨d, r, rfl, hd⟩ := hds.head
    exact ⟨d, r.take whole, rfl, hd⟩
  have hw : Whole (ds.take (whole + 1)) := by
    have h := htake.whole (isDigit_of_mem_zeros 0)
    rwa [List.replicate_zero, List.append_nil] at h
  have hf : Digits (ds.drop (whole + 1)) := by
    refine ⟨?_, fun c hc => hds.digits c (List.mem_of_mem_drop hc)⟩
    intro hnil
    have := List.drop_eq_nil_iff.1 hnil
    omega
  have hspells := spellsMagnitude_point negative hw hf
  have hlength : -((ds.drop (whole + 1)).length : Int) = order + 1 - ds.length := by
    rw [List.length_drop]
    omega
  rw [List.take_append_drop, hlength] at hspells
  exact hspells

theorem positionalText_spells (negative : Bool) (hds : Significant ds) :
    SpellsMagnitude negative (positionalText ds order)
      (ofDigits ds * 10 ^ (order + 1 - ds.length)) := by
  unfold positionalText
  split
  · next horder => exact spellsMagnitude_behind negative hds horder
  · next horder =>
    dsimp only
    by_cases hlong : ds.length ≤ order.toNat + 1
    · rw [List.take_of_length_le hlong, List.drop_of_length_le hlong]
      exact spellsMagnitude_before negative hds (by omega)
    · have hne : ds.drop (order.toNat + 1) ≠ [] := by
        intro hnil
        exact hlong (List.drop_eq_nil_iff.1 hnil)
      have hnozeros : order.toNat + 1 - ds.length = 0 := by omega
      rw [hnozeros, List.replicate_zero, List.append_nil, if_neg (by simpa using hne)]
      exact spellsMagnitude_around negative hds (by omega) (by omega)

/-- Digits with an exponent. -/
theorem scientificText_spells (negative : Bool) (hds : Significant ds)
    (horder : order.natAbs < Numeral.exponentCap) :
    SpellsMagnitude negative (scientificText ds order)
      (ofDigits ds * 10 ^ (order + 1 - ds.length)) := by
  obtain ⟨d, r, rfl, hd⟩ := hds.head
  have hw : Whole [d] := .digits (hds.digits d List.mem_cons_self) hd (by simp)
  -- a point is written only if digits follow the first one
  have hf : ∃ fraction, Fraction (if (d :: r).length ≤ 1 then [] else '.' :: r) fraction
      ∧ fraction.getD [] = r := by
    split
    · next hshort =>
      have hnil : r = [] := List.eq_nil_of_length_eq_zero (by simpa using hshort)
      exact ⟨none, .absent, hnil.symm⟩
    · next hlong =>
      refine ⟨some r, .present ⟨?_, fun c hc => hds.digits c (List.mem_cons_of_mem d hc)⟩, rfl⟩
      rintro rfl
      exact hlong (Nat.le_refl 1)
  obtain ⟨fraction, hf, hr⟩ := hf
  have hdigits : Digits (digits order.natAbs) :=
    ⟨digits_ne_nil _, fun c hc => isDigit_of_mem_digits hc⟩
  have he : ∃ sign, Exponent ('e' :: (if order < 0 then '-' else '+') :: digits order.natAbs)
      (some (sign, digits order.natAbs)) ∧ sign = decide (order < 0) := by
    split
    · next hneg => exact ⟨true, .present (.inl rfl) .minus hdigits, by simp [hneg]⟩
    · next hpos => exact ⟨false, .present (.inl rfl) .plus hdigits, by simp [hpos]⟩
  obtain ⟨sign, he, hsign⟩ := he
  -- the exponent counts from the first digit, the coefficient ends at the last one
  have hspells := @Spells.parts negative _ _ _ _ _ hw hf he
  refine ⟨⟨negative, [d], fraction, some (sign, digits order.natAbs)⟩, ?_, rfl,
    .inr (Option.some_ne_none _), ?_⟩
  · simpa [scientificText] using hspells
  · have hpower : (⟨negative, [d], fraction, some (sign, digits order.natAbs)⟩ : Numeral).power
        Numeral.cappedExponent = order := by
      rw [Numeral.power, hsign]
      by_cases hneg : order < 0
      · simp only [hneg, decide_true, cappedExponent_digits horder]
        omega
      · simp only [hneg, decide_false, cappedExponent_digits horder]
        omega
    rw [Numeral.magnitude, hpower, Numeral.fractionDigits]
    simp only [hr, List.singleton_append, List.length_cons]
    congr 2
    push_cast
    ring

/-! ## Numbers -/

/-- The digits that are written and their place make up the shortest decimal. -/
theorem shortest_value (d : Decimal) :
    d.value = ofDigits (significantDigits d.coefficient)
      * 10 ^ (d.exponent + (digits d.coefficient).length - 1 + 1
        - (significantDigits d.coefficient).length) := by
  obtain ⟨zeros, hsplit⟩ := digits_eq_significant d.coefficient
  have hcoefficient : d.coefficient = ofDigits (significantDigits d.coefficient) * 10 ^ zeros := by
    have h := ofDigits_digits d.coefficient
    rw [hsplit, ofDigits_append, ofDigits_zeros, List.length_replicate, Nat.add_zero] at h
    exact h.symm
  have hlength : (digits d.coefficient).length
      = (significantDigits d.coefficient).length + zeros := by
    rw [hsplit, List.length_append, List.length_replicate]
  have hexponent : d.exponent + (digits d.coefficient).length - 1 + 1
      - (significantDigits d.coefficient).length = zeros + d.exponent := by
    rw [hlength]
    push_cast
    ring
  rw [hexponent, zpow_add₀ (by norm_num), zpow_natCast, ← mul_assoc, Decimal.value]
  congr 1
  exact_mod_cast hcoefficient

/-- A number other than zero is written with the digits of its shortest decimal. -/
theorem magnitudeText_spells {x : Binary64} (negative : Bool) (hx : x.mantissa ≠ 0) :
    SpellsMagnitude negative (magnitudeText x) x.shortest.value := by
  obtain ⟨hpos, hbelow, habove⟩ := Binary64.order_of_rounds hx (Binary64.rounds_shortest hx)
  have hds := significant_significantDigits hpos
  rw [shortest_value]
  unfold magnitudeText
  dsimp only
  split
  · exact positionalText_spells negative hds
  · refine scientificText_spells negative hds ?_
    have hcap : Numeral.exponentCap = 65536 := rfl
    omega

theorem eq_zero_of_mantissa {x : Binary64} (hx : x.mantissa = 0) :
    x = Binary64.zero x.negative := by
  obtain ⟨negative, mantissa, exponent, hcanonical⟩ := x
  obtain rfl : mantissa = 0 := hx
  obtain rfl : exponent = -1074 := hcanonical.2.2.2.resolve_left (by decide)
  rfl

/-- The text of a binary64 number is read as that number. -/
theorem floatText_spells (x : Binary64) :
    ∃ n, Spells (floatText x) n ∧ Denotes n (.float x) := by
  -- a point or an exponent keeps the numeral from being that of an integer
  have hnever : ∀ n : Numeral, n.fraction ≠ none ∨ n.exponent ≠ none →
      ∀ i : WideInt, ¬ n.IsInteger i.val := by
    rintro n hn i ⟨hfraction, hexponent, -⟩
    exact hn.elim (fun h => h hfraction) fun h => h hexponent
  unfold floatText
  by_cases hx : x.mantissa = 0
  · rw [if_pos hx]
    have hspells := @Spells.parts x.negative ['0'] ['.', '0'] [] _ _ .zero
      (.present digits_zero) .absent
    refine ⟨_, hspells, .float (hnever _ (.inl (Option.some_ne_none _))) ?_⟩
    rw [eq_zero_of_mantissa hx]
    rfl
  · rw [if_neg hx]
    obtain ⟨n, hspells, hnegative, hn, hmagnitude⟩ := magnitudeText_spells x.negative hx
    refine ⟨n, hspells, .float (hnever n hn) ?_⟩
    rw [Numeral.float?, hnegative]
    refine Binary64.ofDecimal?_of_rounds hx ?_
    rw [← Numeral.magnitude, hmagnitude]
    exact Binary64.rounds_shortest hx

/-- The text of an integer is read as that integer. -/
theorem integerText_spells (i : WideInt) :
    ∃ n, Spells (integerText i.val) n ∧ Denotes n (.integer i) := by
  have hspells := @Spells.parts (decide (i.val < 0)) (digits i.val.natAbs) [] [] _ _
    (whole_digits _) .absent .absent
  rw [List.append_nil, List.append_nil] at hspells
  refine ⟨⟨decide (i.val < 0), digits i.val.natAbs, none, none⟩, ?_, .integer ⟨rfl, rfl, ?_⟩⟩
  · have htext : integerText i.val = minusSign (decide (i.val < 0)) ++ digits i.val.natAbs := by
      unfold integerText minusSign
      split <;> simp_all
    rw [htext]
    exact hspells
  · simp only [ofDigits_digits, decide_eq_true_eq]
    split <;> omega

/-- The text of a number spells a numeral that denotes the number. -/
theorem number_text_spells (x : Number) : ∃ n, Spells x.text n ∧ Denotes n x := by
  cases x with
  | integer i => exact integerText_spells i
  | float x => exact floatText_spells x

end BimEditor.Json
