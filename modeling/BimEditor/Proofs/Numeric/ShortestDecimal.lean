/-
  BimEditor.Proofs.Numeric.ShortestDecimal

  The shortest decimal of a number other than zero reads back as that number. The exact comparisons
  that the search makes are comparisons of rationals (`roundsBack_iff`), and the two neighbours of
  seventeen digits lie closer together than the ends of the interval that rounds to the number, so
  that the search finds a decimal (`shortestOf?_seventeen`).
-/
import BimEditor.Proofs.Numeric.Nearest

namespace BimEditor.Numeric

/-- The rational that a decimal stands for. -/
def Decimal.value (d : Decimal) : ℚ :=
  d.coefficient * 10 ^ d.exponent

namespace Binary64

/-- The magnitude of a number. -/
def magnitude (x : Binary64) : ℚ :=
  x.mantissa * 2 ^ x.exponent

/-! ## Exact comparisons -/

section

variable (j k : Int) (a b : Nat)

theorem cast_decimalSide :
    (decimalSide j k a : ℚ) = a * 10 ^ k * 2 ^ j * (pow2 (-j) * pow10 (-k)) := by
  rw [decimalSide]
  push_cast
  rw [pow10_eq k, pow2_eq j]
  ring

theorem cast_binarySide : (binarySide j k b : ℚ) = b * (pow2 (-j) * pow10 (-k)) := by
  rw [binarySide]
  push_cast
  ring

theorem denominator_pos : (0 : ℚ) < pow2 (-j) * pow10 (-k) := by
  exact_mod_cast Nat.mul_pos (pow2_pos (-j)) (pow10_pos (-k))

theorem binarySide_le_iff :
    binarySide j k b ≤ decimalSide j k a ↔ (b : ℚ) ≤ a * 10 ^ k * 2 ^ j := by
  rw [← @Nat.cast_le ℚ, cast_decimalSide, cast_binarySide]
  exact mul_le_mul_iff_left₀ (denominator_pos j k)

theorem decimalSide_le_iff :
    decimalSide j k a ≤ binarySide j k b ↔ (a : ℚ) * 10 ^ k * 2 ^ j ≤ b := by
  rw [← @Nat.cast_le ℚ, cast_decimalSide, cast_binarySide]
  exact mul_le_mul_iff_left₀ (denominator_pos j k)

end

section

variable (x : Binary64) (k : Int) (a b : Nat)

theorem twoPow_quarters : (2 : ℚ) ^ (2 - x.exponent) = 4 / 2 ^ x.exponent := by
  rw [zpow_sub₀ (by norm_num)]
  norm_num

/-- The comparison of a decimal with quarters of the last place. -/
theorem quarters_le_iff :
    binarySide (2 - x.exponent) k b ≤ decimalSide (2 - x.exponent) k a
      ↔ (b / 4 : ℚ) * 2 ^ x.exponent ≤ a * 10 ^ k := by
  have hunit : (0 : ℚ) < 2 ^ x.exponent := by positivity
  rw [binarySide_le_iff, twoPow_quarters, ← mul_div_assoc, le_div_iff₀ hunit]
  constructor <;> intro h <;> linarith

theorem le_quarters_iff :
    decimalSide (2 - x.exponent) k a ≤ binarySide (2 - x.exponent) k b
      ↔ (a : ℚ) * 10 ^ k ≤ b / 4 * 2 ^ x.exponent := by
  have hunit : (0 : ℚ) < 2 ^ x.exponent := by positivity
  rw [decimalSide_le_iff, twoPow_quarters, ← mul_div_assoc, div_le_iff₀ hunit]
  constructor <;> intro h <;> linarith

end

/-- The search tells exactly which decimals round to the number. -/
theorem roundsBack_iff {x : Binary64} (hx : x.mantissa ≠ 0) (d : Decimal) :
    roundsBack x d = true ↔ x.Rounds d.value := by
  have hgap := (lowerGap_bounds x).2
  have hlow : (((4 * x.mantissa - x.lowerGap : Nat) : ℚ) / 4) * 2 ^ x.exponent = x.low := by
    rw [Nat.cast_sub (by omega), low]
    push_cast
    ring
  have hhigh : (((4 * x.mantissa + 2 : Nat) : ℚ) / 4) * 2 ^ x.exponent = x.high := by
    rw [high]
    push_cast
    ring
  unfold roundsBack Rounds Decimal.value
  dsimp only
  split
  · rw [Bool.and_eq_true, decide_eq_true_iff, decide_eq_true_iff, quarters_le_iff, le_quarters_iff,
      hlow, hhigh]
  · rw [Bool.and_eq_true, decide_eq_true_iff, decide_eq_true_iff, ← not_le, ← not_le,
      le_quarters_iff, quarters_le_iff, hlow, hhigh, not_le, not_le]

/-! ## The neighbours of seventeen digits -/

/-- The decimal order of a number is that of a power of ten at or below it. -/
theorem tenPow_decimalOrder_le {x : Binary64} (hx : x.mantissa ≠ 0) :
    (10 : ℚ) ^ decimalOrder x ≤ x.magnitude := by
  have hexp := x.canonical.2.1
  -- no number other than zero is so small that its whole part vanishes
  have hpos : 0 < x.mantissa * pow2 x.exponent * pow10 350 / pow2 (-x.exponent) := by
    refine Nat.div_pos ?_ (pow2_pos _)
    have hsmall : 2 ^ 1074 ≤ pow10 350 := by decide +kernel
    calc pow2 (-x.exponent) ≤ 2 ^ 1074 := Nat.pow_le_pow_right (by decide) (by omega)
      _ ≤ pow10 350 := hsmall
      _ ≤ x.mantissa * pow2 x.exponent * pow10 350 :=
        Nat.le_mul_of_pos_left _ (Nat.mul_pos (Nat.pos_of_ne_zero hx) (pow2_pos _))
  obtain ⟨hlow, -, hlength⟩ := digits_bounds _ hpos
  have hwhole : ((x.mantissa * pow2 x.exponent * pow10 350 / pow2 (-x.exponent) : Nat) : ℚ)
      ≤ x.magnitude * 10 ^ (350 : Int) := by
    refine Nat.cast_div_le.trans (le_of_eq ?_)
    have h350 : (pow10 350 : ℚ) = 10 ^ (350 : Int) := by
      rw [pow10_eq]
      simp [pow10]
    rw [magnitude, ← pow2_div, Nat.cast_mul, Nat.cast_mul, h350]
    ring
  unfold decimalOrder
  generalize x.mantissa * pow2 x.exponent * pow10 350 / pow2 (-x.exponent) = whole at *
  have hpow : (10 : ℚ) ^ (((digits whole).length : Int) - 1) ≤ whole := by
    rw [← Nat.cast_one, ← Nat.cast_sub hlength, zpow_natCast]
    exact_mod_cast hlow
  have hsplit : (10 : ℚ) ^ (((digits whole).length : Int) - 1)
      = 10 ^ (((digits whole).length : Int) - 351) * 10 ^ (350 : Int) := by
    rw [← zpow_add₀ (by norm_num)]
    congr 1
    ring
  rw [hsplit] at hpow
  exact le_of_mul_le_mul_right (hpow.trans hwhole) (by positivity)

/-- A number lies between its two neighbours. -/
theorem neighbours_bounds (x : Binary64) (n : Nat) :
    (neighbours x n).1.value ≤ x.magnitude ∧ x.magnitude < (neighbours x n).2.value
      ∧ (neighbours x n).2.value
        = (neighbours x n).1.value + 10 ^ (decimalOrder x + 1 - n) := by
  have hquarters : (((4 * x.mantissa : Nat) : ℚ) / 4) * 2 ^ x.exponent = x.magnitude := by
    rw [magnitude]
    push_cast
    ring
  have hunit : 0 < decimalSide (2 - x.exponent) (decimalOrder x + 1 - n) 1 := by
    rw [decimalSide, Nat.one_mul]
    exact Nat.mul_pos (pow10_pos _) (pow2_pos _)
  -- the lower neighbour is a quotient rounded down to whole units
  have hmul : ∀ a, a * decimalSide (2 - x.exponent) (decimalOrder x + 1 - n) 1
      = decimalSide (2 - x.exponent) (decimalOrder x + 1 - n) a := by
    intro a
    simp only [decimalSide]
    ring
  unfold neighbours Decimal.value
  dsimp only
  generalize decimalOrder x + 1 - n = k at *
  refine ⟨?_, ?_, ?_⟩
  · rw [← hquarters, ← le_quarters_iff, ← hmul]
    exact Nat.div_mul_le_self _ _
  · rw [← hquarters, ← not_le, ← le_quarters_iff, ← hmul, not_le, Nat.add_mul, Nat.one_mul]
    exact Nat.lt_div_mul_add hunit
  · push_cast
    ring

/-- The interval of a number is wider than a grid of seventeen digits. -/
theorem tenPow_lt_width {x : Binary64} (hx : x.mantissa ≠ 0) :
    (10 : ℚ) ^ (decimalOrder x + 1 - (17 : Nat)) < x.high - x.low := by
  have hunit : (0 : ℚ) < 2 ^ x.exponent := by positivity
  have hlimit : (x.mantissa : ℚ) < mantissaLimit := by exact_mod_cast x.canonical.1
  have hsplit : (10 : ℚ) ^ (decimalOrder x + 1 - (17 : Nat)) = 10 ^ decimalOrder x / 10 ^ 16 := by
    rw [add_sub_assoc, zpow_add₀ (by norm_num), div_eq_mul_inv]
    norm_num
  have hmagnitude : x.magnitude < mantissaLimit * 2 ^ x.exponent :=
    mul_lt_mul_of_pos_right hlimit hunit
  have horder := tenPow_decimalOrder_le hx
  have hwidth : x.high - x.low = (1 / 2 + x.lowerGap / 4) * 2 ^ x.exponent := by
    rw [high, low]
    ring
  rw [hsplit, hwidth, div_lt_iff₀ (by positivity)]
  -- at a power of two the interval is narrower, but so is the magnitude
  by_cases hfull : x.mantissa = fullMantissa ∧ -1074 < x.exponent
  · have hgap : x.lowerGap = 1 := if_pos hfull
    rw [hgap]
    rw [magnitude, hfull.1] at horder
    norm_num [fullMantissa] at horder ⊢
    linarith
  · have hgap : x.lowerGap = 2 := if_neg hfull
    rw [hgap]
    norm_num [mantissaLimit] at hmagnitude ⊢
    linarith

/-! ## The search -/

theorem shortestOf?_roundsBack {x : Binary64} {n : Nat} {d : Decimal}
    (h : shortestOf? x n = some d) : roundsBack x d = true := by
  unfold shortestOf? at h
  dsimp only at h
  -- both neighbours round back and the closer one is taken, or one of them, or none
  split at h
  · next hlower hupper =>
    obtain rfl := Option.some.inj h
    split
    · exact hlower
    · exact hupper
  · next hlower _ =>
    obtain rfl := Option.some.inj h
    exact hlower
  · next _ hupper =>
    obtain rfl := Option.some.inj h
    exact hupper
  · cases h

theorem magnitude_bounds {x : Binary64} : x.low < x.magnitude ∧ x.magnitude < x.high := by
  have hunit : (0 : ℚ) < 2 ^ x.exponent := by positivity
  have hgap : (1 : ℚ) ≤ x.lowerGap := by exact_mod_cast (lowerGap_bounds x).1
  rw [low, magnitude, high]
  exact ⟨mul_lt_mul_of_pos_right (by linarith) hunit, mul_lt_mul_of_pos_right (by linarith) hunit⟩

theorem rounds_of_lt {x : Binary64} {q : ℚ} (hlow : x.low < q) (hhigh : q < x.high) :
    x.Rounds q := by
  unfold Rounds
  split
  · exact ⟨hlow.le, hhigh.le⟩
  · exact ⟨hlow, hhigh⟩

/-- Seventeen digits suffice. -/
theorem shortestOf?_seventeen {x : Binary64} (hx : x.mantissa ≠ 0) :
    shortestOf? x 17 ≠ none := by
  obtain ⟨hlower, hupper, hstep⟩ := neighbours_bounds x 17
  obtain ⟨hlow, hhigh⟩ := @magnitude_bounds x
  have hwidth := tenPow_lt_width hx
  -- the lower neighbour may lie below the interval, but then the upper one does not lie above it
  have hone : roundsBack x (neighbours x 17).1 = true
      ∨ roundsBack x (neighbours x 17).2 = true := by
    rw [roundsBack_iff hx, roundsBack_iff hx]
    by_cases hinside : x.low < (neighbours x 17).1.value
    · exact .inl (rounds_of_lt hinside (hlower.trans_lt hhigh))
    · refine .inr (rounds_of_lt (hlow.trans hupper) ?_)
      rw [hstep]
      linarith
  intro hnone
  unfold shortestOf? at hnone
  dsimp only at hnone
  rcases hone with h | h <;> rw [h] at hnone <;> split at hnone <;> simp_all

/-- The shortest decimal rounds to the number. -/
theorem rounds_shortest {x : Binary64} (hx : x.mantissa ≠ 0) : x.Rounds x.shortest.value := by
  rw [← roundsBack_iff hx]
  unfold shortest
  cases hfind : (List.range' 1 17).findSome? (shortestOf? x) with
  | none =>
    have hnone := List.findSome?_eq_none_iff.1 hfind 17 (by decide)
    exact absurd hnone (shortestOf?_seventeen hx)
  | some d =>
    obtain ⟨n, -, hd⟩ := List.exists_of_findSome?_eq_some hfind
    exact shortestOf?_roundsBack hd

end Binary64

end BimEditor.Numeric
