/-
  BimEditor.Proofs.Numeric.Nearest

  Reading to the nearest binary64 number, against rational arithmetic. Every number has an interval
  of rationals that round to it; its ends lie halfway to the neighbours and belong to it if the
  mantissa is even (`Rounds`). A ratio or a decimal inside of the interval is read as that number
  (`ofRatio?_of_rounds`, `ofDecimal?_of_rounds`).
-/
import BimEditor.Numeric.Shortest
import Mathlib.Algebra.Order.Field.Power
import Mathlib.Algebra.Order.Ring.Rat
import Mathlib.Data.Nat.Cast.Order.Field
import Mathlib.Data.Rat.Cast.Order
import Mathlib.Tactic.FieldSimp
import Mathlib.Tactic.Linarith
import Mathlib.Tactic.NormNum
import Mathlib.Tactic.Positivity
import Mathlib.Tactic.Ring

namespace BimEditor.Numeric

/-! ## Powers -/

theorem pow2_pos (k : Int) : 0 < pow2 k :=
  Nat.pow_pos (by decide)

theorem pow10_pos (k : Int) : 0 < pow10 k :=
  Nat.pow_pos (by decide)

/-- A power is the ratio of the two parts that multiply a numerator and a denominator. -/
theorem pow2_div (k : Int) : (pow2 k : ℚ) / pow2 (-k) = 2 ^ k := by
  rcases le_total 0 k with hk | hk
  · obtain ⟨n, rfl⟩ := Int.eq_ofNat_of_zero_le hk
    simp [pow2]
  · obtain ⟨n, hn⟩ := Int.eq_ofNat_of_zero_le (Int.neg_nonneg_of_nonpos hk)
    obtain rfl : k = -(n : Int) := by omega
    simp [pow2]

theorem pow10_div (k : Int) : (pow10 k : ℚ) / pow10 (-k) = 10 ^ k := by
  rcases le_total 0 k with hk | hk
  · obtain ⟨n, rfl⟩ := Int.eq_ofNat_of_zero_le hk
    simp [pow10]
  · obtain ⟨n, hn⟩ := Int.eq_ofNat_of_zero_le (Int.neg_nonneg_of_nonpos hk)
    obtain rfl : k = -(n : Int) := by omega
    simp [pow10]

theorem pow2_eq (k : Int) : (pow2 k : ℚ) = 2 ^ k * pow2 (-k) := by
  have hpos : (0 : ℚ) < pow2 (-k) := by exact_mod_cast pow2_pos (-k)
  rw [← pow2_div k]
  field_simp

theorem pow10_eq (k : Int) : (pow10 k : ℚ) = 10 ^ k * pow10 (-k) := by
  have hpos : (0 : ℚ) < pow10 (-k) := by exact_mod_cast pow10_pos (-k)
  rw [← pow10_div k]
  field_simp

/-- The number of digits tells the power of ten at or below a number. -/
theorem digits_bounds (n : Nat) (hn : 0 < n) :
    10 ^ ((digits n).length - 1) ≤ n ∧ n < 10 ^ (digits n).length ∧ 0 < (digits n).length := by
  induction n using digits.induct with
  | case1 n h =>
    rw [digits, if_pos h]
    exact ⟨hn, h, Nat.one_pos⟩
  | case2 n h ih =>
    obtain ⟨hlow, hhigh, hpos⟩ := ih (by omega)
    rw [digits, if_neg h, List.length_append, List.length_singleton, Nat.add_sub_cancel]
    obtain ⟨l, hl⟩ : ∃ l, (digits (n / 10)).length = l + 1 :=
      ⟨_, (Nat.sub_add_cancel hpos).symm⟩
    rw [hl] at hlow hhigh ⊢
    rw [Nat.add_sub_cancel] at hlow
    refine ⟨?_, ?_, by omega⟩
    · rw [Nat.pow_succ]
      omega
    · rw [Nat.pow_succ]
      omega

namespace Binary64

/-! ## Rounding a quotient -/

/-- A quotient within half of `m` is rounded to `m`; a half itself counts if `m` is even. -/
theorem roundDiv_eq {n d m : Nat} (hd : 0 < d)
    (h : if m % 2 = 0 then 2 * (m * d) ≤ 2 * n + d ∧ 2 * n ≤ 2 * (m * d) + d
      else 2 * (m * d) < 2 * n + d ∧ 2 * n < 2 * (m * d) + d) :
    roundDiv n d = m := by
  have hdiv : n / d * d + n % d = n := Nat.div_add_mod' n d
  have hmod : n % d < d := Nat.mod_lt n hd
  -- the whole part is `m` or one less
  have hle : 2 * (m * d) ≤ 2 * n + d ∧ 2 * n ≤ 2 * (m * d) + d := by
    split at h <;> omega
  have hupper : n / d ≤ m := by
    by_contra hlt
    have := Nat.mul_le_mul_right d (Nat.lt_of_not_le hlt)
    rw [Nat.succ_mul] at this
    omega
  have hlower : m ≤ n / d + 1 := by
    by_contra hlt
    have := Nat.mul_le_mul_right d (Nat.lt_of_not_le hlt)
    rw [Nat.succ_mul, Nat.add_mul, Nat.one_mul] at this
    omega
  unfold roundDiv
  dsimp only
  rcases Nat.eq_or_lt_of_le hupper with hm | hm
  · rw [hm] at hdiv ⊢
    split_ifs at h ⊢ <;> omega
  · have hm : m = n / d + 1 := by omega
    have hprod : m * d = n / d * d + d := by rw [hm, Nat.add_mul, Nat.one_mul]
    split_ifs at h ⊢ <;> omega

theorem mul_pow2_le_iff (a b : Nat) (k : Int) :
    a * pow2 k ≤ b * pow2 (-k) ↔ (a : ℚ) * 2 ^ k ≤ b := by
  have hpos : (0 : ℚ) < pow2 (-k) := by exact_mod_cast pow2_pos (-k)
  have hcast : ((a * pow2 k : Nat) : ℚ) = a * 2 ^ k * pow2 (-k) := by
    push_cast
    rw [pow2_eq k, mul_assoc]
  rw [← @Nat.cast_le ℚ, hcast, Nat.cast_mul]
  exact ⟨fun h => le_of_mul_le_mul_right h hpos, fun h => mul_le_mul_of_nonneg_right h hpos.le⟩

/-- The whole number at or below the binary logarithm of a ratio. -/
theorem binaryOrder_bounds {n d : Nat} (hn : 0 < n) (hd : 0 < d) :
    (2 : ℚ) ^ binaryOrder n d ≤ n / d ∧ (n : ℚ) / d < 2 ^ (binaryOrder n d + 1) := by
  have hdpos : (0 : ℚ) < d := by exact_mod_cast hd
  have hnlow : ((2 : ℚ) ^ (n.log2 : Int)) ≤ n := by
    exact_mod_cast Nat.log2_self_le (Nat.pos_iff_ne_zero.1 hn)
  have hnhigh : (n : ℚ) < 2 ^ ((n.log2 : Int) + 1) := by
    exact_mod_cast @Nat.lt_log2_self n
  have hdlow : ((2 : ℚ) ^ (d.log2 : Int)) ≤ d := by
    exact_mod_cast Nat.log2_self_le (Nat.pos_iff_ne_zero.1 hd)
  have hdhigh : (d : ℚ) < 2 ^ ((d.log2 : Int) + 1) := by
    exact_mod_cast @Nat.lt_log2_self d
  unfold binaryOrder
  dsimp only
  generalize (n.log2 : Int) = a at hnlow hnhigh ⊢
  generalize (d.log2 : Int) = b at hdlow hdhigh ⊢
  -- the two logarithms leave a choice of two, which the comparison decides
  have habove : (n : ℚ) / d < 2 ^ (a - b + 1) := by
    rw [div_lt_iff₀ hdpos]
    calc (n : ℚ) < 2 ^ (a + 1) := hnhigh
      _ = 2 ^ (a - b + 1) * 2 ^ b := by
        rw [← zpow_add₀ (by norm_num)]
        congr 1
        ring
      _ ≤ 2 ^ (a - b + 1) * d := by gcongr
  have hbelow : (2 : ℚ) ^ (a - b - 1) ≤ n / d := by
    rw [le_div_iff₀ hdpos]
    calc (2 : ℚ) ^ (a - b - 1) * d ≤ 2 ^ (a - b - 1) * 2 ^ (b + 1) := by gcongr
      _ = 2 ^ a := by
        rw [← zpow_add₀ (by norm_num)]
        congr 1
        ring
      _ ≤ n := hnlow
  split_ifs with h
  · rw [mul_pow2_le_iff, mul_comm, ← le_div_iff₀ hdpos] at h
    exact ⟨h, habove⟩
  · rw [mul_pow2_le_iff, mul_comm, ← le_div_iff₀ hdpos, not_le] at h
    rw [sub_add_cancel]
    exact ⟨hbelow, h⟩

/-! ## The interval that rounds to a number -/

/-- The lower end of the interval of rationals that round to the magnitude of `x`. -/
def low (x : Binary64) : ℚ :=
  (x.mantissa - x.lowerGap / 4) * 2 ^ x.exponent

/-- The upper end of that interval. -/
def high (x : Binary64) : ℚ :=
  (x.mantissa + 1 / 2) * 2 ^ x.exponent

/-- `q` rounds to the magnitude of `x`. -/
def Rounds (x : Binary64) (q : ℚ) : Prop :=
  if x.mantissa % 2 = 0 then x.low ≤ q ∧ q ≤ x.high else x.low < q ∧ q < x.high

theorem Rounds.bounds {x : Binary64} {q : ℚ} (h : x.Rounds q) : x.low ≤ q ∧ q ≤ x.high := by
  unfold Rounds at h
  split at h
  · exact h
  · exact ⟨h.1.le, h.2.le⟩

theorem lowerGap_bounds (x : Binary64) : 1 ≤ x.lowerGap ∧ x.lowerGap ≤ 2 := by
  unfold lowerGap
  split <;> decide

theorem one_le_mantissa {x : Binary64} (hx : x.mantissa ≠ 0) : (1 : ℚ) ≤ x.mantissa := by
  exact_mod_cast Nat.one_le_iff_ne_zero.2 hx

theorem half_ulp_le_low {x : Binary64} (hx : x.mantissa ≠ 0) : 1 / 2 * 2 ^ x.exponent ≤ x.low := by
  have hm := one_le_mantissa hx
  have hgap : (x.lowerGap : ℚ) ≤ 2 := by exact_mod_cast (lowerGap_bounds x).2
  unfold low
  gcongr
  linarith

theorem high_le (x : Binary64) : x.high ≤ (mantissaLimit - 1 / 2) * 2 ^ x.exponent := by
  have hm : (x.mantissa : ℚ) + 1 ≤ mantissaLimit := by exact_mod_cast x.canonical.1
  unfold high
  gcongr
  linarith

theorem Rounds.pos {x : Binary64} {q : ℚ} (h : x.Rounds q) (hx : x.mantissa ≠ 0) : 0 < q := by
  have hhalf : (0 : ℚ) < 1 / 2 * 2 ^ x.exponent := by positivity
  exact hhalf.trans_le ((half_ulp_le_low hx).trans h.bounds.1)

/-! ## Reading a ratio -/

/-- A ratio within half a unit of `m` units of `2 ^ e` is rounded to `m`. -/
theorem roundDiv_units {n d m : Nat} {e : Int} (hd : 0 < d)
    (h : if m % 2 = 0 then (m - 1 / 2) * 2 ^ e ≤ (n : ℚ) / d ∧ (n : ℚ) / d ≤ (m + 1 / 2) * 2 ^ e
      else (m - 1 / 2) * 2 ^ e < (n : ℚ) / d ∧ (n : ℚ) / d < (m + 1 / 2) * 2 ^ e) :
    roundDiv (n * pow2 (-e)) (d * pow2 e) = m := by
  have hdpos : (0 : ℚ) < d := by exact_mod_cast hd
  have hpos : (0 : ℚ) < pow2 (-e) := by exact_mod_cast pow2_pos (-e)
  -- in rationals the two powers are one factor, which cancels
  refine roundDiv_eq (Nat.mul_pos hd (pow2_pos e)) ?_
  rw [le_div_iff₀ hdpos, div_le_iff₀ hdpos, lt_div_iff₀ hdpos, div_lt_iff₀ hdpos] at h
  simp only [← @Nat.cast_le ℚ, ← @Nat.cast_lt ℚ]
  push_cast
  rw [pow2_eq e]
  split_ifs at h ⊢ with heven
  · have hlow := mul_le_mul_of_nonneg_right h.1 hpos.le
    have hhigh := mul_le_mul_of_nonneg_right h.2 hpos.le
    exact ⟨by linarith, by linarith⟩
  · have hlow := mul_lt_mul_of_pos_right h.1 hpos
    have hhigh := mul_lt_mul_of_pos_right h.2 hpos
    exact ⟨by linarith, by linarith⟩

theorem ofParts?_self (x : Binary64) : ofParts? x.negative x.mantissa x.exponent = some x := by
  rw [ofParts?, dif_pos x.canonical]

/-- Where the unit of a ratio is that of `x`, a ratio that rounds to `x` is read as `x`. -/
theorem roundDiv_of_rounds {x : Binary64} {n d : Nat} (hd : 0 < d) (h : x.Rounds (n / d)) :
    roundDiv (n * pow2 (-x.exponent)) (d * pow2 x.exponent) = x.mantissa := by
  refine roundDiv_units hd ?_
  have hgap : (x.lowerGap : ℚ) ≤ 2 := by exact_mod_cast (lowerGap_bounds x).2
  have hlow : (x.mantissa - 1 / 2) * 2 ^ x.exponent ≤ x.low := by
    refine mul_le_mul_of_nonneg_right ?_ (by positivity)
    linarith
  unfold Rounds high at h
  split_ifs at h ⊢ with heven
  · exact ⟨hlow.trans h.1, h.2⟩
  · exact ⟨hlow.trans_lt h.1, h.2⟩

/-- The unit of a ratio is that of `x`, if the ratio lies in the same binade or among the smallest
    numbers. -/
theorem unit_eq {x : Binary64} {n d : Nat} (hn : 0 < n) (hd : 0 < d) (h : x.Rounds (n / d))
    (hsame : fullMantissa * 2 ^ x.exponent ≤ (n : ℚ) / d ∨ x.exponent = -1074) :
    max (binaryOrder n d - 52) (-1074) = x.exponent := by
  obtain ⟨hlow, hhigh⟩ := binaryOrder_bounds hn hd
  have hexp := x.canonical.2.1
  -- the ratio lies below the next binade, so that its unit is no larger
  have hupper : (n : ℚ) / d < 2 ^ (x.exponent + 53) := by
    rw [zpow_add₀ (by norm_num), mul_comm]
    have hend := h.bounds.2.trans (high_le x)
    have hunit : (0 : ℚ) < 2 ^ x.exponent := by positivity
    have hlimit : ((mantissaLimit : ℚ)) = 2 ^ (53 : Int) := by norm_num [mantissaLimit]
    rw [← hlimit]
    linarith
  have hle : binaryOrder n d < x.exponent + 53 :=
    (zpow_lt_zpow_iff_right₀ (by norm_num : (1 : ℚ) < 2)).1 (hlow.trans_lt hupper)
  rcases hsame with hsame | hsame
  · -- it does not lie below its own binade either
    have hfull : ((fullMantissa : ℚ)) * 2 ^ x.exponent = 2 ^ (x.exponent + 52) := by
      rw [zpow_add₀ (by norm_num), mul_comm]
      norm_num [fullMantissa]
    rw [hfull] at hsame
    have hge : x.exponent + 52 < binaryOrder n d + 1 :=
      (zpow_lt_zpow_iff_right₀ (by norm_num : (1 : ℚ) < 2)).1 (hsame.trans_lt hhigh)
    omega
  · omega

/-- Right below a power of two the unit of a ratio is half as large, and the ratio is rounded up to
    that power. -/
theorem carry_of_rounds {x : Binary64} {n d : Nat} (hn : 0 < n) (hd : 0 < d) (h : x.Rounds (n / d))
    (hbelow : (n : ℚ) / d < fullMantissa * 2 ^ x.exponent) (hexp : x.exponent ≠ -1074) :
    x.mantissa = fullMantissa ∧ max (binaryOrder n d - 52) (-1074) = x.exponent - 1
      ∧ roundDiv (n * pow2 (-(x.exponent - 1))) (d * pow2 (x.exponent - 1)) = mantissaLimit := by
  obtain ⟨hlow, hhigh⟩ := binaryOrder_bounds hn hd
  obtain ⟨-, hleast, -, hfull⟩ := x.canonical
  have hfull : fullMantissa ≤ x.mantissa := hfull.resolve_right hexp
  have hunit : (0 : ℚ) < 2 ^ (x.exponent - 1) := by positivity
  have htwice : (2 : ℚ) ^ x.exponent = 2 * 2 ^ (x.exponent - 1) := by
    rw [← zpow_one_add₀ (by norm_num), add_sub_cancel]
  -- only the least mantissa of a binade has an interval that reaches below the binade
  have hm : x.mantissa = fullMantissa := by
    have hgap : (x.lowerGap : ℚ) ≤ 2 := by exact_mod_cast (lowerGap_bounds x).2
    have hlt : (x.mantissa - x.lowerGap / 4 : ℚ) < fullMantissa :=
      lt_of_mul_lt_mul_right (h.bounds.1.trans_lt hbelow) (by positivity)
    have hle : (x.mantissa : ℚ) < fullMantissa + 1 := by linarith
    have hle : x.mantissa < fullMantissa + 1 := by exact_mod_cast hle
    omega
  have hgap : x.lowerGap = 1 := if_pos ⟨hm, by omega⟩
  have hend : (fullMantissa - 1 / 4) * 2 ^ x.exponent ≤ (n : ℚ) / d := by
    have := h.bounds.1
    rw [low, hgap, hm] at this
    exact_mod_cast this
  rw [htwice] at hbelow hend
  refine ⟨hm, ?_, ?_⟩
  · have hge : x.exponent + 51 < binaryOrder n d + 1 := by
      refine (zpow_lt_zpow_iff_right₀ (by norm_num : (1 : ℚ) < 2)).1 (lt_of_le_of_lt ?_ hhigh)
      refine le_trans ?_ hend
      rw [zpow_add₀ (by norm_num), htwice]
      norm_num [fullMantissa]
      linarith
    have hlt : binaryOrder n d < x.exponent + 52 := by
      refine (zpow_lt_zpow_iff_right₀ (by norm_num : (1 : ℚ) < 2)).1 (hlow.trans_lt ?_)
      refine hbelow.trans_le (le_of_eq ?_)
      rw [zpow_add₀ (by norm_num), htwice]
      norm_num [fullMantissa]
      ring
    omega
  · refine roundDiv_units hd ?_
    rw [if_pos (by decide)]
    norm_num [mantissaLimit, fullMantissa] at hbelow hend ⊢
    exact ⟨by linarith, by linarith⟩

/-- A ratio that rounds to a number other than zero is read as that number. -/
theorem ofRatio?_of_rounds {x : Binary64} {n d : Nat} (hx : x.mantissa ≠ 0) (hd : 0 < d)
    (h : x.Rounds (n / d)) : ofRatio? x.negative n d = some x := by
  have hdpos : (0 : ℚ) < d := by exact_mod_cast hd
  have hnpos : (0 : ℚ) < n := by
    have := mul_pos (h.pos hx) hdpos
    rwa [div_mul_cancel₀ _ hdpos.ne'] at this
  have hn : 0 < n := by exact_mod_cast hnpos
  rw [ofRatio?, if_neg (Nat.pos_iff_ne_zero.1 hn)]
  dsimp only
  -- the ratio has the unit of `x`, or lies right below its binade and is rounded up into it
  by_cases hsame : fullMantissa * 2 ^ x.exponent ≤ (n : ℚ) / d ∨ x.exponent = -1074
  · rw [unit_eq hn hd h hsame, roundDiv_of_rounds hd h, if_neg (Nat.ne_of_lt x.canonical.1)]
    exact ofParts?_self x
  · rw [not_or, not_le] at hsame
    obtain ⟨hm, hunit, hround⟩ := carry_of_rounds hn hd h hsame.1 hsame.2
    rw [hunit, hround, if_pos rfl, sub_add_cancel, ← hm]
    exact ofParts?_self x

/-! ## Reading a decimal -/

/-- No decimal below this power rounds to a number other than zero. -/
theorem tenPow_le_half_least : (10 : ℚ) ^ (-330 : Int) ≤ 1 / 2 * 2 ^ (-1074 : Int) := by
  have hnat : 2 * 2 ^ 1074 ≤ 10 ^ 330 := by decide +kernel
  have hrat : (2 * 2 ^ 1074 : ℚ) ≤ 10 ^ 330 := by exact_mod_cast hnat
  rw [zpow_neg, zpow_neg, one_div, ← mul_inv]
  exact inv_anti₀ (by positivity) hrat

/-- The upper end of the format lies below this power. -/
theorem greatest_lt_tenPow : (mantissaLimit - 1 / 2 : ℚ) * 2 ^ (971 : Int) < 10 ^ (310 : Int) := by
  have hnat : mantissaLimit * 2 ^ 971 ≤ 10 ^ 310 := by decide +kernel
  have hrat : (mantissaLimit * 2 ^ 971 : ℚ) ≤ 10 ^ 310 := by exact_mod_cast hnat
  have hpos : (0 : ℚ) < 2 ^ 971 := by positivity
  have hlt : (mantissaLimit - 1 / 2 : ℚ) * 2 ^ 971 < mantissaLimit * 2 ^ 971 :=
    mul_lt_mul_of_pos_right (sub_lt_self _ (by norm_num)) hpos
  exact_mod_cast hlt.trans_le hrat

/-- The number of digits and the power of a decimal that rounds to a number are those of a number
    within the format. -/
theorem order_of_rounds {x : Binary64} {n : Nat} {k : Int} (hx : x.mantissa ≠ 0)
    (h : x.Rounds (n * 10 ^ k)) :
    0 < n ∧ -330 < (digits n).length + k ∧ (digits n).length + k ≤ 310 := by
  have hscale : (0 : ℚ) < 10 ^ k := by positivity
  have hn : 0 < n := by
    have := pos_of_mul_pos_left (h.pos hx) hscale.le
    exact_mod_cast this
  obtain ⟨hlow, hhigh, hlength⟩ := digits_bounds n hn
  obtain ⟨-, hleast, hmost, -⟩ := x.canonical
  refine ⟨hn, ?_, ?_⟩
  · have hbelow : (10 : ℚ) ^ (-330 : Int) < 10 ^ ((digits n).length + k) := by
      calc (10 : ℚ) ^ (-330 : Int) ≤ 1 / 2 * 2 ^ (-1074 : Int) := tenPow_le_half_least
        _ ≤ 1 / 2 * 2 ^ x.exponent := by gcongr; norm_num
        _ ≤ n * 10 ^ k := (half_ulp_le_low hx).trans h.bounds.1
        _ < 10 ^ (digits n).length * 10 ^ k := by
          gcongr
          exact_mod_cast hhigh
        _ = 10 ^ ((digits n).length + k) := by
          rw [zpow_add₀ (by norm_num), zpow_natCast]
    exact (zpow_lt_zpow_iff_right₀ (by norm_num : (1 : ℚ) < 10)).1 hbelow
  · have habove : (10 : ℚ) ^ (((digits n).length : Int) - 1 + k) < 10 ^ (310 : Int) := by
      calc (10 : ℚ) ^ (((digits n).length : Int) - 1 + k)
          = 10 ^ ((digits n).length - 1) * 10 ^ k := by
            rw [zpow_add₀ (by norm_num), ← zpow_natCast, Nat.cast_sub hlength, Nat.cast_one]
        _ ≤ n * 10 ^ k := by
          gcongr
          exact_mod_cast hlow
        _ ≤ (mantissaLimit - 1 / 2) * 2 ^ x.exponent := h.bounds.2.trans (high_le x)
        _ ≤ (mantissaLimit - 1 / 2) * 2 ^ (971 : Int) := by
          refine mul_le_mul_of_nonneg_left ?_ (by norm_num [mantissaLimit])
          exact zpow_le_zpow_right₀ (by norm_num) hmost
        _ < 10 ^ (310 : Int) := greatest_lt_tenPow
    have := (zpow_lt_zpow_iff_right₀ (by norm_num : (1 : ℚ) < 10)).1 habove
    omega

/-- A decimal that rounds to a number other than zero is read as that number. -/
theorem ofDecimal?_of_rounds {x : Binary64} {n : Nat} {k : Int} (hx : x.mantissa ≠ 0)
    (h : x.Rounds (n * 10 ^ k)) : ofDecimal? x.negative n k = some x := by
  obtain ⟨hn, hbelow, habove⟩ := order_of_rounds hx h
  rw [ofDecimal?, if_neg (Nat.pos_iff_ne_zero.1 hn)]
  dsimp only
  -- the shortcuts for decimals far outside of the format do not apply
  rw [if_neg (by omega), if_neg (by omega)]
  refine ofRatio?_of_rounds hx (pow10_pos (-k)) ?_
  rw [Nat.cast_mul, mul_div_assoc, pow10_div]
  exact h

end Binary64

end BimEditor.Numeric
