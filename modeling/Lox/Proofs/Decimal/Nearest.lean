import Mathlib.Algebra.EuclideanDomain.Field
import Mathlib.Algebra.Order.Field.Power
import Mathlib.Algebra.Order.Ring.Star
import Mathlib.Algebra.Ring.CharZero
import Mathlib.Data.Nat.Cast.Field
import Mathlib.Data.Rat.Star
import Mathlib.Tactic.FieldSimp
import Mathlib.Tactic.NormNum
import Mathlib.Tactic.Positivity
import Mathlib.Tactic.Ring
import Lox.Proofs.Decimal.Bits

/-!
# Decimals as floats

A decimal is read as a float by its value alone, however it is spelled: the reading of a fraction
reduces it first, and the shortcuts for exponents far outside the range of floats give what the
fraction itself would give. The exact value of a float that is not negative reads back as this float.
-/

namespace Lox

/-! ## The float nearest to a fraction -/

section Fraction

variable {num den : Nat}

theorem scaledDown_den_ne_zero (hden : den ≠ 0) (power : Int) : (scaledDown num den power).2 ≠ 0 := by
  rw [scaledDown]
  split
  · exact Nat.mul_ne_zero hden (by simp)
  · exact hden

theorem scaledDown_value (num den : Nat) (power : Int) :
    ((scaledDown num den power).1 : ℚ) / (scaledDown num den power).2 = num / den / 2 ^ power := by
  rw [scaledDown]
  split
  · next hpower =>
    have hcast : ((Nat.pow 2 power.toNat : Nat) : ℚ) = 2 ^ power := by
      rw [Nat.pow_eq, Nat.cast_pow, Nat.cast_ofNat, ← zpow_natCast, Int.toNat_of_nonneg hpower]
    rw [Nat.cast_mul, hcast, div_div]
  · next hpower =>
    have hcast : ((Nat.pow 2 (-power).toNat : Nat) : ℚ) = (2 ^ power)⁻¹ := by
      rw [Nat.pow_eq, Nat.cast_pow, Nat.cast_ofNat, ← zpow_natCast, Int.toNat_of_nonneg (by omega),
        zpow_neg]
    rw [Nat.cast_mul, hcast, mul_comm, mul_div_assoc, ← div_eq_inv_mul]

/-- The power of two that is found is the one at or below the fraction. -/
theorem binaryExponent_spec (hnum : num ≠ 0) (hden : den ≠ 0) :
    (2 : ℚ) ^ binaryExponent num den ≤ num / den ∧
      (num / den : ℚ) < 2 ^ (binaryExponent num den + 1) := by
  have hden' : (0 : ℚ) < den := by exact_mod_cast Nat.pos_of_ne_zero hden
  have hnumLow : (2 : ℚ) ^ (num.log2 : Int) ≤ num := by
    rw [zpow_natCast]
    exact_mod_cast Nat.log2_self_le hnum
  have hnumHigh : (num : ℚ) < 2 ^ ((num.log2 : Int) + 1) := by
    exact_mod_cast Nat.lt_log2_self
  have hdenLow : (2 : ℚ) ^ (den.log2 : Int) ≤ den := by
    rw [zpow_natCast]
    exact_mod_cast Nat.log2_self_le hden
  have hdenHigh : (den : ℚ) < 2 ^ ((den.log2 : Int) + 1) := by
    exact_mod_cast Nat.lt_log2_self
  have hlow : (2 : ℚ) ^ ((num.log2 : Int) - den.log2 - 1) ≤ num / den := by
    rw [le_div_iff₀ hden']
    calc (2 : ℚ) ^ ((num.log2 : Int) - den.log2 - 1) * den
        ≤ 2 ^ ((num.log2 : Int) - den.log2 - 1) * 2 ^ ((den.log2 : Int) + 1) := by gcongr
      _ = 2 ^ (num.log2 : Int) := by
        rw [← zpow_add₀ two_ne_zero]
        congr 1
        omega
      _ ≤ num := hnumLow
  have hhigh : (num / den : ℚ) < 2 ^ ((num.log2 : Int) - den.log2 + 1) := by
    rw [div_lt_iff₀ hden']
    calc (num : ℚ) < 2 ^ ((num.log2 : Int) + 1) := hnumHigh
      _ = 2 ^ ((num.log2 : Int) - den.log2 + 1) * 2 ^ (den.log2 : Int) := by
        rw [← zpow_add₀ two_ne_zero]
        congr 1
        omega
      _ ≤ 2 ^ ((num.log2 : Int) - den.log2 + 1) * den := by gcongr
  -- the guess is right exactly if the fraction divided by its power of two is at least one
  have hguess : (scaledDown num den (num.log2 - den.log2)).2 ≤
      (scaledDown num den (num.log2 - den.log2)).1 ↔
        (2 : ℚ) ^ ((num.log2 : Int) - den.log2) ≤ num / den := by
    have hpos : (0 : ℚ) < (scaledDown num den (num.log2 - den.log2)).2 := by
      exact_mod_cast Nat.pos_of_ne_zero (scaledDown_den_ne_zero hden _)
    rw [← one_le_div₀ (zpow_pos two_pos _), ← scaledDown_value, one_le_div₀ hpos, Nat.cast_le]
  rw [binaryExponent]
  split
  · next hle => exact ⟨hguess.1 hle, hhigh⟩
  · next hnot =>
    refine ⟨hlow, ?_⟩
    rw [sub_add_cancel]
    exact lt_of_not_ge fun hle => hnot (hguess.2 hle)

/-- The power of two of the last place of a float, given the one at or below its value. -/
def lastPlace (exponent : Int) : Int :=
  max (exponent - 52) (-1074)

/-- The float nearest to a fraction, told by the value of the fraction: the power of two at or below
it gives the last place, and the number of last places is rounded. -/
theorem floatOfFraction_spec (hnum : num ≠ 0) (hden : den ≠ 0) :
    ∃ (exponent : Int) (a b : Nat), (2 : ℚ) ^ exponent ≤ num / den ∧
      (num / den : ℚ) < 2 ^ (exponent + 1) ∧ b ≠ 0 ∧
      (a / b : ℚ) = num / den / 2 ^ lastPlace exponent ∧
      floatOfFraction num den = Float.ofBits
        (min ((lastPlace exponent + 1074).toNat * leadingBit + roundedQuotient a b)
          infinityBits).toUInt64 := by
  have hgcd : num.gcd den ≠ 0 := Nat.gcd_ne_zero_left hnum
  have hgcd' : (num.gcd den : ℚ) ≠ 0 := by exact_mod_cast hgcd
  have hnum' : num / num.gcd den ≠ 0 :=
    Nat.div_ne_zero_iff.2 ⟨hgcd, Nat.gcd_le_left _ (Nat.pos_of_ne_zero hnum)⟩
  have hden' : den / num.gcd den ≠ 0 :=
    Nat.div_ne_zero_iff.2 ⟨hgcd, Nat.gcd_le_right _ (Nat.pos_of_ne_zero hden)⟩
  have hvalue : ((num / num.gcd den : Nat) / (den / num.gcd den : Nat) : ℚ) = num / den := by
    rw [Nat.cast_div (Nat.gcd_dvd_left ..) hgcd', Nat.cast_div (Nat.gcd_dvd_right ..) hgcd']
    exact div_div_div_cancel_right₀ hgcd' _ _
  obtain ⟨hlow, hhigh⟩ := binaryExponent_spec hnum' hden'
  have hscaled := scaledDown_value (num / num.gcd den) (den / num.gcd den)
    (lastPlace (binaryExponent (num / num.gcd den) (den / num.gcd den)))
  rw [hvalue] at hlow hhigh hscaled
  refine ⟨_, _, _, hlow, hhigh, scaledDown_den_ne_zero hden' _, hscaled, ?_⟩
  rw [floatOfFraction, if_neg hnum]
  rfl

theorem zpow_lt_iff {m n : Int} : (2 : ℚ) ^ m < 2 ^ n ↔ m < n :=
  zpow_lt_zpow_iff_right₀ one_lt_two

/-- Only one power of two lies at or below a value. -/
theorem exponent_unique {q : ℚ} {m n : Int} (hm : (2 : ℚ) ^ m ≤ q) (hm' : q < 2 ^ (m + 1))
    (hn : (2 : ℚ) ^ n ≤ q) (hn' : q < 2 ^ (n + 1)) : m = n := by
  have hmn : m < n + 1 := zpow_lt_iff.1 (hm.trans_lt hn')
  have hnm : n < m + 1 := zpow_lt_iff.1 (hn.trans_lt hm')
  omega

theorem le_roundedQuotient (a b : Nat) : a / b ≤ roundedQuotient a b := by
  rw [roundedQuotient]
  split <;> omega

theorem roundedQuotient_of_exact {a b m : Nat} (hb : b ≠ 0) (h : (a / b : ℚ) = m) :
    roundedQuotient a b = m := by
  have hb' : (b : ℚ) ≠ 0 := by exact_mod_cast hb
  have ha : a = m * b := by
    rw [div_eq_iff hb'] at h
    exact_mod_cast h
  rw [roundedQuotient, ha, Nat.mul_mod_left, Nat.mul_div_cancel _ (Nat.pos_of_ne_zero hb)]
  simp [hb.symm]

theorem roundedQuotient_of_lt_half {a b : Nat} (hb : b ≠ 0) (h : (a / b : ℚ) < 1 / 2) :
    roundedQuotient a b = 0 := by
  have hb' : (0 : ℚ) < b := by exact_mod_cast Nat.pos_of_ne_zero hb
  have hlt : 2 * a < b := by
    rw [div_lt_div_iff₀ hb' two_pos, one_mul] at h
    rw [mul_comm]
    exact_mod_cast h
  rw [roundedQuotient, Nat.mod_eq_of_lt (by omega), Nat.div_eq_of_lt (by omega)]
  simp
  omega

theorem roundedQuotient_congr {a b a' b' : Nat} (hb : b ≠ 0) (hb' : b' ≠ 0)
    (h : (a / b : ℚ) = a' / b') : roundedQuotient a b = roundedQuotient a' b' := by
  have hcross : a * b' = a' * b := by
    rw [div_eq_div_iff (by exact_mod_cast hb) (by exact_mod_cast hb')] at h
    exact_mod_cast h
  have hwhole : a / b = a' / b' := by
    rw [← Nat.mul_div_mul_right a b (Nat.pos_of_ne_zero hb'), hcross, Nat.mul_comm b b',
      Nat.mul_div_mul_right a' b' (Nat.pos_of_ne_zero hb)]
  have hrest : a % b * b' = a' % b' * b := by
    rw [← Nat.mul_mod_mul_right, hcross, Nat.mul_comm b b', Nat.mul_mod_mul_right]
  have hless : b < 2 * (a % b) ↔ b' < 2 * (a' % b') := by
    rw [← Nat.mul_lt_mul_right (Nat.pos_of_ne_zero hb'), Nat.mul_assoc, hrest, Nat.mul_comm b b',
      ← Nat.mul_assoc, Nat.mul_lt_mul_right (Nat.pos_of_ne_zero hb)]
  have hhalf : 2 * (a % b) = b ↔ 2 * (a' % b') = b' := by
    rw [← Nat.mul_left_inj hb', Nat.mul_assoc, hrest, Nat.mul_comm b b', ← Nat.mul_assoc,
      Nat.mul_left_inj hb]
  simp only [roundedQuotient, hwhole, hless, hhalf]

/-- Only the value of a fraction matters. -/
theorem floatOfFraction_congr {num' den' : Nat} (hden : den ≠ 0) (hden' : den' ≠ 0)
    (h : (num / den : ℚ) = num' / den') : floatOfFraction num den = floatOfFraction num' den' := by
  have hden₀ : (den : ℚ) ≠ 0 := by exact_mod_cast hden
  have hden₀' : (den' : ℚ) ≠ 0 := by exact_mod_cast hden'
  have hzero : num = 0 ↔ num' = 0 := by
    have hnum : (num / den : ℚ) = 0 ↔ num = 0 := by simp [hden₀]
    have hnum' : (num' / den' : ℚ) = 0 ↔ num' = 0 := by simp [hden₀']
    rw [← hnum, h, hnum']
  by_cases hnum : num = 0
  · rw [hnum, hzero.1 hnum, floatOfFraction, floatOfFraction, if_pos rfl, if_pos rfl]
  obtain ⟨e, a, b, hlow, hhigh, hb, hvalue, hfloat⟩ := floatOfFraction_spec hnum hden
  obtain ⟨e', a', b', hlow', hhigh', hb', hvalue', hfloat'⟩ :=
    floatOfFraction_spec (mt hzero.2 hnum) hden'
  rw [← h] at hlow' hhigh' hvalue'
  obtain rfl := exponent_unique hlow hhigh hlow' hhigh'
  rw [hfloat, hfloat', roundedQuotient_congr hb hb' (hvalue.trans hvalue'.symm)]

/-- What is beyond all floats reads as infinity. -/
theorem floatOfFraction_of_large (hden : den ≠ 0) (h : (2 : ℚ) ^ (1024 : Int) ≤ num / den) :
    floatOfFraction num den = Float.ofBits infinityBits.toUInt64 := by
  have hnum : num ≠ 0 := by
    rintro rfl
    rw [Nat.cast_zero, zero_div] at h
    exact absurd h (not_le.2 (zpow_pos two_pos _))
  obtain ⟨e, a, b, hlow, hhigh, hb, hvalue, hfloat⟩ := floatOfFraction_spec hnum hden
  have he : 1024 < e + 1 := zpow_lt_iff.1 (h.trans_lt hhigh)
  have hplace : lastPlace e = e - 52 := by
    rw [lastPlace]
    omega
  have hquotient : leadingBit ≤ roundedQuotient a b := by
    have hge : (leadingBit : ℚ) ≤ a / b := by
      rw [hvalue, hplace, le_div_iff₀ (zpow_pos two_pos _)]
      calc (leadingBit : ℚ) * 2 ^ (e - 52) = 2 ^ (52 : Int) * 2 ^ (e - 52) := by
            norm_num [leadingBit]
        _ = 2 ^ e := by rw [← zpow_add₀ two_ne_zero, add_sub_cancel]
        _ ≤ num / den := hlow
    refine le_trans ?_ (le_roundedQuotient a b)
    rw [Nat.le_div_iff_mul_le (Nat.pos_of_ne_zero hb)]
    rw [le_div_iff₀ (by exact_mod_cast Nat.pos_of_ne_zero hb)] at hge
    exact_mod_cast hge
  have hbits : infinityBits ≤ (lastPlace e + 1074).toNat * leadingBit + roundedQuotient a b := by
    have hpower : 2046 ≤ (lastPlace e + 1074).toNat := by omega
    have hproduct := Nat.mul_le_mul_right leadingBit hpower
    simp only [infinityBits, leadingBit] at *
    omega
  rw [hfloat, Nat.min_eq_right hbits]

/-- What is nearer to zero than to any other float reads as zero. -/
theorem floatOfFraction_of_small (hden : den ≠ 0) (h : (num / den : ℚ) < 2 ^ (-1075 : Int)) :
    floatOfFraction num den = 0 := by
  by_cases hnum : num = 0
  · rw [hnum, floatOfFraction, if_pos rfl]
  obtain ⟨e, a, b, hlow, hhigh, hb, hvalue, hfloat⟩ := floatOfFraction_spec hnum hden
  have he : e < -1075 := zpow_lt_iff.1 (hlow.trans_lt h)
  have hplace : lastPlace e = -1074 := by
    rw [lastPlace]
    omega
  have hquotient : roundedQuotient a b = 0 := by
    apply roundedQuotient_of_lt_half hb
    rw [hvalue, hplace, div_lt_iff₀ (zpow_pos two_pos _)]
    calc (num / den : ℚ) < 2 ^ (-1075 : Int) := h
      _ = 1 / 2 * 2 ^ (-1074 : Int) := by
        rw [show (-1075 : Int) = -1 + -1074 from rfl, zpow_add₀ two_ne_zero]
        norm_num
  rw [hfloat, hplace, hquotient]
  decide

/-- A mantissa and a power of two such as floats have read as that float. -/
theorem floatOfFraction_of_binary {m : Nat} {power : Int} (hden : den ≠ 0)
    (h : (num / den : ℚ) = m * 2 ^ power) (hm : m ≠ 0) (hlt : m < 2 * leadingBit)
    (hpower : leadingBit ≤ m ∧ -1074 ≤ power ∨ power = -1074) :
    floatOfFraction num den =
      Float.ofBits (min ((power + 1074).toNat * leadingBit + m) infinityBits).toUInt64 := by
  have hnum : num ≠ 0 := by
    rintro rfl
    rw [Nat.cast_zero, zero_div] at h
    have hpos : (0 : ℚ) < m * 2 ^ power :=
      mul_pos (by exact_mod_cast Nat.pos_of_ne_zero hm) (zpow_pos two_pos _)
    exact hpos.ne h
  obtain ⟨e, a, b, hlow, hhigh, hb, hvalue, hfloat⟩ := floatOfFraction_spec hnum hden
  have hbelow : e < 53 + power := by
    apply zpow_lt_iff.1
    calc (2 : ℚ) ^ e ≤ m * 2 ^ power := hlow.trans_eq h
      _ < (2 * leadingBit : Nat) * 2 ^ power := by gcongr
      _ = 2 ^ (53 + power) := by
        rw [zpow_add₀ two_ne_zero]
        norm_num [leadingBit]
  have hplace : lastPlace e = power := by
    rw [lastPlace]
    rcases hpower with ⟨hle, hpower⟩ | hpower
    · have habove : 52 + power < e + 1 := by
        apply zpow_lt_iff.1
        calc (2 : ℚ) ^ (52 + power) = leadingBit * 2 ^ power := by
              rw [zpow_add₀ two_ne_zero]
              norm_num [leadingBit]
          _ ≤ m * 2 ^ power := by gcongr
          _ < 2 ^ (e + 1) := h.symm.trans_lt hhigh
      omega
    · omega
  rw [hplace, h, mul_div_cancel_right₀ _ (zpow_pos two_pos _).ne'] at hvalue
  rw [hfloat, hplace, roundedQuotient_of_exact hb hvalue]

end Fraction

/-! ## Decimals -/

namespace Decimal

/-- The number that a decimal is. -/
def value (d : Decimal) : ℚ :=
  d.digits * 10 ^ d.exponent

def num (d : Decimal) : Nat :=
  d.digits * Nat.pow 10 d.exponent.toNat

def den (d : Decimal) : Nat :=
  Nat.pow 10 (-d.exponent).toNat

variable {d d' : Decimal}

theorem den_ne_zero (d : Decimal) : d.den ≠ 0 :=
  pow_ne_zero _ (by norm_num)

theorem num_div_den (d : Decimal) : (d.num / d.den : ℚ) = d.value := by
  have hpower : (10 : ℚ) ^ d.exponent = 10 ^ d.exponent.toNat / 10 ^ (-d.exponent).toNat := by
    rw [← zpow_natCast, ← zpow_natCast, ← zpow_sub₀ (by norm_num)]
    congr 1
    omega
  rw [value, hpower, num, den, Nat.pow_eq, Nat.pow_eq]
  push_cast
  ring

theorem value_lt_of_underflow
    (h : d.exponent + (d.digits.log2 + 1 : Nat) < -(exponentBound : Int)) :
    d.value < 2 ^ (-1075 : Int) := by
  have hdigits : (d.digits : ℚ) < 2 ^ (d.digits.log2 + 1) := by
    exact_mod_cast Nat.lt_log2_self
  have hexponent : d.exponent ≤ -401 - (d.digits.log2 + 1 : Nat) := by
    simp only [exponentBound] at h
    omega
  have hpower : (10 : ℚ) ^ (-401 - ((d.digits.log2 + 1 : Nat) : Int)) =
      10 ^ (-401 : Int) / 10 ^ (d.digits.log2 + 1) := by
    rw [zpow_sub₀ (by norm_num), zpow_natCast]
  calc d.value ≤ d.digits * 10 ^ (-401 - ((d.digits.log2 + 1 : Nat) : Int)) := by
        rw [value]
        gcongr
        norm_num
    _ ≤ 2 ^ (d.digits.log2 + 1) * (10 ^ (-401 : Int) / 10 ^ (d.digits.log2 + 1)) := by
        rw [hpower]
        gcongr
    _ = 10 ^ (-401 : Int) * (2 / 10) ^ (d.digits.log2 + 1) := by
        rw [div_pow]
        ring
    _ ≤ 10 ^ (-401 : Int) * 1 := by
        gcongr
        exact pow_le_one₀ (by norm_num) (by norm_num)
    _ < 2 ^ (-1075 : Int) := by
        have hpowers : 2 ^ 1075 < 10 ^ 401 := by decide +kernel
        rw [mul_one, zpow_neg, zpow_neg]
        exact inv_strictAnti₀ (by positivity) (by exact_mod_cast hpowers)

theorem le_value_of_overflow (hdigits : d.digits ≠ 0) (h : (exponentBound : Int) < d.exponent) :
    (2 : ℚ) ^ (1024 : Int) ≤ d.value := by
  have hone : (1 : ℚ) ≤ d.digits := by exact_mod_cast Nat.pos_of_ne_zero hdigits
  have hexponent : 401 ≤ d.exponent := by
    simp only [exponentBound] at h
    omega
  have hpowers : 2 ^ 1024 ≤ 10 ^ 401 := by decide +kernel
  calc (2 : ℚ) ^ (1024 : Int) ≤ 1 * 10 ^ (401 : Int) := by
        rw [one_mul]
        exact_mod_cast hpowers
    _ ≤ d.value := by
        rw [value]
        gcongr
        norm_num

/-- The shortcuts for extreme exponents give what the fraction itself gives. -/
theorem toFloat_eq (d : Decimal) : d.toFloat = floatOfFraction d.num d.den := by
  rw [toFloat]
  split
  · next hdigits => rw [num, hdigits, Nat.zero_mul, floatOfFraction, if_pos rfl]
  · next hdigits =>
    split
    · next hlarge =>
      rw [floatOfFraction_of_large d.den_ne_zero]
      rw [num_div_den]
      exact le_value_of_overflow hdigits hlarge
    · split
      · next hsmall =>
        rw [floatOfFraction_of_small d.den_ne_zero]
        rw [num_div_den]
        exact value_lt_of_underflow hsmall
      · split
        · next hexponent =>
          have hzero : (-d.exponent).toNat = 0 := by omega
          rw [num, den, hzero]
        · next hexponent =>
          have hzero : d.exponent.toNat = 0 := by omega
          rw [num, den, hzero]
          simp

/-- A decimal is read by its value alone. -/
theorem toFloat_congr (h : d.value = d'.value) : d.toFloat = d'.toFloat := by
  rw [toFloat_eq, toFloat_eq]
  apply floatOfFraction_congr d.den_ne_zero d'.den_ne_zero
  rw [num_div_den, num_div_den, h]

end Decimal

end Lox
