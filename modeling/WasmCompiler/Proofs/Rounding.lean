import Mathlib.Algebra.Order.Field.Basic
import Mathlib.Algebra.Order.Field.Power
import Mathlib.Data.Rat.Cast.Order
import Mathlib.Tactic.FieldSimp
import Mathlib.Tactic.Linarith
import Mathlib.Tactic.Positivity
import Mathlib.Tactic.Ring
import WasmCompiler.Number.Binary

/-! Rounding to a binary format depends only on the number that is rounded, not on how it is
written as a fraction, and a number that the format has is rounded to its own pattern. -/

namespace WasmCompiler.Number

theorem scaleByTwo_pos {num den : Nat} (hDen : 0 < den) (e : Int) :
    0 < (scaleByTwo num den e).2 := by
  cases e with
  | ofNat n => exact hDen
  | negSucc n => exact Nat.mul_pos hDen (Nat.pow_pos (by decide))

/-- Scaling multiplies a fraction by a power of two. -/
theorem scaleByTwo_value (num den : Nat) (e : Int) :
    ((scaleByTwo num den e).1 : ℚ) / (scaleByTwo num den e).2 = num / den * 2 ^ e := by
  cases e with
  | ofNat n =>
      simp only [scaleByTwo, Nat.pow_eq, Nat.cast_mul, Nat.cast_pow, Nat.cast_ofNat,
        Int.ofNat_eq_natCast, zpow_natCast]
      ring
  | negSucc n =>
      simp only [scaleByTwo, Nat.pow_eq, Nat.cast_mul, Nat.cast_pow, Nat.cast_ofNat,
        zpow_negSucc]
      rw [div_mul_eq_div_div]
      ring

/-- Two fractions of the same value are rounded alike. -/
theorem roundDiv_congr {a b c d : Nat} (hB : 0 < b) (hD : 0 < d) (h : (a : ℚ) / b = c / d) :
    roundDiv a b = roundDiv c d := by
  have hB' : (b : ℚ) ≠ 0 := by positivity
  have hD' : (d : ℚ) ≠ 0 := by positivity
  have hCross : a * d = c * b := by
    rw [div_eq_div_iff hB' hD'] at h
    exact_mod_cast h
  have hScale (x y k : Nat) (hK : 0 < k) : roundDiv (x * k) (y * k) = roundDiv x y := by
    simp only [roundDiv, Nat.mul_div_mul_right _ _ hK, Nat.mul_mod_mul_right]
    have hLt : y * k < 2 * (x % y * k) ↔ y < 2 * (x % y) := by
      rw [← mul_assoc]
      exact Nat.mul_lt_mul_right hK
    have hEq : y * k = 2 * (x % y * k) ↔ y = 2 * (x % y) := by
      rw [← mul_assoc]
      exact Nat.mul_left_inj hK.ne'
    simp only [hLt, hEq]
  calc roundDiv a b = roundDiv (a * d) (b * d) := (hScale a b d hD).symm
    _ = roundDiv (c * b) (d * b) := by rw [hCross, Nat.mul_comm b d]
    _ = roundDiv c d := hScale c d b hB

/-- A quotient that is a whole number is not rounded. -/
theorem roundDiv_of_value {a b n : Nat} (hB : 0 < b) (h : (a : ℚ) / b = n) :
    roundDiv a b = n := by
  rw [roundDiv_congr hB Nat.one_pos (by simpa using h)]
  simp [roundDiv, Nat.mod_one]

/-- A number lies between two powers of two. -/
theorem log2_bounds {n : Nat} (hN : 0 < n) :
    (2 : ℚ) ^ (n.log2 : Int) ≤ n ∧ (n : ℚ) < 2 ^ ((n.log2 : Int) + 1) := by
  constructor
  · rw [zpow_natCast]
    exact_mod_cast Nat.log2_self_le hN.ne'
  · have := @Nat.lt_log2_self n
    exact_mod_cast this

/-- A positive number has one power of two below it such that the next is above. -/
theorem floorLog2_spec {num den : Nat} (hNum : 0 < num) (hDen : 0 < den) :
    (2 : ℚ) ^ floorLog2 num den ≤ num / den ∧
      (num : ℚ) / den < 2 ^ (floorLog2 num den + 1) := by
  obtain ⟨hNumLow, hNumHigh⟩ := log2_bounds hNum
  obtain ⟨hDenLow, hDenHigh⟩ := log2_bounds hDen
  have hDen' : (0 : ℚ) < den := by positivity
  have hTwo : (2 : ℚ) ≠ 0 := two_ne_zero
  let guess : Int := (num.log2 : Int) - den.log2
  have hUpper : (num : ℚ) / den < 2 ^ (guess + 1) := by
    rw [div_lt_iff₀ hDen']
    calc (num : ℚ) < 2 ^ ((num.log2 : Int) + 1) := hNumHigh
      _ = 2 ^ (guess + 1) * 2 ^ (den.log2 : Int) := by
        rw [← zpow_add₀ hTwo]
        congr 1
        simp only [guess]
        ring
      _ ≤ 2 ^ (guess + 1) * den := by gcongr
  have hLower : (2 : ℚ) ^ (guess - 1) ≤ num / den := by
    rw [le_div_iff₀ hDen']
    calc (2 : ℚ) ^ (guess - 1) * den ≤ 2 ^ (guess - 1) * 2 ^ ((den.log2 : Int) + 1) := by gcongr
      _ = 2 ^ (num.log2 : Int) := by
        rw [← zpow_add₀ hTwo]
        congr 1
        simp only [guess]
        ring
      _ ≤ num := hNumLow
  have hScaled := scaleByTwo_value num den (-guess)
  have hPos : (0 : ℚ) < (scaleByTwo num den (-guess)).2 := by
    exact_mod_cast scaleByTwo_pos hDen _
  have hPow : (0 : ℚ) < 2 ^ guess := by positivity
  rw [zpow_neg, ← div_eq_mul_inv] at hScaled
  have hFloor : floorLog2 num den =
      if (scaleByTwo num den (-guess)).1 < (scaleByTwo num den (-guess)).2 then guess - 1
      else guess := rfl
  rw [hFloor]
  split_ifs with hSmall
  · refine ⟨hLower, ?_⟩
    have hRatio : (num : ℚ) / den / 2 ^ guess < 1 := by
      rw [← hScaled, div_lt_one hPos]
      exact_mod_cast hSmall
    rw [sub_add_cancel]
    rwa [div_lt_one hPow] at hRatio
  · refine ⟨?_, hUpper⟩
    have hRatio : 1 ≤ (num : ℚ) / den / 2 ^ guess := by
      rw [← hScaled, one_le_div hPos]
      exact_mod_cast not_lt.1 hSmall
    rwa [one_le_div hPow] at hRatio

/-- The power of two below a number is the only one with the next above. -/
theorem floorLog2_unique {num den : Nat} (hNum : 0 < num) (hDen : 0 < den) {k : Int}
    (hLow : (2 : ℚ) ^ k ≤ num / den) (hHigh : (num : ℚ) / den < 2 ^ (k + 1)) :
    floorLog2 num den = k := by
  obtain ⟨hLow', hHigh'⟩ := floorLog2_spec hNum hDen
  have hOne : (1 : ℚ) < 2 := one_lt_two
  have hLt := (zpow_lt_zpow_iff_right₀ hOne).1 (hLow.trans_lt hHigh')
  have hGt := (zpow_lt_zpow_iff_right₀ hOne).1 (hLow'.trans_lt hHigh)
  omega

namespace Format

/-- The pattern of a fraction depends only on its value. -/
theorem roundFraction_congr (f : Format) {a b c d : Nat} (hA : 0 < a) (hB : 0 < b) (hC : 0 < c)
    (hD : 0 < d) (h : (a : ℚ) / b = c / d) : f.roundFraction a b = f.roundFraction c d := by
  have hLog : floorLog2 a b = floorLog2 c d := by
    obtain ⟨hLow, hHigh⟩ := floorLog2_spec hC hD
    exact floorLog2_unique hA hB (h ▸ hLow) (h ▸ hHigh)
  have hRound (e : Int) : roundDiv (scaleByTwo a b e).1 (scaleByTwo a b e).2 =
      roundDiv (scaleByTwo c d e).1 (scaleByTwo c d e).2 :=
    roundDiv_congr (scaleByTwo_pos hB e) (scaleByTwo_pos hD e)
      (by rw [scaleByTwo_value, scaleByTwo_value, h])
  simp only [roundFraction, hLog, hRound]

/-- The number that a finite pattern without sign stands for. -/
def value (f : Format) (pattern : Nat) : ℚ := (f.decode pattern).1 * 2 ^ (f.decode pattern).2

/-- The fields of a pattern, put together again. -/
theorem field_add_fraction (f : Format) (pattern : Nat) :
    pattern / 2 ^ f.fractionBits * 2 ^ f.fractionBits + pattern % 2 ^ f.fractionBits =
      pattern := by
  rw [Nat.mul_comm]
  exact Nat.div_add_mod _ _

/-- A pattern without an exponent counts units of the smallest exponent. -/
theorem decode_subnormal (f : Format) {pattern : Nat}
    (hField : pattern / 2 ^ f.fractionBits = 0) :
    f.decode pattern = (pattern, f.minExponent) := by
  have := f.field_add_fraction pattern
  rw [hField, Nat.zero_mul, Nat.zero_add] at this
  simp [decode, Nat.pow_eq, hField, this]

/-- The exponent of a normal number is that of its field, and its first bit is not stored. -/
theorem decode_normal (f : Format) {pattern : Nat} (hField : pattern / 2 ^ f.fractionBits ≠ 0) :
    f.decode pattern = (2 ^ f.fractionBits + pattern % 2 ^ f.fractionBits,
      f.minExponent + (pattern / 2 ^ f.fractionBits - 1 : Nat)) := by
  simp [decode, Nat.pow_eq, hField]

theorem value_pos (f : Format) {pattern : Nat} (hPos : 0 < pattern) : 0 < f.value pattern := by
  unfold value
  by_cases hField : pattern / 2 ^ f.fractionBits = 0
  · rw [f.decode_subnormal hField]
    positivity
  · rw [f.decode_normal hField]
    positivity

theorem value_zero (f : Format) : f.value 0 = 0 := by
  simp [value, decode]

/-- The fraction of a pattern is its value. -/
theorem fraction_value (f : Format) (pattern : Nat) :
    ((f.fraction pattern).1 : ℚ) / (f.fraction pattern).2 = f.value pattern := by
  simp only [fraction, value, scaleByTwo_value, Nat.cast_one, div_one]

/-- The last bit that rounding keeps of a finite number is the one that its pattern counts. -/
theorem unit_eq_exponent (f : Format) {pattern num den : Nat} (hNum : 0 < num) (hDen : 0 < den)
    (hValue : (num : ℚ) / den = f.value pattern) :
    max f.minExponent (floorLog2 num den - f.fractionBits) = (f.decode pattern).2 := by
  have hTwo : (2 : ℚ) ≠ 0 := two_ne_zero
  obtain ⟨hLow, hHigh⟩ := floorLog2_spec hNum hDen
  by_cases hField : pattern / 2 ^ f.fractionBits = 0
  · have hSmall : pattern < 2 ^ f.fractionBits :=
      (Nat.div_eq_zero_iff_lt (Nat.two_pow_pos _)).1 hField
    rw [value, f.decode_subnormal hField] at hValue
    rw [f.decode_subnormal hField]
    have hBelow : (2 : ℚ) ^ floorLog2 num den < 2 ^ (f.fractionBits + f.minExponent : Int) := by
      calc (2 : ℚ) ^ floorLog2 num den ≤ pattern * 2 ^ f.minExponent := hValue ▸ hLow
        _ < 2 ^ (f.fractionBits : Int) * 2 ^ f.minExponent := by
          gcongr
          exact_mod_cast hSmall
        _ = 2 ^ (f.fractionBits + f.minExponent : Int) := (zpow_add₀ hTwo _ _).symm
    have := (zpow_lt_zpow_iff_right₀ (one_lt_two (α := ℚ))).1 hBelow
    simp only
    omega
  · rw [value, f.decode_normal hField] at hValue
    rw [f.decode_normal hField]
    dsimp only at hValue ⊢
    generalize hExp : f.minExponent + ((pattern / 2 ^ f.fractionBits - 1 : Nat) : Int) = exponent
      at hValue ⊢
    have hRest : pattern % 2 ^ f.fractionBits < 2 ^ f.fractionBits :=
      Nat.mod_lt _ (Nat.two_pow_pos _)
    have hLog : floorLog2 num den = f.fractionBits + exponent := by
      refine floorLog2_unique hNum hDen ?_ ?_
      · rw [hValue, zpow_add₀ hTwo, zpow_natCast]
        gcongr
        push_cast
        exact le_add_of_nonneg_right (by positivity)
      · have hSig :
            2 ^ f.fractionBits + pattern % 2 ^ f.fractionBits < 2 ^ (f.fractionBits + 1) := by
          rw [pow_succ]
          omega
        have hSplit : (f.fractionBits : Int) + exponent + 1 =
            ((f.fractionBits + 1 : Nat) : Int) + exponent := by
          push_cast
          ring
        rw [hValue, hSplit, zpow_add₀ hTwo, zpow_natCast]
        have hSig' : ((2 ^ f.fractionBits + pattern % 2 ^ f.fractionBits : Nat) : ℚ) <
            2 ^ (f.fractionBits + 1) := by
          exact_mod_cast hSig
        exact mul_lt_mul_of_pos_right hSig' (zpow_pos two_pos _)
    rw [hLog]
    omega

/-- A fraction that has the value of a finite pattern is rounded to that pattern. -/
theorem roundFraction_of_value (f : Format) {pattern num den : Nat} (hPos : 0 < pattern)
    (hFinite : pattern < f.infinity) (hDen : 0 < den)
    (hValue : (num : ℚ) / den = f.value pattern) : f.roundFraction num den = pattern := by
  have hNum : 0 < num := by
    have := f.value_pos hPos
    rw [← hValue] at this
    by_contra h
    simp [Nat.eq_zero_of_not_pos h] at this
  have hUnit := f.unit_eq_exponent hNum hDen hValue
  have hRound : roundDiv (scaleByTwo num den (-(f.decode pattern).2)).1
      (scaleByTwo num den (-(f.decode pattern).2)).2 = (f.decode pattern).1 := by
    refine roundDiv_of_value (scaleByTwo_pos hDen _) ?_
    rw [scaleByTwo_value, hValue, value, mul_assoc, ← zpow_add₀ two_ne_zero, add_neg_cancel,
      zpow_zero, mul_one]
  have hFields : ((f.decode pattern).2 - f.minExponent).toNat * 2 ^ f.fractionBits +
      (f.decode pattern).1 = pattern := by
    by_cases hField : pattern / 2 ^ f.fractionBits = 0
    · rw [f.decode_subnormal hField]
      simp
    · rw [f.decode_normal hField]
      simp only [add_sub_cancel_left, Int.toNat_natCast]
      obtain ⟨field, hSucc⟩ := Nat.exists_eq_succ_of_ne_zero hField
      have := f.field_add_fraction pattern
      rw [hSucc, Nat.succ_mul] at this
      rw [hSucc, Nat.succ_sub_one]
      omega
  simp only [roundFraction, hUnit, hRound, Nat.pow_eq, hFields]
  omega

end Format

end WasmCompiler.Number
