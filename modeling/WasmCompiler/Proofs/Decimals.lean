import Mathlib.Algebra.Order.Field.Power
import Mathlib.Tactic.Positivity
import Mathlib.Tactic.Ring
import WasmCompiler.Proofs.Rounding
import WasmCompiler.Tree.Literal

/-! Decimals and the numbers nearest to them. The text of a finite number reads back as that
number, whichever of its decimals is written. -/

namespace WasmCompiler.Number

section Digits

theorem toNat_of_isDigit {c : Char} (h : c.isDigit = true) : 48 ≤ c.toNat ∧ c.toNat ≤ 57 := by
  simpa [Char.isDigit, UInt32.le_iff_toNat_le] using h

theorem digitValue?_of_isDigit {c : Char} (h : c.isDigit = true) :
    digitValue? 10 c = some (c.toNat - '0'.toNat) := by
  have hNat := toNat_of_isDigit h
  have hRange : '0' ≤ c ∧ c ≤ '9' := hNat
  have hLt : c.toNat - 48 < 10 := by omega
  simp [digitValue?, hRange, hLt]

theorem continueDigits?_of_isDigit {cs : List Char} (h : ∀ c ∈ cs, c.isDigit = true)
    (start : Nat) : continueDigits? 10 start cs = some (Nat.ofDigitChars 10 cs start) := by
  induction cs generalizing start with
  | nil => simp [continueDigits?]
  | cons c cs ih =>
      obtain ⟨hHead, hTail⟩ := List.forall_mem_cons.1 h
      rw [continueDigits?, digitValue?_of_isDigit hHead, Nat.ofDigitChars_cons]
      simp only
      rw [ih hTail, Nat.mul_comm]

/-- Digits are read as a number in base ten. -/
theorem readNat?_of_isDigit {cs : List Char} (hSome : cs ≠ []) (h : ∀ c ∈ cs, c.isDigit = true) :
    readNat? 10 cs = some (Nat.ofDigitChars 10 cs 0) := by
  rw [readNat?, if_neg (by simpa using hSome), continueDigits?_of_isDigit h]

theorem isDigit_of_mem_digitsOf {n : Nat} {c : Char} (h : c ∈ digitsOf n) : c.isDigit = true :=
  Nat.isDigit_of_mem_toDigits (by decide) (by decide) h

/-- The number of digits says how large a number is. -/
theorem length_digitsOf {n : Nat} (hN : 0 < n) :
    10 ^ ((digitsOf n).length - 1) ≤ n ∧ n < 10 ^ (digitsOf n).length := by
  have hLen : 0 < (digitsOf n).length := Nat.length_toDigits_pos
  constructor
  · by_cases hOne : (digitsOf n).length - 1 = 0
    · rw [hOne]
      exact hN
    · have hIff := @Nat.length_toDigits_le_iff 10 n _ (by decide) (Nat.pos_of_ne_zero hOne)
      refine Nat.le_of_not_lt fun hLt => ?_
      have := hIff.2 hLt
      simp only [digitsOf] at this hLen
      omega
  · exact (Nat.length_toDigits_le_iff (by decide) hLen).1 (Nat.le_refl _)

end Digits

/-- The number that a decimal stands for. -/
def Decimal.value (d : Decimal) : ℚ := d.coefficient * 10 ^ d.exponent

/-- The power of ten just above a decimal. -/
def Decimal.leading (d : Decimal) : Int := d.exponent + (digitsOf d.coefficient).length

namespace Decimal

variable {d d' : Decimal}

/-- A decimal with a coefficient is positive. -/
theorem value_pos (hD : 0 < d.coefficient) : 0 < d.value := by
  unfold value
  positivity

theorem value_eq_zero : d.value = 0 ↔ d.coefficient = 0 := by
  constructor
  · intro h
    by_contra hNe
    exact (value_pos (Nat.pos_of_ne_zero hNe)).ne' h
  · intro h
    simp [value, h]

/-- The leading place of a decimal bounds it by powers of ten. -/
theorem leading_bounds (hD : 0 < d.coefficient) :
    (10 : ℚ) ^ (d.leading - 1) ≤ d.value ∧ d.value < 10 ^ d.leading := by
  obtain ⟨hLow, hHigh⟩ := length_digitsOf hD
  have hTen : (0 : ℚ) < 10 ^ d.exponent := by positivity
  have hLen : 0 < (digitsOf d.coefficient).length := Nat.length_toDigits_pos
  have hLow' : (10 : ℚ) ^ (((digitsOf d.coefficient).length - 1 : Nat) : Int) ≤ d.coefficient := by
    rw [zpow_natCast]
    exact_mod_cast hLow
  have hHigh' : (d.coefficient : ℚ) < 10 ^ ((digitsOf d.coefficient).length : Int) := by
    rw [zpow_natCast]
    exact_mod_cast hHigh
  constructor
  · calc (10 : ℚ) ^ (d.leading - 1)
        = 10 ^ (((digitsOf d.coefficient).length - 1 : Nat) : Int) * 10 ^ d.exponent := by
          rw [← zpow_add₀ (by norm_num)]
          congr 1
          unfold leading
          omega
      _ ≤ d.value := mul_le_mul_of_nonneg_right hLow' hTen.le
  · calc d.value < 10 ^ ((digitsOf d.coefficient).length : Int) * 10 ^ d.exponent :=
          mul_lt_mul_of_pos_right hHigh' hTen
      _ = 10 ^ d.leading := by
          rw [← zpow_add₀ (by norm_num), leading, add_comm]

/-- Decimals of the same value have the same leading place. -/
theorem leading_congr (hD : 0 < d.coefficient) (hD' : 0 < d'.coefficient)
    (h : d.value = d'.value) : d.leading = d'.leading := by
  obtain ⟨hLow, hHigh⟩ := leading_bounds hD
  obtain ⟨hLow', hHigh'⟩ := leading_bounds hD'
  have hOne : (1 : ℚ) < 10 := by norm_num
  have hLt := (zpow_lt_zpow_iff_right₀ hOne).1 (hLow.trans_lt (h ▸ hHigh'))
  have hGt := (zpow_lt_zpow_iff_right₀ hOne).1 (hLow'.trans_lt (h ▸ hHigh))
  omega

end Decimal

namespace Format

/-- Rounding a decimal within reach is rounding a fraction. -/
theorem roundDecimal_eq (f : Format) {d : Decimal} (hD : 0 < d.coefficient)
    (hLow : -decimalReach ≤ d.leading) (hHigh : d.leading ≤ decimalReach) :
    ∃ num den : Nat, 0 < num ∧ 0 < den ∧ (num : ℚ) / den = d.value ∧
      f.roundDecimal d = f.roundFraction num den := by
  obtain ⟨coefficient, exponent⟩ := d
  have hNotSmall : ¬ (coefficient = 0 ∨
      exponent + ((digitsOf coefficient).length : Int) < -decimalReach) := by
    rintro (rfl | hLt)
    · exact Nat.lt_irrefl _ hD
    · exact absurd hLt (not_lt.2 hLow)
  have hNotLarge : ¬ decimalReach < exponent + ((digitsOf coefficient).length : Int) :=
    not_lt.2 hHigh
  simp only [roundDecimal, if_neg hNotSmall, if_neg hNotLarge]
  cases exponent with
  | ofNat n =>
      refine ⟨_, 1, Nat.mul_pos hD (Nat.pow_pos (by decide)), Nat.one_pos, ?_, rfl⟩
      simp [Decimal.value]
  | negSucc n =>
      refine ⟨coefficient, _, hD, Nat.pow_pos (by decide), ?_, rfl⟩
      simp [Decimal.value, zpow_negSucc, div_eq_mul_inv]

/-- Rounding depends only on the number that a decimal stands for. -/
theorem roundDecimal_congr (f : Format) {d d' : Decimal} (h : d.value = d'.value) :
    f.roundDecimal d = f.roundDecimal d' := by
  by_cases hZero : d.coefficient = 0
  · have hZero' : d'.coefficient = 0 := by
      rw [← Decimal.value_eq_zero, ← h, Decimal.value_eq_zero, hZero]
    simp [roundDecimal, hZero, hZero']
  · have hD := Nat.pos_of_ne_zero hZero
    have hD' : 0 < d'.coefficient := by
      refine Nat.pos_of_ne_zero fun hZero' => hZero ?_
      rw [← Decimal.value_eq_zero, h, Decimal.value_eq_zero, hZero']
    have hLeading := Decimal.leading_congr hD hD' h
    by_cases hSmall : d.leading < -decimalReach
    · have hSmall' := hLeading ▸ hSmall
      unfold Decimal.leading at hSmall hSmall'
      simp [roundDecimal, hSmall, hSmall']
    · by_cases hLarge : decimalReach < d.leading
      · have hSmall' := hLeading ▸ hSmall
        have hLarge' := hLeading ▸ hLarge
        unfold Decimal.leading at hSmall hSmall' hLarge hLarge'
        simp [roundDecimal, hZero, hD'.ne', hSmall, hSmall', hLarge, hLarge']
      · obtain ⟨a, b, hA, hB, hValue, hRound⟩ :=
          f.roundDecimal_eq hD (not_lt.1 hSmall) (not_lt.1 hLarge)
        rw [hLeading] at hSmall hLarge
        obtain ⟨a', b', hA', hB', hValue', hRound'⟩ :=
          f.roundDecimal_eq hD' (not_lt.1 hSmall) (not_lt.1 hLarge)
        rw [hRound, hRound']
        exact f.roundFraction_congr hA hB hA' hB' (by rw [hValue, hValue', h])

/-- A finite number of 64 bits is a number of 53 bits, shifted within bounds. -/
theorem decode_bounds_double {pattern : Nat} (hPos : 0 < pattern)
    (hFinite : pattern < double.infinity) :
    1 ≤ (double.decode pattern).1 ∧ (double.decode pattern).1 < 2 ^ 53 ∧
      -1074 ≤ (double.decode pattern).2 ∧ (double.decode pattern).2 ≤ 971 := by
  have hBits : double.fractionBits = 52 := rfl
  have hMin : double.minExponent = -1074 := rfl
  have hInfinity : double.infinity = 2047 * 2 ^ 52 := rfl
  have hMod : pattern % 2 ^ 52 < 2 ^ 52 := Nat.mod_lt _ (by decide)
  by_cases hZero : pattern / 2 ^ double.fractionBits = 0
  · rw [double.decode_subnormal hZero, hMin]
    rw [hBits] at hZero
    dsimp only
    omega
  · rw [double.decode_normal hZero, hMin, hBits]
    rw [hBits] at hZero
    dsimp only
    omega

/-- The powers of two that numbers of 64 bits need are within reach of the decimals. -/
theorem two_zpow_le_reach {e : Int} (hE : e ≤ 1200) : (2 : ℚ) ^ e ≤ 10 ^ decimalReach := by
  have hEight : (2 : ℚ) ^ 1200 = 8 ^ 400 := by
    rw [show (8 : ℚ) = 2 ^ 3 by norm_num, ← pow_mul]
  calc (2 : ℚ) ^ e ≤ 2 ^ (1200 : Int) := zpow_le_zpow_right₀ one_le_two hE
    _ = 8 ^ 400 := by rw [zpow_ofNat, hEight]
    _ ≤ 10 ^ 400 := pow_le_pow_left₀ (by norm_num) (by norm_num) _
    _ = 10 ^ decimalReach := by rw [decimalReach, zpow_ofNat]

/-- Every number of the wider format is within reach. -/
theorem value_bounds_double {pattern : Nat} (hPos : 0 < pattern)
    (hFinite : pattern < double.infinity) :
    (10 : ℚ) ^ (-decimalReach) ≤ double.value pattern ∧
      double.value pattern < 10 ^ decimalReach := by
  obtain ⟨hSome, hSignificand, hLow, hHigh⟩ := decode_bounds_double hPos hFinite
  have hSome' : (1 : ℚ) ≤ (double.decode pattern).1 := by exact_mod_cast hSome
  have hSignificand' : ((double.decode pattern).1 : ℚ) < 2 ^ 53 := by exact_mod_cast hSignificand
  have hTwo : (1 : ℚ) ≤ 2 := one_le_two
  unfold value
  constructor
  · calc (10 : ℚ) ^ (-decimalReach) ≤ 1 * 2 ^ (-1074 : Int) := by
          rw [one_mul, zpow_neg, zpow_neg]
          exact inv_anti₀ (by positivity) (two_zpow_le_reach (by decide))
      _ ≤ (double.decode pattern).1 * 2 ^ (double.decode pattern).2 :=
          mul_le_mul hSome' (zpow_le_zpow_right₀ hTwo hLow) (by positivity) (by positivity)
  · calc ((double.decode pattern).1 : ℚ) * 2 ^ (double.decode pattern).2
        ≤ (double.decode pattern).1 * 2 ^ (971 : Int) :=
          mul_le_mul_of_nonneg_left (zpow_le_zpow_right₀ hTwo hHigh) (by positivity)
      _ < 2 ^ 53 * 2 ^ (971 : Int) := mul_lt_mul_of_pos_right hSignificand' (by positivity)
      _ = 2 ^ (1024 : Int) := by rw [← zpow_natCast, ← zpow_add₀ two_ne_zero]; rfl
      _ ≤ 10 ^ decimalReach := two_zpow_le_reach (by decide)

/-- A decimal that stands for a number of the wider format is rounded to that number. -/
theorem roundDecimal_of_value {pattern : Nat} (hPos : 0 < pattern)
    (hFinite : pattern < double.infinity) {d : Decimal}
    (hValue : d.value = double.value pattern) : double.roundDecimal d = pattern := by
  obtain ⟨hLow, hHigh⟩ := value_bounds_double hPos hFinite
  have hOne : (1 : ℚ) < 10 := by norm_num
  have hD : 0 < d.coefficient := by
    refine Nat.pos_of_ne_zero fun hZero => ?_
    rw [Decimal.value_eq_zero.2 hZero] at hValue
    exact (double.value_pos hPos).ne hValue
  obtain ⟨hLead, hLead'⟩ := Decimal.leading_bounds hD
  rw [hValue] at hLead hLead'
  have hUpper := (zpow_lt_zpow_iff_right₀ hOne).1 (hLead.trans_lt hHigh)
  have hLower := (zpow_lt_zpow_iff_right₀ hOne).1 (hLow.trans_lt hLead')
  obtain ⟨num, den, -, hDen, hFraction, hRound⟩ :=
    double.roundDecimal_eq hD hLower.le (by omega)
  rw [hRound]
  exact double.roundFraction_of_value hPos hFinite hDen (by rw [hFraction, hValue])

/-- Written in full, a number times a power of two keeps its value. -/
theorem value_exactDecimal (significand : Nat) (exponent : Int) :
    (exactDecimal significand exponent).value = significand * 2 ^ exponent := by
  cases exponent with
  | ofNat n => simp [exactDecimal, Decimal.value]
  | negSucc n =>
      simp only [exactDecimal, Decimal.value, zpow_negSucc, Nat.cast_mul, Nat.pow_eq, Nat.cast_pow,
        Nat.cast_ofNat]
      have hTen : (10 : ℚ) ^ (n + 1) = 2 ^ (n + 1) * 5 ^ (n + 1) := by
        rw [← mul_pow]
        norm_num
      rw [hTen]
      field_simp

/-- The decimal that is written for a number is rounded to that number. -/
theorem roundDecimal_shortest {pattern : Nat} (hPos : 0 < pattern)
    (hFinite : pattern < double.infinity) :
    double.roundDecimal (double.shortest pattern) = pattern := by
  unfold shortest
  simp only
  generalize hFind : List.find? _ _ = found
  cases found with
  | some d => simpa using List.find?_some hFind
  | none => exact roundDecimal_of_value hPos hFinite (value_exactDecimal _ _)

end Format

end WasmCompiler.Number
