import Mathlib.Order.Monotone.Basic
import WasmCompiler.Proofs.Decimals

/-! Rounding to a binary format gives the nearest number, and of two that are equally near the one
with the even pattern. The patterns of a format are in the order of their numbers, so the numbers
that are rounded to a pattern are those between the points halfway to its two neighbours. -/

namespace WasmCompiler.Number

/-- A whole number that a fraction is rounded to is at most one half away, and even if it is just
one half away. -/
theorem roundDiv_bounds {num den : Nat} (hDen : 0 < den) :
    (roundDiv num den : ℚ) - 1 / 2 ≤ num / den ∧ (num : ℚ) / den ≤ roundDiv num den + 1 / 2 ∧
      ((num : ℚ) / den = roundDiv num den - 1 / 2 ∨ (num : ℚ) / den = roundDiv num den + 1 / 2 →
        roundDiv num den % 2 = 0) := by
  have hDen' : (0 : ℚ) < den := by exact_mod_cast hDen
  let rest : ℚ := (num % den : Nat) / den
  have hSplit : (num : ℚ) / den = (num / den : Nat) + rest := by
    have hNum : (num : ℚ) = den * (num / den : Nat) + (num % den : Nat) := by
      exact_mod_cast (Nat.div_add_mod num den).symm
    rw [hNum, add_div, mul_div_cancel_left₀ _ hDen'.ne']
  have hNonneg : 0 ≤ rest := by positivity
  have hLess : rest < 1 := by
    rw [div_lt_one hDen']
    exact_mod_cast Nat.mod_lt num hDen
  have hAbove : den < 2 * (num % den) ↔ 1 / 2 < rest := by
    rw [div_lt_div_iff₀ two_pos hDen', one_mul, mul_comm]
    exact_mod_cast Iff.rfl
  have hTie : den = 2 * (num % den) ↔ 1 / 2 = rest := by
    rw [div_eq_div_iff two_ne_zero hDen'.ne', one_mul, mul_comm _ 2]
    exact_mod_cast Iff.rfl
  simp only [roundDiv, hAbove, hTie, hSplit]
  split_ifs with hUp
  · push_cast
    rcases hUp with hUp | ⟨hUp, hOdd⟩
    · refine ⟨by linarith, by linarith, fun hEnd => ?_⟩
      rcases hEnd with hEnd | hEnd <;> linarith
    · exact ⟨by linarith, by linarith, fun _ => by omega⟩
  · rw [not_or, not_lt, not_and] at hUp
    obtain ⟨hLe, hEven⟩ := hUp
    refine ⟨by linarith, by linarith, fun hEnd => ?_⟩
    have hHalf : 1 / 2 = rest := by
      rcases hEnd with hEnd | hEnd <;> linarith
    have := hEven hHalf
    omega

namespace Format

variable (f : Format)

section Values

/-- A pattern counts units of an exponent. Both fields follow from the count, also where it carries
into the next exponent. -/
theorem value_of_units {e count : Nat} (hLow : e = 0 ∨ 2 ^ f.fractionBits ≤ count)
    (hHigh : count ≤ 2 * 2 ^ f.fractionBits) :
    f.value (e * 2 ^ f.fractionBits + count) = count * 2 ^ (f.minExponent + e) := by
  have hPos : 0 < 2 ^ f.fractionBits := Nat.two_pow_pos _
  unfold value
  generalize hSize : 2 ^ f.fractionBits = size at *
  rcases Nat.lt_or_ge count size with hSmall | hLarge
  · obtain rfl : e = 0 := hLow.resolve_right (by omega)
    rw [f.decode_subnormal (by rw [hSize, Nat.zero_mul, Nat.zero_add, Nat.div_eq_of_lt hSmall])]
    simp
  · have hSplit : e * size + count = (count - size) + (e + 1) * size := by
      rw [Nat.succ_mul]
      omega
    rcases Nat.lt_or_ge count (2 * size) with hLess | hFull
    · have hRest : count - size < size := by omega
      have hDiv : (e * size + count) / size = e + 1 := by
        rw [hSplit, Nat.add_mul_div_right _ _ hPos, Nat.div_eq_of_lt hRest, Nat.zero_add]
      have hMod : (e * size + count) % size = count - size := by
        rw [hSplit, Nat.add_mul_mod_self_right, Nat.mod_eq_of_lt hRest]
      rw [f.decode_normal (by rw [hSize, hDiv]; exact Nat.succ_ne_zero e), hSize, hDiv, hMod]
      simp only [Nat.add_sub_cancel, Nat.add_sub_cancel' hLarge]
    · obtain rfl : count = 2 * size := by omega
      have hTwo : e * size + 2 * size = (e + 2) * size := by ring
      have hField : (e + 2) * size / 2 ^ f.fractionBits ≠ 0 := by
        rw [hSize, Nat.mul_div_cancel _ hPos]
        exact Nat.succ_ne_zero _
      rw [hTwo, f.decode_normal hField, hSize, Nat.mul_div_cancel _ hPos, Nat.mul_mod_left]
      push_cast
      rw [← add_assoc, zpow_add_one₀ two_ne_zero]
      ring

/-- The units that a pattern counts. -/
theorem exists_units (pattern : Nat) : ∃ e count, pattern = e * 2 ^ f.fractionBits + count ∧
    (e = 0 ∨ 2 ^ f.fractionBits ≤ count) ∧ count < 2 * 2 ^ f.fractionBits ∧
    f.decode pattern = (count, f.minExponent + (e : Nat)) := by
  have hFields := f.field_add_fraction pattern
  have hRest : pattern % 2 ^ f.fractionBits < 2 ^ f.fractionBits :=
    Nat.mod_lt _ (Nat.two_pow_pos _)
  by_cases hField : pattern / 2 ^ f.fractionBits = 0
  · rw [hField, Nat.zero_mul, Nat.zero_add] at hFields
    exact ⟨0, pattern, by simp, .inl rfl, by omega, by simp [f.decode_subnormal hField]⟩
  · obtain ⟨e, hE⟩ := Nat.exists_eq_succ_of_ne_zero hField
    refine ⟨e, 2 ^ f.fractionBits + pattern % 2 ^ f.fractionBits, ?_, .inr (by omega), by omega, ?_⟩
    · rw [hE, Nat.succ_mul] at hFields
      omega
    · rw [f.decode_normal hField, hE, Nat.succ_sub_one]

/-- A number with few enough bits, none of them too small, is a number of the format. -/
theorem exists_value_eq {m : Nat} {e : Int} (hM : 0 < m)
    (hBits : m < 2 ^ (f.fractionBits + 1)) (hE : f.minExponent + f.fractionBits ≤ e) :
    ∃ pattern, f.value pattern = m * 2 ^ e := by
  have hLog : m.log2 ≤ f.fractionBits := Nat.lt_succ_iff.1 ((Nat.log2_lt hM.ne').2 hBits)
  obtain ⟨shift, hShift⟩ := Nat.exists_eq_add_of_le hLog
  obtain ⟨lead, hLead⟩ := Int.eq_ofNat_of_zero_le (show 0 ≤ e - shift - f.minExponent by omega)
  have hLow : 2 ^ f.fractionBits ≤ m * 2 ^ shift := by
    rw [hShift, pow_add]
    exact Nat.mul_le_mul_right _ (Nat.log2_self_le hM.ne')
  have hHigh : m * 2 ^ shift ≤ 2 * 2 ^ f.fractionBits := by
    rw [hShift, pow_add, ← Nat.mul_assoc, ← pow_succ']
    exact Nat.mul_le_mul_right _ Nat.lt_log2_self.le
  refine ⟨lead * 2 ^ f.fractionBits + m * 2 ^ shift, ?_⟩
  rw [f.value_of_units (.inr hLow) hHigh, show f.minExponent + lead = e - shift by omega]
  push_cast
  rw [mul_assoc, ← zpow_natCast, ← zpow_add₀ two_ne_zero]
  congr 2
  omega

/-- From one number to the next it is one unit. -/
theorem value_succ (pattern : Nat) :
    f.value (pattern + 1) = f.value pattern + 2 ^ (f.decode pattern).2 := by
  obtain ⟨e, count, hPattern, hLow, hHigh, hDecode⟩ := f.exists_units pattern
  have hNext : f.value (e * 2 ^ f.fractionBits + (count + 1)) =
      (count + 1 : Nat) * 2 ^ (f.minExponent + e) :=
    f.value_of_units (hLow.imp_right fun h => by omega) (by omega)
  rw [← Nat.add_assoc, ← hPattern] at hNext
  rw [hNext, value, hDecode]
  push_cast
  ring

/-- Larger patterns are larger numbers. -/
theorem value_strictMono : StrictMono f.value :=
  strictMono_nat_of_lt_succ fun pattern => by
    rw [f.value_succ]
    exact lt_add_of_pos_right _ (by positivity)

/-- The point halfway from a number to the next. -/
def midpoint (pattern : Nat) : ℚ := (f.value pattern + f.value (pattern + 1)) / 2

theorem midpoint_strictMono : StrictMono f.midpoint := fun a b hLess => by
  have hFirst := f.value_strictMono hLess
  have hNext := f.value_strictMono (Nat.succ_lt_succ hLess)
  unfold midpoint
  linarith

/-- Between two numbers lies half of the last place. -/
theorem midpoint_eq (pattern : Nat) :
    f.midpoint pattern = f.value pattern + 2 ^ (f.decode pattern).2 / 2 := by
  rw [midpoint, value_succ]
  ring

theorem midpoint_eq_sub (pattern : Nat) :
    f.midpoint pattern = f.value (pattern + 1) - 2 ^ (f.decode pattern).2 / 2 := by
  rw [midpoint, value_succ]
  ring

theorem midpoint_lt_value_succ (pattern : Nat) : f.midpoint pattern < f.value (pattern + 1) := by
  have := f.value_strictMono (Nat.lt_succ_self pattern)
  unfold midpoint
  linarith

end Values

/-- The pattern of the number nearest to `q`, and the even pattern if two are equally near. Infinity
stands for the number that follows the largest finite one. -/
structure IsNearest (q : ℚ) (pattern : Nat) : Prop where
  le_infinity : pattern ≤ f.infinity
  nearest : ∀ other ≤ f.infinity, other ≠ pattern →
    |q - f.value pattern| < |q - f.value other| ∨
      |q - f.value pattern| = |q - f.value other| ∧ pattern % 2 = 0

/-- The same by the points halfway to the neighbours, which belong to the even patterns. -/
structure IsBetween (q : ℚ) (pattern : Nat) : Prop where
  le_infinity : pattern ≤ f.infinity
  low : ∀ k, pattern = k + 1 → f.midpoint k ≤ q
  low_even : ∀ k, pattern = k + 1 → f.midpoint k = q → pattern % 2 = 0
  high : pattern < f.infinity → q ≤ f.midpoint pattern
  high_even : pattern < f.infinity → q = f.midpoint pattern → pattern % 2 = 0

section Nearest

/-- The point halfway between two numbers tells which of them is nearer. -/
theorem abs_sub_lt_iff {a b q : ℚ} (hLess : a < b) :
    (|q - a| < |q - b| ↔ q < (a + b) / 2) ∧ (|q - b| < |q - a| ↔ (a + b) / 2 < q) := by
  have hPos : 0 < 2 * (b - a) := by linarith
  constructor
  · have hSquares : (q - b) ^ 2 - (q - a) ^ 2 = 2 * (b - a) * ((a + b) / 2 - q) := by ring
    rw [← sq_lt_sq, ← sub_pos, hSquares, mul_pos_iff_of_pos_left hPos, sub_pos]
  · have hSquares : (q - a) ^ 2 - (q - b) ^ 2 = 2 * (b - a) * (q - (a + b) / 2) := by ring
    rw [← sq_lt_sq, ← sub_pos, hSquares, mul_pos_iff_of_pos_left hPos, sub_pos]

/-- Only the point halfway between two numbers is as near to one as to the other. -/
theorem abs_sub_eq_iff {a b q : ℚ} (hLess : a < b) :
    |q - a| = |q - b| ↔ q = (a + b) / 2 := by
  obtain ⟨hFirst, hSecond⟩ := @abs_sub_lt_iff a b q hLess
  rw [le_antisymm_iff, ← not_lt, ← not_lt, hFirst, hSecond, not_lt, not_lt, le_antisymm_iff]

variable {f} {q : ℚ} {pattern pattern' : Nat}

/-- The nearest number is found between the midpoints around it. -/
theorem IsNearest.isBetween (h : f.IsNearest q pattern) : f.IsBetween q pattern := by
  have hBelow {k : Nat} (hK : pattern = k + 1) : f.midpoint k < q ∨
      f.midpoint k = q ∧ pattern % 2 = 0 := by
    have hLess := f.value_strictMono (Nat.lt_succ_self k)
    have hLe := h.le_infinity
    rcases h.nearest k (by omega) (by omega) with hNear | ⟨hSame, hEven⟩
    · rw [hK] at hNear
      exact .inl ((abs_sub_lt_iff hLess).2.1 hNear)
    · rw [hK, eq_comm] at hSame
      exact .inr ⟨((abs_sub_eq_iff hLess).1 hSame).symm, hEven⟩
  have hAbove (hFinite : pattern < f.infinity) : q < f.midpoint pattern ∨
      q = f.midpoint pattern ∧ pattern % 2 = 0 := by
    have hLess := f.value_strictMono (Nat.lt_succ_self pattern)
    rcases h.nearest (pattern + 1) hFinite (by omega) with hNear | ⟨hSame, hEven⟩
    · exact .inl ((abs_sub_lt_iff hLess).1.1 hNear)
    · exact .inr ⟨(abs_sub_eq_iff hLess).1 hSame, hEven⟩
  refine ⟨h.le_infinity, fun k hK => ?_, fun k hK hEq => ?_, fun hFinite => ?_,
    fun hFinite hEq => ?_⟩
  · exact (hBelow hK).elim le_of_lt fun hEnd => hEnd.1.le
  · exact ((hBelow hK).resolve_left (by rw [hEq]; exact lt_irrefl q)).2
  · exact (hAbove hFinite).elim le_of_lt fun hEnd => hEnd.1.le
  · exact ((hAbove hFinite).resolve_left (by rw [← hEq]; exact lt_irrefl q)).2

/-- What lies between the midpoints around a number is nearest to it. -/
theorem IsBetween.isNearest (h : f.IsBetween q pattern) : f.IsNearest q pattern := by
  refine ⟨h.le_infinity, fun other hOther hNe => ?_⟩
  rcases Nat.lt_or_gt_of_ne hNe with hBelow | hAbove
  · obtain ⟨k, hK⟩ : ∃ k, pattern = k + 1 := ⟨pattern - 1, by omega⟩
    have hLess := f.value_strictMono hBelow
    have hLe := f.value_strictMono.monotone (show other ≤ k by omega)
    have hLow := h.low k hK
    have hMid : (f.value other + f.value pattern) / 2 ≤ f.midpoint k := by
      rw [midpoint, ← hK]
      linarith
    rcases (hMid.trans hLow).lt_or_eq with hNear | hSame
    · exact .inl ((abs_sub_lt_iff hLess).2.2 hNear)
    · exact .inr ⟨((abs_sub_eq_iff hLess).2 hSame.symm).symm,
        h.low_even k hK (hLow.antisymm (hSame ▸ hMid))⟩
  · have hFinite : pattern < f.infinity := hAbove.trans_le hOther
    have hLess := f.value_strictMono hAbove
    have hLe := f.value_strictMono.monotone (show pattern + 1 ≤ other from hAbove)
    have hHigh := h.high hFinite
    have hMid : f.midpoint pattern ≤ (f.value pattern + f.value other) / 2 := by
      rw [midpoint]
      linarith
    rcases (hHigh.trans hMid).lt_or_eq with hNear | hSame
    · exact .inl ((abs_sub_lt_iff hLess).1.2 hNear)
    · exact .inr ⟨(abs_sub_eq_iff hLess).2 hSame,
        h.high_even hFinite (hHigh.antisymm (hSame ▸ hMid))⟩

/-- A number is rounded to one pattern only. -/
theorem IsNearest.unique (h : f.IsNearest q pattern) (h' : f.IsNearest q pattern') :
    pattern = pattern' := by
  have hNotLess {a b : Nat} (hA : f.IsNearest q a) (hB : f.IsNearest q b) : ¬a < b := by
    intro hLess
    obtain ⟨k, rfl⟩ : ∃ k, b = k + 1 := ⟨b - 1, by omega⟩
    have hFinite : a < f.infinity := hLess.trans_le hB.le_infinity
    have hHigh := hA.isBetween.high hFinite
    have hLow := hB.isBetween.low k rfl
    -- both lie at one halfway point, so they are neighbours, and both are even
    have hMono := f.midpoint_strictMono.monotone (show a ≤ k by omega)
    have hSame : a = k := f.midpoint_strictMono.injective (le_antisymm hMono (hLow.trans hHigh))
    have hEven := hA.isBetween.high_even hFinite (hHigh.antisymm (hMono.trans hLow))
    have hEven' := hB.isBetween.low_even k rfl (hLow.antisymm (hHigh.trans hMono))
    omega
  exact Nat.le_antisymm (Nat.le_of_not_lt (hNotLess h' h)) (Nat.le_of_not_lt (hNotLess h h'))

/-- Rounding keeps the order: it does not leap over a number of the format. -/
theorem IsNearest.value_le (h : f.IsNearest q pattern) {other : Nat} (hOther : other ≤ f.infinity)
    (hLe : f.value other ≤ q) : f.value other ≤ f.value pattern := by
  by_contra hLess
  rw [not_le] at hLess
  have hNear : |q - f.value other| < |q - f.value pattern| :=
    (abs_sub_lt_iff hLess).2.2 (by linarith)
  rcases h.nearest other hOther (by rintro rfl; exact lt_irrefl _ hLess) with hFar | ⟨hSame, -⟩
  · exact lt_asymm hNear hFar
  · exact hNear.ne' hSame

/-- Rounding does not pass a number of the format from below. -/
theorem IsNearest.le_value (h : f.IsNearest q pattern) {other : Nat} (hOther : other ≤ f.infinity)
    (hLe : q ≤ f.value other) : f.value pattern ≤ f.value other := by
  by_contra hLess
  rw [not_le] at hLess
  have hNear : |q - f.value other| < |q - f.value pattern| :=
    (abs_sub_lt_iff hLess).1.2 (by linarith)
  rcases h.nearest other hOther (by rintro rfl; exact lt_irrefl _ hLess) with hFar | ⟨hSame, -⟩
  · exact lt_asymm hNear hFar
  · exact hNear.ne' hSame

end Nearest

section Extremes

variable {f} {q : ℚ}

theorem infinity_even (hBits : 0 < f.fractionBits) : f.infinity % 2 = 0 := by
  obtain ⟨bits, hSucc⟩ := Nat.exists_eq_succ_of_ne_zero hBits.ne'
  rw [infinity, Nat.pow_eq, Nat.pow_eq, hSucc, pow_succ, ← Nat.mul_assoc, Nat.mul_mod_left]

/-- What is above the last midpoint is nearest to infinity. -/
theorem isBetween_infinity (hBits : 0 < f.fractionBits)
    (hQ : ∀ k, f.infinity = k + 1 → f.midpoint k ≤ q) : f.IsBetween q f.infinity where
  le_infinity := le_rfl
  low := hQ
  low_even _ _ _ := infinity_even hBits
  high hLess := absurd hLess (lt_irrefl _)
  high_even hLess := absurd hLess (lt_irrefl _)

/-- What is as large as infinity would be is nearest to it. -/
theorem isNearest_infinity (hBits : 0 < f.fractionBits) (hQ : f.value f.infinity ≤ q) :
    f.IsNearest q f.infinity := by
  refine (isBetween_infinity hBits fun k hK => ?_).isNearest
  rw [hK] at hQ
  exact (f.midpoint_lt_value_succ k).le.trans hQ

/-- What lies halfway from the largest number to the next, or beyond, is rounded to infinity. -/
theorem IsNearest.eq_infinity_iff {pattern largest : Nat} (h : f.IsNearest q pattern)
    (hBits : 0 < f.fractionBits) (hLargest : f.infinity = largest + 1) :
    pattern = f.infinity ↔ f.midpoint largest ≤ q := by
  constructor
  · rintro rfl
    exact h.isBetween.low largest hLargest
  · intro hLe
    refine h.unique (isBetween_infinity hBits fun k hK => ?_).isNearest
    rwa [show k = largest by omega]

/-- What is at most half the smallest number is rounded to zero. -/
theorem isNearest_zero (hQ : q ≤ f.midpoint 0) : f.IsNearest q 0 :=
  IsBetween.isNearest ⟨Nat.zero_le _, nofun, nofun, fun _ => hQ, fun _ _ => rfl⟩

/-- Zero is nearest up to half of the smallest number. -/
theorem midpoint_zero : f.midpoint 0 = 2 ^ (f.minExponent - 1) := by
  have hDecode : f.decode 0 = (0, f.minExponent) := f.decode_subnormal (Nat.zero_div _)
  rw [midpoint_eq, value_zero, hDecode, zero_add, zpow_sub_one₀ two_ne_zero, div_eq_mul_inv]

theorem isNearest_zero_zero : f.IsNearest 0 0 := by
  refine isNearest_zero ?_
  rw [midpoint_zero]
  positivity

/-- Infinity stands where the next power of two would. -/
theorem value_infinity (hBits : 0 < f.exponentBits) : f.value f.infinity =
    2 ^ (f.fractionBits + (f.minExponent + (2 ^ f.exponentBits - 2 : Nat)) : Int) := by
  have hTwo : 2 ^ 1 ≤ 2 ^ f.exponentBits := Nat.pow_le_pow_right two_pos hBits
  have hInfinity : f.infinity =
      (2 ^ f.exponentBits - 2) * 2 ^ f.fractionBits + 2 ^ f.fractionBits := by
    rw [infinity, Nat.pow_eq, Nat.pow_eq, ← Nat.succ_mul]
    congr 1
    omega
  rw [hInfinity, f.value_of_units (.inr le_rfl) (by omega),
    zpow_add₀ two_ne_zero (f.fractionBits : Int), zpow_natCast, Nat.cast_pow, Nat.cast_ofNat]

theorem value_infinity_single : single.value single.infinity = 2 ^ (128 : Int) :=
  @value_infinity single (by decide)

theorem value_infinity_double : double.value double.infinity = 2 ^ (1024 : Int) :=
  @value_infinity double (by decide)

/-- Numbers up to the largest of 32 bits are finite with 64 bits. -/
theorem lt_infinity_double_of_value {pattern : Nat}
    (h : double.value pattern ≤ single.value single.infinity) : pattern < double.infinity := by
  refine double.value_strictMono.lt_iff_lt.1 (h.trans_lt ?_)
  rw [value_infinity_single, value_infinity_double]
  exact zpow_lt_zpow_right₀ one_lt_two (by decide)

/-- Every finite number of 32 bits is a number of 64 bits. -/
theorem exists_value_eq_single {pattern : Nat} (h : pattern < single.infinity) :
    ∃ wide < double.infinity, double.value wide = single.value pattern := by
  have hBound : single.value pattern ≤ single.value single.infinity :=
    single.value_strictMono.monotone h.le
  rcases Nat.eq_zero_or_pos pattern with rfl | hPos
  · exact ⟨0, by decide, by rw [value_zero, value_zero]⟩
  · obtain ⟨e, count, hPattern, hLow, hCount, hDecode⟩ := single.exists_units pattern
    have hFraction : single.fractionBits = 23 := rfl
    have hExponent : single.minExponent = -149 := rfl
    rw [hFraction] at hPattern hLow hCount
    obtain ⟨wide, hWide⟩ := @double.exists_value_eq count (single.minExponent + e) (by omega)
      (by change _ < 2 ^ 53; omega) (by rw [hExponent]; change (-1074 : Int) + 52 ≤ _; omega)
    have hSame : double.value wide = single.value pattern := by rw [hWide, value, hDecode]
    exact ⟨wide, lt_infinity_double_of_value (hSame ▸ hBound), hSame⟩

end Extremes

section Rounding

/-- The units that rounding counts, given the number in these units. -/
structure Counts (x : ℚ) (e count : Nat) : Prop where
  low : e = 0 ∨ (2 : ℚ) ^ f.fractionBits ≤ x
  high : x < 2 * 2 ^ f.fractionBits
  near_low : (count : ℚ) - 1 / 2 ≤ x
  near_high : x ≤ count + 1 / 2
  even : x = count - 1 / 2 ∨ x = count + 1 / 2 → count % 2 = 0

/-- A fraction is rounded by the count of its last places. -/
theorem roundFraction_eq {num den : Nat} (hNum : 0 < num) (hDen : 0 < den) :
    ∃ x e count, f.Counts x e count ∧ (num : ℚ) / den = x * 2 ^ (f.minExponent + (e : Nat)) ∧
      f.roundFraction num den = min (e * 2 ^ f.fractionBits + count) f.infinity := by
  obtain ⟨hLow, hHigh⟩ := floorLog2_spec hNum hDen
  have hTwo : (2 : ℚ) ≠ 0 := two_ne_zero
  let unit := max f.minExponent (floorLog2 num den - f.fractionBits)
  let e := (unit - f.minExponent).toNat
  have hUnit : unit = f.minExponent + e := by omega
  let scaled := scaleByTwo num den (-unit)
  have hScaled : (scaled.1 : ℚ) / scaled.2 = num / den * 2 ^ (-unit) := scaleByTwo_value _ _ _
  have hNear := @roundDiv_bounds scaled.1 scaled.2 (scaleByTwo_pos hDen _)
  rw [hScaled] at hNear
  refine ⟨num / den * 2 ^ (-unit), e, roundDiv scaled.1 scaled.2,
    ⟨?_, ?_, hNear.1, hNear.2.1, hNear.2.2⟩, ?_, rfl⟩
  · rcases Nat.eq_zero_or_pos e with hE | hE
    · exact .inl hE
    · right
      have hSum : (f.fractionBits : Int) = floorLog2 num den + -unit := by omega
      rw [← zpow_natCast, hSum, zpow_add₀ hTwo]
      exact mul_le_mul_of_nonneg_right hLow (by positivity)
  · calc (num : ℚ) / den * 2 ^ (-unit) < 2 ^ (floorLog2 num den + 1) * 2 ^ (-unit) :=
          mul_lt_mul_of_pos_right hHigh (by positivity)
      _ = 2 ^ (floorLog2 num den + 1 + -unit) := (zpow_add₀ hTwo _ _).symm
      _ ≤ 2 ^ ((f.fractionBits : Int) + 1) := zpow_le_zpow_right₀ one_le_two (by omega)
      _ = 2 * 2 ^ f.fractionBits := by rw [zpow_add_one₀ hTwo, zpow_natCast, mul_comm]
  · rw [← hUnit, mul_assoc, ← zpow_add₀ hTwo, neg_add_cancel, zpow_zero, mul_one]

variable {f} {x : ℚ} {e count : Nat}

/-- The count is that of a normal number, unless the exponent is the smallest. -/
theorem Counts.count_bounds (h : f.Counts x e count) :
    (e = 0 ∨ 2 ^ f.fractionBits ≤ count) ∧ count ≤ 2 * 2 ^ f.fractionBits := by
  have hLow := h.near_low
  have hHigh := h.near_high
  constructor
  · refine h.low.imp_right fun hX => ?_
    have hLess : ((2 ^ f.fractionBits : Nat) : ℚ) < (count + 1 : Nat) := by
      push_cast
      linarith
    exact Nat.lt_succ_iff.1 (by exact_mod_cast hLess)
  · have hX := h.high
    have hLess : (count : ℚ) < (2 * 2 ^ f.fractionBits + 1 : Nat) := by
      push_cast
      linarith
    exact Nat.lt_succ_iff.1 (by exact_mod_cast hLess)

/-- The pattern of a count has the value of that many last places. -/
theorem Counts.value_eq (h : f.Counts x e count) :
    f.value (e * 2 ^ f.fractionBits + count) = count * 2 ^ (f.minExponent + (e : Nat)) :=
  f.value_of_units h.count_bounds.1 h.count_bounds.2

/-- The next number is at least one unit away. -/
theorem Counts.le_midpoint (h : f.Counts x e count) :
    ((count : ℚ) + 1 / 2) * 2 ^ (f.minExponent + (e : Nat)) ≤
      f.midpoint (e * 2 ^ f.fractionBits + count) := by
  obtain ⟨hLow, hHigh⟩ := h.count_bounds
  have hPos := Nat.two_pow_pos f.fractionBits
  have hUnit : (0 : ℚ) < 2 ^ (f.minExponent + (e : Int)) := by positivity
  have hNext : ((count : ℚ) + 1) * 2 ^ (f.minExponent + (e : Nat)) ≤
      f.value (e * 2 ^ f.fractionBits + count + 1) := by
    rcases hHigh.lt_or_eq with hLess | hFull
    · rw [Nat.add_assoc, f.value_of_units (hLow.imp_right fun hLe => by omega) hLess]
      push_cast
      exact le_rfl
    · -- the count carries into the next exponent, whose units are twice as large
      have hCarry : e * 2 ^ f.fractionBits + count + 1 =
          (e + 1) * 2 ^ f.fractionBits + (2 ^ f.fractionBits + 1) := by
        rw [hFull]
        ring
      rw [hCarry, f.value_of_units (.inr (by omega)) (by omega), hFull]
      push_cast
      rw [← add_assoc, zpow_add_one₀ two_ne_zero]
      linarith
  rw [midpoint, h.value_eq]
  linarith

/-- The number before is one unit away, but for the first number of an exponent, below which nothing
is counted in its units. -/
theorem Counts.midpoint_le (h : f.Counts x e count) {k : Nat}
    (hK : e * 2 ^ f.fractionBits + count = k + 1) :
    f.midpoint k ≤ (count - 1 / 2) * 2 ^ (f.minExponent + (e : Nat)) ∨
      f.midpoint k < x * 2 ^ (f.minExponent + (e : Nat)) := by
  obtain ⟨hLow, hHigh⟩ := h.count_bounds
  have hUnit : (0 : ℚ) < 2 ^ (f.minExponent + (e : Int)) := by positivity
  have hValue := h.value_eq
  rw [hK] at hValue
  by_cases hInside : e = 0 ∨ 2 ^ f.fractionBits < count
  · have hSome : 0 < count := by
      rcases hInside with rfl | hInside
      · omega
      · exact Nat.zero_lt_of_lt hInside
    have hBefore := f.value_of_units (hInside.imp_right fun hLess => Nat.le_sub_one_of_lt hLess)
      (show count - 1 ≤ _ by omega)
    rw [show e * 2 ^ f.fractionBits + (count - 1) = k by omega, Nat.cast_pred hSome] at hBefore
    left
    rw [midpoint, hBefore, hValue]
    linarith
  · obtain ⟨hE, hLe⟩ := not_or.1 hInside
    right
    calc f.midpoint k < f.value (k + 1) := f.midpoint_lt_value_succ k
      _ = count * 2 ^ (f.minExponent + (e : Nat)) := hValue
      _ ≤ 2 ^ f.fractionBits * 2 ^ (f.minExponent + (e : Nat)) := by
        refine mul_le_mul_of_nonneg_right ?_ hUnit.le
        exact_mod_cast not_lt.1 hLe
      _ ≤ x * 2 ^ (f.minExponent + (e : Nat)) :=
        mul_le_mul_of_nonneg_right (h.low.resolve_left hE) hUnit.le

/-- A tie goes to the even pattern. -/
theorem Counts.even_pattern (h : f.Counts x e count) (hBits : 0 < f.fractionBits)
    (hTie : x = count - 1 / 2 ∨ x = count + 1 / 2) :
    (e * 2 ^ f.fractionBits + count) % 2 = 0 := by
  obtain ⟨bits, hSucc⟩ := Nat.exists_eq_succ_of_ne_zero hBits.ne'
  have hEven := h.even hTie
  rw [hSucc, pow_succ, ← Nat.mul_assoc]
  omega

/-- What is counted lies between the points halfway to its neighbours. If there is no pattern for
it, it lies beyond the one before infinity. -/
theorem Counts.isBetween (h : f.Counts x e count) (hBits : 0 < f.fractionBits) :
    f.IsBetween (x * 2 ^ (f.minExponent + (e : Nat)))
      (min (e * 2 ^ f.fractionBits + count) f.infinity) := by
  have hUnit : (0 : ℚ) < 2 ^ (f.minExponent + (e : Int)) := by positivity
  have hLow {k : Nat} (hK : e * 2 ^ f.fractionBits + count = k + 1) :
      f.midpoint k ≤ x * 2 ^ (f.minExponent + (e : Nat)) := by
    rcases h.midpoint_le hK with hLe | hLess
    · exact hLe.trans (mul_le_mul_of_nonneg_right h.near_low hUnit.le)
    · exact hLess.le
  rcases Nat.le_total (e * 2 ^ f.fractionBits + count) f.infinity with hLe | hLarge
  · rw [Nat.min_eq_left hLe]
    refine ⟨hLe, fun k hK => hLow hK, fun k hK hSame => h.even_pattern hBits (.inl ?_),
      fun _ => ?_, fun _ hSame => h.even_pattern hBits (.inr ?_)⟩
    · rcases h.midpoint_le hK with hLe | hLess
      · rw [hSame] at hLe
        exact (le_of_mul_le_mul_right hLe hUnit).antisymm h.near_low
      · exact absurd hSame hLess.ne
    · exact (mul_le_mul_of_nonneg_right h.near_high hUnit.le).trans h.le_midpoint
    · exact h.near_high.antisymm (le_of_mul_le_mul_right (hSame ▸ h.le_midpoint) hUnit)
  · rw [Nat.min_eq_right hLarge]
    refine isBetween_infinity hBits fun k hK => ?_
    obtain ⟨j, hJ⟩ : ∃ j, e * 2 ^ f.fractionBits + count = j + 1 :=
      ⟨e * 2 ^ f.fractionBits + count - 1, by omega⟩
    exact (f.midpoint_strictMono.monotone (show k ≤ j by omega)).trans (hLow hJ)

/-- A positive fraction is rounded to the nearest number. -/
theorem roundFraction_isNearest (hBits : 0 < f.fractionBits) {num den : Nat} (hNum : 0 < num)
    (hDen : 0 < den) : f.IsNearest (num / den) (f.roundFraction num den) := by
  obtain ⟨x, e, count, hCounts, hQ, hRound⟩ := f.roundFraction_eq hNum hDen
  rw [hQ, hRound]
  exact (hCounts.isBetween hBits).isNearest

end Rounding

section Decimals

/-- A format that has nothing to tell apart among the decimals out of reach. -/
structure IsWithinReach : Prop where
  bits : 0 < f.fractionBits
  low : (10 : ℚ) ^ (-decimalReach) ≤ f.midpoint 0
  high : f.value f.infinity ≤ 10 ^ decimalReach

/-- A format with small exponents is within reach of the decimals. -/
theorem isWithinReach_of_check (hFraction : 0 < f.fractionBits) (hExponent : 0 < f.exponentBits)
    (hLow : -1200 ≤ f.minExponent - 1)
    (hHigh : f.fractionBits + (f.minExponent + (2 ^ f.exponentBits - 2 : Nat)) ≤ (1200 : Int)) :
    f.IsWithinReach where
  bits := hFraction
  low := by
    rw [midpoint_zero, ← inv_inv ((2 : ℚ) ^ (f.minExponent - 1)), ← zpow_neg, zpow_neg]
    exact inv_anti₀ (by positivity) (two_zpow_le_reach (by omega))
  high := by
    rw [value_infinity hExponent]
    exact two_zpow_le_reach hHigh

theorem isWithinReach_single : single.IsWithinReach :=
  isWithinReach_of_check _ (by decide) (by decide) (by decide) (by decide)

theorem isWithinReach_double : double.IsWithinReach :=
  isWithinReach_of_check _ (by decide) (by decide) (by decide) (by decide)

variable {f}

/-- A decimal is rounded to the nearest number. -/
theorem roundDecimal_isNearest (hReach : f.IsWithinReach) (d : Decimal) :
    f.IsNearest d.value (f.roundDecimal d) := by
  have hTen : (1 : ℚ) ≤ 10 := by norm_num
  rcases Nat.eq_zero_or_pos d.coefficient with hZero | hPos
  · rw [Decimal.value_eq_zero.2 hZero, roundDecimal, if_pos (.inl hZero)]
    exact isNearest_zero_zero
  · obtain ⟨hLow, hHigh⟩ := Decimal.leading_bounds hPos
    by_cases hSmall : d.leading < -decimalReach
    · rw [roundDecimal, if_pos (.inr hSmall)]
      refine isNearest_zero (hHigh.le.trans (le_trans ?_ hReach.low))
      exact zpow_le_zpow_right₀ hTen hSmall.le
    · by_cases hLarge : decimalReach < d.leading
      · have hRound : f.roundDecimal d = f.infinity :=
          (if_neg (not_or.2 ⟨hPos.ne', hSmall⟩)).trans (if_pos hLarge)
        rw [hRound]
        refine isNearest_infinity hReach.bits (hReach.high.trans (le_trans ?_ hLow))
        exact zpow_le_zpow_right₀ hTen (by omega)
      · obtain ⟨num, den, hNum, hDen, hValue, hRound⟩ :=
          f.roundDecimal_eq hPos (not_lt.1 hSmall) (not_lt.1 hLarge)
        rw [hRound, ← hValue]
        exact roundFraction_isNearest hReach.bits hNum hDen

end Decimals

section Conversion

variable {f} {g : Format}

/-- A number of one format is converted to the nearest of another. -/
theorem convert_isNearest (hSign : f.infinity < f.signBit) (hBits : 0 < g.fractionBits)
    (hLarge : g.value g.infinity ≤ f.value f.infinity) {pattern : Nat}
    (hPattern : pattern ≤ f.infinity) : g.IsNearest (f.value pattern) (f.convert g pattern) := by
  have hLess : pattern < f.signBit := hPattern.trans_lt hSign
  have hPlus : ¬(decide (f.signBit ≤ pattern) = true) := by simpa using hLess
  simp only [convert, withSign, if_neg hPlus, Nat.mod_eq_of_lt hLess]
  rcases hPattern.lt_or_eq with hFinite | rfl
  · rw [if_pos hFinite]
    have hValue := f.fraction_value pattern
    rcases Nat.eq_zero_or_pos (f.fraction pattern).1 with hZero | hPos
    · rw [hZero, Nat.cast_zero, zero_div] at hValue
      rw [if_pos hZero, ← hValue]
      exact isNearest_zero_zero
    · rw [if_neg hPos.ne', ← hValue]
      exact roundFraction_isNearest hBits hPos (scaleByTwo_pos Nat.one_pos _)
  · rw [if_neg (lt_irrefl _), if_pos rfl]
    exact isNearest_infinity hBits hLarge

end Conversion

end Format

end WasmCompiler.Number
