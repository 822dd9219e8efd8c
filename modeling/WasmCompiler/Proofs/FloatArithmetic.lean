import WasmCompiler.Proofs.Rounding

/-! Arithmetic on the patterns of a binary format: the exact result of an operation, rounded
once. An operation without a result gives the plain quiet pattern that is not a number, and so
does one whose operands are not numbers. -/

namespace WasmCompiler.Number

namespace Format

def isNegative (f : Format) (x : Nat) : Bool := decide (f.signBit ≤ x)

/-- The pattern without its sign. -/
def magnitude (f : Format) (x : Nat) : Nat := x % f.signBit

def isNan (f : Format) (x : Nat) : Bool := decide (f.infinity < f.magnitude x)

def isInfinite (f : Format) (x : Nat) : Bool := decide (f.magnitude x = f.infinity)

def isZero (f : Format) (x : Nat) : Bool := decide (f.magnitude x = 0)

/-- The number that a finite pattern stands for. -/
def toRat (f : Format) (x : Nat) : ℚ :=
  if f.isNegative x then -f.value (f.magnitude x) else f.value (f.magnitude x)

/-- The pattern nearest to a number. The sign of a zero is chosen by the operation. -/
def ofRat (f : Format) (negativeZero : Bool) (q : ℚ) : Nat :=
  if q = 0 then f.withSign negativeZero 0
  else f.withSign (decide (q < 0)) (f.roundFraction q.num.natAbs q.den)

/-- The pattern with the other sign. -/
def neg (f : Format) (x : Nat) : Nat :=
  if f.isNan x then f.quietNan else f.withSign (!f.isNegative x) (f.magnitude x)

def add (f : Format) (x y : Nat) : Nat :=
  if f.isNan x || f.isNan y then f.quietNan
  else if f.isInfinite x then
    if f.isInfinite y && f.isNegative x != f.isNegative y then f.quietNan else x
  else if f.isInfinite y then y
  else f.ofRat (f.isNegative x && f.isNegative y) (f.toRat x + f.toRat y)

def sub (f : Format) (x y : Nat) : Nat := f.add x (f.neg y)

def mul (f : Format) (x y : Nat) : Nat :=
  let negative := f.isNegative x != f.isNegative y
  if f.isNan x || f.isNan y then f.quietNan
  else if f.isInfinite x || f.isInfinite y then
    if f.isZero x || f.isZero y then f.quietNan else f.withSign negative f.infinity
  else f.ofRat negative (f.toRat x * f.toRat y)

def div (f : Format) (x y : Nat) : Nat :=
  let negative := f.isNegative x != f.isNegative y
  if f.isNan x || f.isNan y then f.quietNan
  else if f.isInfinite x then
    if f.isInfinite y then f.quietNan else f.withSign negative f.infinity
  else if f.isInfinite y then f.withSign negative 0
  else if f.isZero y then
    if f.isZero x then f.quietNan else f.withSign negative f.infinity
  else f.ofRat negative (f.toRat x / f.toRat y)

/-- Patterns in the order of their numbers; the two zeros have one place. -/
def rank (f : Format) (x : Nat) : Int :=
  if f.isNegative x then -(f.magnitude x : Int) else f.magnitude x

/-- A comparison of numbers. It fails if an operand is not a number. -/
def compare (f : Format) (holds : Int → Int → Bool) (x y : Nat) : Bool :=
  !f.isNan x && !f.isNan y && holds (f.rank x) (f.rank y)

/-- The whole number in a finite pattern, cut off towards zero. -/
def truncate? (f : Format) (x : Nat) : Option Int :=
  if f.magnitude x < f.infinity then some ((f.toRat x).num.tdiv (f.toRat x).den) else none

/-- The same as a word that holds it with its sign, if it fits. -/
def word? (f : Format) (w : Nat) (x : Nat) : Option (BitVec w) :=
  (f.truncate? x).bind fun n =>
    if -2 ^ (w - 1) ≤ n ∧ n < 2 ^ (w - 1) then some (.ofInt w n) else none

/-- The pattern nearest to a whole number. -/
def ofInt (f : Format) (n : Int) : Nat := f.ofRat false n

/-- The sign that was set is the sign. -/
theorem isNegative_withSign (f : Format) (negative : Bool) {x : Nat} (hX : x < f.signBit) :
    f.isNegative (f.withSign negative x) = negative := by
  cases negative with
  | false => simpa [isNegative, withSign] using hX
  | true => simp [isNegative, withSign]

theorem magnitude_withSign (f : Format) (negative : Bool) {x : Nat} (hX : x < f.signBit) :
    f.magnitude (f.withSign negative x) = x := by
  cases negative with
  | false => simpa [magnitude, withSign] using Nat.mod_eq_of_lt hX
  | true => simpa [magnitude, withSign] using Nat.mod_eq_of_lt hX

/-- The number of a finite pattern is rounded to that pattern, with the sign of the number. -/
theorem ofRat_of_value (f : Format) {negative : Bool} {m : Nat} (hFinite : m < f.infinity)
    {q : ℚ} (hQ : q = if negative then -f.value m else f.value m) :
    f.ofRat negative q = f.withSign negative m := by
  rcases Nat.eq_zero_or_pos m with rfl | hPos
  · have hZero : q = 0 := by simp [hQ, value_zero]
    simp [ofRat, hZero]
  · have hValue := f.value_pos hPos
    have hNe : q ≠ 0 := by
      rw [hQ]
      split_ifs
      · exact neg_ne_zero.2 hValue.ne'
      · exact hValue.ne'
    have hLess : decide (q < 0) = negative := by
      rw [hQ]
      cases negative with
      | false => simpa using hValue.le
      | true => simpa using hValue
    have hAbs : (q.num.natAbs : ℚ) / q.den = f.value m := by
      have hQAbs : |q| = f.value m := by
        rw [hQ]
        split_ifs
        · rw [abs_neg, abs_of_pos hValue]
        · rw [abs_of_pos hValue]
      rw [← hQAbs, Rat.abs_def, Rat.divInt_eq_div]
      simp
    rw [ofRat, if_neg hNe, hLess, f.roundFraction_of_value hPos hFinite q.den_pos hAbs]

/-- Multiplying by the pattern of minus one changes the sign and nothing else. -/
theorem mul_minusOne (f : Format) {one x : Nat} (hOne : f.value one = 1)
    (hFinite : one < f.infinity) (hSign : f.infinity < f.signBit) :
    f.mul x (f.withSign true one) = f.neg x := by
  have hOneSign : one < f.signBit := hFinite.trans hSign
  have hPos : 0 < one := by
    rcases Nat.eq_zero_or_pos one with rfl | h
    · simp [value_zero] at hOne
    · exact h
  have hMag := f.magnitude_withSign true hOneSign
  have hNeg := f.isNegative_withSign true hOneSign
  have hNan : f.isNan (f.withSign true one) = false := by
    simpa [isNan, hMag] using hFinite.le
  have hInf : f.isInfinite (f.withSign true one) = false := by
    simpa [isInfinite, hMag] using hFinite.ne
  have hZero : f.isZero (f.withSign true one) = false := by
    simpa [isZero, hMag] using hPos.ne'
  have hRat : f.toRat (f.withSign true one) = -1 := by
    simp [toRat, hNeg, hMag, hOne]
  have hXor : (f.isNegative x != true) = !f.isNegative x := by
    cases f.isNegative x <;> rfl
  simp only [mul, neg, hNan, hInf, hZero, hNeg, hRat, hXor, Bool.or_false]
  split_ifs with hNanX hInfX hZeroX
  · rfl
  · simp only [isInfinite, isZero, decide_eq_true_eq] at hInfX hZeroX
    omega
  · simp only [isInfinite, decide_eq_true_eq] at hInfX
    rw [hInfX]
  · have hFiniteX : f.magnitude x < f.infinity := by
      simp only [isNan, isInfinite, decide_eq_true_eq] at hNanX hInfX
      omega
    refine f.ofRat_of_value hFiniteX ?_
    rw [mul_neg_one, toRat]
    cases f.isNegative x with
    | false => simp
    | true => simp

end Format

namespace Single

/-- An operation on patterns, for numbers of 32 bits. -/
def lift (op : Format → Nat → Nat → Nat) (x y : Single) : Single :=
  ⟨UInt32.ofNat (op .single x.bits.toNat y.bits.toNat)⟩

def neg (x : Single) : Single := ⟨UInt32.ofNat (Format.single.neg x.bits.toNat)⟩

def ofInt (n : Int) : Single := ⟨UInt32.ofNat (Format.single.ofInt n)⟩

/-- A comparison of two numbers. -/
def compare (holds : Int → Int → Bool) (x y : Single) : Bool :=
  Format.single.compare holds x.bits.toNat y.bits.toNat

/-- The word that holds the whole number in this one, if there is one. -/
def word? (x : Single) (w : Nat) : Option (BitVec w) := Format.single.word? w x.bits.toNat

/-- Multiplying a number of 32 bits by minus one is negating it. -/
theorem mul_minusOne (x : Single) : lift Format.mul x ⟨0xBF800000⟩ = x.neg := by
  have hOne : Format.single.value 0x3F800000 = 1 := by
    norm_num [Format.value, Format.decode, Format.single, Format.minExponent]
  have hBits : (0xBF800000 : UInt32).toNat = Format.single.withSign true 0x3F800000 := by decide
  rw [lift, neg, hBits, Format.mul_minusOne _ hOne (by decide) (by decide)]

end Single

namespace Double

/-- An operation on patterns, for numbers of 64 bits. -/
def lift (op : Format → Nat → Nat → Nat) (x y : Double) : Double :=
  ⟨UInt64.ofNat (op .double x.bits.toNat y.bits.toNat)⟩

def neg (x : Double) : Double := ⟨UInt64.ofNat (Format.double.neg x.bits.toNat)⟩

def ofInt (n : Int) : Double := ⟨UInt64.ofNat (Format.double.ofInt n)⟩

/-- A comparison of two numbers. -/
def compare (holds : Int → Int → Bool) (x y : Double) : Bool :=
  Format.double.compare holds x.bits.toNat y.bits.toNat

/-- The word that holds the whole number in this one, if there is one. -/
def word? (x : Double) (w : Nat) : Option (BitVec w) := Format.double.word? w x.bits.toNat

/-- Multiplying a number of 64 bits by minus one is negating it. -/
theorem mul_minusOne (x : Double) : lift Format.mul x ⟨0xBFF0000000000000⟩ = x.neg := by
  have hOne : Format.double.value 0x3FF0000000000000 = 1 := by
    norm_num [Format.value, Format.decode, Format.double, Format.minExponent]
  have hBits : (0xBFF0000000000000 : UInt64).toNat =
      Format.double.withSign true 0x3FF0000000000000 := by decide
  rw [lift, neg, hBits, Format.mul_minusOne _ hOne (by decide) (by decide)]

end Double

end WasmCompiler.Number
