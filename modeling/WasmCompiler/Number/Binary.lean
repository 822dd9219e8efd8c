import WasmCompiler.Number.Decimal

/-! Binary interchange formats: bit patterns as exact numbers, and the nearest bit pattern of
an exact number. -/

namespace WasmCompiler.Number

/-- The widths of the two fields of a binary interchange format, the sign bit apart. -/
structure Format where
  fractionBits : Nat
  exponentBits : Nat
  deriving DecidableEq, Repr

namespace Format

def single : Format := ⟨23, 8⟩

def double : Format := ⟨52, 11⟩

/-- The weight of the last fraction bit of the smallest numbers is two to this power. -/
def minExponent (f : Format) : Int :=
  2 - (Nat.pow 2 (f.exponentBits - 1) : Int) - f.fractionBits

/-- The pattern of infinity. Smaller patterns are finite, larger ones are not numbers. -/
def infinity (f : Format) : Nat := (Nat.pow 2 f.exponentBits - 1) * Nat.pow 2 f.fractionBits

/-- The bit of a pattern that holds the sign. -/
def signBit (f : Format) : Nat := Nat.pow 2 (f.exponentBits + f.fractionBits)

/-- The pattern of the plain quiet value that is not a number. -/
def quietNan (f : Format) : Nat := f.infinity + Nat.pow 2 (f.fractionBits - 1)

/-- The pattern with its sign bit set as asked. -/
def withSign (f : Format) (negative : Bool) (pattern : Nat) : Nat :=
  if negative then f.signBit + pattern else pattern

end Format

/-- The whole number nearest to `num / den`, and the even one of two that are equally near. -/
def roundDiv (num den : Nat) : Nat :=
  let quotient := num / den
  let twice := 2 * (num % den)
  if den < twice ∨ (den = twice ∧ quotient % 2 = 1) then quotient + 1 else quotient

/-- A positive fraction `num / den` times two to the power `exponent`, as a fraction. -/
def scaleByTwo (num den : Nat) (exponent : Int) : Nat × Nat :=
  match exponent with
  | .ofNat n => (num * Nat.pow 2 n, den)
  | .negSucc n => (num, den * Nat.pow 2 (n + 1))

/-- The largest `k` with `2 ^ k ≤ num / den`, for a positive fraction. -/
def floorLog2 (num den : Nat) : Int :=
  let guess : Int := (Nat.log2 num : Int) - (Nat.log2 den : Int)
  let scaled := scaleByTwo num den (-guess)
  if scaled.1 < scaled.2 then guess - 1 else guess

namespace Format

/-- The pattern of the number nearest to the positive fraction `num / den`, ties to the even
pattern. The exponent of the last kept bit is fixed first; the significand counted in that
unit then fills both fields at once, and a carry out of it moves on to the next exponent. -/
def roundFraction (f : Format) (num den : Nat) : Nat :=
  let unit := max f.minExponent (floorLog2 num den - f.fractionBits)
  let scaled := scaleByTwo num den (-unit)
  let significand := roundDiv scaled.1 scaled.2
  let pattern := (unit - f.minExponent).toNat * Nat.pow 2 f.fractionBits + significand
  min pattern f.infinity

/-- Beyond this power of ten every number of the supported formats is infinite, and below its
inverse every number is zero. -/
def decimalReach : Int := 400

/-- The pattern of the number nearest to a decimal. -/
def roundDecimal (f : Format) (d : Decimal) : Nat :=
  let leading : Int := d.exponent + ((digitsOf d.coefficient).length : Int)
  if d.coefficient = 0 ∨ leading < -decimalReach then 0
  else if decimalReach < leading then f.infinity
  else
    match d.exponent with
    | .ofNat n => f.roundFraction (d.coefficient * Nat.pow 10 n) 1
    | .negSucc n => f.roundFraction d.coefficient (Nat.pow 10 (n + 1))

/-- The pattern of a numeral. -/
def ofNumeral (f : Format) (n : Numeral) : Nat :=
  f.withSign n.negative <|
    match n.magnitude with
    | .finite d => f.roundDecimal d
    | .infinity => f.infinity
    | .nan => f.quietNan

/-- The significand and the exponent of a finite pattern without sign: it stands for
`significand * 2 ^ exponent`. -/
def decode (f : Format) (pattern : Nat) : Nat × Int :=
  let field := pattern / Nat.pow 2 f.fractionBits
  let fraction := pattern % Nat.pow 2 f.fractionBits
  if field = 0 then (fraction, f.minExponent)
  else (Nat.pow 2 f.fractionBits + fraction, f.minExponent + (field - 1 : Nat))

/-- The fraction that a finite pattern without sign stands for. -/
def fraction (f : Format) (pattern : Nat) : Nat × Nat :=
  let (significand, exponent) := f.decode pattern
  scaleByTwo significand 1 exponent

/-- The pattern in format `g` of a pattern in format `f`. What is not a number stays so: its
quiet bit is set, and as many leading fraction bits as fit are kept. -/
def convert (f g : Format) (pattern : Nat) : Nat :=
  let negative := decide (f.signBit ≤ pattern)
  let magnitude := pattern % f.signBit
  g.withSign negative <|
    if magnitude < f.infinity then
      let (num, den) := f.fraction magnitude
      if num = 0 then 0 else g.roundFraction num den
    else if magnitude = f.infinity then g.infinity
    else
      let payload := (magnitude - f.infinity) * Nat.pow 2 g.fractionBits / Nat.pow 2 f.fractionBits
      g.infinity + payload ||| Nat.pow 2 (g.fractionBits - 1)

end Format

/-- A number in the format of 64 bits. -/
structure Double where
  bits : UInt64
  deriving DecidableEq, Repr

/-- A number in the format of 32 bits. -/
structure Single where
  bits : UInt32
  deriving DecidableEq, Repr

namespace Double

def ofNumeral (n : Numeral) : Double := ⟨UInt64.ofNat (Format.double.ofNumeral n)⟩

def read? (text : List Char) : Option Double := (Numeral.read? text).map ofNumeral

def negative (x : Double) : Bool := decide (Format.double.signBit ≤ x.bits.toNat)

/-- The pattern without its sign. -/
def magnitude (x : Double) : Nat := x.bits.toNat % Format.double.signBit

def isNan (x : Double) : Bool := decide (Format.double.infinity < x.magnitude)

/-- Equality of numbers: the two zeros are equal, and what is not a number equals nothing. -/
def same (x y : Double) : Bool :=
  !x.isNan && !y.isNan && (decide (x.bits = y.bits) || (x.magnitude == 0 && y.magnitude == 0))

/-- The nearest number of the narrower format. -/
def toSingle (x : Double) : Single :=
  ⟨UInt32.ofNat (Format.double.convert Format.single x.bits.toNat)⟩

end Double

namespace Single

def ofNumeral (n : Numeral) : Single := ⟨UInt32.ofNat (Format.single.ofNumeral n)⟩

def read? (text : List Char) : Option Single := (Numeral.read? text).map ofNumeral

/-- The same number in the wider format. -/
def toDouble (x : Single) : Double :=
  ⟨UInt64.ofNat (Format.single.convert Format.double x.bits.toNat)⟩

end Single

end WasmCompiler.Number
