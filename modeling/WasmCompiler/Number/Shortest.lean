import WasmCompiler.Number.Binary

/-! The text of a number: as few digits as read back to it. -/

namespace WasmCompiler.Number

/-- The power of ten just above a positive fraction: the number of its digits before the
point, or minus the number of zeros that follow the point. -/
def decimalMagnitude (num den : Nat) : Int :=
  if den ≤ num then ((digitsOf (num / den)).length : Int)
  else
    let zeros := (digitsOf (den / num)).length
    if den ≤ num * Nat.pow 10 (zeros - 1) then 2 - (zeros : Int) else 1 - (zeros : Int)

/-- A positive fraction counted in units of ten to the power `exponent`. -/
def scaleByTen (num den : Nat) (exponent : Int) : Nat × Nat :=
  match exponent with
  | .ofNat n => (num, den * Nat.pow 10 n)
  | .negSucc n => (num * Nat.pow 10 (n + 1), den)

/-- The two multiples of ten to the power `exponent` around a fraction, the nearer first and
the upper one first if both are equally near. -/
def neighbours (num den : Nat) (exponent : Int) : List Decimal :=
  let scaled := scaleByTen num den exponent
  let lower := scaled.1 / scaled.2
  let twice := 2 * (scaled.1 % scaled.2)
  if twice < scaled.2 then [⟨lower, exponent⟩, ⟨lower + 1, exponent⟩]
  else [⟨lower + 1, exponent⟩, ⟨lower, exponent⟩]

/-- The same decimal with the zeros that end its coefficient moved into its exponent. -/
def Decimal.trimZeros (d : Decimal) : Decimal :=
  if d.coefficient ≠ 0 ∧ d.coefficient % 10 = 0 then
    trimZeros ⟨d.coefficient / 10, d.exponent + 1⟩
  else d
termination_by d.coefficient
decreasing_by all_goals omega

/-- The decimal that writes a fraction of a power of two in full. -/
def exactDecimal (significand : Nat) (exponent : Int) : Decimal :=
  match exponent with
  | .ofNat n => ⟨significand * Nat.pow 2 n, 0⟩
  | .negSucc n => ⟨significand * Nat.pow 5 (n + 1), .negSucc n⟩

/-- The decimal with the fewest digits that reads back to the finite positive `pattern`, and
the nearest of those. Seventeen digits always suffice for the formats in use. -/
def Format.shortest (f : Format) (pattern : Nat) : Decimal :=
  let (significand, exponent) := f.decode pattern
  let (num, den) := f.fraction pattern
  let magnitude := decimalMagnitude num den
  let candidates := (List.range 17).flatMap fun count =>
    (neighbours num den (magnitude - ((count + 1 : Nat) : Int))).map Decimal.trimZeros
  (candidates.find? fun d => f.roundDecimal d == pattern).getD (exactDecimal significand exponent)

namespace Double

/-- The text of a number without its sign. -/
def magnitudeText (pattern : Nat) : List Char :=
  if pattern < Format.double.infinity then
    if pattern = 0 then ['0'] else (Format.double.shortest pattern).positional
  else ['i', 'n', 'f']

/-- The text of a number: a minus sign, also for the negative zero, and the shortest digits,
never with an exponent. -/
def text (x : Double) : String :=
  if x.isNan then "NaN"
  else
    let magnitude := magnitudeText x.magnitude
    String.ofList (if x.negative then '-' :: magnitude else magnitude)

end Double

end WasmCompiler.Number
