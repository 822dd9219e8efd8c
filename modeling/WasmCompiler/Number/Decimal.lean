import WasmCompiler.Number.Integer

/-! Numbers in decimal notation, with a point and an exponent, and the words for infinity and
for what is not a number. -/

namespace WasmCompiler.Number

/-- The number `coefficient * 10 ^ exponent`. -/
structure Decimal where
  coefficient : Nat
  exponent : Int
  deriving DecidableEq, Repr

/-- What a numeral can stand for, apart from its sign. -/
inductive Magnitude where
  | finite (value : Decimal)
  | infinity
  | nan
  deriving DecidableEq, Repr

/-- A numeral that was read: a sign and a magnitude. -/
structure Numeral where
  negative : Bool
  magnitude : Magnitude
  deriving DecidableEq, Repr

/-- The exponent part of a numeral: nothing, or the letter `e` of either case and an integer. -/
def readExponent? : List Char → Option Int
  | [] => some 0
  | c :: rest => if c = 'e' ∨ c = 'E' then readInt? 10 rest else none

/-- Digits with a point among or at the end of them, at least one digit in all, and an
exponent part. -/
def Decimal.read? (text : List Char) : Option Decimal :=
  let whole := text.takeWhile Char.isDigit
  let afterWhole := text.dropWhile Char.isDigit
  let (fraction, afterFraction) :=
    match afterWhole with
    | '.' :: rest => (rest.takeWhile Char.isDigit, rest.dropWhile Char.isDigit)
    | rest => ([], rest)
  match readNat? 10 (whole ++ fraction), readExponent? afterFraction with
  | some coefficient, some exponent => some ⟨coefficient, exponent - (fraction.length : Int)⟩
  | _, _ => none

/-- The magnitude written by a word of any case or by a decimal. -/
def Magnitude.read? (text : List Char) : Option Magnitude :=
  let word := text.map Char.toLower
  if word = ['i', 'n', 'f'] ∨ word = ['i', 'n', 'f', 'i', 'n', 'i', 't', 'y'] then
    some .infinity
  else if word = ['n', 'a', 'n'] then some .nan
  else (Decimal.read? text).map .finite

/-- The numeral written by an optional sign and a magnitude. -/
def Numeral.read? (text : List Char) : Option Numeral :=
  let (negative, rest) := splitSign text
  (Magnitude.read? rest).map (⟨negative, ·⟩)

/-- The characters of a number in base ten, without leading zeros. -/
def digitsOf (n : Nat) : List Char := Nat.toDigits 10 n

/-- The decimal written out without an exponent: zeros fill up to the point on either side,
and a whole number has no point. -/
def Decimal.positional (d : Decimal) : List Char :=
  let digits := digitsOf d.coefficient
  match d.exponent with
  | .ofNat zeros => digits ++ List.replicate zeros '0'
  | .negSucc n =>
    let places := n + 1
    let padded := List.replicate (places + 1 - digits.length) '0' ++ digits
    padded.take (padded.length - places) ++ '.' :: padded.drop (padded.length - places)

end WasmCompiler.Number
