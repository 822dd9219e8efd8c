/-! Reading signed integers written in a base. -/

namespace WasmCompiler.Number

/-- The value of a digit, letters of either case counting on from ten. -/
def digitValue? (base : Nat) (c : Char) : Option Nat :=
  let value? :=
    if '0' ≤ c ∧ c ≤ '9' then some (c.toNat - '0'.toNat)
    else if 'a' ≤ c ∧ c ≤ 'z' then some (c.toNat - 'a'.toNat + 10)
    else if 'A' ≤ c ∧ c ≤ 'Z' then some (c.toNat - 'A'.toNat + 10)
    else none
  value?.filter (· < base)

/-- The number that a row of digits continues from `start`. -/
def continueDigits? (base : Nat) : Nat → List Char → Option Nat
  | start, [] => some start
  | start, c :: rest =>
    match digitValue? base c with
    | none => none
    | some digit => continueDigits? base (start * base + digit) rest

/-- The number written by a row of at least one digit. -/
def readNat? (base : Nat) (text : List Char) : Option Nat :=
  if text.isEmpty then none else continueDigits? base 0 text

/-- A sign that may stand before a number, and the text after it. Without one the number is
not negative. -/
def splitSign : List Char → Bool × List Char
  | '-' :: rest => (true, rest)
  | '+' :: rest => (false, rest)
  | text => (false, text)

/-- The integer written by an optional sign and a row of digits. -/
def readInt? (base : Nat) (text : List Char) : Option Int :=
  let (negative, digits) := splitSign text
  (readNat? base digits).map fun magnitude =>
    if negative then -(magnitude : Int) else (magnitude : Int)

/-- The same for integers of 64 bits: a number outside their range is not read. -/
def readInt64? (base : Nat) (text : List Char) : Option Int64 :=
  (readInt? base text).bind fun value =>
    if -0x8000000000000000 ≤ value ∧ value < 0x8000000000000000 then some (Int64.ofInt value)
    else none

end WasmCompiler.Number
