import WasmCompiler.Number.Shortest

/-! Number literals: whole numbers in three bases, and numbers with a point. -/

namespace WasmCompiler

open Number

inductive Literal where
  | int (value : Int64)
  | float (value : Double)
  deriving DecidableEq, Repr

namespace Literal

def isFloat : Literal → Bool
  | int _ => false
  | float _ => true

/-- The literal that a text stands for: `0x` or `0b` before digits of that base, a number with
a point, or a whole number. A number too large for 64 bits is none. -/
def read? (text : List Char) : Option Literal :=
  match text with
  | '0' :: 'x' :: digits | '0' :: 'X' :: digits => (readInt64? 16 digits).map int
  | '0' :: 'b' :: digits | '0' :: 'B' :: digits => (readInt64? 2 digits).map int
  | _ =>
    if text.contains '.' then (Double.read? text).map float
    else (readInt64? 10 text).map int

/-- Equality of the numbers that two literals of one sort stand for. -/
def same : Literal → Literal → Bool
  | int a, int b => decide (a = b)
  | float a, float b => a.same b
  | _, _ => false

/-- The text of a number with a point, which is added if the shortest text has none. -/
def floatText (value : Double) : String :=
  let text := value.text
  if text.toList.contains '.' then text else text ++ ".0"

def print : Literal → String
  | int value => toString value.toInt
  | float value => floatText value

end Literal

end WasmCompiler
