import WasmCompiler.Token.Basic

/-! The operators of expressions. -/

namespace WasmCompiler

inductive BinaryOp where
  | add | sub | mul | div
  | lt | le | gt | ge
  | eq | ne
  | bitAnd | bitOr
  | and | or
  deriving DecidableEq, Repr

namespace BinaryOp

/-- Every binary operator, in the order in which they are listed. -/
def all : List BinaryOp :=
  [add, sub, mul, div, lt, le, gt, ge, eq, ne, bitAnd, bitOr, and, or]

def symbol : BinaryOp → String
  | add => "+" | sub => "-" | mul => "*" | div => "/"
  | lt => "<" | le => "<=" | gt => ">" | ge => ">="
  | eq => "==" | ne => "!="
  | bitAnd => "&" | bitOr => "|"
  | and => "&&" | or => "||"

/-- How tightly an operator binds; a higher number binds tighter. -/
def precedence : BinaryOp → Nat
  | mul | div => 5
  | add | sub => 4
  | lt | le | gt | ge | eq | ne => 3
  | bitAnd | bitOr => 2
  | and | or => 1

def isRelational : BinaryOp → Bool
  | lt | le | gt | ge => true
  | _ => false

def isEquality : BinaryOp → Bool
  | eq | ne => true
  | _ => false

def isLogical : BinaryOp → Bool
  | and | or => true
  | _ => false

/-- Whether the result is a truth value, whatever the operands are. -/
def isPredicate (op : BinaryOp) : Bool := op.isRelational || op.isEquality || op.isLogical

def ofSymbol? (text : String) : Option BinaryOp := all.find? fun op => op.symbol == text

/-- The operator that a token of a kind stands for between two operands. -/
def ofKind? : Token.Kind → Option BinaryOp
  | .plus => some add | .minus => some sub | .star => some mul | .slash => some div
  | .lt => some lt | .le => some le | .gt => some gt | .ge => some ge
  | .eqEq => some eq | .bangEq => some ne
  | .amp => some bitAnd | .pipe => some bitOr
  | .ampAmp => some and | .pipePipe => some or
  | _ => none

end BinaryOp

inductive UnaryOp where
  | plus | neg | not
  deriving DecidableEq, Repr

namespace UnaryOp

/-- Every unary operator, in the order in which they are listed. -/
def all : List UnaryOp := [plus, neg, not]

def symbol : UnaryOp → String
  | plus => "+" | neg => "-" | not => "!"

/-- Unary operators bind tighter than every binary one. -/
def precedence : Nat := 7

def ofSymbol? (text : String) : Option UnaryOp := all.find? fun op => op.symbol == text

/-- The operator that a token of a kind stands for before an operand. -/
def ofKind? : Token.Kind → Option UnaryOp
  | .plus => some plus | .minus => some neg | .bang => some not
  | _ => none

end UnaryOp

/-- The operand of a cast is read with this floor, so that no binary operator joins it. -/
def castPrecedence : Nat := 6

end WasmCompiler
