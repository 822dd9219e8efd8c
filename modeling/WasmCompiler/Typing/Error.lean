import WasmCompiler.Diagnostic
import WasmCompiler.Tree.Operator
import WasmCompiler.Typing.Ty

/-! The rules that a well formed program can still break. -/

namespace WasmCompiler

/-- A statement that has no place outside of a function. -/
inductive Misplaced where
  | var (name : String)
  | branch
  | loop
  | ret
  | raw
  | assignment (target : String)
  | call (callee : String)
  | expression
  deriving DecidableEq, Repr

def Misplaced.text : Misplaced → String
  | var name => "variable '" ++ name ++ "'"
  | branch => "if statement"
  | loop => "while loop"
  | ret => "return"
  | raw => "raw instruction"
  | assignment target => "assignment to '" ++ target ++ "'"
  | call callee => "call to '" ++ callee ++ "'"
  | expression => "expression"

inductive TypeError where
  | outsideFunction (what : Misplaced)
  | memoryName (name : String)
  | functionTaken (name : String)
  | unknownType (name : String)
  | voidParameter (name : String)
  | initializedParameter (name : String)
  | parameterTaken (name : String)
  | nestedFunction (name inside : String)
  | variableTaken (name inside : String)
  | voidVariable (name : String)
  | initMismatch (type : Ty) (name : String) (found : Ty)
  | conditionNotBool (found : Ty)
  | returnMismatch (found : Ty) (function : String) (ret : Ty)
  | undeclaredVariable (name : String)
  | literalTooLarge (value : Int64)
  | stringValue
  | assignMismatch (found type : Ty) (target : String)
  | notOperand (found : Ty)
  | unaryOperand (op : UnaryOp) (found : Ty)
  | operandMismatch (lhs : Ty) (op : BinaryOp) (rhs : Ty)
  | binaryOperand (op : BinaryOp) (found : Ty)
  | logicalOperand (op : BinaryOp) (found : Ty)
  | undefinedFunction (name : String)
  | argumentCount (callee : String) (expected found : Nat)
  | argumentMismatch (index : Nat) (callee : String) (want found : Ty)
  deriving DecidableEq, Repr

namespace TypeError

def message : TypeError → String
  | outsideFunction what => what.text ++ " outside of a function"
  | memoryName name => "function name '" ++ name ++ "' clashes with the memory export"
  | functionTaken name => "function '" ++ name ++ "' is already declared"
  | unknownType name => "unknown type '" ++ name ++ "'"
  | voidParameter name => "parameter '" ++ name ++ "' cannot have type void"
  | initializedParameter name => "parameter '" ++ name ++ "' cannot have an initializer"
  | parameterTaken name => "there is already a parameter named '" ++ name ++ "'"
  | nestedFunction name inside =>
    "function '" ++ name ++ "' cannot be declared inside '" ++ inside ++ "'"
  | variableTaken name inside =>
    "variable '" ++ name ++ "' is already declared in '" ++ inside ++ "'"
  | voidVariable name => "variable '" ++ name ++ "' cannot have type void"
  | initMismatch type name found =>
    "cannot initialize " ++ type.name ++ " variable '" ++ name ++ "' with a value of type " ++
      found.name
  | conditionNotBool found => "condition must be bool, found " ++ found.name
  | returnMismatch found function ret =>
    "cannot return a value of type " ++ found.name ++ " from '" ++ function ++
      "' which returns " ++ ret.name
  | undeclaredVariable name => "variable '" ++ name ++ "' is not declared"
  | literalTooLarge value =>
    "integer literal " ++ toString value.toInt ++ " does not fit in 32 bits"
  | stringValue => "string literals have no value type"
  | assignMismatch found type target =>
    "cannot assign a value of type " ++ found.name ++ " to " ++ type.name ++ " variable '" ++
      target ++ "'"
  | notOperand found => "operator '!' needs a bool operand, found " ++ found.name
  | unaryOperand op found =>
    "operator '" ++ op.symbol ++ "' cannot be applied to " ++ found.name
  | operandMismatch lhs op rhs =>
    "type mismatch: " ++ lhs.name ++ " " ++ op.symbol ++ " " ++ rhs.name
  | binaryOperand op found =>
    "operator '" ++ op.symbol ++ "' cannot be applied to " ++ found.name
  | logicalOperand op found =>
    "operator '" ++ op.symbol ++ "' needs bool operands, found " ++ found.name
  | undefinedFunction name => "function '" ++ name ++ "' is not defined"
  | argumentCount callee expected found =>
    "wrong number of arguments for '" ++ callee ++ "': expected " ++ toString expected ++
      ", found " ++ toString found
  | argumentMismatch index callee want found =>
    "argument " ++ toString index ++ " of '" ++ callee ++ "' must be " ++ want.name ++
      ", found " ++ found.name

/-- The report of a broken rule. -/
def report : Located TypeError → Diagnostic := Located.report (fun _ => .semantic) message

end TypeError

end WasmCompiler
