import WasmCompiler.Diagnostic
import WasmCompiler.Typing.Ty

/-! Why a program has no code, although its tree is well formed. -/

namespace WasmCompiler

inductive EmitError where
  | emptyRaw
  | unknownMnemonic (name : String)
  | badOperand (mnemonic operand : String)
  | unknownRawLocal (name : String)
  | stringLiteral
  | unsupportedOperator (symbol : String) (type : Ty)
  | unsupportedCast (source target : Ty)
  | unresolvedLocal (name : String)
  | unresolvedFunction (name : String)
  | noStorage (type : Ty)
  | unknownType (name : String)
  | nestedFunction (name : String)
  | outsideFunction
  | tableMismatch
  deriving DecidableEq, Repr

namespace EmitError

def message : EmitError → String
  | emptyRaw => "empty raw instruction"
  | unknownMnemonic name => "unknown instruction '" ++ name ++ "'"
  | badOperand mnemonic operand =>
    "invalid operand '" ++ operand ++ "' for '" ++ mnemonic ++ "'"
  | unknownRawLocal name => "unknown local '$" ++ name ++ "' in raw instruction"
  | stringLiteral => "string literals cannot be lowered"
  | unsupportedOperator symbol type =>
    "no instruction for operator '" ++ symbol ++ "' on " ++ type.name
  | unsupportedCast source target => "cannot cast " ++ source.name ++ " to " ++ target.name
  | unresolvedLocal name => "unresolved local '" ++ name ++ "'"
  | unresolvedFunction name => "unresolved function '" ++ name ++ "'"
  | noStorage type => type.name ++ " has no storage type"
  | unknownType name => "unknown type '" ++ name ++ "'"
  | nestedFunction name => "nested function '" ++ name ++ "'"
  | outsideFunction => "statement outside of a function"
  | tableMismatch => "function table and program disagree"

/-- The errors that a checked program, with its own symbols, does not show are internal. -/
def category : EmitError → Category
  | unresolvedLocal _ | unresolvedFunction _ | noStorage _ | unknownType _ | nestedFunction _
  | outsideFunction | tableMismatch => .internal
  | _ => .emission

def report : Located EmitError → Diagnostic := Located.report category message

end EmitError

end WasmCompiler
