import WasmCompiler.Text.Fields
import WasmCompiler.Typing.Symbols
import WasmCompiler.Wasm.Code
import WasmCompiler.Wasm.EmitError

/-! Instructions that are written out in a program: a name and operands, with blanks between
them. -/

namespace WasmCompiler.Wasm

open Number

namespace Operand

/-- An operand of an instruction. A dollar sign stands before the name of a variable; any other
operand is a number, of the kind that the instruction takes. Constants of 32 bits may be
written with or without a sign. -/
def read? (op : Opcode) (word : List Char) : Option Operand :=
  match op with
  | .f32Const => (Single.read? word).map f32
  | .f64Const => (Double.read? word).map f64
  | .i32Const =>
    (readInt64? 10 word).bind fun value =>
      if -0x80000000 ≤ value.toInt ∧ value.toInt < 0x100000000 then some (int32 value.toInt32)
      else none
  | _ => (readInt64? 10 word).map int64

def read (locals : Locals) (op : Opcode) (word : List Char) : Except EmitError Operand :=
  match word with
  | '$' :: name =>
    match locals.slot? (String.ofList name) with
    | some n => .ok (slot n)
    | none => .error (.unknownRawLocal (String.ofList name))
  | _ =>
    match read? op word with
    | some operand => .ok operand
    | none => .error (.badOperand op.mnemonic (String.ofList word))

end Operand

/-- The operands in turn, up to the first that cannot be read. -/
def readOperands (locals : Locals) (op : Opcode) :
    List (List Char) → Except EmitError (List Operand)
  | [] => .ok []
  | word :: words => do
    let operand ← Operand.read locals op word
    let operands ← readOperands locals op words
    return operand :: operands

/-- The instruction that a text writes out. -/
def RawInstr.read (locals : Locals) (text : String) : Except EmitError RawInstr :=
  match Text.words text.toList with
  | [] => .error .emptyRaw
  | name :: words =>
    match Opcode.ofMnemonic? (String.ofList name) with
    | none => .error (.unknownMnemonic (String.ofList name))
    | some op => (readOperands locals op words).map (⟨op, ·⟩)

end WasmCompiler.Wasm
