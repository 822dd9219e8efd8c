import WasmCompiler.Wasm.Instr

/-! The code of a function body: instructions, and instructions that were written out with any
number of operands, whether or not these fit. -/

namespace WasmCompiler.Wasm

open Number

/-- An operand that was written out. -/
inductive Operand where
  | slot (n : Nat)
  | int32 (value : Int32)
  | int64 (value : Int64)
  | f32 (value : Single)
  | f64 (value : Double)
  deriving DecidableEq, Repr

def Operand.encode : Operand → Bytes
  | slot n => Leb128.unsigned n
  | int32 value => Leb128.signed value.toInt
  | int64 value => Leb128.signed value.toInt
  | f32 value => littleEndian 4 value.bits.toNat
  | f64 value => littleEndian 8 value.bits.toNat

/-- An instruction that was written out. -/
structure RawInstr where
  op : Opcode
  operands : List Operand
  deriving DecidableEq, Repr

def RawInstr.encode (r : RawInstr) : Bytes := r.op.byte :: r.operands.flatMap Operand.encode

/-- One item of code. -/
inductive Item where
  | instr (i : Instr)
  | raw (r : RawInstr)
  deriving DecidableEq, Repr

def Item.encode : Item → Bytes
  | instr i => i.encode
  | raw r => r.encode

/-- The code of a body. -/
abbrev Code := List Item

def Code.encode (code : Code) : Bytes := List.flatMap Item.encode code

/-- Instructions as code. -/
def Code.ofInstrs (instrs : List Instr) : Code := instrs.map Item.instr

end WasmCompiler.Wasm
