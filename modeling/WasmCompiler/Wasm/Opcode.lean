/-! The instructions that programs are compiled to: their bytes, their names and the shape of
the operands that follow them. -/

namespace WasmCompiler.Wasm

/-- An instruction without its operands. -/
inductive Opcode where
  | unreachable | nop | block | loop | ifOp | elseOp | endOp | br | brIf | ret | call | drop
  | select | localGet | localSet | localTee | i32Load | i64Load | f32Load | f64Load | i32Load8S
  | i32Load8U | i32Load16S | i32Load16U | i32Store | i64Store | f32Store | f64Store | i32Store8
  | i32Store16 | memorySize | memoryGrow | i32Const | i64Const | f32Const | f64Const | i32Eqz
  | i32Eq | i32Ne | i32LtS | i32LtU | i32GtS | i32GtU | i32LeS | i32LeU | i32GeS | i32GeU | i64Eqz
  | i64Eq | i64Ne | i64LtS | i64LtU | i64GtS | i64GtU | i64LeS | i64LeU | i64GeS | i64GeU | f32Eq
  | f32Ne | f32Lt | f32Gt | f32Le | f32Ge | f64Eq | f64Ne | f64Lt | f64Gt | f64Le | f64Ge | i32Add
  | i32Sub | i32Mul | i32DivS | i32DivU | i32RemS | i32RemU | i32And | i32Or | i32Xor | i32Shl
  | i32ShrS | i32ShrU | i64Add | i64Sub | i64Mul | i64DivS | i64DivU | i64RemS | i64RemU | i64And
  | i64Or | i64Xor | i64Shl | i64ShrS | i64ShrU | f32Abs | f32Neg | f32Sqrt | f32Add | f32Sub
  | f32Mul | f32Div | f64Abs | f64Neg | f64Sqrt | f64Add | f64Sub | f64Mul | f64Div | i32WrapI64
  | i32TruncF32S | i32TruncF64S | i64ExtendI32S | i64ExtendI32U | i64TruncF32S | i64TruncF64S
  | f32ConvertI32S | f32ConvertI64S | f32DemoteF64 | f64ConvertI32S | f64ConvertI64S
  | f64PromoteF32
  deriving DecidableEq, Repr

/-- What follows the byte of an instruction. -/
inductive Immediate where
  /-- Nothing. -/
  | none
  /-- The type of the results of a block. -/
  | blockType
  /-- The number of a variable or function, or the depth of a branch. -/
  | index
  /-- An alignment and an offset. -/
  | memArg
  /-- The byte that stands for the one memory. -/
  | memoryIndex
  | int
  | f32
  | f64
  deriving DecidableEq, Repr

namespace Opcode

/-- The byte by which an instruction is known when it is read, or written out in a program. -/
def byte : Opcode → UInt8
  | unreachable => 0x00 | nop => 0x01 | block => 0x02 | loop => 0x03 | ifOp => 0x04
  | elseOp => 0x05 | endOp => 0x0B | br => 0x0C | brIf => 0x0D | ret => 0x0F | call => 0x10
  | drop => 0x1A | select => 0x1B | localGet => 0x20 | localSet => 0x21 | localTee => 0x22
  | i32Load => 0x28 | i64Load => 0x29 | f32Load => 0x2A | f64Load => 0x2B | i32Load8S => 0x2C
  | i32Load8U => 0x2D | i32Load16S => 0x2E | i32Load16U => 0x2F | i32Store => 0x36
  | i64Store => 0x37 | f32Store => 0x38 | f64Store => 0x39 | i32Store8 => 0x3A
  | i32Store16 => 0x3B | memorySize => 0x3F | memoryGrow => 0x40 | i32Const => 0x41
  | i64Const => 0x42 | f32Const => 0x43 | f64Const => 0x44 | i32Eqz => 0x45 | i32Eq => 0x46
  | i32Ne => 0x47 | i32LtS => 0x48 | i32LtU => 0x49 | i32GtS => 0x4A | i32GtU => 0x4B
  | i32LeS => 0x4C | i32LeU => 0x4D | i32GeS => 0x4E | i32GeU => 0x4F | i64Eqz => 0x50
  | i64Eq => 0x51 | i64Ne => 0x52 | i64LtS => 0x53 | i64LtU => 0x54 | i64GtS => 0x55
  | i64GtU => 0x56 | i64LeS => 0x57 | i64LeU => 0x58 | i64GeS => 0x59 | i64GeU => 0x5A
  | f32Eq => 0x5B | f32Ne => 0x5C | f32Lt => 0x5D | f32Gt => 0x5E | f32Le => 0x5F | f32Ge => 0x60
  | f64Eq => 0x61 | f64Ne => 0x62 | f64Lt => 0x63 | f64Gt => 0x64 | f64Le => 0x65 | f64Ge => 0x66
  | i32Add => 0x6A | i32Sub => 0x6B | i32Mul => 0x6C | i32DivS => 0x6D | i32DivU => 0x6E
  | i32RemS => 0x6F | i32RemU => 0x70 | i32And => 0x71 | i32Or => 0x72 | i32Xor => 0x73
  | i32Shl => 0x74 | i32ShrS => 0x75 | i32ShrU => 0x76 | i64Add => 0x7C | i64Sub => 0x7D
  | i64Mul => 0x7E | i64DivS => 0x7F | i64DivU => 0x80 | i64RemS => 0x81 | i64RemU => 0x82
  | i64And => 0x83 | i64Or => 0x84 | i64Xor => 0x85 | i64Shl => 0x86 | i64ShrS => 0x87
  | i64ShrU => 0x88 | f32Abs => 0x8B | f32Neg => 0x8C | f32Sqrt => 0x91 | f32Add => 0x92
  | f32Sub => 0x93 | f32Mul => 0x94 | f32Div => 0x95 | f64Abs => 0x99 | f64Neg => 0x9A
  | f64Sqrt => 0x9F | f64Add => 0xA0 | f64Sub => 0xA1 | f64Mul => 0xA2 | f64Div => 0xA3
  | i32WrapI64 => 0xA7 | i32TruncF32S => 0xA8 | i32TruncF64S => 0xAA | i64ExtendI32S => 0xAC
  | i64ExtendI32U => 0xAD | i64TruncF32S => 0xAE | i64TruncF64S => 0xB0 | f32ConvertI32S => 0xB2
  | f32ConvertI64S => 0xB4 | f32DemoteF64 => 0xB6 | f64ConvertI32S => 0xB7
  | f64ConvertI64S => 0xB9 | f64PromoteF32 => 0xBB

/-- The byte that is written for an instruction, by the chapters of the binary format: control, the
stack, variables, memory, constants, comparisons, arithmetic and conversions. -/
def formatByte : Opcode → UInt8
  | unreachable => 0x00 | nop => 0x01 | block => 0x02 | loop => 0x03 | ifOp => 0x04 | elseOp => 0x05
  | endOp => 0x0B | br => 0x0C | brIf => 0x0D | ret => 0x0F | call => 0x10
  | drop => 0x1A | select => 0x1B
  | localGet => 0x20 | localSet => 0x21 | localTee => 0x22
  | i32Load => 0x28 | i64Load => 0x29 | f32Load => 0x2A | f64Load => 0x2B | i32Load8S => 0x2C
  | i32Load8U => 0x2D | i32Load16S => 0x2E | i32Load16U => 0x2F | i32Store => 0x36
  | i64Store => 0x37 | f32Store => 0x38 | f64Store => 0x39 | i32Store8 => 0x3A | i32Store16 => 0x3B
  | memorySize => 0x3F | memoryGrow => 0x40
  | i32Const => 0x41 | i64Const => 0x42 | f32Const => 0x43 | f64Const => 0x44
  | i32Eqz => 0x45 | i32Eq => 0x46 | i32Ne => 0x47 | i32LtS => 0x48 | i32LtU => 0x49
  | i32GtS => 0x4A | i32GtU => 0x4B | i32LeS => 0x4C | i32LeU => 0x4D | i32GeS => 0x4E
  | i32GeU => 0x4F | i64Eqz => 0x50 | i64Eq => 0x51 | i64Ne => 0x52 | i64LtS => 0x53
  | i64LtU => 0x54 | i64GtS => 0x55 | i64GtU => 0x56 | i64LeS => 0x57 | i64LeU => 0x58
  | i64GeS => 0x59 | i64GeU => 0x5A | f32Eq => 0x5B | f32Ne => 0x5C | f32Lt => 0x5D | f32Gt => 0x5E
  | f32Le => 0x5F | f32Ge => 0x60 | f64Eq => 0x61 | f64Ne => 0x62 | f64Lt => 0x63 | f64Gt => 0x64
  | f64Le => 0x65 | f64Ge => 0x66
  | i32Add => 0x6A | i32Sub => 0x6B | i32Mul => 0x6C | i32DivS => 0x6D | i32DivU => 0x6E
  | i32RemS => 0x6F | i32RemU => 0x70 | i32And => 0x71 | i32Or => 0x72 | i32Xor => 0x73
  | i32Shl => 0x74 | i32ShrS => 0x75 | i32ShrU => 0x76 | i64Add => 0x7C | i64Sub => 0x7D
  | i64Mul => 0x7E | i64DivS => 0x7F | i64DivU => 0x80 | i64RemS => 0x81 | i64RemU => 0x82
  | i64And => 0x83 | i64Or => 0x84 | i64Xor => 0x85 | i64Shl => 0x86 | i64ShrS => 0x87
  | i64ShrU => 0x88 | f32Abs => 0x8B | f32Neg => 0x8C | f32Sqrt => 0x91 | f32Add => 0x92
  | f32Sub => 0x93 | f32Mul => 0x94 | f32Div => 0x95 | f64Abs => 0x99 | f64Neg => 0x9A
  | f64Sqrt => 0x9F | f64Add => 0xA0 | f64Sub => 0xA1 | f64Mul => 0xA2 | f64Div => 0xA3
  | i32WrapI64 => 0xA7 | i32TruncF32S => 0xA8 | i32TruncF64S => 0xAA | i64ExtendI32S => 0xAC
  | i64ExtendI32U => 0xAD | i64TruncF32S => 0xAE | i64TruncF64S => 0xB0 | f32ConvertI32S => 0xB2
  | f32ConvertI64S => 0xB4 | f32DemoteF64 => 0xB6 | f64ConvertI32S => 0xB7 | f64ConvertI64S => 0xB9
  | f64PromoteF32 => 0xBB

/-- The name of an instruction in text. -/
def mnemonic : Opcode → String
  | unreachable => "unreachable" | nop => "nop" | block => "block" | loop => "loop" | ifOp => "if"
  | elseOp => "else" | endOp => "end" | br => "br" | brIf => "br_if" | ret => "return"
  | call => "call" | drop => "drop" | select => "select" | localGet => "local.get"
  | localSet => "local.set" | localTee => "local.tee" | i32Load => "i32.load"
  | i64Load => "i64.load" | f32Load => "f32.load" | f64Load => "f64.load"
  | i32Load8S => "i32.load8_s" | i32Load8U => "i32.load8_u" | i32Load16S => "i32.load16_s"
  | i32Load16U => "i32.load16_u" | i32Store => "i32.store" | i64Store => "i64.store"
  | f32Store => "f32.store" | f64Store => "f64.store" | i32Store8 => "i32.store8"
  | i32Store16 => "i32.store16" | memorySize => "memory.size" | memoryGrow => "memory.grow"
  | i32Const => "i32.const" | i64Const => "i64.const" | f32Const => "f32.const"
  | f64Const => "f64.const" | i32Eqz => "i32.eqz" | i32Eq => "i32.eq" | i32Ne => "i32.ne"
  | i32LtS => "i32.lt_s" | i32LtU => "i32.lt_u" | i32GtS => "i32.gt_s" | i32GtU => "i32.gt_u"
  | i32LeS => "i32.le_s" | i32LeU => "i32.le_u" | i32GeS => "i32.ge_s" | i32GeU => "i32.ge_u"
  | i64Eqz => "i64.eqz" | i64Eq => "i64.eq" | i64Ne => "i64.ne" | i64LtS => "i64.lt_s"
  | i64LtU => "i64.lt_u" | i64GtS => "i64.gt_s" | i64GtU => "i64.gt_u" | i64LeS => "i64.le_s"
  | i64LeU => "i64.le_u" | i64GeS => "i64.ge_s" | i64GeU => "i64.ge_u" | f32Eq => "f32.eq"
  | f32Ne => "f32.ne" | f32Lt => "f32.lt" | f32Gt => "f32.gt" | f32Le => "f32.le"
  | f32Ge => "f32.ge" | f64Eq => "f64.eq" | f64Ne => "f64.ne" | f64Lt => "f64.lt"
  | f64Gt => "f64.gt" | f64Le => "f64.le" | f64Ge => "f64.ge" | i32Add => "i32.add"
  | i32Sub => "i32.sub" | i32Mul => "i32.mul" | i32DivS => "i32.div_s" | i32DivU => "i32.div_u"
  | i32RemS => "i32.rem_s" | i32RemU => "i32.rem_u" | i32And => "i32.and" | i32Or => "i32.or"
  | i32Xor => "i32.xor" | i32Shl => "i32.shl" | i32ShrS => "i32.shr_s" | i32ShrU => "i32.shr_u"
  | i64Add => "i64.add" | i64Sub => "i64.sub" | i64Mul => "i64.mul" | i64DivS => "i64.div_s"
  | i64DivU => "i64.div_u" | i64RemS => "i64.rem_s" | i64RemU => "i64.rem_u" | i64And => "i64.and"
  | i64Or => "i64.or" | i64Xor => "i64.xor" | i64Shl => "i64.shl" | i64ShrS => "i64.shr_s"
  | i64ShrU => "i64.shr_u" | f32Abs => "f32.abs" | f32Neg => "f32.neg" | f32Sqrt => "f32.sqrt"
  | f32Add => "f32.add" | f32Sub => "f32.sub" | f32Mul => "f32.mul" | f32Div => "f32.div"
  | f64Abs => "f64.abs" | f64Neg => "f64.neg" | f64Sqrt => "f64.sqrt" | f64Add => "f64.add"
  | f64Sub => "f64.sub" | f64Mul => "f64.mul" | f64Div => "f64.div" | i32WrapI64 => "i32.wrap_i64"
  | i32TruncF32S => "i32.trunc_f32_s" | i32TruncF64S => "i32.trunc_f64_s"
  | i64ExtendI32S => "i64.extend_i32_s" | i64ExtendI32U => "i64.extend_i32_u"
  | i64TruncF32S => "i64.trunc_f32_s" | i64TruncF64S => "i64.trunc_f64_s"
  | f32ConvertI32S => "f32.convert_i32_s" | f32ConvertI64S => "f32.convert_i64_s"
  | f32DemoteF64 => "f32.demote_f64" | f64ConvertI32S => "f64.convert_i32_s"
  | f64ConvertI64S => "f64.convert_i64_s" | f64PromoteF32 => "f64.promote_f32"

/-- Every instruction, by increasing byte. -/
def all : List Opcode :=
  [unreachable, nop, block, loop, ifOp, elseOp, endOp, br, brIf, ret, call, drop, select,
    localGet, localSet, localTee, i32Load, i64Load, f32Load, f64Load, i32Load8S, i32Load8U,
    i32Load16S, i32Load16U, i32Store, i64Store, f32Store, f64Store, i32Store8, i32Store16,
    memorySize, memoryGrow, i32Const, i64Const, f32Const, f64Const, i32Eqz, i32Eq, i32Ne, i32LtS,
    i32LtU, i32GtS, i32GtU, i32LeS, i32LeU, i32GeS, i32GeU, i64Eqz, i64Eq, i64Ne, i64LtS, i64LtU,
    i64GtS, i64GtU, i64LeS, i64LeU, i64GeS, i64GeU, f32Eq, f32Ne, f32Lt, f32Gt, f32Le, f32Ge,
    f64Eq, f64Ne, f64Lt, f64Gt, f64Le, f64Ge, i32Add, i32Sub, i32Mul, i32DivS, i32DivU, i32RemS,
    i32RemU, i32And, i32Or, i32Xor, i32Shl, i32ShrS, i32ShrU, i64Add, i64Sub, i64Mul, i64DivS,
    i64DivU, i64RemS, i64RemU, i64And, i64Or, i64Xor, i64Shl, i64ShrS, i64ShrU, f32Abs, f32Neg,
    f32Sqrt, f32Add, f32Sub, f32Mul, f32Div, f64Abs, f64Neg, f64Sqrt, f64Add, f64Sub, f64Mul,
    f64Div, i32WrapI64, i32TruncF32S, i32TruncF64S, i64ExtendI32S, i64ExtendI32U, i64TruncF32S,
    i64TruncF64S, f32ConvertI32S, f32ConvertI64S, f32DemoteF64, f64ConvertI32S, f64ConvertI64S,
    f64PromoteF32]

/-- The instruction with a given byte. -/
def ofByte? (byte : UInt8) : Option Opcode := all.find? fun op => op.byte == byte

/-- The instruction with a given name. -/
def ofMnemonic? (name : String) : Option Opcode := all.find? fun op => op.mnemonic == name

/-- The shape of the operands of an instruction. -/
def immediate : Opcode → Immediate
  | block | loop | ifOp => .blockType
  | br | brIf | call | localGet | localSet | localTee => .index
  | i32Load | i64Load | f32Load | f64Load | i32Load8S | i32Load8U | i32Load16S | i32Load16U
  | i32Store | i64Store | f32Store | f64Store | i32Store8 | i32Store16 => .memArg
  | memorySize | memoryGrow => .memoryIndex
  | i32Const | i64Const => .int
  | f32Const => .f32
  | f64Const => .f64
  | _ => .none

/-- Whether the instructions after this one are nested in it. -/
def opens : Opcode → Bool
  | block | loop | ifOp | elseOp => true
  | _ => false

/-- Whether this instruction ends the nesting of those before it. -/
def closes : Opcode → Bool
  | endOp | elseOp => true
  | _ => false

end Opcode

end WasmCompiler.Wasm
