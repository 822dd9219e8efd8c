import WasmCompiler.Number.Binary
import WasmCompiler.Wasm.Leb128
import WasmCompiler.Wasm.Opcode

/-! Instructions with their operands, as bytes and back. -/

namespace WasmCompiler.Wasm

open Number

/-- The type of the result of a block that has one. -/
inductive ResultType where
  | i32 | i64 | f32 | f64 | v128
  | nullcontref | nullexnref | nullfuncref | nullexternref | nullref
  | funcref | externref | anyref | eqref | i31ref | structref | arrayref | exnref | contref
  | indexed (index : Nat)
  deriving DecidableEq, Repr

namespace ResultType

/-- The types that are written as one byte. -/
def table : List (UInt8 × ResultType) :=
  [(0x7F, i32), (0x7E, i64), (0x7D, f32), (0x7C, f64), (0x7B, v128), (0x75, nullcontref),
    (0x74, nullexnref), (0x73, nullfuncref), (0x72, nullexternref), (0x71, nullref),
    (0x70, funcref), (0x6F, externref), (0x6E, anyref), (0x6D, eqref), (0x6C, i31ref),
    (0x6B, structref), (0x6A, arrayref), (0x69, exnref), (0x68, contref)]

def name : ResultType → String
  | i32 => "i32" | i64 => "i64" | f32 => "f32" | f64 => "f64" | v128 => "v128"
  | nullcontref => "nullcontref" | nullexnref => "nullexnref" | nullfuncref => "nullfuncref"
  | nullexternref => "nullexternref" | nullref => "nullref"
  | funcref => "funcref" | externref => "externref" | anyref => "anyref" | eqref => "eqref"
  | i31ref => "i31ref" | structref => "structref" | arrayref => "arrayref"
  | exnref => "exnref" | contref => "contref"
  | indexed index => "(ref null (module " ++ toString index ++ "))"

/-- The largest index of a type that a result can have. -/
def maxIndex : Int := 1048575

/-- The type at the start of some bytes: one of the table, or else an index of a type, read as
an integer of 33 bits that may not be negative. -/
def read? (bytes : Bytes) : Option (ResultType × Bytes) :=
  match bytes with
  | [] => none
  | byte :: rest =>
    match table.lookup byte with
    | some type => some (type, rest)
    | none =>
      (Leb128.readSigned? 33 bytes).bind fun read =>
        if 0 ≤ read.1 ∧ read.1 ≤ maxIndex then some (indexed read.1.toNat, read.2) else none

/-- Reading a type uses at least one byte. -/
theorem length_lt_of_read? {bytes rest : Bytes} {t : ResultType}
    (h : read? bytes = some (t, rest)) : rest.length < bytes.length := by
  revert h
  fun_cases read? bytes with
  | case1 => rintro ⟨⟩
  | case2 byte =>
    rintro ⟨⟩
    exact Nat.lt_succ_self _
  | case3 byte tail =>
    intro h
    obtain ⟨read, hr, he⟩ := Option.bind_eq_some_iff.1 h
    obtain ⟨_, ⟨⟩⟩ := Option.ite_none_right_eq_some.1 he
    exact Leb128.length_lt_of_readSigned? hr

/-- The bytes of a type. -/
def encode (t : ResultType) : Bytes :=
  match t with
  | indexed index => Leb128.signed index
  | _ =>
    match table.find? fun row => row.2 = t with
    | some row => [row.1]
    | none => []

end ResultType

/-- The operands of an instruction, by the shape that its opcode asks for. -/
inductive Argument where
  | none
  | block (result : Option ResultType)
  | index (n : Nat)
  | memArg (align offset : Nat)
  | memory (reserved : UInt8)
  | int (value : Int)
  | f32 (value : Single)
  | f64 (value : Double)
  deriving DecidableEq, Repr

/-- The byte that is read as a block without a result. -/
def emptyBlock : UInt8 := 0x40

namespace Argument

def encode : Argument → Bytes
  | none => []
  | block .none => [0x40]
  | block (some result) => result.encode
  | index n => Leb128.unsigned n
  | memArg align offset => Leb128.unsigned align ++ Leb128.unsigned offset
  | memory reserved => [reserved]
  | int value => Leb128.signed value
  | f32 value => littleEndian 4 value.bits.toNat
  | f64 value => littleEndian 8 value.bits.toNat

/-- The operands of an instruction at the start of some bytes. -/
def read? (op : Opcode) (bytes : Bytes) : Option (Argument × Bytes) :=
  match op.immediate with
  | .none => some (none, bytes)
  | .blockType =>
    match bytes with
    | [] => .none
    | byte :: rest =>
      if byte = emptyBlock then some (block .none, rest)
      else (ResultType.read? bytes).map fun read => (block (some read.1), read.2)
  | .index => (Leb128.readUnsigned? 32 bytes).map fun read => (index read.1, read.2)
  | .memArg =>
    (Leb128.readUnsigned? 32 bytes).bind fun align =>
      (Leb128.readUnsigned? 64 align.2).map fun offset => (memArg align.1 offset.1, offset.2)
  | .memoryIndex =>
    match bytes with
    | [] => .none
    | byte :: rest => some (memory byte, rest)
  | .int =>
    let bits := if op = .i32Const then 32 else 64
    (Leb128.readSigned? bits bytes).map fun read => (int read.1, read.2)
  | .f32 =>
    (readLittleEndian? 4 bytes).map fun read => (f32 ⟨UInt32.ofNat read.1⟩, read.2)
  | .f64 =>
    (readLittleEndian? 8 bytes).map fun read => (f64 ⟨UInt64.ofNat read.1⟩, read.2)

/-- What is built from something that was read leaves the same bytes. -/
theorem length_le_of_map {α : Type} {found : Option (α × Bytes)}
    {f : α × Bytes → Argument × Bytes} {read : Argument × Bytes} {size : Nat}
    (h : found.map f = some read) (hLeft : ∀ r, (f r).2 = r.2)
    (hFound : ∀ {a left}, found = some (a, left) → left.length ≤ size) :
    read.2.length ≤ size := by
  obtain ⟨⟨a, left⟩, hr, rfl⟩ := Option.map_eq_some_iff.1 h
  rw [hLeft]
  exact hFound hr

/-- Reading operands leaves no more bytes. -/
theorem length_le_of_read? {op : Opcode} {bytes rest : Bytes} {arg : Argument}
    (h : read? op bytes = some (arg, rest)) : rest.length ≤ bytes.length := by
  revert h
  fun_cases read? op bytes with
  | case1 =>
    rintro ⟨⟩
    exact Nat.le_refl _
  | case2 | case7 => rintro ⟨⟩
  | case3 | case8 =>
    rintro ⟨⟩
    exact Nat.le_succ _
  | case4 => exact fun h => length_le_of_map h (fun _ => rfl) fun hr =>
      Nat.le_of_lt (ResultType.length_lt_of_read? hr)
  | case5 => exact fun h => length_le_of_map h (fun _ => rfl) fun hr =>
      Nat.le_of_lt (Leb128.length_lt_of_readUnsigned? hr)
  | case6 =>
    intro h
    obtain ⟨align, ha, hb⟩ := Option.bind_eq_some_iff.1 h
    have := Leb128.length_lt_of_readUnsigned? ha
    refine length_le_of_map hb (fun _ => rfl) fun ho => ?_
    exact Nat.le_of_lt (Nat.lt_trans (Leb128.length_lt_of_readUnsigned? ho) this)
  | case9 => exact fun h => length_le_of_map h (fun _ => rfl) fun hr =>
      Nat.le_of_lt (Leb128.length_lt_of_readSigned? hr)
  | case10 | case11 => exact fun h => length_le_of_map h (fun _ => rfl) fun hr =>
      length_le_of_readLittleEndian? hr

end Argument

/-- An instruction with its operands. -/
structure Instr where
  op : Opcode
  arg : Argument := .none
  deriving DecidableEq, Repr

namespace Instr

def encode (i : Instr) : Bytes := i.op.formatByte :: i.arg.encode

/-- The instruction at the start of some bytes, and the bytes after it. -/
def read? (bytes : Bytes) : Option (Instr × Bytes) :=
  match bytes with
  | [] => none
  | byte :: rest =>
    (Opcode.ofByte? byte).bind fun op =>
      (Argument.read? op rest).map fun read => (⟨op, read.1⟩, read.2)

/-- Reading an instruction uses at least its first byte. -/
theorem length_lt_of_read? {bytes rest : Bytes} {i : Instr} (h : read? bytes = some (i, rest)) :
    rest.length < bytes.length := by
  cases bytes with
  | nil => cases h
  | cons byte bytes =>
    obtain ⟨op, _, hr⟩ := Option.bind_eq_some_iff.1 h
    obtain ⟨read, ha, ⟨⟩⟩ := Option.map_eq_some_iff.1 hr
    exact Nat.lt_succ_of_le (Argument.length_le_of_read? ha)

end Instr

end WasmCompiler.Wasm
