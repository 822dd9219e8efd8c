import WasmCompiler.Wasm.Leb128

/-! Modules and their bytes. -/

namespace WasmCompiler.Wasm

inductive ValType where
  | i32 | i64 | f32 | f64 | v128 | funcref | externref
  deriving DecidableEq, Repr

namespace ValType

def byte : ValType → UInt8
  | i32 => 0x7F | i64 => 0x7E | f32 => 0x7D | f64 => 0x7C | v128 => 0x7B
  | funcref => 0x70 | externref => 0x6F

end ValType

structure FuncType where
  params : List ValType
  results : List ValType
  deriving DecidableEq, Repr

/-- The size of a memory in pages. -/
structure Limits where
  min : Nat
  max : Option Nat
  deriving DecidableEq, Repr

inductive ExportKind where
  | func | table | memory | global | tag
  deriving DecidableEq, Repr

namespace ExportKind

def byte : ExportKind → UInt8
  | func => 0 | table => 1 | memory => 2 | global => 3 | tag => 4

def name : ExportKind → String
  | func => "func" | table => "table" | memory => "memory" | global => "global" | tag => "tag"

end ExportKind

structure Export where
  name : String
  kind : ExportKind
  index : Nat
  deriving DecidableEq, Repr

/-- A function body: the types of its variables that are not parameters, and its instructions
without the one that ends it. -/
structure Body where
  locals : List ValType
  code : Bytes
  deriving DecidableEq, Repr

/-- A module. `funcs` holds the number of the type of each function. -/
structure Module where
  types : List FuncType
  funcs : List Nat
  memory : Limits
  exports : List Export
  code : List Body
  deriving DecidableEq, Repr

/-- The name under which every compiled module exports its memory. -/
def memoryExport : String := "memory"

/-- The memory of every compiled module. -/
def compiledMemory : Limits := ⟨1, some 10⟩

/-- Items with their number before them. -/
def vector {α : Type} (encode : α → Bytes) (items : List α) : Bytes :=
  Leb128.unsigned items.length ++ items.flatMap encode

/-- Bytes with their number before them. -/
def sized (bytes : Bytes) : Bytes := Leb128.unsigned bytes.length ++ bytes

def utf8 (text : String) : Bytes := text.toUTF8.data.toList

namespace FuncType

def encode (t : FuncType) : Bytes :=
  0x60 :: (vector (fun v => [v.byte]) t.params ++ vector (fun v => [v.byte]) t.results)

end FuncType

namespace Limits

def encode (l : Limits) : Bytes :=
  match l.max with
  | none => 0x00 :: Leb128.unsigned l.min
  | some max => 0x01 :: (Leb128.unsigned l.min ++ Leb128.unsigned max)

end Limits

namespace Export

def encode (e : Export) : Bytes :=
  sized (utf8 e.name) ++ e.kind.byte :: Leb128.unsigned e.index

end Export

namespace Body

/-- Every variable is declared in a group of its own. -/
def encode (b : Body) : Bytes :=
  sized (vector (fun v => [0x01, v.byte]) b.locals ++ b.code ++ [0x0B])

end Body

namespace Module

def header : Bytes := [0x00, 0x61, 0x73, 0x6D, 0x01, 0x00, 0x00, 0x00]

/-- The bytes of a module. All five sections are written, also the empty ones. -/
def encode (m : Module) : Bytes :=
  header ++
    (0x01 :: sized (vector FuncType.encode m.types)) ++
    (0x03 :: sized (vector Leb128.unsigned m.funcs)) ++
    (0x05 :: sized (vector Limits.encode [m.memory])) ++
    (0x07 :: sized (vector Export.encode m.exports)) ++
    (0x0A :: sized (vector Body.encode m.code))

end Module

end WasmCompiler.Wasm
