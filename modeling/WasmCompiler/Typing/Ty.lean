import WasmCompiler.Wasm.Module

/-! The types of the language, and how their values are stored. -/

namespace WasmCompiler

inductive Ty where
  | i32 | i64 | f32 | f64 | void | bool
  deriving DecidableEq, Repr

namespace Ty

def name : Ty → String
  | i32 => "i32" | i64 => "i64" | f32 => "f32" | f64 => "f64" | void => "void" | bool => "bool"

def all : List Ty := [i32, i64, f32, f64, void, bool]

/-- The type that a name stands for. -/
def ofName? (text : String) : Option Ty := all.find? fun type => type.name == text

/-- Whether a type is one of the four types of numbers. -/
def isNumeric : Ty → Bool
  | i32 | i64 | f32 | f64 => true
  | void | bool => false

/-- How values of a type are stored. Truth values are stored as numbers, and there are no
values of type `void`. -/
def storage? : Ty → Option Wasm.ValType
  | i32 | bool => some .i32
  | i64 => some .i64
  | f32 => some .f32
  | f64 => some .f64
  | void => none

end Ty

end WasmCompiler
