import WasmCompiler.Diagnostic
import WasmCompiler.Number.Shortest
import WasmCompiler.Wasm.Instr
import WasmCompiler.Wasm.Module

/-! Modules as text. Bodies are read back from their bytes, one line to an instruction. -/

namespace WasmCompiler.Wasm

open Number

/-- A body has bytes at an offset that are no instruction, or one that closes more blocks than
are open. -/
structure Undecodable where
  offset : Nat
  deriving DecidableEq, Repr

namespace Undecodable

def message (e : Undecodable) : String :=
  "cannot decode instruction at byte " ++ toString e.offset

/-- The report names no place in a source text. -/
def report (e : Undecodable) : Diagnostic := ⟨.internal, e.message, .point 0⟩

end Undecodable

namespace ValType

/-- The name of a type in text. Reference types share one. -/
def textName : ValType → String
  | i32 => "i32" | i64 => "i64" | f32 => "f32" | f64 => "f64" | v128 => "v128"
  | funcref | externref => "ref"

/-- A list of types after a word; nothing for no types. -/
def textList (word : String) (types : List ValType) : String :=
  if types.isEmpty then ""
  else " (" ++ word ++ String.join (types.map fun t => " " ++ t.textName) ++ ")"

end ValType

def FuncType.text (t : FuncType) : String :=
  ValType.textList "param" t.params ++ ValType.textList "result" t.results

/-- The text of a number. What is not a number has one text, whatever its sign. -/
def floatText (x : Double) : String := if x.isNan then "nan" else x.text

def Argument.text : Argument → String
  | none => ""
  | block .none => ""
  | block (some result) => " (result " ++ result.name ++ ")"
  | index n => " " ++ toString n
  | memArg align offset =>
    " offset=" ++ toString offset ++ " align=" ++ toString (Nat.pow 2 (min align 63))
  | memory _ => ""
  | int value => " " ++ toString value
  | f32 value => " " ++ floatText value.toDouble
  | f64 value => " " ++ floatText value

namespace Instr

/-- The line of an instruction inside `depth` blocks. -/
def line (depth : Nat) (i : Instr) : String :=
  "    " ++ String.ofList (List.replicate (2 * depth) ' ') ++ i.op.mnemonic ++ i.arg.text ++ "\n"

/-- The depth of an instruction, given that of the one before: one less if it closes a block,
and none if no block is open. -/
def depthOf? (depth : Nat) (i : Instr) : Option Nat :=
  if i.op.closes then
    match depth with
    | 0 => none
    | outer + 1 => some outer
  else some depth

/-- The lines of the instructions in `bytes`, which start at `offset` in their body. -/
def lines (offset depth : Nat) (bytes : Bytes) : Except Undecodable (List String) :=
  if bytes.isEmpty then .ok []
  else
    match h : read? bytes with
    | none => .error ⟨offset⟩
    | some (i, rest) =>
      match i.depthOf? depth with
      | none => .error ⟨offset⟩
      | some inner =>
        have := length_lt_of_read? h
        let next := if i.op.opens then inner + 1 else inner
        (lines (offset + (bytes.length - rest.length)) next rest).map (i.line inner :: ·)
termination_by bytes.length

end Instr

/-- The lines of a body: its variables and its instructions. -/
def Body.text (b : Body) : Except Undecodable String :=
  (Instr.lines 0 0 b.code).map fun instrs =>
    String.join (b.locals.map fun t => "    (local " ++ t.textName ++ ")\n") ++ String.join instrs

namespace Module

def typeText (index : Nat) (t : FuncType) : String :=
  "  (type (;" ++ toString index ++ ";) (func" ++ t.text ++ "))\n"

/-- The name of a function: that of the first export of it. -/
def functionName? (m : Module) (index : Nat) : Option String :=
  (m.exports.find? fun e => e.kind = .func ∧ e.index = index).map Export.name

/-- The text of a function with the given index. Its signature is left out if its type is not
among the types of the module. -/
def functionText (m : Module) (index type : Nat) (body : Body) : Except Undecodable String :=
  body.text.map fun lines =>
    let name := ((m.functionName? index).map (" $" ++ ·)).getD ""
    let signature := ((m.types[type]?).map FuncType.text).getD ""
    "  (func" ++ name ++ " (;" ++ toString index ++ ";) (type " ++ toString type ++ ")" ++
      signature ++ "\n" ++ lines ++ "  )\n"

def functionTexts (m : Module) : Nat → List (Nat × Body) → Except Undecodable String
  | _, [] => .ok ""
  | index, (type, body) :: rest =>
    match m.functionText index type body with
    | .error e => .error e
    | .ok first => (functionTexts m (index + 1) rest).map (first ++ ·)

def memoryText (l : Limits) : String :=
  "  (memory (;0;) " ++ toString l.min ++ ((l.max.map fun max => " " ++ toString max).getD "") ++
    ")\n"

def exportText (e : Export) : String :=
  "  (export \"" ++ e.name ++ "\" (" ++ e.kind.name ++ " " ++ toString e.index ++ "))\n"

/-- The text of a module. Functions without a body, and bodies without a function, are left
out. -/
def text (m : Module) : Except Undecodable String :=
  (m.functionTexts 0 (m.funcs.zip m.code)).map fun functions =>
    "(module\n" ++ String.join (m.types.mapIdx typeText) ++ functions ++ memoryText m.memory ++
      String.join (m.exports.map exportText) ++ ")\n"

end Module

end WasmCompiler.Wasm
