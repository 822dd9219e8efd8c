import WasmCompiler.Tree.Basic
import WasmCompiler.Typing.Symbols
import WasmCompiler.Wasm.Module
import WasmCompiler.Wasm.RawText

/-! The code of a program. Conditions leave a number on the stack, statements leave the stack
as it was, and a function without a last `return` ends in a trap if it has a result. -/

namespace WasmCompiler

open Wasm

/-- The result of lowering. -/
abbrev Lowered (α : Type) := Except (Located EmitError) α

def EmitError.throw {α : Type} (span : Span) (error : EmitError) : Lowered α :=
  .error ⟨error, span⟩

namespace Wasm.Instr

/-- An instruction without operands. -/
def plain (op : Opcode) : Instr := ⟨op, .none⟩

def localGet (slot : Nat) : Instr := ⟨.localGet, .index slot⟩

def localSet (slot : Nat) : Instr := ⟨.localSet, .index slot⟩

def i32Const (value : Int32) : Instr := ⟨.i32Const, .int value.toInt⟩

def call (index : Nat) : Instr := ⟨.call, .index index⟩

def br (depth : Nat) : Instr := ⟨.br, .index depth⟩

/-- The start of a block without a result. -/
def ifOp : Instr := ⟨.ifOp, .block none⟩

def loop : Instr := ⟨.loop, .block none⟩

/-- The constant minus one, with which negation multiplies. -/
def minusOne? : ValType → Option Instr
  | .i32 => some ⟨.i32Const, .int (-1)⟩
  | .i64 => some ⟨.i64Const, .int (-1)⟩
  | .f32 => some ⟨.f32Const, .f32 ⟨0xBF800000⟩⟩
  | .f64 => some ⟨.f64Const, .f64 ⟨0xBFF0000000000000⟩⟩
  | _ => none

end Wasm.Instr

/-- The instruction of an operator on values that are stored in a given way. Whole numbers are
compared with their sign, and the logical operators work bit by bit on truth values. -/
def BinaryOp.opcodeOn? (op : BinaryOp) (stored : ValType) : Option Opcode :=
  match op, stored with
  | .add, .i32 => some .i32Add | .add, .i64 => some .i64Add
  | .add, .f32 => some .f32Add | .add, .f64 => some .f64Add
  | .sub, .i32 => some .i32Sub | .sub, .i64 => some .i64Sub
  | .sub, .f32 => some .f32Sub | .sub, .f64 => some .f64Sub
  | .mul, .i32 => some .i32Mul | .mul, .i64 => some .i64Mul
  | .mul, .f32 => some .f32Mul | .mul, .f64 => some .f64Mul
  | .div, .i32 => some .i32DivS | .div, .i64 => some .i64DivS
  | .div, .f32 => some .f32Div | .div, .f64 => some .f64Div
  | .lt, .i32 => some .i32LtS | .lt, .i64 => some .i64LtS
  | .lt, .f32 => some .f32Lt | .lt, .f64 => some .f64Lt
  | .le, .i32 => some .i32LeS | .le, .i64 => some .i64LeS
  | .le, .f32 => some .f32Le | .le, .f64 => some .f64Le
  | .gt, .i32 => some .i32GtS | .gt, .i64 => some .i64GtS
  | .gt, .f32 => some .f32Gt | .gt, .f64 => some .f64Gt
  | .ge, .i32 => some .i32GeS | .ge, .i64 => some .i64GeS
  | .ge, .f32 => some .f32Ge | .ge, .f64 => some .f64Ge
  | .eq, .i32 => some .i32Eq | .eq, .i64 => some .i64Eq
  | .eq, .f32 => some .f32Eq | .eq, .f64 => some .f64Eq
  | .ne, .i32 => some .i32Ne | .ne, .i64 => some .i64Ne
  | .ne, .f32 => some .f32Ne | .ne, .f64 => some .f64Ne
  | .bitAnd, .i32 | .and, .i32 => some .i32And
  | .bitAnd, .i64 | .and, .i64 => some .i64And
  | .bitOr, .i32 | .or, .i32 => some .i32Or
  | .bitOr, .i64 | .or, .i64 => some .i64Or
  | _, _ => none

/-- The instruction of an operator on values of a type. -/
def BinaryOp.opcode? (op : BinaryOp) (type : Ty) : Option Opcode :=
  type.storage?.bind op.opcodeOn?

/-- The conversion between two ways to store a number, if they differ. -/
def conversion? (source target : ValType) : Option Opcode :=
  match source, target with
  | .i32, .i64 => some .i64ExtendI32S
  | .i64, .i32 => some .i32WrapI64
  | .i32, .f32 => some .f32ConvertI32S
  | .f32, .i32 => some .i32TruncF32S
  | .i32, .f64 => some .f64ConvertI32S
  | .f64, .i32 => some .i32TruncF64S
  | .i64, .f32 => some .f32ConvertI64S
  | .f32, .i64 => some .i64TruncF32S
  | .i64, .f64 => some .f64ConvertI64S
  | .f64, .i64 => some .i64TruncF64S
  | .f32, .f64 => some .f64PromoteF32
  | .f64, .f32 => some .f32DemoteF64
  | _, _ => none

/-- How values of a type are stored, when they have to be. -/
def Ty.storage (type : Ty) (span : Span) : Lowered ValType :=
  match type.storage? with
  | some stored => .ok stored
  | none => EmitError.throw span (.noStorage type)

/-- What the names in a function stand for. -/
structure Scope where
  signatures : Signatures
  locals : Locals

/-- The slot and the type of a variable. -/
def Scope.slot (scope : Scope) (name : String) (span : Span) : Lowered (Nat × Ty) :=
  match scope.locals.slot? name, scope.locals.get? name with
  | some slot, some v => .ok (slot, v.type)
  | _, _ => EmitError.throw span (.unresolvedLocal name)

/-- The instructions of an operator after those of its operands, and the type of the result. -/
def BinaryOp.lower (op : BinaryOp) (type : Ty) (span : Span) : Lowered (List Instr × Ty) :=
  match op.opcode? type with
  | none => EmitError.throw span (.unsupportedOperator op.symbol type)
  | some opcode => .ok ([.plain opcode], if op.isPredicate then .bool else type)

/-- The instructions of an operator after those of its operand. Negation multiplies by minus
one, and `!` flips the bit of a truth value. -/
def UnaryOp.lower (op : UnaryOp) (type : Ty) (span : Span) : Lowered (List Instr) :=
  let unsupported {α : Type} : Lowered α :=
    EmitError.throw span (.unsupportedOperator op.symbol type)
  match op with
  | .plus => .ok []
  | .neg =>
    if type.isNumeric then do
      let stored ← type.storage span
      match Instr.minusOne? stored, BinaryOp.opcode? .mul type with
      | some minusOne, some mul => return [minusOne, .plain mul]
      | _, _ => unsupported
    else unsupported
  | .not =>
    if type = .bool then .ok [.i32Const 1, .plain .i32Xor] else unsupported

/-- The constant of a literal. Whole numbers keep their lowest 32 bits. -/
def Literal.lower : Literal → Instr × Ty
  | .int value => (.i32Const value.toInt32, .i32)
  | .float value => (⟨.f32Const, .f32 value.toSingle⟩, .f32)

/-- The conversion of a cast. -/
def Ty.lowerCast (source : Ty) (target : String) (span : Span) : Lowered (List Instr × Ty) :=
  match Ty.ofName? target with
  | none => EmitError.throw span (.unknownType target)
  | some type =>
    match source.storage?, type.storage? with
    | some fromStored, some toStored =>
      .ok (((conversion? fromStored toStored).map Instr.plain).toList, type)
    | _, _ => EmitError.throw span (.unsupportedCast source type)

namespace Expr

mutual

/-- The instructions that leave the value of an expression on the stack, and its type. -/
def lower (scope : Scope) : Expr → Lowered (List Instr × Ty)
  | ident span name => do
    let (slot, type) ← scope.slot name span
    return ([.localGet slot], type)
  | number _ value => .ok ([value.lower.1], value.lower.2)
  | bool _ value => .ok ([.i32Const (if value then 1 else 0)], .bool)
  | str span _ => EmitError.throw span .stringLiteral
  | assign span target value => do
    let (code, _) ← lower scope value
    let (slot, _) ← scope.slot target span
    return (code ++ [.localSet slot], .void)
  | binary span op lhs rhs => do
    let (left, type) ← lower scope lhs
    let (right, _) ← lower scope rhs
    let (code, result) ← op.lower type span
    return (left ++ right ++ code, result)
  | unary span op operand => do
    let (value, type) ← lower scope operand
    let code ← op.lower type span
    return (value ++ code, type)
  | cast span target operand => do
    let (value, type) ← lower scope operand
    let (code, result) ← type.lowerCast target span
    return (value ++ code, result)
  | call span callee args => do
    let code ← lowerArgs scope args
    match Signature.index? scope.signatures callee, Signature.find? scope.signatures callee with
    | some index, some signature => return (code ++ [.call index], signature.ret)
    | _, _ => EmitError.throw span (.unresolvedFunction callee)

/-- The instructions of arguments one after the other. -/
def lowerArgs (scope : Scope) : List Expr → Lowered (List Instr)
  | [] => .ok []
  | arg :: args => do
    let (first, _) ← lower scope arg
    let others ← lowerArgs scope args
    return first ++ others

end

end Expr

namespace Stmt

mutual

/-- The code of a statement. The blocks of a branch are nested, each in the `else` of the one
before it, and closed together. -/
def lower (scope : Scope) : Stmt → Lowered Code
  | function span _ name _ _ => EmitError.throw span (.nestedFunction name)
  | var decl =>
    match decl.init with
    | none => .ok []
    | some init => do
      let (value, _) ← init.lower scope
      let (slot, _) ← scope.slot decl.name decl.span
      return Code.ofInstrs (value ++ [.localSet slot])
  | branch _ conds blocks => do
    let code ← lowerChain scope [] conds blocks
    return code ++ Code.ofInstrs (List.replicate conds.length (.plain .endOp))
  | loop _ cond body => do
    let (test, _) ← cond.lower scope
    let code ← lowerAll scope body
    return Code.ofInstrs (.loop :: (test ++ [.ifOp])) ++ code ++
      Code.ofInstrs [.br 1, .plain .endOp, .plain .endOp]
  | ret _ value => do
    let (code, _) ← value.lower scope
    return Code.ofInstrs (code ++ [.plain .ret])
  | raw span text =>
    match RawInstr.read scope.locals text with
    | .ok instr => .ok [.raw instr]
    | .error e => EmitError.throw span e
  | eval _ expr => do
    let (code, type) ← expr.lower scope
    let drop := if type.storage?.isSome then [.plain .drop] else []
    return Code.ofInstrs (code ++ drop)

def lowerAll (scope : Scope) : List Stmt → Lowered Code
  | [] => .ok []
  | stmt :: stmts => do
    let first ← lower scope stmt
    let others ← lowerAll scope stmts
    return first ++ others

/-- The conditions and blocks of a branch in turn, and a last block without a condition. What
joins the first of them to the code before it is `link`. -/
def lowerChain (scope : Scope) (link : List Instr) :
    List Expr → List (List Stmt) → Lowered Code
  | cond :: conds, block :: blocks => do
    let (test, _) ← cond.lower scope
    let code ← lowerAll scope block
    let others ← lowerChain scope [.plain .elseOp] conds blocks
    return Code.ofInstrs (link ++ test ++ [.ifOp]) ++ code ++ others
  | [], block :: _ => do
    let code ← lowerAll scope block
    return Code.ofInstrs [.plain .elseOp] ++ code
  | _, [] => .ok []

end

end Stmt

/-- Whether a body ends by returning. -/
def endsInRet (body : List Stmt) : Bool :=
  match body.getLast? with
  | some stmt => stmt.isRet
  | none => false

namespace Function

/-- How the values of some types are stored. -/
def storages (span : Span) : List Ty → Lowered (List ValType)
  | [] => .ok []
  | type :: types => do
    let first ← type.storage span
    let others ← storages span types
    return first :: others

/-- The code of the body of a function. -/
def lowerCode (scope : Scope) (ret : Ty) (body : List Stmt) : Lowered Code := do
  let code ← Stmt.lowerAll scope body
  let trap := if ret ≠ .void ∧ !endsInRet body then [.plain .unreachable] else []
  return code ++ Code.ofInstrs trap

/-- The body of the function `name`. -/
def lower (symbols : Symbols) (span : Span) (name : String) (body : List Stmt) :
    Lowered Body :=
  match Signature.find? symbols.signatures name, symbols.locals? name with
  | some signature, some locals => do
    let code ← lowerCode ⟨symbols.signatures, locals⟩ signature.ret body
    let stored ← storages span (locals.locals.map Variable.type)
    return ⟨stored, Code.encode code⟩
  | _, _ => EmitError.throw span (.unresolvedFunction name)

/-- The types of functions with the given signatures. -/
def lowerTypes : List Signature → Lowered (List FuncType)
  | [] => .ok []
  | signature :: signatures => do
    let params ← storages signature.span signature.params
    let others ← lowerTypes signatures
    return ⟨params, signature.ret.storage?.toList⟩ :: others

end Function

namespace Program

/-- The bodies of the functions of a program, of which the first has the given index. -/
def lowerFrom (symbols : Symbols) (index : Nat) : Program → Lowered (List Body)
  | [] => .ok []
  | .function span _ name _ body :: stmts =>
    if Signature.index? symbols.signatures name = some index then do
      let first ← Function.lower symbols span name body
      let others ← lowerFrom symbols (index + 1) stmts
      return first :: others
    else EmitError.throw span (.unresolvedFunction name)
  | stmt :: _ => EmitError.throw stmt.span .outsideFunction

/-- The module of a program with the given symbols. Function number `i` has type, body and
export number `i`, and the memory is exported last. -/
def lower (symbols : Symbols) (program : Program) : Lowered Module := do
  let types ← Function.lowerTypes symbols.signatures.entries
  let code ← lowerFrom symbols 0 program
  if code.length ≠ symbols.signatures.entries.length then
    EmitError.throw (.point 0) .tableMismatch
  else
    let functions := symbols.signatures.entries.mapIdx fun i s => ⟨s.name, .func, i⟩
    return {
      types := types
      funcs := List.range types.length
      memory := compiledMemory
      exports := functions ++ [⟨memoryExport, .memory, 0⟩]
      code := code }

end Program

end WasmCompiler
