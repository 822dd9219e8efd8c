import WasmCompiler.Proofs.Machine

/-! Validation of modules. The instructions of a body are checked in order, by the types of the
operands that they leave and by the blocks that are open. What follows a branch, a return or a
trap in a block cannot be reached, and finds operands of any type there. -/

namespace WasmCompiler.Wasm

namespace Opcode

open ValType

/-- The operands and results of an instruction that says them by itself. -/
def type? : Opcode → Option FuncType
  | nop => some ⟨[], []⟩
  | i32Const | memorySize => some ⟨[], [i32]⟩
  | i64Const => some ⟨[], [i64]⟩
  | f32Const => some ⟨[], [f32]⟩
  | f64Const => some ⟨[], [f64]⟩
  | i32Load | i32Load8S | i32Load8U | i32Load16S | i32Load16U | memoryGrow | i32Eqz =>
    some ⟨[i32], [i32]⟩
  | i64Load | i64ExtendI32S | i64ExtendI32U => some ⟨[i32], [i64]⟩
  | f32Load | f32ConvertI32S => some ⟨[i32], [f32]⟩
  | f64Load | f64ConvertI32S => some ⟨[i32], [f64]⟩
  | i32Store | i32Store8 | i32Store16 => some ⟨[i32, i32], []⟩
  | i64Store => some ⟨[i32, i64], []⟩
  | f32Store => some ⟨[i32, f32], []⟩
  | f64Store => some ⟨[i32, f64], []⟩
  | i32Eq | i32Ne | i32LtS | i32LtU | i32GtS | i32GtU | i32LeS | i32LeU | i32GeS | i32GeU
  | i32Add | i32Sub | i32Mul | i32DivS | i32DivU | i32RemS | i32RemU | i32And | i32Or | i32Xor
  | i32Shl | i32ShrS | i32ShrU => some ⟨[i32, i32], [i32]⟩
  | i64Eqz | i32WrapI64 => some ⟨[i64], [i32]⟩
  | i64Eq | i64Ne | i64LtS | i64LtU | i64GtS | i64GtU | i64LeS | i64LeU | i64GeS | i64GeU =>
    some ⟨[i64, i64], [i32]⟩
  | i64Add | i64Sub | i64Mul | i64DivS | i64DivU | i64RemS | i64RemU | i64And | i64Or | i64Xor
  | i64Shl | i64ShrS | i64ShrU => some ⟨[i64, i64], [i64]⟩
  | f32Eq | f32Ne | f32Lt | f32Gt | f32Le | f32Ge => some ⟨[f32, f32], [i32]⟩
  | f64Eq | f64Ne | f64Lt | f64Gt | f64Le | f64Ge => some ⟨[f64, f64], [i32]⟩
  | f32Abs | f32Neg | f32Sqrt => some ⟨[f32], [f32]⟩
  | f64Abs | f64Neg | f64Sqrt => some ⟨[f64], [f64]⟩
  | f32Add | f32Sub | f32Mul | f32Div => some ⟨[f32, f32], [f32]⟩
  | f64Add | f64Sub | f64Mul | f64Div => some ⟨[f64, f64], [f64]⟩
  | i32TruncF32S => some ⟨[f32], [i32]⟩
  | i32TruncF64S => some ⟨[f64], [i32]⟩
  | i64TruncF32S => some ⟨[f32], [i64]⟩
  | i64TruncF64S => some ⟨[f64], [i64]⟩
  | f32ConvertI64S => some ⟨[i64], [f32]⟩
  | f64ConvertI64S => some ⟨[i64], [f64]⟩
  | f32DemoteF64 => some ⟨[f64], [f32]⟩
  | f64PromoteF32 => some ⟨[f32], [f64]⟩
  | unreachable | block | loop | ifOp | elseOp | endOp | br | brIf | ret | call | drop | select
  | localGet | localSet | localTee => none

/-- The alignment of an access to memory is at most its width, both as powers of two. -/
def maxAlign : Opcode → Nat
  | i64Load | f64Load | i64Store | f64Store => 3
  | i32Load | f32Load | i32Store | f32Store => 2
  | i32Load16S | i32Load16U | i32Store16 => 1
  | _ => 0

end Opcode

/-- Whether the operands that are written with an instruction may stand there. -/
def Argument.isValid (op : Opcode) : Argument → Bool
  | memArg align offset => decide (align ≤ op.maxAlign) && decide (offset < 2 ^ 32)
  | memory reserved => reserved == 0
  | _ => true

namespace Validation

/-- An open block: the instruction that opened it, its type, the number of operands below it,
and whether the place that is checked cannot be reached in it. -/
structure Control where
  op : Opcode
  type : FuncType
  height : Nat
  unreachable : Bool
  deriving DecidableEq, Repr

/-- What a branch to a block takes along. -/
def Control.label (c : Control) : List ValType :=
  if c.op = .loop then c.type.params else c.type.results

/-- The types of the operands, of which the last is first in the list, and the open blocks, of
which the innermost is first. An operand of unknown type is `none`. -/
structure State where
  operands : List (Option ValType)
  controls : List Control
  deriving DecidableEq, Repr

namespace State

def push (s : State) (types : List ValType) : State :=
  ⟨types.reverse.map some ++ s.operands, s.controls⟩

/-- One operand taken. Below those of its block there is none, except at a place that cannot be
reached. -/
def pop? (s : State) : Option (Option ValType × State) :=
  match s.controls with
  | [] => none
  | c :: _ =>
    if s.operands.length = c.height then if c.unreachable then some (none, s) else none
    else
      match s.operands with
      | [] => none
      | t :: ts => some (t, ⟨ts, s.controls⟩)

/-- One operand of a type taken. -/
def popOf? (s : State) (t : ValType) : Option State := do
  let (found, rest) ← s.pop?
  if found = none ∨ found = some t then some rest else none

/-- Operands taken, the last of them first. -/
def popAll? (s : State) (types : List ValType) : Option State := types.reverse.foldlM popOf? s

/-- The state after an instruction that never goes on to the next one. -/
def divert? (s : State) : Option State :=
  match s.controls with
  | [] => none
  | c :: cs =>
    some ⟨s.operands.drop (s.operands.length - c.height), { c with unreachable := true } :: cs⟩

/-- The state at the start of a block. -/
def enter (s : State) (op : Opcode) (type : FuncType) : State :=
  State.push ⟨s.operands, ⟨op, type, s.operands.length, false⟩ :: s.controls⟩ type.params

/-- The innermost block, which must have its results and nothing else, and the state without
them. -/
def leave? (s : State) : Option (Control × State) :=
  match s.controls with
  | [] => none
  | c :: cs => do
    let rest ← s.popAll? c.type.results
    if rest.operands.length = c.height then some (c, ⟨rest.operands, cs⟩) else none

end State

/-- What the instructions of a body can refer to. -/
structure BodyContext where
  module : Module
  locals : List ValType
  results : List ValType

/-- The type of a block. -/
def BodyContext.blockType? (ctx : BodyContext) : Option ResultType → Option FuncType
  | none => some ⟨[], []⟩
  | some .i32 => some ⟨[], [.i32]⟩
  | some .i64 => some ⟨[], [.i64]⟩
  | some .f32 => some ⟨[], [.f32]⟩
  | some .f64 => some ⟨[], [.f64]⟩
  | some .v128 => some ⟨[], [.v128]⟩
  | some .funcref => some ⟨[], [.funcref]⟩
  | some .externref => some ⟨[], [.externref]⟩
  | some (.indexed index) => ctx.module.types[index]?
  | some _ => none

/-- Whether `select` can choose between operands of a type. -/
def isSelectable : Option ValType → Bool
  | some .funcref | some .externref => false
  | _ => true

/-- The check of one instruction. After the one that closes the body there is no other. -/
def step (ctx : BodyContext) (s : State) (i : Instr) : Option State :=
  if s.controls.isEmpty then none
  else match i.op.type? with
  | some type =>
    if i.arg.isValid i.op then (s.popAll? type.params).map (·.push type.results) else none
  | none =>
    match i.op, i.arg with
    | .unreachable, _ => s.divert?
    | .block, .block result | .loop, .block result => do
      let type ← ctx.blockType? result
      let inner ← s.popAll? type.params
      return inner.enter i.op type
    | .ifOp, .block result => do
      let type ← ctx.blockType? result
      let inner ← (← s.popOf? .i32).popAll? type.params
      return inner.enter .ifOp type
    | .elseOp, _ => do
      let (c, outer) ← s.leave?
      if c.op = .ifOp then return outer.enter .elseOp c.type else none
    | .endOp, _ => do
      let (c, outer) ← s.leave?
      -- A missing `else` gives back what it is given.
      if c.op = .ifOp ∧ c.type.params ≠ c.type.results then none
      else return outer.push c.type.results
    | .br, .index depth => do
      let c ← s.controls[depth]?
      (← s.popAll? c.label).divert?
    | .brIf, .index depth => do
      let c ← s.controls[depth]?
      let rest ← (← s.popOf? .i32).popAll? c.label
      return rest.push c.label
    | .ret, _ => do (← s.popAll? ctx.results).divert?
    | .call, .index index => do
      let type ← ctx.module.typeOf? index
      return (← s.popAll? type.params).push type.results
    | .drop, _ => do return (← s.pop?).2
    | .select, _ => do
      let (second, rest) ← (← s.popOf? .i32).pop?
      let (first, rest) ← rest.pop?
      if isSelectable first ∧ isSelectable second ∧
          (first = second ∨ first = none ∨ second = none) then
        return ⟨first.or second :: rest.operands, rest.controls⟩
      else none
    | .localGet, .index slot => do return s.push [← ctx.locals[slot]?]
    | .localSet, .index slot => do s.popOf? (← ctx.locals[slot]?)
    | .localTee, .index slot => do
      let t ← ctx.locals[slot]?
      return (← s.popOf? t).push [t]
    | _, _ => none

/-- The state at the start of a body, which is a block with the results of the function. -/
def start (ctx : BodyContext) : State := ⟨[], [⟨.block, ⟨[], ctx.results⟩, 0, false⟩]⟩

/-- Whether instructions make a body: each of them passes, and the last one closes the body. -/
def isBody (ctx : BodyContext) (instrs : List Instr) : Bool :=
  match instrs.foldlM (step ctx) (start ctx) with
  | some s => s.controls.isEmpty
  | none => false

end Validation

namespace Module

/-- Whether a body is one for a function of a type, with the byte that ends it. -/
def isValidBody (m : Module) (type : FuncType) (body : Body) : Bool :=
  match decode? (body.code ++ [Opcode.endOp.byte]) with
  | some instrs => Validation.isBody ⟨m, type.params ++ body.locals, type.results⟩ instrs
  | none => false

/-- Whether there is something under the index of an export. -/
def hasExport (m : Module) (e : Export) : Bool :=
  match e.kind with
  | .func => decide (e.index < m.funcs.length)
  | .memory => decide (e.index = 0)
  | .table | .global | .tag => false

/-- A module that keeps the rules of validation. -/
structure Valid (m : Module) : Prop where
  types : ∀ index ∈ m.funcs, index < m.types.length
  bodies : m.code.length = m.funcs.length
  code : ∀ index type body, m.typeOf? index = some type → m.code[index]? = some body →
    m.isValidBody type body = true
  memory : m.memory.min ≤ 2 ^ 16 ∧ ∀ max, m.memory.max = some max →
    m.memory.min ≤ max ∧ max ≤ 2 ^ 16
  exports : ∀ e ∈ m.exports, m.hasExport e = true
  exportNames : (m.exports.map Export.name).Nodup

end Module

end WasmCompiler.Wasm
