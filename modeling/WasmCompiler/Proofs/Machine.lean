import WasmCompiler.Proofs.FloatArithmetic
import WasmCompiler.Proofs.Run
import WasmCompiler.Wasm.Instr
import WasmCompiler.Wasm.Module

/-! The machine that runs modules. Bytes are read as instructions, these are nested by the blocks
that they open and close, and a block is left through its end, by a branch or by a return.
Instructions on memory, and others that no operator of the language stands for, have no rule
here. -/

namespace WasmCompiler.Wasm

open Number

/-- A value of the machine. -/
inductive Val where
  | i32 (value : BitVec 32)
  | i64 (value : BitVec 64)
  | f32 (value : Single)
  | f64 (value : Double)
  deriving DecidableEq, Repr

def Val.type : Val → ValType
  | i32 _ => .i32
  | i64 _ => .i64
  | f32 _ => .f32
  | f64 _ => .f64

def ValType.zero? : ValType → Option Val
  | i32 => some (.i32 0)
  | i64 => some (.i64 0)
  | f32 => some (.f32 ⟨0⟩)
  | f64 => some (.f64 ⟨0⟩)
  | _ => none

/-- The number that stands for the result of a comparison. -/
def truth (b : Bool) : Val := .i32 (if b then 1 else 0)

/-- Division with signs. It traps if there is no quotient, or none that fits. -/
def divS {w : Nat} (a b : BitVec w) : Run (BitVec w) :=
  if b = 0 then .trap
  else if a = .intMin w ∧ b = -1 then .trap
  else .done (a.sdiv b)

namespace Opcode

/-- An instruction that works on the operands only, of which the last is first in the list. -/
def apply : Opcode → List Val → Run (List Val)
  | i32Add, .i32 b :: .i32 a :: s => .done (.i32 (a + b) :: s)
  | i32Sub, .i32 b :: .i32 a :: s => .done (.i32 (a - b) :: s)
  | i32Mul, .i32 b :: .i32 a :: s => .done (.i32 (a * b) :: s)
  | i32DivS, .i32 b :: .i32 a :: s => do return .i32 (← divS a b) :: s
  | i32And, .i32 b :: .i32 a :: s => .done (.i32 (a &&& b) :: s)
  | i32Or, .i32 b :: .i32 a :: s => .done (.i32 (a ||| b) :: s)
  | i32Xor, .i32 b :: .i32 a :: s => .done (.i32 (a ^^^ b) :: s)
  | i32Eqz, .i32 a :: s => .done (truth (a == 0) :: s)
  | i32Eq, .i32 b :: .i32 a :: s => .done (truth (a == b) :: s)
  | i32Ne, .i32 b :: .i32 a :: s => .done (truth (a != b) :: s)
  | i32LtS, .i32 b :: .i32 a :: s => .done (truth (a.slt b) :: s)
  | i32GtS, .i32 b :: .i32 a :: s => .done (truth (b.slt a) :: s)
  | i32LeS, .i32 b :: .i32 a :: s => .done (truth (a.sle b) :: s)
  | i32GeS, .i32 b :: .i32 a :: s => .done (truth (b.sle a) :: s)
  | i64Add, .i64 b :: .i64 a :: s => .done (.i64 (a + b) :: s)
  | i64Sub, .i64 b :: .i64 a :: s => .done (.i64 (a - b) :: s)
  | i64Mul, .i64 b :: .i64 a :: s => .done (.i64 (a * b) :: s)
  | i64DivS, .i64 b :: .i64 a :: s => do return .i64 (← divS a b) :: s
  | i64And, .i64 b :: .i64 a :: s => .done (.i64 (a &&& b) :: s)
  | i64Or, .i64 b :: .i64 a :: s => .done (.i64 (a ||| b) :: s)
  | i64Xor, .i64 b :: .i64 a :: s => .done (.i64 (a ^^^ b) :: s)
  | i64Eqz, .i64 a :: s => .done (truth (a == 0) :: s)
  | i64Eq, .i64 b :: .i64 a :: s => .done (truth (a == b) :: s)
  | i64Ne, .i64 b :: .i64 a :: s => .done (truth (a != b) :: s)
  | i64LtS, .i64 b :: .i64 a :: s => .done (truth (a.slt b) :: s)
  | i64GtS, .i64 b :: .i64 a :: s => .done (truth (b.slt a) :: s)
  | i64LeS, .i64 b :: .i64 a :: s => .done (truth (a.sle b) :: s)
  | i64GeS, .i64 b :: .i64 a :: s => .done (truth (b.sle a) :: s)
  | f32Add, .f32 b :: .f32 a :: s => .done (.f32 (Single.lift Format.add a b) :: s)
  | f32Sub, .f32 b :: .f32 a :: s => .done (.f32 (Single.lift Format.sub a b) :: s)
  | f32Mul, .f32 b :: .f32 a :: s => .done (.f32 (Single.lift Format.mul a b) :: s)
  | f32Div, .f32 b :: .f32 a :: s => .done (.f32 (Single.lift Format.div a b) :: s)
  | f32Eq, .f32 b :: .f32 a :: s => .done (truth (a.compare (fun x y => x == y) b) :: s)
  | f32Ne, .f32 b :: .f32 a :: s => .done (truth (!a.compare (fun x y => x == y) b) :: s)
  | f32Lt, .f32 b :: .f32 a :: s => .done (truth (a.compare (fun x y => x < y) b) :: s)
  | f32Gt, .f32 b :: .f32 a :: s => .done (truth (a.compare (fun x y => x > y) b) :: s)
  | f32Le, .f32 b :: .f32 a :: s => .done (truth (a.compare (fun x y => x ≤ y) b) :: s)
  | f32Ge, .f32 b :: .f32 a :: s => .done (truth (a.compare (fun x y => x ≥ y) b) :: s)
  | f64Add, .f64 b :: .f64 a :: s => .done (.f64 (Double.lift Format.add a b) :: s)
  | f64Sub, .f64 b :: .f64 a :: s => .done (.f64 (Double.lift Format.sub a b) :: s)
  | f64Mul, .f64 b :: .f64 a :: s => .done (.f64 (Double.lift Format.mul a b) :: s)
  | f64Div, .f64 b :: .f64 a :: s => .done (.f64 (Double.lift Format.div a b) :: s)
  | f64Eq, .f64 b :: .f64 a :: s => .done (truth (a.compare (fun x y => x == y) b) :: s)
  | f64Ne, .f64 b :: .f64 a :: s => .done (truth (!a.compare (fun x y => x == y) b) :: s)
  | f64Lt, .f64 b :: .f64 a :: s => .done (truth (a.compare (fun x y => x < y) b) :: s)
  | f64Gt, .f64 b :: .f64 a :: s => .done (truth (a.compare (fun x y => x > y) b) :: s)
  | f64Le, .f64 b :: .f64 a :: s => .done (truth (a.compare (fun x y => x ≤ y) b) :: s)
  | f64Ge, .f64 b :: .f64 a :: s => .done (truth (a.compare (fun x y => x ≥ y) b) :: s)
  | i64ExtendI32S, .i32 a :: s => .done (.i64 (a.signExtend 64) :: s)
  | i32WrapI64, .i64 a :: s => .done (.i32 (a.setWidth 32) :: s)
  | f32ConvertI32S, .i32 a :: s => .done (.f32 (.ofInt a.toInt) :: s)
  | f32ConvertI64S, .i64 a :: s => .done (.f32 (.ofInt a.toInt) :: s)
  | f64ConvertI32S, .i32 a :: s => .done (.f64 (.ofInt a.toInt) :: s)
  | f64ConvertI64S, .i64 a :: s => .done (.f64 (.ofInt a.toInt) :: s)
  | i32TruncF32S, .f32 a :: s => do return .i32 (← Run.orTrap (a.word? 32)) :: s
  | i32TruncF64S, .f64 a :: s => do return .i32 (← Run.orTrap (a.word? 32)) :: s
  | i64TruncF32S, .f32 a :: s => do return .i64 (← Run.orTrap (a.word? 64)) :: s
  | i64TruncF64S, .f64 a :: s => do return .i64 (← Run.orTrap (a.word? 64)) :: s
  | f64PromoteF32, .f32 a :: s => .done (.f64 a.toDouble :: s)
  | f32DemoteF64, .f64 a :: s => .done (.f32 a.toSingle :: s)
  | nop, s => .done s
  | drop, _ :: s => .done s
  | select, .i32 c :: b :: a :: s => .done ((if c = 0 then b else a) :: s)
  | unreachable, _ => .trap
  | _, _ => .stuck

end Opcode

/-- The variables of a function and its operands, of which the last is first in the list. -/
structure Frame where
  locals : List Val
  stack : List Val

/-- Where an instruction leads: to the next one, out of blocks, or out of the function. -/
inductive Signal where
  | next (frame : Frame)
  | br (depth : Nat) (frame : Frame)
  | ret (stack : List Val)

namespace Signal

/-- What follows an instruction, if it leads there. -/
def andThen (rest : Frame → Run Signal) : Signal → Run Signal
  | next f => rest f
  | br depth f => .done (br depth f)
  | ret stack => .done (ret stack)

/-- The end of a block with the given number of results: a branch to the block goes on after it
and takes the results along, other branches have one block less to leave. -/
def leave (arity : Nat) (outer : List Val) : Signal → Signal
  | next f => next ⟨f.locals, f.stack ++ outer⟩
  | br 0 f => next ⟨f.locals, f.stack.take arity ++ outer⟩
  | br (depth + 1) f => br depth f
  | ret stack => ret stack

/-- The results of a function with the given number of them, when it is left. -/
def results (count : Nat) : Signal → Run (List Val)
  | next f | br 0 f => .done (f.stack.take count).reverse
  | ret stack => .done (stack.take count).reverse
  | br (_ + 1) _ => .stuck

end Signal

/-- What a call of a function by its number does to the operands. -/
abbrev Calls := Nat → List Val → Run (List Val)

/-- An instruction that opens no block. -/
def Instr.step (call : Calls) (i : Instr) (f : Frame) : Run Signal :=
  match i.op, i.arg with
  | .br, .index depth => .done (.br depth f)
  | .brIf, .index depth =>
    match f.stack with
    | .i32 c :: s => .done (if c = 0 then .next ⟨f.locals, s⟩ else .br depth ⟨f.locals, s⟩)
    | _ => .stuck
  | .ret, .none => .done (.ret f.stack)
  | .call, .index n => do return .next ⟨f.locals, ← call n f.stack⟩
  | .localGet, .index n => do return .next ⟨f.locals, (← Run.need f.locals[n]?) :: f.stack⟩
  | .localSet, .index n =>
    match f.stack with
    | v :: s => if n < f.locals.length then .done (.next ⟨f.locals.set n v, s⟩) else .stuck
    | [] => .stuck
  | .localTee, .index n =>
    match f.stack with
    | v :: s => if n < f.locals.length then .done (.next ⟨f.locals.set n v, v :: s⟩) else .stuck
    | [] => .stuck
  | .i32Const, .int v => .done (.next ⟨f.locals, .i32 (.ofInt 32 v) :: f.stack⟩)
  | .i64Const, .int v => .done (.next ⟨f.locals, .i64 (.ofInt 64 v) :: f.stack⟩)
  | .f32Const, .f32 v => .done (.next ⟨f.locals, .f32 v :: f.stack⟩)
  | .f64Const, .f64 v => .done (.next ⟨f.locals, .f64 v :: f.stack⟩)
  | op, .none => do return .next ⟨f.locals, ← op.apply f.stack⟩
  | _, _ => .stuck

/-- Instructions by the blocks that they stand in. -/
inductive Structured where
  | plain (i : Instr)
  | block (arity : Nat) (body : List Structured)
  | loop (body : List Structured)
  | branch (arity : Nat) (yes no : List Structured)

/-- A loop whose body is run from some variables. It goes round again when its body branches to
it, at most as often as the bound says. -/
def loopRounds (body : List Val → Run Signal) (outer : List Val) : Nat → List Val → Run Signal
  | 0, _ => .timeout
  | bound + 1, locals => do
    match ← body locals with
    | .br 0 f => loopRounds body outer bound f.locals
    | signal => return signal.leave 0 outer

namespace Structured

mutual

/-- A block starts without operands, and its results join those from before it. -/
def run (call : Calls) (bound : Nat) : Structured → Frame → Run Signal
  | plain i, f => i.step call f
  | block arity body, f => do
    return (← runAll call bound body ⟨f.locals, []⟩).leave arity f.stack
  | loop body, f =>
    loopRounds (fun locals => runAll call bound body ⟨locals, []⟩) f.stack bound f.locals
  | branch arity yes no, f =>
    match f.stack with
    | .i32 c :: outer => do
      let signal ←
        if c = 0 then runAll call bound no ⟨f.locals, []⟩
        else runAll call bound yes ⟨f.locals, []⟩
      return signal.leave arity outer
    | _ => .stuck

def runAll (call : Calls) (bound : Nat) : List Structured → Frame → Run Signal
  | [], f => .done (.next f)
  | t :: ts, f => do (← run call bound t f).andThen (runAll call bound ts)

end

end Structured

/-- A block that is not closed yet, with its number of results. -/
inductive Opening where
  | block (arity : Nat)
  | loop
  | yes (arity : Nat)
  | no (arity : Nat) (yes : List Structured)

/-- The number of results of a block. -/
def Argument.arity : Argument → Nat
  | block (some _) => 1
  | _ => 0

/-- The instructions nested by their blocks, after those of the block that is open now. The
blocks around it come with what stands before them. -/
def nestFrom : List Instr → List Structured → List (Opening × List Structured) →
    Option (List Structured)
  | [], done, [] => some done
  | [], _, _ :: _ => none
  | i :: is, done, around =>
    match i.op with
    | .block => nestFrom is [] ((.block i.arg.arity, done) :: around)
    | .loop => nestFrom is [] ((.loop, done) :: around)
    | .ifOp => nestFrom is [] ((.yes i.arg.arity, done) :: around)
    | .elseOp =>
      match around with
      | (.yes arity, before) :: around => nestFrom is [] ((.no arity done, before) :: around)
      | _ => none
    | .endOp =>
      match around with
      | (.block arity, before) :: around => nestFrom is (before ++ [.block arity done]) around
      | (.loop, before) :: around => nestFrom is (before ++ [.loop done]) around
      | (.yes arity, before) :: around => nestFrom is (before ++ [.branch arity done []]) around
      | (.no arity yes, before) :: around =>
        nestFrom is (before ++ [.branch arity yes done]) around
      | [] => none
    | _ => nestFrom is (done ++ [.plain i]) around

/-- The nested instructions of a whole body. -/
def nest? (instrs : List Instr) : Option (List Structured) := nestFrom instrs [] []

/-- The operands of an instruction, the numbers of variables and functions of any size. -/
def Argument.readWide? (op : Opcode) (bytes : Bytes) : Option (Argument × Bytes) :=
  if op.immediate = .index then
    (Leb128.readUnsigned? (7 * bytes.length) bytes).map fun read => (.index read.1, read.2)
  else Argument.read? op bytes

def Instr.readWide? (bytes : Bytes) : Option (Instr × Bytes) :=
  match bytes with
  | [] => none
  | byte :: rest =>
    (Opcode.ofByte? byte).bind fun op =>
      (Argument.readWide? op rest).map fun read => (⟨op, read.1⟩, read.2)

theorem Argument.length_le_of_readWide? {op : Opcode} {bytes rest : Bytes} {arg : Argument}
    (h : readWide? op bytes = some (arg, rest)) : rest.length ≤ bytes.length := by
  unfold readWide? at h
  split at h
  · obtain ⟨read, hRead, hEq⟩ := Option.map_eq_some_iff.1 h
    cases hEq
    exact Nat.le_of_lt (Leb128.length_lt_of_readUnsigned? hRead)
  · exact length_le_of_read? h

/-- Reading an instruction uses at least its first byte. -/
theorem Instr.length_lt_of_readWide? {bytes rest : Bytes} {i : Instr}
    (h : readWide? bytes = some (i, rest)) : rest.length < bytes.length := by
  cases bytes with
  | nil => simp [readWide?] at h
  | cons byte tail =>
      obtain ⟨op, _, hRead⟩ := Option.bind_eq_some_iff.1 h
      obtain ⟨read, hArg, hEq⟩ := Option.map_eq_some_iff.1 hRead
      cases hEq
      exact Nat.lt_succ_of_le (Argument.length_le_of_readWide? hArg)

/-- The instructions that some bytes hold. -/
def decode? (bytes : Bytes) : Option (List Instr) :=
  match bytes with
  | [] => some []
  | byte :: tail =>
    match _h : Instr.readWide? (byte :: tail) with
    | none => none
    | some (i, rest) => (decode? rest).map fun is => i :: is
termination_by bytes.length
decreasing_by exact Instr.length_lt_of_readWide? _h

namespace Module

/-- The type of a function by its number. -/
def typeOf? (m : Module) (index : Nat) : Option FuncType :=
  m.funcs[index]?.bind fun type => m.types[type]?

/-- A call among other instructions: the arguments are taken from the operands, and the results
put in their place. -/
def callOn (m : Module) (invoke : Nat → List Val → Run (List Val)) : Calls := fun index stack => do
  let type ← Run.need (m.typeOf? index)
  let results ← invoke index (stack.take type.params.length).reverse
  return results.reverse ++ stack.drop type.params.length

/-- The call of a function by its number. Its variables are the arguments and then zeros, and
its results are on top of the operands when it is left. -/
def invoke (m : Module) : Nat → Nat → List Val → Run (List Val)
  | 0, _, _ => .timeout
  | bound + 1, index, args => do
    let type ← Run.need (m.typeOf? index)
    let body ← Run.need m.code[index]?
    let code ← Run.need ((decode? body.code).bind nest?)
    let zeros ← Run.need (body.locals.mapM ValType.zero?)
    if args.map Val.type ≠ type.params then .stuck
    else
      let signal ←
        Structured.runAll (m.callOn (invoke m bound)) bound code ⟨args ++ zeros, []⟩
      signal.results type.results.length

end Module

end WasmCompiler.Wasm
