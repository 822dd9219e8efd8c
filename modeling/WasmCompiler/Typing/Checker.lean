import WasmCompiler.Tree.Basic
import WasmCompiler.Typing.Error
import WasmCompiler.Typing.Symbols

/-! Checking a program in one pass, which also gathers what it declares. A function can call
itself and the functions before it; a variable can be used from its declaration to the end of
its function, also outside of the block that declares it. -/

namespace WasmCompiler

/-- The result of checking. -/
abbrev Checked (α : Type) := Except (Located TypeError) α

def TypeError.throw {α : Type} (span : Span) (error : TypeError) : Checked α :=
  .error ⟨error, span⟩

/-- The type that was written as `name` at `span`. -/
def Ty.resolve (name : String) (span : Span) : Checked Ty :=
  match Ty.ofName? name with
  | some type => .ok type
  | none => TypeError.throw span (.unknownType name)

/-- The result type of a binary operator. -/
def BinaryOp.check (op : BinaryOp) (lhs rhs : Ty) (span : Span) : Checked Ty :=
  if lhs ≠ rhs then TypeError.throw span (.operandMismatch lhs op rhs)
  else if lhs = .void then TypeError.throw span (.binaryOperand op .void)
  else if op.isLogical then
    if lhs ≠ .bool then TypeError.throw span (.logicalOperand op lhs) else .ok .bool
  else if op.isEquality then .ok .bool
  else if lhs = .bool then TypeError.throw span (.binaryOperand op .bool)
  else if op.isRelational then .ok .bool
  else .ok lhs

/-- The result type of a unary operator. -/
def UnaryOp.check (op : UnaryOp) (type : Ty) (span : Span) : Checked Ty :=
  match op with
  | .not => if type ≠ .bool then TypeError.throw span (.notOperand type) else .ok type
  | .plus | .neg =>
    if type.isNumeric then .ok type else TypeError.throw span (.unaryOperand op type)

/-- The type of a literal. Whole numbers have 32 bits, with or without a sign. -/
def Literal.check (span : Span) : Literal → Checked Ty
  | .int value =>
    if value.toInt < -0x80000000 ∨ 0x100000000 ≤ value.toInt then
      TypeError.throw span (.literalTooLarge value)
    else .ok .i32
  | .float _ => .ok .f32

/-- The type of a variable in use. -/
def Locals.typeOf (l : Locals) (name : String) (span : Span) : Checked Ty :=
  match l.get? name with
  | some v => .ok v.type
  | none => TypeError.throw span (.undeclaredVariable name)

namespace Expr

mutual

/-- The type of an expression, given the functions and variables declared before it. The
operand of a cast may be a string, which has no type of its own. -/
def check (signatures : Signatures) (locals : Locals) : Expr → Checked Ty
  | ident span name => locals.typeOf name span
  | number span value => value.check span
  | bool _ _ => .ok .bool
  | str span _ => TypeError.throw span .stringValue
  | assign span target value => do
    let type ← locals.typeOf target span
    let found ← check signatures locals value
    if found ≠ type then TypeError.throw value.span (.assignMismatch found type target)
    else return .void
  | binary span op lhs rhs => do
    let left ← check signatures locals lhs
    let right ← check signatures locals rhs
    op.check left right span
  | unary span op operand => do
    let type ← check signatures locals operand
    op.check type span
  | cast span type operand => do
    if !operand.isStr then
      let _ ← check signatures locals operand
    Ty.resolve type span
  | call span callee args =>
    match Signature.find? signatures callee with
    | none => TypeError.throw span (.undefinedFunction callee)
    | some signature =>
      if signature.params.length ≠ args.length then
        TypeError.throw span (.argumentCount callee signature.params.length args.length)
      else do
        checkArgs signatures locals callee 1 args signature.params
        return signature.ret

/-- The arguments of a call, counted from `index`, against the types of the parameters. -/
def checkArgs (signatures : Signatures) (locals : Locals) (callee : String) (index : Nat) :
    List Expr → List Ty → Checked Unit
  | arg :: args, want :: wants => do
    let found ← check signatures locals arg
    if found ≠ want then
      TypeError.throw arg.span (.argumentMismatch index callee want found)
    else checkArgs signatures locals callee (index + 1) args wants
  | _, _ => .ok ()

end

end Expr

/-- A condition of a branch or loop. -/
def Expr.checkCondition (signatures : Signatures) (locals : Locals) (cond : Expr) :
    Checked Unit := do
  let found ← cond.check signatures locals
  if found ≠ .bool then TypeError.throw cond.span (.conditionNotBool found)

/-- The conditions of a branch, all of them against the same variables. -/
def Expr.checkConditions (signatures : Signatures) (locals : Locals) :
    List Expr → Checked Unit
  | [] => .ok ()
  | cond :: conds => do
    cond.checkCondition signatures locals
    checkConditions signatures locals conds

/-- What the statements of a function are checked against: the functions declared so far, the
function itself among them, and its name and result type. -/
structure Context where
  signatures : Signatures
  function : String
  ret : Ty

namespace Declaration

/-- A variable of a function, which is added to its table. -/
def check (ctx : Context) (locals : Locals) (d : Declaration) : Checked Locals := do
  if (locals.get? d.name).isSome then
    TypeError.throw d.span (.variableTaken d.name ctx.function)
  else
    let type ← Ty.resolve d.type d.span
    if type = .void then TypeError.throw d.span (.voidVariable d.name)
    else
      match d.init with
      | none => return locals.declared ⟨d.name, type, false⟩
      | some init =>
        let found ← init.check ctx.signatures locals
        if found ≠ type then TypeError.throw init.span (.initMismatch type d.name found)
        else return locals.declared ⟨d.name, type, false⟩

/-- A parameter of a function, which is added to its table. -/
def checkParam (locals : Locals) (d : Declaration) : Checked Locals := do
  let type ← Ty.resolve d.type d.span
  if type = .void then TypeError.throw d.span (.voidParameter d.name)
  else if d.init.isSome then TypeError.throw d.span (.initializedParameter d.name)
  else
    match locals.declare ⟨d.name, type, true⟩ with
    | some locals => return locals
    | none => TypeError.throw d.span (.parameterTaken d.name)

def checkParams (locals : Locals) : List Declaration → Checked Locals
  | [] => .ok locals
  | d :: ds => do
    let locals ← d.checkParam locals
    checkParams locals ds

end Declaration

namespace Stmt

mutual

/-- A statement of a function, against the variables declared before it. The variables that
are declared after it are returned. -/
def check (ctx : Context) (locals : Locals) : Stmt → Checked Locals
  | function span _ name _ _ => TypeError.throw span (.nestedFunction name ctx.function)
  | var decl => decl.check ctx locals
  | branch _ conds blocks => do
    Expr.checkConditions ctx.signatures locals conds
    checkBlocks ctx locals blocks
  | loop _ cond body => do
    cond.checkCondition ctx.signatures locals
    checkAll ctx locals body
  | ret _ value => do
    let found ← value.check ctx.signatures locals
    if found ≠ ctx.ret then
      TypeError.throw value.span (.returnMismatch found ctx.function ctx.ret)
    else return locals
  | raw _ _ => .ok locals
  | eval _ expr => do
    let _ ← expr.check ctx.signatures locals
    return locals

def checkAll (ctx : Context) (locals : Locals) : List Stmt → Checked Locals
  | [] => .ok locals
  | stmt :: stmts => do
    let locals ← check ctx locals stmt
    checkAll ctx locals stmts

def checkBlocks (ctx : Context) (locals : Locals) : List (List Stmt) → Checked Locals
  | [] => .ok locals
  | block :: blocks => do
    let locals ← checkAll ctx locals block
    checkBlocks ctx locals blocks

end

/-- A function, after the functions in `symbols`. It is known by name in its own body. -/
def checkFunction (symbols : Symbols) (span : Span) (type name : String)
    (params : List Declaration) (body : List Stmt) : Checked Symbols := do
  if name = Wasm.memoryExport then TypeError.throw span (.memoryName name)
  else if (Signature.find? symbols.signatures name).isSome then
    TypeError.throw span (.functionTaken name)
  else
    let retType ← Ty.resolve type span
    let paramLocals ← Declaration.checkParams .empty params
    let signature := ⟨name, retType, paramLocals.entries.map Variable.type, span⟩
    let ctx := ⟨symbols.signatures.declared signature, name, retType⟩
    let locals ← checkAll ctx paramLocals body
    return symbols.declared signature locals

/-- A statement outside of a function, where only functions have a place. -/
def checkTop (symbols : Symbols) : Stmt → Checked Symbols
  | function span type name params body => checkFunction symbols span type name params body
  | var decl => TypeError.throw decl.span (.outsideFunction (.var decl.name))
  | branch span _ _ => TypeError.throw span (.outsideFunction .branch)
  | loop span _ _ => TypeError.throw span (.outsideFunction .loop)
  | ret span _ => TypeError.throw span (.outsideFunction .ret)
  | raw span _ => TypeError.throw span (.outsideFunction .raw)
  | eval span (.assign _ target _) =>
    TypeError.throw span (.outsideFunction (.assignment target))
  | eval span (.call _ callee _) => TypeError.throw span (.outsideFunction (.call callee))
  | eval span _ => TypeError.throw span (.outsideFunction .expression)

end Stmt

namespace Program

/-- The statements of a program in order, after the functions in `symbols`. -/
def checkFrom (symbols : Symbols) : Program → Checked Symbols
  | [] => .ok symbols
  | stmt :: stmts => do
    let symbols ← Stmt.checkTop symbols stmt
    checkFrom symbols stmts

/-- What a program declares, if it keeps all the rules. -/
def check (program : Program) : Checked Symbols := checkFrom .empty program

end Program

end WasmCompiler
