import WasmCompiler.Tree.Basic
import WasmCompiler.Token.Cursor
import WasmCompiler.Token.Stream

/-! Reading trees from tokens. Every reader says by its type that it leaves fewer tokens than
it was given, so that the readers call each other until the tokens are used up. -/

namespace WasmCompiler

/-- The result of reading from a cursor below a limit. -/
abbrev Reading (α : Type) (limit : Nat) := Except (Located GrammarError) (Parsed α limit)

namespace Expr

/-- A number literal. -/
def ofNumber (t : Token) : Except (Located GrammarError) Literal :=
  match Literal.read? t.text.toList with
  | some value => .ok value
  | none => .error ⟨.invalidNumber t.text, t.span⟩

mutual

/-- An operand and the binary operators after it that bind tighter than `floor`. An operator
as strong as the one before it is left to it, so that chains group to the left. -/
def parse (floor : Nat) (c : Cursor) : Reading Expr c.size := do
  let first ← parseUnary c
  let whole ← parseChain floor first.value first.rest
  return whole.relax first.size_lt
termination_by (c.size, 2)
decreasing_by
  · exact .right _ (by omega)
  · exact .left _ _ first.size_lt

/-- The operators and operands that follow `lhs`. -/
def parseChain (floor : Nat) (lhs : Expr) (c : Cursor) : Reading Expr (c.size + 1) :=
  match c.step? with
  | none => .ok ⟨lhs, c, Nat.lt_succ_self _⟩
  | some next =>
    match BinaryOp.ofKind? next.value.kind with
    | none => .ok ⟨lhs, c, Nat.lt_succ_self _⟩
    | some op =>
      if op.precedence ≤ floor then .ok ⟨lhs, c, Nat.lt_succ_self _⟩
      else do
        let rhs ← parse op.precedence next.rest
        let joined := binary ⟨lhs.span.start, rhs.value.span.stop⟩ op lhs rhs.value
        let whole ← parseChain floor joined rhs.rest
        return whole.relax (Nat.le_succ_of_le (next.before rhs).size_lt)
termination_by (c.size, 0)
decreasing_by
  · exact .left _ _ next.size_lt
  · exact .left _ _ (next.before rhs).size_lt

/-- An operand with the unary operators before it. -/
def parseUnary (c : Cursor) : Reading Expr c.size :=
  match c.step? with
  | none => c.fail .noExpression
  | some next =>
    match UnaryOp.ofKind? next.value.kind with
    | none => parsePrimary c next
    | some op => do
      let operand ← parse UnaryOp.precedence next.rest
      let span := ⟨next.value.span.start, operand.value.span.stop⟩
      return next.before (operand.give (unary span op operand.value))
termination_by (c.size, 1)
decreasing_by
  · exact .right _ (by omega)
  · exact .left _ _ next.size_lt

/-- An operand that starts with the token `next`. A parenthesis before a type is a cast. -/
def parsePrimary (c : Cursor) (next : Parsed Token c.size) : Reading Expr c.size :=
  let t := next.value
  match t.kind with
  | .number => do
    let value ← ofNumber t
    return next.give (number t.span value)
  | .kwTrue => .ok (next.give (bool t.span true))
  | .kwFalse => .ok (next.give (bool t.span false))
  | .str => .ok (next.give (str t.span t.text))
  | .ident =>
    if next.rest.peek.kind = .lparen then do
      let args ← parseArgs next.rest
      let span := ⟨t.span.start, args.rest.lastStop⟩
      return next.before (args.give (call span t.text args.value))
    else .ok (next.give (ident t.span t.text))
  | .lparen =>
    match next.rest.accept? .type with
    | some type => do
      let closing ← type.rest.require .rparen
      let operand ← parse castPrecedence closing.rest
      let span := ⟨t.span.start, operand.value.span.stop⟩
      let whole := operand.give (cast span type.value.text operand.value)
      return next.before (type.before (closing.before whole))
    | none => do
      let inner ← parse 0 next.rest
      let closing ← inner.rest.require .rparen
      let span := ⟨t.span.start, closing.rest.lastStop⟩
      return next.before (inner.before (closing.give (inner.value.withSpan span)))
  | _ => c.fail .noExpression
termination_by (c.size, 0)
decreasing_by
  · exact .left _ _ next.size_lt
  · exact .left _ _ (next.before (type.before closing)).size_lt
  · exact .left _ _ next.size_lt

/-- The arguments of a call, with the parentheses around them. -/
def parseArgs (c : Cursor) : Reading (List Expr) c.size := do
  let opening ← c.require .lparen
  match opening.rest.accept? .rparen with
  | some closing => return opening.before (closing.give [])
  | none =>
    let args ← parseList opening.rest
    return opening.before args
termination_by (c.size, 0)
decreasing_by exact .left _ _ opening.size_lt

/-- One or more expressions with commas between them, and the parenthesis after them. -/
def parseList (c : Cursor) : Reading (List Expr) c.size := do
  let first ← parse 0 c
  match first.rest.accept? .comma with
  | some comma =>
    let others ← parseList comma.rest
    return first.before (comma.before (others.give (first.value :: others.value)))
  | none =>
    let closing ← first.rest.require .rparen
    return first.before (closing.give [first.value])
termination_by (c.size, 3)
decreasing_by
  · exact .right _ (by omega)
  · exact .left _ _ (first.before comma).size_lt

end

end Expr

namespace Declaration

/-- A type, a name and, after `=`, an initial value. -/
def parse (c : Cursor) : Reading Declaration c.size := do
  let type ← c.require .type
  if type.rest.peek.kind = .lbracket then type.rest.fail fun _ => .arrayType
  else
    let name ← type.rest.require .ident
    match name.rest.accept? .assign with
    | some equals =>
      let init ← Expr.parse 0 equals.rest
      let span := ⟨type.value.span.start, init.rest.lastStop⟩
      let decl := ⟨span, type.value.text, name.value.text, some init.value⟩
      return type.before (name.before (equals.before (init.give decl)))
    | none =>
      let span := ⟨type.value.span.start, name.rest.lastStop⟩
      return type.before (name.give ⟨span, type.value.text, name.value.text, none⟩)

/-- One or more parameters with commas between them, and the parenthesis after them. -/
def parseList (c : Cursor) : Reading (List Declaration) c.size := do
  let first ← parse c
  match first.rest.accept? .comma with
  | some comma =>
    let others ← parseList comma.rest
    return first.before (comma.before (others.give (first.value :: others.value)))
  | none =>
    let closing ← first.rest.require .rparen
    return first.before (closing.give [first.value])
termination_by c.size
decreasing_by exact (first.before comma).size_lt

/-- The parameters of a function, with the parentheses around them. -/
def parseParams (c : Cursor) : Reading (List Declaration) c.size := do
  let opening ← c.require .lparen
  match opening.rest.accept? .rparen with
  | some closing => return opening.before (closing.give [])
  | none =>
    let params ← parseList opening.rest
    return opening.before params

end Declaration

namespace Stmt

/-- A condition, with the parentheses around it. -/
def parseCondition (c : Cursor) : Reading Expr c.size := do
  let opening ← c.require .lparen
  let cond ← Expr.parse 0 opening.rest
  let closing ← cond.rest.require .rparen
  return opening.before (cond.before (closing.give cond.value))

/-- A raw instruction, after the token that starts it. -/
def parseRaw (start : Nat) (c : Cursor) : Reading Stmt c.size := do
  let text ← c.require .str
  let closing ← text.rest.require .semicolon
  return text.before (closing.give (raw ⟨start, closing.rest.lastStop⟩ text.value.text))

/-- A return, after the token that starts it. -/
def parseRet (start : Nat) (c : Cursor) : Reading Stmt c.size := do
  let value ← Expr.parse 0 c
  let closing ← value.rest.require .semicolon
  return value.before (closing.give (ret ⟨start, closing.rest.lastStop⟩ value.value))

/-- What follows a name at the start of a statement: `=` and a value, or arguments. -/
def parseAction (name : Token) (c : Cursor) : Reading Expr c.size :=
  match c.accept? .assign with
  | some equals => do
    let value ← Expr.parse 0 equals.rest
    let span := ⟨name.span.start, value.rest.lastStop⟩
    return equals.before (value.give (.assign span name.text value.value))
  | none =>
    if c.peek.kind = .lparen then do
      let args ← Expr.parseArgs c
      return args.give (.call ⟨name.span.start, args.rest.lastStop⟩ name.text args.value)
    else c.fail (.noAssignmentOrCall name.text)

/-- An assignment or a call, after the name that starts it. -/
def parseEval (name : Token) (c : Cursor) : Reading Stmt c.size := do
  let action ← parseAction name c
  let closing ← action.rest.require .semicolon
  let span := ⟨name.span.start, closing.rest.lastStop⟩
  return action.before (closing.give (eval span action.value))

/-- A variable. Its range takes in the semicolon. -/
def parseVar (c : Cursor) : Reading Stmt c.size := do
  let decl ← Declaration.parse c
  let closing ← decl.rest.require .semicolon
  let span := ⟨decl.value.span.start, closing.rest.lastStop⟩
  return decl.before (closing.give (var { decl.value with span := span }))

/-- The head of a function: its type, its name and its parameters. -/
structure Head where
  type : Token
  name : Token
  params : List Declaration

def parseHead (c : Cursor) : Reading Head c.size := do
  let type ← c.require .type
  let name ← type.rest.require .ident
  let params ← Declaration.parseParams name.rest
  return type.before (name.before (params.give ⟨type.value, name.value, params.value⟩))

/-- The conditions and blocks that go on with a branch. -/
structure Alternatives where
  conds : List Expr
  blocks : List (List Stmt)

mutual

/-- One statement, or nothing if the token ahead cannot start one. A type starts a function if
a parenthesis stands two tokens after it, and a variable otherwise. -/
def parse? (c : Cursor) : Except (Located GrammarError) (Option (Parsed Stmt c.size)) :=
  match c.step? with
  | none => .ok none
  | some next =>
    let start := next.value.span.start
    match next.value.kind with
    | .kwWhile => do
      let cond ← parseCondition next.rest
      let body ← parseBranch cond.rest
      let whole := body.give (loop ⟨start, body.rest.lastStop⟩ cond.value body.value)
      return some (next.before (cond.before whole))
    | .kwIf => do
      let cond ← parseCondition next.rest
      let block ← parseBranch cond.rest
      let others ← parseElse block.rest
      let span := ⟨start, others.rest.lastStop⟩
      let conds := cond.value :: others.value.conds
      let blocks := block.value :: others.value.blocks
      let whole := (others.give (branch span conds blocks)).relax block.size_lt
      return some (next.before (cond.before whole))
    | .kwWasm => do
      let stmt ← parseRaw start next.rest
      return some (next.before stmt)
    | .kwReturn => do
      let stmt ← parseRet start next.rest
      return some (next.before stmt)
    | .ident => do
      let stmt ← parseEval next.value next.rest
      return some (next.before stmt)
    | .type =>
      if (c.peekAt 3).kind = .lparen then do
        let head ← parseHead c
        let body ← parseBraced head.rest
        let span := ⟨head.value.type.span.start, body.rest.lastStop⟩
        let whole := function span head.value.type.text head.value.name.text head.value.params
          body.value
        return some (head.before (body.give whole))
      else do
        let stmt ← parseVar c
        return some stmt
    | _ => .ok none
termination_by (c.size, 0)
decreasing_by
  · exact .left _ _ (next.before cond).size_lt
  · exact .left _ _ (next.before cond).size_lt
  · exact .left _ _ (next.before (cond.before block)).size_lt
  · exact .left _ _ head.size_lt

/-- The further conditions and blocks of a branch. An `else` with an `if` after it goes on
with the same branch; one without ends it. -/
def parseElse (c : Cursor) : Reading Alternatives (c.size + 1) :=
  match c.accept? .kwElse with
  | none => .ok ⟨⟨[], []⟩, c, Nat.lt_succ_self _⟩
  | some orElse =>
    match orElse.rest.accept? .kwIf with
    | some orIf => do
      let cond ← parseCondition orIf.rest
      let block ← parseBranch cond.rest
      let others ← parseElse block.rest
      let both := ⟨cond.value :: others.value.conds, block.value :: others.value.blocks⟩
      let whole := (others.give both).relax block.size_lt
      return (orElse.before (orIf.before (cond.before whole))).relax (Nat.le_succ _)
    | none => do
      let block ← parseBranch orElse.rest
      return (orElse.before (block.give ⟨[], [block.value]⟩)).relax (Nat.le_succ _)
termination_by (c.size, 0)
decreasing_by
  · exact .left _ _ (orElse.before (orIf.before cond)).size_lt
  · exact .left _ _ (orElse.before (orIf.before (cond.before block))).size_lt
  · exact .left _ _ orElse.size_lt

/-- The block of a branch or loop: statements in braces, or one statement. -/
def parseBranch (c : Cursor) : Reading (List Stmt) c.size :=
  if c.peek.kind = .lbrace then parseBraced c
  else do
    match ← parse? c with
    | some stmt => return stmt.give [stmt.value]
    | none => c.fail .noStatement
termination_by (c.size, 1)
decreasing_by
  · exact .right _ (by omega)
  · exact .right _ (by omega)

/-- Statements in braces. -/
def parseBraced (c : Cursor) : Reading (List Stmt) c.size := do
  let opening ← c.require .lbrace
  let body ← parseBody opening.rest
  let closing ← body.rest.require .rbrace
  return (closing.give body.value).relax
    (Nat.le_trans (Nat.le_of_lt_succ body.size_lt) (Nat.le_of_lt opening.size_lt))
termination_by (c.size, 0)
decreasing_by exact .left _ _ opening.size_lt

/-- Statements up to the first token that cannot start one. -/
def parseBody (c : Cursor) : Reading (List Stmt) (c.size + 1) := do
  match ← parse? c with
  | none => return ⟨[], c, Nat.lt_succ_self _⟩
  | some stmt =>
    let others ← parseBody stmt.rest
    return (others.give (stmt.value :: others.value)).relax (Nat.le_succ_of_le stmt.size_lt)
termination_by (c.size, 1)
decreasing_by
  · exact .right _ (by omega)
  · exact .left _ _ stmt.size_lt

end

end Stmt

namespace Program

/-- The program that a row of tokens writes. All of them must be read. -/
def ofTokens (tokens : List Token) : Except (Located GrammarError) Program := do
  let body ← Stmt.parseBody (Cursor.ofTokens tokens)
  if body.rest.isAtEnd then return body.value else body.rest.fail .unexpected

/-- The program that a text writes. -/
def ofText (text : String) : Except Diagnostic Program := do
  let tokens ← (Token.ofText text).mapError Token.Error.report
  (ofTokens tokens).mapError GrammarError.report

end Program

end WasmCompiler
