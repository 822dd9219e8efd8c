import WasmCompiler.Tree.Basic

/-! Writing trees as text that reads back as the same tree. Operators stand in parentheses,
and blocks in braces with four blanks to each level. -/

namespace WasmCompiler

namespace Expr

mutual

def print : Expr → String
  | ident _ name => name
  | number _ value => value.print
  | bool _ value => if value then "true" else "false"
  | str _ value => "\"" ++ value ++ "\""
  | assign _ target value => target ++ " = " ++ print value
  | binary _ op lhs rhs => "(" ++ print lhs ++ " " ++ op.symbol ++ " " ++ print rhs ++ ")"
  | unary _ op operand => "(" ++ op.symbol ++ print operand ++ ")"
  | cast _ type operand => "((" ++ type ++ ") " ++ print operand ++ ")"
  | call _ callee args => callee ++ "(" ++ printArgs args ++ ")"

/-- Expressions with commas between them. -/
def printArgs : List Expr → String
  | [] => ""
  | [arg] => print arg
  | arg :: args => print arg ++ ", " ++ printArgs args

end

end Expr

namespace Declaration

def print (d : Declaration) : String :=
  d.type ++ " " ++ d.name ++
    match d.init with
    | some init => " = " ++ init.print
    | none => ""

/-- Parameters with commas between them. -/
def printParams (params : List Declaration) : String :=
  ", ".intercalate (params.map print)

end Declaration

namespace Stmt

/-- The blanks before a line at a depth. -/
def indent (depth : Nat) : String := String.ofList (List.replicate (4 * depth) ' ')

/-- The text of a block in braces, the closing one on a line of its own. -/
def braced (depth : Nat) (block : String) : String := "\x7b\n" ++ block ++ indent depth ++ "\x7d"

mutual

def print (depth : Nat) : Stmt → String
  | function _ type name params body =>
    indent depth ++ type ++ " " ++ name ++ "(" ++ Declaration.printParams params ++ ") " ++
      braced depth (printAll (depth + 1) body) ++ "\n"
  | var decl => indent depth ++ decl.print ++ ";\n"
  | branch _ conds blocks => indent depth ++ printChain depth "" conds blocks ++ "\n"
  | loop _ cond body =>
    indent depth ++ "while (" ++ cond.print ++ ") " ++
      braced depth (printAll (depth + 1) body) ++ "\n"
  | ret _ value => indent depth ++ "return " ++ value.print ++ ";\n"
  | raw _ text => indent depth ++ "_wasm \"" ++ text ++ "\";\n"
  | eval _ expr => indent depth ++ expr.print ++ ";\n"

/-- Statements one after the other. -/
def printAll (depth : Nat) : List Stmt → String
  | [] => ""
  | stmt :: stmts => print depth stmt ++ printAll depth stmts

/-- The rest of a branch: each condition with its block, and a last block without one. What
joins the first of them to the text before it is `link`. -/
def printChain (depth : Nat) (link : String) : List Expr → List (List Stmt) → String
  | cond :: conds, block :: blocks =>
    link ++ "if (" ++ cond.print ++ ") " ++ braced depth (printAll (depth + 1) block) ++
      printChain depth " else " conds blocks
  | [], block :: _ => " else " ++ braced depth (printAll (depth + 1) block)
  | _, [] => ""

end

end Stmt

/-- The text of a program. -/
def Program.print (program : Program) : String := Stmt.printAll 0 program

end WasmCompiler
