import WasmCompiler.Tree.Basic

/-! An outline of a tree for its reader: one line to a node, its parts below it and two blanks
further in. -/

namespace WasmCompiler

/-- One line of an outline. -/
def outlineLine (depth : Nat) (text : String) : String :=
  String.ofList (List.replicate (2 * depth) ' ') ++ text ++ "\n"

namespace Expr

mutual

def outline (depth : Nat) : Expr → String
  | ident _ name => outlineLine depth ("Ident " ++ name)
  | number _ (.int value) => outlineLine depth ("Int " ++ (Literal.int value).print)
  | number _ (.float value) => outlineLine depth ("Float " ++ (Literal.float value).print)
  | bool _ value => outlineLine depth ("Bool " ++ if value then "true" else "false")
  | str _ value => outlineLine depth ("Str \"" ++ value ++ "\"")
  | assign _ target value =>
    outlineLine depth ("Assign " ++ target) ++ outline (depth + 1) value
  | binary _ op lhs rhs =>
    outlineLine depth ("Binary " ++ op.symbol) ++ outline (depth + 1) lhs ++
      outline (depth + 1) rhs
  | unary _ op operand =>
    outlineLine depth ("Unary " ++ op.symbol) ++ outline (depth + 1) operand
  | cast _ type operand => outlineLine depth ("Cast " ++ type) ++ outline (depth + 1) operand
  | call _ callee args => outlineLine depth ("Call " ++ callee) ++ outlineAll (depth + 1) args

def outlineAll (depth : Nat) : List Expr → String
  | [] => ""
  | expr :: exprs => outline depth expr ++ outlineAll depth exprs

end

end Expr

/-- A declaration under a label, its initial value below it. -/
def Declaration.outline (depth : Nat) (label : String) (d : Declaration) : String :=
  outlineLine depth (label ++ " " ++ d.name ++ ": " ++ d.type) ++
    match d.init with
    | some init => init.outline (depth + 1)
    | none => ""

namespace Stmt

mutual

def outline (depth : Nat) : Stmt → String
  | function _ type name params body =>
    outlineLine depth ("FunctionDecl " ++ name ++ " -> " ++ type) ++
      String.join (params.map (Declaration.outline (depth + 1) "Param")) ++
      outlineLine (depth + 1) "Body" ++ outlineAll (depth + 2) body
  | var decl => decl.outline depth "VarDecl"
  | branch _ conds blocks => outlineLine depth "If" ++ outlineChain (depth + 1) conds blocks
  | loop _ cond body =>
    outlineLine depth "While" ++ cond.outline (depth + 1) ++ outlineLine (depth + 1) "Body" ++
      outlineAll (depth + 2) body
  | ret _ value => outlineLine depth "Return" ++ value.outline (depth + 1)
  | raw _ text => outlineLine depth ("Raw \"" ++ text ++ "\"")
  | eval _ expr => expr.outline depth

def outlineAll (depth : Nat) : List Stmt → String
  | [] => ""
  | stmt :: stmts => outline depth stmt ++ outlineAll depth stmts

/-- The conditions and blocks of a branch in turn, and a last block without a condition. -/
def outlineChain (depth : Nat) : List Expr → List (List Stmt) → String
  | cond :: conds, block :: blocks =>
    outlineLine depth "Cond" ++ cond.outline (depth + 1) ++ outlineLine depth "Then" ++
      outlineAll (depth + 1) block ++ outlineChain depth conds blocks
  | [], block :: _ => outlineLine depth "Else" ++ outlineAll (depth + 1) block
  | _, [] => ""

end

end Stmt

/-- The outline of a program. -/
def Program.outline (program : Program) : String :=
  outlineLine 0 "Program" ++ Stmt.outlineAll 1 program

end WasmCompiler
