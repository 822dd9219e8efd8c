import WasmCompiler.Tree.Operator
import WasmCompiler.Tree.Literal

/-! The trees of programs. Every node carries the range of text that it was read from; types
are kept as the names that were written. -/

namespace WasmCompiler

inductive Expr where
  | ident (span : Span) (name : String)
  | number (span : Span) (value : Literal)
  | bool (span : Span) (value : Bool)
  | str (span : Span) (value : String)
  | assign (span : Span) (target : String) (value : Expr)
  | binary (span : Span) (op : BinaryOp) (lhs rhs : Expr)
  | unary (span : Span) (op : UnaryOp) (operand : Expr)
  | cast (span : Span) (type : String) (operand : Expr)
  | call (span : Span) (callee : String) (args : List Expr)
  deriving Inhabited

namespace Expr

def span : Expr → Span
  | ident s _ | number s _ | bool s _ | str s _ | assign s _ _ | binary s _ _ _
  | unary s _ _ | cast s _ _ | call s _ _ => s

/-- The same expression with another range, as when it is put in parentheses. -/
def withSpan (s : Span) : Expr → Expr
  | ident _ name => ident s name
  | number _ value => number s value
  | bool _ value => bool s value
  | str _ value => str s value
  | assign _ target value => assign s target value
  | binary _ op lhs rhs => binary s op lhs rhs
  | unary _ op operand => unary s op operand
  | cast _ type operand => cast s type operand
  | call _ callee args => call s callee args

def isStr : Expr → Bool
  | str _ _ => true
  | _ => false

mutual

/-- Equality of expressions, ranges apart. Numbers are compared as numbers. -/
def same : Expr → Expr → Bool
  | ident _ a, ident _ b => a == b
  | number _ a, number _ b => a.same b
  | bool _ a, bool _ b => a == b
  | str _ a, str _ b => a == b
  | assign _ t a, assign _ u b => t == u && same a b
  | binary _ o a b, binary _ p c d => decide (o = p) && same a c && same b d
  | unary _ o a, unary _ p b => decide (o = p) && same a b
  | cast _ t a, cast _ u b => t == u && same a b
  | call _ f as, call _ g bs => f == g && sameAll as bs
  | _, _ => false

def sameAll : List Expr → List Expr → Bool
  | [], [] => true
  | a :: as, b :: bs => same a b && sameAll as bs
  | _, _ => false

end

end Expr

/-- A variable or parameter: its type, its name and the value it starts with, if one is
given. -/
structure Declaration where
  span : Span
  type : String
  name : String
  init : Option Expr

namespace Declaration

def same (a b : Declaration) : Bool :=
  a.type == b.type && a.name == b.name &&
    match a.init, b.init with
    | none, none => true
    | some x, some y => x.same y
    | _, _ => false

def sameAll : List Declaration → List Declaration → Bool
  | [], [] => true
  | a :: as, b :: bs => a.same b && sameAll as bs
  | _, _ => false

end Declaration

/-- Statements. A branch has a block for each of its conditions, and one more if it ends in an
`else`; a raw statement holds the text of one instruction. -/
inductive Stmt where
  | function (span : Span) (ret name : String) (params : List Declaration) (body : List Stmt)
  | var (decl : Declaration)
  | branch (span : Span) (conds : List Expr) (blocks : List (List Stmt))
  | loop (span : Span) (cond : Expr) (body : List Stmt)
  | ret (span : Span) (value : Expr)
  | raw (span : Span) (text : String)
  | eval (span : Span) (expr : Expr)

namespace Stmt

def span : Stmt → Span
  | function s _ _ _ _ | branch s _ _ | loop s _ _ | ret s _ | raw s _ | eval s _ => s
  | var decl => decl.span

def isRet : Stmt → Bool
  | ret _ _ => true
  | _ => false

mutual

/-- Equality of statements, ranges apart. -/
def same : Stmt → Stmt → Bool
  | function _ r f ps as, function _ s g qs bs =>
    r == s && f == g && Declaration.sameAll ps qs && sameAll as bs
  | var d, var e => d.same e
  | branch _ cs as, branch _ ds bs => Expr.sameAll cs ds && sameBlocks as bs
  | loop _ c as, loop _ d bs => c.same d && sameAll as bs
  | ret _ a, ret _ b => a.same b
  | raw _ a, raw _ b => a == b
  | eval _ a, eval _ b => a.same b
  | _, _ => false

def sameAll : List Stmt → List Stmt → Bool
  | [], [] => true
  | a :: as, b :: bs => same a b && sameAll as bs
  | _, _ => false

def sameBlocks : List (List Stmt) → List (List Stmt) → Bool
  | [], [] => true
  | as :: ass, bs :: bss => sameAll as bs && sameBlocks ass bss
  | _, _ => false

end

end Stmt

/-- A program is a row of statements. -/
abbrev Program := List Stmt

/-- Equality of programs, ranges apart. -/
def Program.same (p q : Program) : Bool := Stmt.sameAll p q

end WasmCompiler
