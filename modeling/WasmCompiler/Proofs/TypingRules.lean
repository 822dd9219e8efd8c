import Mathlib.Data.List.Nodup
import WasmCompiler.Tree.Basic
import WasmCompiler.Typing.Ty

/-! The typing rules of the language, stated without the pass that checks them. Names are
looked up by membership, and an environment is the list of what was declared so far. -/

namespace WasmCompiler

/-- A function as its callers see it. -/
structure Callable where
  name : String
  params : List Ty
  ret : Ty
  deriving DecidableEq, Repr

/-- The variables declared so far, with their types. -/
abbrev Env := List (String × Ty)

/-- The types of the operands and of the result of a binary operator. Both operands have the
same type. -/
inductive BinaryOp.HasType : BinaryOp → Ty → Ty → Prop where
  | logical {op : BinaryOp} (hOp : op ∈ [and, or]) : HasType op .bool .bool
  | equality {op : BinaryOp} {t : Ty} (hOp : op ∈ [eq, ne]) (hVoid : t ≠ .void) :
      HasType op t .bool
  | relational {op : BinaryOp} {t : Ty} (hOp : op ∈ [lt, le, gt, ge])
      (hNum : t ∈ [.i32, .i64, .f32, .f64]) : HasType op t .bool
  | arithmetic {op : BinaryOp} {t : Ty} (hOp : op ∈ [add, sub, mul, div, bitAnd, bitOr])
      (hNum : t ∈ [.i32, .i64, .f32, .f64]) : HasType op t t

/-- The type of the operand of a unary operator, which is also the type of its result. -/
inductive UnaryOp.HasType : UnaryOp → Ty → Prop where
  | not : HasType not .bool
  | sign {op : UnaryOp} {t : Ty} (hOp : op ∈ [plus, neg])
      (hNum : t ∈ [.i32, .i64, .f32, .f64]) : HasType op t

/-- The type of a literal. Whole numbers fit in 32 bits, with or without a sign. -/
inductive Literal.HasType : Literal → Ty → Prop where
  | int {v : Int64} (hLow : -2147483648 ≤ v.toInt) (hHigh : v.toInt ≤ 4294967295) :
      HasType (.int v) .i32
  | float {v : Number.Double} : HasType (.float v) .f32

mutual

/-- The type of an expression where the functions `fs` can be called. A string has no type, and
stands only under a cast. -/
inductive Expr.HasType (fs : List Callable) (Γ : Env) : Expr → Ty → Prop where
  | ident {s : Span} {x : String} {t : Ty} (hVar : (x, t) ∈ Γ) : HasType fs Γ (.ident s x) t
  | number {s : Span} {v : Literal} {t : Ty} (hLit : v.HasType t) :
      HasType fs Γ (.number s v) t
  | bool {s : Span} {b : Bool} : HasType fs Γ (.bool s b) .bool
  | assign {s : Span} {x : String} {e : Expr} {t : Ty} (hVar : (x, t) ∈ Γ)
      (hValue : HasType fs Γ e t) : HasType fs Γ (.assign s x e) .void
  | binary {s : Span} {op : BinaryOp} {a b : Expr} {t r : Ty} (hLeft : HasType fs Γ a t)
      (hRight : HasType fs Γ b t) (hOp : op.HasType t r) : HasType fs Γ (.binary s op a b) r
  | unary {s : Span} {op : UnaryOp} {e : Expr} {t : Ty} (hOperand : HasType fs Γ e t)
      (hOp : op.HasType t) : HasType fs Γ (.unary s op e) t
  | cast {s : Span} {e : Expr} {t target : Ty} (hOperand : HasType fs Γ e t) :
      HasType fs Γ (.cast s target.name e) target
  | castStr {s u : Span} {text : String} {target : Ty} :
      HasType fs Γ (.cast s target.name (.str u text)) target
  | call {s : Span} {f : Callable} {args : List Expr} (hCallee : f ∈ fs)
      (hArgs : HaveTypes fs Γ args f.params) : HasType fs Γ (.call s f.name args) f.ret

/-- The types of expressions, one by one. -/
inductive Expr.HaveTypes (fs : List Callable) (Γ : Env) : List Expr → List Ty → Prop where
  | nil : HaveTypes fs Γ [] []
  | cons {e : Expr} {es : List Expr} {t : Ty} {ts : List Ty} (hHead : HasType fs Γ e t)
      (hTail : HaveTypes fs Γ es ts) : HaveTypes fs Γ (e :: es) (t :: ts)

end

mutual

/-- A statement of a function with result type `r`, between the variables declared before it
and those declared after it. All variables of a function share one scope, whatever block
declares them, and a function has no place in another. -/
inductive Stmt.WellTyped (fs : List Callable) (r : Ty) : Env → Stmt → Env → Prop where
  | var {Γ : Env} {s : Span} {x : String} {t : Ty} (hFresh : x ∉ Γ.map Prod.fst)
      (hVoid : t ≠ .void) : WellTyped fs r Γ (.var ⟨s, t.name, x, none⟩) (Γ ++ [(x, t)])
  | varInit {Γ : Env} {s : Span} {x : String} {t : Ty} {e : Expr}
      (hFresh : x ∉ Γ.map Prod.fst) (hVoid : t ≠ .void) (hInit : e.HasType fs Γ t) :
      WellTyped fs r Γ (.var ⟨s, t.name, x, some e⟩) (Γ ++ [(x, t)])
  | branch {Γ Γ' : Env} {s : Span} {conds : List Expr} {blocks : List (List Stmt)}
      (hConds : ∀ c ∈ conds, c.HasType fs Γ .bool) (hBlocks : BlocksWellTyped fs r Γ blocks Γ') :
      WellTyped fs r Γ (.branch s conds blocks) Γ'
  | loop {Γ Γ' : Env} {s : Span} {cond : Expr} {body : List Stmt}
      (hCond : cond.HasType fs Γ .bool) (hBody : AllWellTyped fs r Γ body Γ') :
      WellTyped fs r Γ (.loop s cond body) Γ'
  | ret {Γ : Env} {s : Span} {e : Expr} (hValue : e.HasType fs Γ r) :
      WellTyped fs r Γ (.ret s e) Γ
  | raw {Γ : Env} {s : Span} {text : String} : WellTyped fs r Γ (.raw s text) Γ
  | eval {Γ : Env} {s : Span} {e : Expr} {t : Ty} (hExpr : e.HasType fs Γ t) :
      WellTyped fs r Γ (.eval s e) Γ

/-- Statements in order. -/
inductive Stmt.AllWellTyped (fs : List Callable) (r : Ty) : Env → List Stmt → Env → Prop where
  | nil {Γ : Env} : AllWellTyped fs r Γ [] Γ
  | cons {Γ Γ₁ Γ₂ : Env} {s : Stmt} {ss : List Stmt} (hHead : WellTyped fs r Γ s Γ₁)
      (hTail : AllWellTyped fs r Γ₁ ss Γ₂) : AllWellTyped fs r Γ (s :: ss) Γ₂

/-- The blocks of a branch in order, each after the variables of those before it. -/
inductive Stmt.BlocksWellTyped (fs : List Callable) (r : Ty) :
    Env → List (List Stmt) → Env → Prop where
  | nil {Γ : Env} : BlocksWellTyped fs r Γ [] Γ
  | cons {Γ Γ₁ Γ₂ : Env} {b : List Stmt} {bs : List (List Stmt)}
      (hHead : AllWellTyped fs r Γ b Γ₁) (hTail : BlocksWellTyped fs r Γ₁ bs Γ₂) :
      BlocksWellTyped fs r Γ (b :: bs) Γ₂

end

/-- A parameter declares a variable: it has a type other than `void`, and no initial value. -/
def Declaration.IsParam (d : Declaration) (v : String × Ty) : Prop :=
  d.name = v.1 ∧ d.type = v.2.name ∧ v.2 ≠ .void ∧ d.init = none

/-- A function after the functions `fs`, and what its callers see of it. Its body can call it
too. -/
inductive Stmt.IsFunction (fs : List Callable) : Stmt → Callable → Prop where
  | function {s : Span} {name : String} {r : Ty} {params : List Declaration}
      {body : List Stmt} {Γ Γ' : Env} (hMemory : name ≠ "memory")
      (hFresh : name ∉ fs.map Callable.name) (hParams : List.Forall₂ Declaration.IsParam params Γ)
      (hDistinct : (Γ.map Prod.fst).Nodup)
      (hBody : AllWellTyped (fs ++ [⟨name, Γ.map Prod.snd, r⟩]) r Γ body Γ') :
      IsFunction fs (.function s r.name name params body) ⟨name, Γ.map Prod.snd, r⟩

/-- Functions in order, after the functions `fs`. -/
inductive Program.WellTypedAfter : List Callable → Program → Prop where
  | nil {fs : List Callable} : WellTypedAfter fs []
  | cons {fs : List Callable} {f : Callable} {s : Stmt} {p : Program}
      (hHead : s.IsFunction fs f) (hTail : WellTypedAfter (fs ++ [f]) p) :
      WellTypedAfter fs (s :: p)

/-- A program that keeps all the rules. -/
def Program.WellTyped (p : Program) : Prop := WellTypedAfter [] p

end WasmCompiler
