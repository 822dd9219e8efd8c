import WasmCompiler.Proofs.TypingRules

/-! The programs whose meaning the language fixes: their branches are as they are written, no
instruction is given as text, and no number is made a truth value. -/

namespace WasmCompiler

namespace Stmt

mutual

/-- Whether no instruction is given as text. -/
def isRawFree : Stmt → Bool
  | function _ _ _ _ body | loop _ _ body => isRawFreeAll body
  | branch _ _ blocks => isRawFreeBlocks blocks
  | raw _ _ => false
  | var _ | ret _ _ | eval _ _ => true

def isRawFreeAll : List Stmt → Bool
  | [] => true
  | s :: ss => isRawFree s && isRawFreeAll ss

def isRawFreeBlocks : List (List Stmt) → Bool
  | [] => true
  | b :: bs => isRawFreeAll b && isRawFreeBlocks bs

end

mutual

/-- Whether every branch has a condition, a block for each condition, and at most one block
more. -/
def isShaped : Stmt → Bool
  | function _ _ _ _ body | loop _ _ body => isShapedAll body
  | branch _ conds blocks =>
    !conds.isEmpty && (blocks.length == conds.length || blocks.length == conds.length + 1) &&
      isShapedBlocks blocks
  | var _ | ret _ _ | raw _ _ | eval _ _ => true

def isShapedAll : List Stmt → Bool
  | [] => true
  | s :: ss => isShaped s && isShapedAll ss

def isShapedBlocks : List (List Stmt) → Bool
  | [] => true
  | b :: bs => isShapedAll b && isShapedBlocks bs

end

theorem isRawFreeAll_iff {ss : List Stmt} :
    isRawFreeAll ss = true ↔ ∀ s ∈ ss, s.isRawFree = true := by
  induction ss with
  | nil => simp [isRawFreeAll]
  | cons s ss ih => simp [isRawFreeAll, ih]

theorem isShapedAll_iff {ss : List Stmt} :
    isShapedAll ss = true ↔ ∀ s ∈ ss, s.isShaped = true := by
  induction ss with
  | nil => simp [isShapedAll]
  | cons s ss ih => simp [isShapedAll, ih]

end Stmt

namespace Expr

mutual

/-- No operand that is cast to `bool` has another type. -/
def BoolCasts (fs : List Callable) (Γ : Env) : Expr → Prop
  | ident _ _ | number _ _ | bool _ _ | str _ _ => True
  | assign _ _ e | unary _ _ e => BoolCasts fs Γ e
  | binary _ _ a b => BoolCasts fs Γ a ∧ BoolCasts fs Γ b
  | cast _ target e =>
    (target = Ty.bool.name → ∀ t, e.HasType fs Γ t → t = .bool) ∧ BoolCasts fs Γ e
  | call _ _ args => AllBoolCasts fs Γ args

def AllBoolCasts (fs : List Callable) (Γ : Env) : List Expr → Prop
  | [] => True
  | e :: es => BoolCasts fs Γ e ∧ AllBoolCasts fs Γ es

end

end Expr

namespace Stmt

mutual

def BoolCasts (fs : List Callable) (Γ : Env) : Stmt → Prop
  | function _ _ _ _ body => AllBoolCasts fs Γ body
  | var decl => ∀ e, decl.init = some e → e.BoolCasts fs Γ
  | branch _ conds blocks => Expr.AllBoolCasts fs Γ conds ∧ BlocksBoolCasts fs Γ blocks
  | loop _ cond body => cond.BoolCasts fs Γ ∧ AllBoolCasts fs Γ body
  | ret _ e | eval _ e => e.BoolCasts fs Γ
  | raw _ _ => True

def AllBoolCasts (fs : List Callable) (Γ : Env) : List Stmt → Prop
  | [] => True
  | s :: ss => BoolCasts fs Γ s ∧ AllBoolCasts fs Γ ss

def BlocksBoolCasts (fs : List Callable) (Γ : Env) : List (List Stmt) → Prop
  | [] => True
  | b :: bs => AllBoolCasts fs Γ b ∧ BlocksBoolCasts fs Γ bs

end

end Stmt

end WasmCompiler
