import WasmCompiler.Compilation
import WasmCompiler.Proofs.Fragment
import WasmCompiler.Proofs.SymbolTables

/-! One statement of a program in the place of another. If both keep the same rules, so do the two
programs, and their modules differ only where the code of the statement is: in the function that the
statement is in, after as many `return`s as there are before the statement. -/

namespace WasmCompiler

open Wasm

/-- How often code returns, instructions that were written out apart. -/
def Wasm.Code.returns (code : Code) : Nat := List.count (.instr (.plain .ret)) code

namespace Stmt

mutual

/-- The number of `return`s in a statement. -/
def returns : Stmt → Nat
  | function _ _ _ _ body | loop _ _ body => returnsAll body
  | branch _ _ blocks => returnsBlocks blocks
  | ret _ _ => 1
  | var _ | raw _ _ | eval _ _ => 0

def returnsAll : List Stmt → Nat
  | [] => 0
  | s :: ss => returns s + returnsAll ss

def returnsBlocks : List (List Stmt) → Nat
  | [] => 0
  | b :: bs => returnsAll b + returnsBlocks bs

end

end Stmt

section Returns

theorem Wasm.Code.returns_append (code code' : Code) :
    returns (code ++ code') = code.returns + code'.returns := List.count_append

/-- Code without return instructions has none to count. -/
theorem Wasm.Code.returns_ofInstrs {is : List Instr} (h : ∀ i ∈ is, i.op ≠ .ret) :
    (ofInstrs is).returns = 0 := by
  refine List.count_eq_zero.2 fun hMem => ?_
  obtain ⟨i, hI, hEq⟩ := List.mem_map.1 hMem
  obtain rfl := Item.instr.inj hEq
  exact h _ hI rfl

/-- The code of an operator does not return. -/
theorem UnaryOp.stays_of_lower {op : UnaryOp} {t : Ty} {s : Span} {is : List Instr}
    (h : op.lower t s = .ok is) : ∀ i ∈ is, i.op ≠ .ret := by
  cases op with
  | plus =>
      cases h
      exact List.forall_mem_nil _
  | neg =>
      rw [UnaryOp.lower] at h
      by_cases hNumeric : t.isNumeric = true
      · simp only [hNumeric, if_true, bind_eq_ok] at h
        obtain ⟨stored, -, hRest⟩ := h
        cases hOne : Instr.minusOne? stored with
        | none => simp [hOne, EmitError.throw] at hRest
        | some minusOne =>
            cases hMul : BinaryOp.opcode? .mul t with
            | none => simp [hOne, hMul, EmitError.throw] at hRest
            | some mul =>
                simp only [hOne, hMul, pure_eq_ok] at hRest
                subst hRest
                have hMinus : minusOne.op ≠ .ret := by cases stored <;> cases hOne <;> decide
                simp [hMinus, Instr.plain, (BinaryOp.isOperator_of_opcode? hMul).stays]
      · simp [hNumeric, EmitError.throw] at h
  | not =>
      rw [UnaryOp.lower] at h
      by_cases hBool : t = .bool
      · simp only [hBool, if_true, Except.ok.injEq] at h
        subst h
        decide
      · simp [hBool, EmitError.throw] at h

/-- The code of a cast does not return. -/
theorem Ty.stays_of_lowerCast {t u : Ty} {target : String} {s : Span} {is : List Instr}
    (h : t.lowerCast target s = .ok (is, u)) : ∀ i ∈ is, i.op ≠ .ret := by
  cases hTarget : Ty.ofName? target with
  | none => simp [Ty.lowerCast, hTarget, EmitError.throw] at h
  | some type =>
      obtain rfl := Ty.ofName?_eq_some.1 hTarget
      obtain ⟨source, stored, -, -, rfl, -⟩ := Ty.lowerCast_eq_ok h
      cases hCode : conversion? source stored with
      | none => exact List.forall_mem_nil _
      | some opcode => simp [Instr.plain, (isOperator_of_conversion? hCode).stays]

variable {scope : Scope}

mutual

/-- Expressions do not return. -/
theorem Expr.stays_of_lower : ∀ {e : Expr} {t : Ty} {is : List Instr},
    e.lower scope = .ok (is, t) → ∀ i ∈ is, i.op ≠ .ret
  | .ident _ _, _, _, h => by
      simp only [Expr.lower, bind_eq_ok, pure_eq_ok, Prod.exists, Prod.mk.injEq] at h
      obtain ⟨slot, _, -, rfl, -⟩ := h
      simp [Instr.localGet]
  | .number _ v, _, _, h => by
      simp only [Expr.lower, Except.ok.injEq, Prod.mk.injEq] at h
      obtain ⟨rfl, -⟩ := h
      cases v <;> simp [Literal.lower, Instr.i32Const]
  | .bool _ _, _, _, h => by
      simp only [Expr.lower, Except.ok.injEq, Prod.mk.injEq] at h
      obtain ⟨rfl, -⟩ := h
      simp [Instr.i32Const]
  | .str _ _, _, _, h => by cases h
  | .assign _ _ e, _, _, h => by
      simp only [Expr.lower, bind_eq_ok, pure_eq_ok, Prod.exists, Prod.mk.injEq] at h
      obtain ⟨is, _, hValue, slot, _, -, rfl, -⟩ := h
      exact List.forall_mem_append.2 ⟨stays_of_lower hValue, by simp [Instr.localSet]⟩
  | .binary _ op a b, _, _, h => by
      simp only [Expr.lower, bind_eq_ok, pure_eq_ok, Prod.exists, Prod.mk.injEq] at h
      obtain ⟨is, _, hLeft, js, _, hRight, ks, _, hOp, rfl, -⟩ := h
      obtain ⟨opcode, hCode, rfl, -⟩ := BinaryOp.lower_eq_ok hOp
      have hStays := (BinaryOp.isOperator_of_opcode? hCode).stays
      exact List.forall_mem_append.2 ⟨List.forall_mem_append.2
        ⟨stays_of_lower hLeft, stays_of_lower hRight⟩, by simpa [Instr.plain] using hStays⟩
  | .unary _ op e, _, _, h => by
      simp only [Expr.lower, bind_eq_ok, pure_eq_ok, Prod.exists, Prod.mk.injEq] at h
      obtain ⟨is, _, hOperand, js, hOp, rfl, -⟩ := h
      exact List.forall_mem_append.2 ⟨stays_of_lower hOperand, UnaryOp.stays_of_lower hOp⟩
  | .cast _ _ e, _, _, h => by
      simp only [Expr.lower, bind_eq_ok, pure_eq_ok, Prod.exists, Prod.mk.injEq] at h
      obtain ⟨is, _, hOperand, js, _, hCast, rfl, -⟩ := h
      exact List.forall_mem_append.2 ⟨stays_of_lower hOperand, Ty.stays_of_lowerCast hCast⟩
  | .call _ callee args, _, _, h => by
      simp only [Expr.lower, bind_eq_ok] at h
      obtain ⟨is, hArgs, hRest⟩ := h
      cases hIndex : scope.signatures.index? callee with
      | none => simp [hIndex, EmitError.throw] at hRest
      | some index =>
          cases hGet : scope.signatures.get? callee with
          | none => simp [hIndex, hGet, EmitError.throw] at hRest
          | some signature =>
              simp only [hIndex, hGet, pure_eq_ok, Prod.mk.injEq] at hRest
              obtain ⟨rfl, -⟩ := hRest
              exact List.forall_mem_append.2 ⟨stays_of_lowerArgs hArgs, by simp [Instr.call]⟩

theorem Expr.stays_of_lowerArgs : ∀ {es : List Expr} {is : List Instr},
    lowerArgs scope es = .ok is → ∀ i ∈ is, i.op ≠ .ret
  | [], _, h => by
      cases h
      exact List.forall_mem_nil _
  | e :: es, _, h => by
      simp only [lowerArgs, bind_eq_ok, pure_eq_ok, Prod.exists] at h
      obtain ⟨is, _, hHead, js, hTail, rfl⟩ := h
      exact List.forall_mem_append.2 ⟨stays_of_lower hHead, stays_of_lowerArgs hTail⟩

end

namespace Stmt

open Wasm.Code

/-- The code of a condition, up to where its block opens, does not return. -/
theorem stays_test {link is : List Instr} {cond : Expr} {t : Ty} (hLink : ∀ i ∈ link, i.op ≠ .ret)
    (hTest : cond.lower scope = .ok (is, t)) : ∀ i ∈ link ++ is ++ [.ifOp], i.op ≠ .ret :=
  List.forall_mem_append.2
    ⟨List.forall_mem_append.2 ⟨hLink, Expr.stays_of_lower hTest⟩, by decide⟩

/-- The code of a loop, up to where its block opens, does not return. -/
theorem stays_loop {is : List Instr} {cond : Expr} {t : Ty}
    (hTest : cond.lower scope = .ok (is, t)) : ∀ i ∈ .loop :: (is ++ [.ifOp]), i.op ≠ .ret :=
  @stays_test scope [.loop] is cond t (by decide) hTest

mutual

/-- The code of a statement returns as often as the statement does. -/
theorem returns_lower : ∀ {s : Stmt} {code : Code}, s.isShaped = true →
    s.lower scope = .ok code → code.returns = s.returns
  | .function _ _ _ _ _, _, _, h => by cases h
  | .var ⟨_, _, _, none⟩, _, _, h => by
      cases h
      rfl
  | .var ⟨_, _, _, some e⟩, _, _, h => by
      simp only [lower, bind_eq_ok, pure_eq_ok, Prod.exists] at h
      obtain ⟨is, _, hInit, slot, _, -, rfl⟩ := h
      rw [returns]
      exact returns_ofInstrs
        (List.forall_mem_append.2 ⟨Expr.stays_of_lower hInit, by simp [Instr.localSet]⟩)
  | .branch _ conds blocks, _, hShape, h => by
      simp only [isShaped, Bool.and_eq_true, Bool.or_eq_true, beq_iff_eq] at hShape
      simp only [lower, bind_eq_ok, pure_eq_ok] at h
      obtain ⟨chain, hChain, rfl⟩ := h
      have hEnds : (ofInstrs (List.replicate conds.length (.plain .endOp))).returns = 0 :=
        returns_ofInstrs (by simp [Instr.plain])
      rw [returns_append, hEnds, returns]
      exact returns_lowerChain (by simp) (by omega) hShape.2 hChain
  | .loop _ cond body, _, hShape, h => by
      rw [isShaped] at hShape
      simp only [lower, bind_eq_ok, pure_eq_ok, Prod.exists] at h
      obtain ⟨test, _, hTest, code, hBody, rfl⟩ := h
      have hOpen : (ofInstrs (.loop :: (test ++ [.ifOp]))).returns = 0 :=
        returns_ofInstrs (stays_loop hTest)
      have hClose : (ofInstrs [.br 1, .plain .endOp, .plain .endOp]).returns = 0 :=
        returns_ofInstrs (by decide)
      rw [returns_append, returns_append, hOpen, hClose, returns, returns_lowerAll hShape hBody]
      omega
  | .ret _ e, _, _, h => by
      simp only [lower, bind_eq_ok, pure_eq_ok, Prod.exists] at h
      obtain ⟨is, _, hValue, rfl⟩ := h
      have hReturn : (ofInstrs [.plain .ret]).returns = 1 := rfl
      rw [show ofInstrs (is ++ [.plain .ret]) = ofInstrs is ++ ofInstrs [.plain .ret] from
          List.map_append, returns_append, returns_ofInstrs (Expr.stays_of_lower hValue), hReturn,
        returns]
  | .raw _ text, _, _, h => by
      rw [lower] at h
      cases hRead : RawInstr.read scope.locals text with
      | error e => simp [hRead, EmitError.throw] at h
      | ok instr =>
          simp only [hRead, Except.ok.injEq] at h
          subst h
          rfl
  | .eval _ e, _, _, h => by
      simp only [lower, bind_eq_ok, pure_eq_ok, Prod.exists] at h
      obtain ⟨is, t, hExpr, rfl⟩ := h
      have hDrop : ∀ i ∈ if t.storage?.isSome then [Instr.plain .drop] else [], i.op ≠ .ret := by
        split <;> decide
      rw [returns]
      exact returns_ofInstrs (List.forall_mem_append.2 ⟨Expr.stays_of_lower hExpr, hDrop⟩)

/-- The code of statements has as many return instructions as they have return statements. -/
theorem returns_lowerAll : ∀ {ss : List Stmt} {code : Code}, isShapedAll ss = true →
    lowerAll scope ss = .ok code → code.returns = returnsAll ss
  | [], _, _, h => by
      cases h
      rfl
  | s :: ss, _, hShape, h => by
      rw [isShapedAll, Bool.and_eq_true] at hShape
      simp only [lowerAll, bind_eq_ok, pure_eq_ok] at h
      obtain ⟨first, hFirst, others, hOthers, rfl⟩ := h
      rw [returns_append, returns_lower hShape.1 hFirst, returns_lowerAll hShape.2 hOthers,
        returnsAll]

/-- So has the code of a chain of branches. -/
theorem returns_lowerChain : ∀ {conds : List Expr} {bs : List (List Stmt)} {link : List Instr}
    {code : Code}, (∀ i ∈ link, i.op ≠ .ret) → bs.length ≤ conds.length + 1 →
      isShapedBlocks bs = true → lowerChain scope link conds bs = .ok code →
        code.returns = returnsBlocks bs
  | conds, [], _, _, _, _, _, h => by
      cases conds <;> cases h <;> rfl
  | cond :: conds, b :: bs, link, _, hLink, hLength, hShape, h => by
      rw [isShapedBlocks, Bool.and_eq_true] at hShape
      simp only [lowerChain, bind_eq_ok, pure_eq_ok, Prod.exists] at h
      obtain ⟨test, _, hTest, block, hBlock, others, hOthers, rfl⟩ := h
      have hOpen : (ofInstrs (link ++ test ++ [.ifOp])).returns = 0 :=
        returns_ofInstrs (stays_test hLink hTest)
      have hRest := returns_lowerChain (by decide) (Nat.le_of_succ_le_succ hLength) hShape.2 hOthers
      rw [returns_append, returns_append, hOpen, returns_lowerAll hShape.1 hBlock, hRest,
        returnsBlocks]
      omega
  | [], [b], _, _, _, _, hShape, h => by
      rw [isShapedBlocks, Bool.and_eq_true] at hShape
      simp only [lowerChain, bind_eq_ok, pure_eq_ok] at h
      obtain ⟨block, hBlock, rfl⟩ := h
      have hElse : (ofInstrs [.plain .elseOp]).returns = 0 := returns_ofInstrs (by decide)
      rw [returns_append, hElse, returns_lowerAll hShape.1 hBlock, returnsBlocks, returnsBlocks]
      omega
  | [], _ :: _ :: _, _, _, _, hLength, _, _ => by simp at hLength

end

end Stmt

end Returns

/-- Code, and the same with `new` in the place of `old`, after `k` returns. -/
def Wasm.Code.Spliced (k : Nat) (code old new code' : Code) : Prop :=
  ∃ front back, returns front = k ∧ code = front ++ old ++ back ∧ code' = front ++ new ++ back

namespace Wasm.Code.Spliced

variable {k : Nat} {old new code code' : Code}

theorem refl (old new : Code) : Spliced 0 old old new new :=
  ⟨[], [], rfl, by simp, by simp⟩

/-- In code after code, the place is counted from the start of the first. -/
theorem append_left (h : Spliced k code old new code') (front : Code) :
    Spliced (front.returns + k) (front ++ code) old new (front ++ code') := by
  obtain ⟨before, after, rfl, rfl, rfl⟩ := h
  exact ⟨front ++ before, after, returns_append front before, by simp, by simp⟩

/-- Code in front that does not return. -/
theorem append_left_ofInstrs (h : Spliced k code old new code') {is : List Instr}
    (hIs : ∀ i ∈ is, i.op ≠ .ret) :
    Spliced k (ofInstrs is ++ code) old new (ofInstrs is ++ code') := by
  have hFront := h.append_left (ofInstrs is)
  rwa [returns_ofInstrs hIs, Nat.zero_add] at hFront

/-- Code that follows does not change the place. -/
theorem append_right (h : Spliced k code old new code') (back : Code) :
    Spliced k (code ++ back) old new (code' ++ back) := by
  obtain ⟨before, after, hK, rfl, rfl⟩ := h
  exact ⟨before, after ++ back, hK, by simp, by simp⟩

end Wasm.Code.Spliced

namespace Stmt

mutual

/-- A statement, and the same with `new` in the place of an `old` in it that has `k` `return`s
before it. -/
inductive Replaces (old new : Stmt) : Nat → Stmt → Stmt → Prop where
  | self : Replaces old new 0 old new
  | function {k : Nat} {s : Span} {type name : String} {params : List Declaration}
      {body body' : List Stmt} (h : ReplacesIn old new k body body') :
      Replaces old new k (.function s type name params body) (.function s type name params body')
  | branch {k : Nat} {s : Span} {conds : List Expr} {blocks blocks' : List (List Stmt)}
      (h : ReplacesInBlocks old new k blocks blocks') :
      Replaces old new k (.branch s conds blocks) (.branch s conds blocks')
  | loop {k : Nat} {s : Span} {cond : Expr} {body body' : List Stmt}
      (h : ReplacesIn old new k body body') :
      Replaces old new k (.loop s cond body) (.loop s cond body')

inductive ReplacesIn (old new : Stmt) : Nat → List Stmt → List Stmt → Prop where
  | here {k : Nat} {s s' : Stmt} {ss : List Stmt} (h : Replaces old new k s s') :
      ReplacesIn old new k (s :: ss) (s' :: ss)
  | later {k : Nat} {s : Stmt} {ss ss' : List Stmt} (h : ReplacesIn old new k ss ss') :
      ReplacesIn old new (s.returns + k) (s :: ss) (s :: ss')

inductive ReplacesInBlocks (old new : Stmt) :
    Nat → List (List Stmt) → List (List Stmt) → Prop where
  | here {k : Nat} {b b' : List Stmt} {bs : List (List Stmt)} (h : ReplacesIn old new k b b') :
      ReplacesInBlocks old new k (b :: bs) (b' :: bs)
  | later {k : Nat} {b : List Stmt} {bs bs' : List (List Stmt)}
      (h : ReplacesInBlocks old new k bs bs') :
      ReplacesInBlocks old new (returnsAll b + k) (b :: bs) (b :: bs')

end

/-- Two statements that pass the same checks, and have code wherever they stand. -/
structure Interchangeable (old new : Stmt) (code code' : Code) : Prop where
  check_eq : ∀ ctx locals, old.check ctx locals = new.check ctx locals
  checkTop_eq : ∀ symbols, checkTop symbols old = checkTop symbols new
  isRet_eq : old.isRet = new.isRet
  lower_old : ∀ scope, old.lower scope = .ok code
  lower_new : ∀ scope, new.lower scope = .ok code'

variable {old new : Stmt} {code code' : Code}

section Exprs

variable {e : Expr}

mutual

/-- The expressions of the new statement are in the statement that it was put into. -/
theorem Replaces.mem_exprs (hE : e ∈ new.exprs) : ∀ {k : Nat} {s s' : Stmt},
    Replaces old new k s s' → e ∈ s'.exprs
  | _, _, _, .self => hE
  | _, _, _, .function h => by
      rw [exprs]
      exact h.mem_exprs hE
  | _, _, _, .branch h => by
      rw [exprs]
      exact List.mem_append_right _ (h.mem_exprs hE)
  | _, _, _, .loop h => by
      rw [exprs]
      exact List.mem_cons_of_mem _ (h.mem_exprs hE)

theorem ReplacesIn.mem_exprs (hE : e ∈ new.exprs) : ∀ {k : Nat} {ss ss' : List Stmt},
    ReplacesIn old new k ss ss' → e ∈ exprsAll ss'
  | _, _, _, .here h => by
      rw [exprsAll]
      exact List.mem_append_left _ (h.mem_exprs hE)
  | _, _, _, .later h => by
      rw [exprsAll]
      exact List.mem_append_right _ (h.mem_exprs hE)

theorem ReplacesInBlocks.mem_exprs (hE : e ∈ new.exprs) : ∀ {k : Nat} {bs bs' : List (List Stmt)},
    ReplacesInBlocks old new k bs bs' → e ∈ exprsBlocks bs'
  | _, _, _, .here h => by
      rw [exprsBlocks]
      exact List.mem_append_left _ (h.mem_exprs hE)
  | _, _, _, .later h => by
      rw [exprsBlocks]
      exact List.mem_append_right _ (h.mem_exprs hE)

end

end Exprs

section Checking

mutual

/-- A statement is checked alike with one part put in place of another that is checked alike. -/
theorem Replaces.check_eq (hSame : Interchangeable old new code code') (ctx : Context) :
    ∀ {k : Nat} {s s' : Stmt} (locals : Locals), Replaces old new k s s' →
      s.check ctx locals = s'.check ctx locals
  | _, _, _, locals, .self => hSame.check_eq ctx locals
  | _, _, _, _, .function _ => by simp only [check]
  | _, _, _, locals, .branch h => by simp only [check, h.checkBlocks_eq hSame ctx locals]
  | _, _, _, locals, .loop h => by simp only [check, h.checkAll_eq hSame ctx locals]

theorem ReplacesIn.checkAll_eq (hSame : Interchangeable old new code code') (ctx : Context) :
    ∀ {k : Nat} {ss ss' : List Stmt} (locals : Locals), ReplacesIn old new k ss ss' →
      checkAll ctx locals ss = checkAll ctx locals ss'
  | _, _, _, locals, .here h => by simp only [checkAll, h.check_eq hSame ctx locals]
  | _, _, _, _, .later h => by
      simp only [checkAll]
      exact bind_congr fun locals => h.checkAll_eq hSame ctx locals

theorem ReplacesInBlocks.checkBlocks_eq (hSame : Interchangeable old new code code')
    (ctx : Context) : ∀ {k : Nat} {bs bs' : List (List Stmt)} (locals : Locals),
      ReplacesInBlocks old new k bs bs' → checkBlocks ctx locals bs = checkBlocks ctx locals bs'
  | _, _, _, locals, .here h => by simp only [checkBlocks, h.checkAll_eq hSame ctx locals]
  | _, _, _, _, .later h => by
      simp only [checkBlocks]
      exact bind_congr fun locals => h.checkBlocks_eq hSame ctx locals

end

/-- So is a statement outside of functions. -/
theorem Replaces.checkTop_eq (hSame : Interchangeable old new code code') (symbols : Symbols)
    {k : Nat} {s s' : Stmt} (h : Replaces old new k s s') :
    checkTop symbols s = checkTop symbols s' := by
  cases h with
  | self => exact hSame.checkTop_eq symbols
  | function h =>
      have hBody (ctx : Context) (locals : Locals) := h.checkAll_eq hSame ctx locals
      simp only [checkTop, checkFunction, hBody]
  | branch => rfl
  | loop => rfl

end Checking

section Lowering

variable {scope : Scope}

mutual

/-- The code of a statement changes only where that of the replaced one is. -/
theorem Replaces.exists_lower (hSame : Interchangeable old new code code') :
    ∀ {k : Nat} {s s' : Stmt} {c : Code}, Replaces old new k s s' → s.isShaped = true →
      s.lower scope = .ok c → ∃ c', s'.lower scope = .ok c' ∧ c.Spliced k code code' c'
  | _, _, _, c, .self, _, hLower => by
      rw [hSame.lower_old scope] at hLower
      cases hLower
      exact ⟨code', hSame.lower_new scope, .refl code code'⟩
  | _, _, _, _, .function _, _, hLower => by cases hLower
  | _, _, _, c, .branch h, hShape, hLower => by
      simp only [isShaped, Bool.and_eq_true, Bool.or_eq_true, beq_iff_eq] at hShape
      simp only [lower, bind_eq_ok, pure_eq_ok] at hLower ⊢
      obtain ⟨chain, hChain, rfl⟩ := hLower
      obtain ⟨chain', hChain', hSpliced⟩ :=
        h.exists_lowerChain hSame (List.forall_mem_nil _) (by omega) hShape.2 hChain
      exact ⟨_, ⟨chain', hChain', rfl⟩, hSpliced.append_right _⟩
  | _, _, _, c, .loop h, hShape, hLower => by
      rw [isShaped] at hShape
      simp only [lower, bind_eq_ok, pure_eq_ok] at hLower ⊢
      obtain ⟨test, hTest, body, hBody, rfl⟩ := hLower
      obtain ⟨body', hBody', hSpliced⟩ := h.exists_lowerAll hSame hShape hBody
      exact ⟨_, ⟨test, hTest, body', hBody', rfl⟩,
        (hSpliced.append_left_ofInstrs (stays_loop hTest)).append_right _⟩

/-- Where one statement is put in place of another, its code is put in place of that of the other.
-/
theorem ReplacesIn.exists_lowerAll (hSame : Interchangeable old new code code') :
    ∀ {k : Nat} {ss ss' : List Stmt} {c : Code}, ReplacesIn old new k ss ss' →
      isShapedAll ss = true → lowerAll scope ss = .ok c →
        ∃ c', lowerAll scope ss' = .ok c' ∧ c.Spliced k code code' c'
  | _, _, _, c, .here h, hShape, hLower => by
      rw [isShapedAll, Bool.and_eq_true] at hShape
      simp only [lowerAll, bind_eq_ok, pure_eq_ok] at hLower ⊢
      obtain ⟨first, hFirst, others, hOthers, rfl⟩ := hLower
      obtain ⟨first', hFirst', hSpliced⟩ := h.exists_lower hSame hShape.1 hFirst
      exact ⟨_, ⟨first', hFirst', others, hOthers, rfl⟩, hSpliced.append_right others⟩
  | _, _, _, c, .later h, hShape, hLower => by
      rw [isShapedAll, Bool.and_eq_true] at hShape
      simp only [lowerAll, bind_eq_ok, pure_eq_ok] at hLower ⊢
      obtain ⟨first, hFirst, others, hOthers, rfl⟩ := hLower
      obtain ⟨others', hOthers', hSpliced⟩ := h.exists_lowerAll hSame hShape.2 hOthers
      rw [← returns_lower hShape.1 hFirst]
      exact ⟨_, ⟨first, hFirst, others', hOthers', rfl⟩, hSpliced.append_left first⟩

/-- So it is in a chain of branches. -/
theorem ReplacesInBlocks.exists_lowerChain (hSame : Interchangeable old new code code') :
    ∀ {k : Nat} {conds : List Expr} {bs bs' : List (List Stmt)} {link : List Instr} {c : Code},
      ReplacesInBlocks old new k bs bs' → (∀ i ∈ link, i.op ≠ .ret) →
      bs.length ≤ conds.length + 1 → isShapedBlocks bs = true →
      lowerChain scope link conds bs = .ok c →
        ∃ c', lowerChain scope link conds bs' = .ok c' ∧ c.Spliced k code code' c'
  | _, cond :: conds, _, _, link, c, .here h, hLink, _, hShape, hLower => by
      rw [isShapedBlocks, Bool.and_eq_true] at hShape
      simp only [lowerChain, bind_eq_ok, pure_eq_ok] at hLower ⊢
      obtain ⟨test, hTest, block, hBlock, others, hOthers, rfl⟩ := hLower
      obtain ⟨block', hBlock', hSpliced⟩ := h.exists_lowerAll hSame hShape.1 hBlock
      exact ⟨_, ⟨test, hTest, block', hBlock', others, hOthers, rfl⟩,
        (hSpliced.append_left_ofInstrs (stays_test hLink hTest)).append_right others⟩
  | _, cond :: conds, _, _, link, c, .later h, hLink, hLength, hShape, hLower => by
      rw [isShapedBlocks, Bool.and_eq_true] at hShape
      simp only [lowerChain, bind_eq_ok, pure_eq_ok] at hLower ⊢
      obtain ⟨test, hTest, block, hBlock, others, hOthers, rfl⟩ := hLower
      obtain ⟨others', hOthers', hSpliced⟩ := h.exists_lowerChain hSame (by decide)
        (Nat.le_of_succ_le_succ hLength) hShape.2 hOthers
      have hBoth := (hSpliced.append_left block).append_left_ofInstrs (stays_test hLink hTest)
      rw [← List.append_assoc, ← List.append_assoc, returns_lowerAll hShape.1 hBlock] at hBoth
      exact ⟨_, ⟨test, hTest, block, hBlock, others', hOthers', rfl⟩, hBoth⟩
  | _, [], _, _, link, c, .here h, _, _, hShape, hLower => by
      rw [isShapedBlocks, Bool.and_eq_true] at hShape
      simp only [lowerChain, bind_eq_ok, pure_eq_ok] at hLower ⊢
      obtain ⟨block, hBlock, rfl⟩ := hLower
      obtain ⟨block', hBlock', hSpliced⟩ := h.exists_lowerAll hSame hShape.1 hBlock
      exact ⟨_, ⟨block', hBlock', rfl⟩, hSpliced.append_left_ofInstrs (by decide)⟩
  | _, [], _, _, link, c, .later h, _, hLength, _, _ => by
      -- blocks after one without a condition have no code, but there are none
      cases h <;> simp at hLength

end

/-- Whether a body ends in a return statement does not change. -/
theorem ReplacesIn.endsInRet_eq (hSame : Interchangeable old new code code') :
    ∀ {k : Nat} {ss ss' : List Stmt}, ReplacesIn old new k ss ss' → endsInRet ss = endsInRet ss'
  | _, [s], _, .here h => by
      cases h with
      | self => exact hSame.isRet_eq
      | function => rfl
      | branch => rfl
      | loop => rfl
  | _, _ :: _ :: _, _, .here _ => by simp only [endsInRet, List.getLast?_cons_cons]
  | _, s :: ss, _, .later h => by
      have hEnds := h.endsInRet_eq hSame
      cases h with
      | here h => simpa only [endsInRet, List.getLast?_cons_cons] using hEnds
      | later h => simpa only [endsInRet, List.getLast?_cons_cons] using hEnds

end Lowering

end Stmt

section Modules

open Stmt

variable {old new : Stmt} {code code' : Code} {symbols : Symbols}

/-- The code of the function `name` with a given body, as its tables have it. -/
def Function.HasCode (symbols : Symbols) (name : String) (body : List Stmt) (code : Code) : Prop :=
  ∃ signature locals, symbols.signatures.get? name = some signature ∧
    symbols.locals? name = some locals ∧
    Function.lowerCode ⟨symbols.signatures, locals⟩ signature.ret body = .ok code

/-- A body with one statement replaced has the same variables, and the code of the statement in the
place of that of the other. -/
theorem Function.exists_lower_of_replacesIn (hSame : Interchangeable old new code code') {k : Nat}
    {body body' : List Stmt} (h : ReplacesIn old new k body body')
    (hShape : isShapedAll body = true) {s : Span} {name : String} {b : Body}
    (hLower : Function.lower symbols s name body = .ok b) :
    ∃ c c', c.Spliced k code code' c' ∧ HasCode symbols name body c ∧
      HasCode symbols name body' c' ∧ b.code = c.encode ∧
      Function.lower symbols s name body' = .ok ⟨b.locals, c'.encode⟩ := by
  rw [Function.lower] at hLower
  cases hSignature : symbols.signatures.get? name with
  | none => simp [hSignature, EmitError.throw] at hLower
  | some signature =>
      cases hLocals : symbols.locals? name with
      | none => simp [hSignature, hLocals, EmitError.throw] at hLower
      | some locals =>
          simp only [hSignature, hLocals, lowerCode, bind_eq_ok, pure_eq_ok] at hLower
          obtain ⟨_, ⟨c, hCode, rfl⟩, stored, hStored, rfl⟩ := hLower
          obtain ⟨c', hCode', hSpliced⟩ := h.exists_lowerAll hSame hShape hCode
          refine ⟨_, _, hSpliced.append_right _, ⟨signature, locals, hSignature, hLocals, ?_⟩,
            ⟨signature, locals, hSignature, hLocals, ?_⟩, rfl, ?_⟩
          · simp only [lowerCode, hCode]
            rfl
          · simp only [lowerCode, hCode', ← h.endsInRet_eq hSame]
            rfl
          · simp only [Function.lower, hSignature, hLocals, lowerCode, hCode', hStored,
              ← h.endsInRet_eq hSame]
            rfl

namespace Program

variable {p : Program}

/-- Function number `i` of a program has the given code. -/
def HasCode (p : Program) (i : Nat) (code : Code) : Prop :=
  ∃ symbols s type name params body, p.check = .ok symbols ∧
    p[i]? = some (.function s type name params body) ∧ Function.HasCode symbols name body code

/-- A program is checked alike with one of its statements put in place of another that is checked
alike. -/
theorem checkFrom_set {i : Nat} {stmt stmt' : Stmt} (hAt : p[i]? = some stmt)
    (hTop : ∀ symbols, checkTop symbols stmt = checkTop symbols stmt') (symbols : Symbols) :
    checkFrom symbols (p.set i stmt') = p.checkFrom symbols := by
  induction p generalizing i symbols with
  | nil => simp at hAt
  | cons s p ih =>
      cases i with
      | zero =>
          obtain rfl : s = stmt := by simpa using hAt
          simp only [List.set_cons_zero, checkFrom, hTop]
      | succ i =>
          simp only [List.set_cons_succ, checkFrom]
          exact bind_congr fun symbols => ih (by simpa using hAt) symbols

/-- One body can be exchanged without the others. -/
theorem lowerFrom_set {i index : Nat} {s : Span} {type name : String} {params : List Declaration}
    {body : List Stmt} {bodies : List Body}
    (hAt : p[i]? = some (.function s type name params body))
    (hLower : p.lowerFrom symbols index = .ok bodies) :
    ∃ b, bodies[i]? = some b ∧ Function.lower symbols s name body = .ok b ∧
      ∀ body' b', Function.lower symbols s name body' = .ok b' →
        lowerFrom symbols index (p.set i (.function s type name params body')) =
          .ok (bodies.set i b') := by
  induction p generalizing i index bodies with
  | nil => simp at hAt
  | cons stmt p ih =>
      cases stmt with
      | function s₀ type₀ name₀ params₀ body₀ =>
          by_cases hIndex : symbols.signatures.index? name₀ = some index
          · simp only [lowerFrom, if_pos hIndex, bind_eq_ok, pure_eq_ok] at hLower
            obtain ⟨first, hFirst, others, hOthers, rfl⟩ := hLower
            cases i with
            | zero =>
                simp only [List.getElem?_cons_zero, Option.some.injEq, Stmt.function.injEq] at hAt
                obtain ⟨rfl, rfl, rfl, rfl, rfl⟩ := hAt
                refine ⟨first, rfl, hFirst, fun body' b' hNew => ?_⟩
                simp only [List.set_cons_zero, lowerFrom, if_pos hIndex, hNew, hOthers]
                rfl
            | succ i =>
                obtain ⟨b, hBody, hB, hOther⟩ := ih (by simpa using hAt) hOthers
                refine ⟨b, by simpa using hBody, hB, fun body' b' hNew => ?_⟩
                simp only [List.set_cons_succ, lowerFrom, if_pos hIndex, hFirst,
                  hOther body' b' hNew]
                rfl
          · simp [lowerFrom, hIndex, EmitError.throw] at hLower
      | var | branch | loop | ret | raw | eval => cases hLower

/-- The module of a program with one statement replaced differs from that of the program in the
function that the statement is in, and there in the code of the statement only. -/
theorem toModule_of_replaces (hSame : Interchangeable old new code code') {k i : Nat}
    {stmt stmt' : Stmt} (hAt : p[i]? = some stmt) (h : Replaces old new k stmt stmt')
    (hShape : stmt.isShaped = true) {m : Module} (hModule : p.toModule = .ok m) :
    ∃ locals c c', c.Spliced k code code' c' ∧ p.HasCode i c ∧ HasCode (p.set i stmt') i c' ∧
      m.code[i]? = some ⟨locals, c.encode⟩ ∧
      toModule (p.set i stmt') = .ok { m with code := m.code.set i ⟨locals, c'.encode⟩ } := by
  simp only [toModule, bind_eq_ok, mapError_eq_ok] at hModule ⊢
  obtain ⟨symbols, hCheck, hLower⟩ := hModule
  have hCheck' : check (p.set i stmt') = .ok symbols :=
    (checkFrom_set hAt (h.checkTop_eq hSame) .empty).trans hCheck
  obtain ⟨f, -, hChecks⟩ := check_getElem? hCheck hAt
  cases hChecks with
  | @function s name r params body _ _ _ _ =>
      cases h with
      | self => cases hSame.lower_old ⟨.empty, .empty⟩
      | @function _ _ _ _ _ _ body' h =>
          simp only [lower, bind_eq_ok] at hLower
          obtain ⟨types, hTypes, bodies, hBodies, hDone⟩ := hLower
          by_cases hLength : bodies.length = symbols.signatures.entries.length
          · rw [if_neg (not_not.2 hLength)] at hDone
            cases hDone
            obtain ⟨b, hBody, hFirst, hOther⟩ := lowerFrom_set hAt hBodies
            obtain ⟨c, c', hSpliced, hCode, hCode', hBytes, hFirst'⟩ :=
              Function.exists_lower_of_replacesIn hSame h (by simpa [isShaped] using hShape) hFirst
            have hAt' : (p.set i (.function s r.name name params body'))[i]? =
                some (.function s r.name name params body') := by
              rw [List.getElem?_set_self (List.getElem?_eq_some_iff.1 hAt).1]
            refine ⟨b.locals, c, c', hSpliced, ⟨symbols, _, _, _, _, _, hCheck, hAt, hCode⟩,
              ⟨symbols, _, _, _, _, _, hCheck', hAt', hCode'⟩, ?_, symbols, hCheck', ?_⟩
            · rw [hBody, ← hBytes]
            · simp only [lower, bind_eq_ok]
              refine ⟨types, hTypes, _, hOther _ _ hFirst', ?_⟩
              rw [List.length_set, if_neg (not_not.2 hLength)]
              rfl
          · simp [hLength, EmitError.throw] at hDone

end Program

end Modules

end WasmCompiler
