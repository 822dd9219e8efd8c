import WasmCompiler.Proofs.Fragment
import WasmCompiler.Proofs.Typing
import WasmCompiler.Wasm.Lowering

/-! The code of well-typed programs, by rules. A rule gives the code of a form from the code of its
parts, in the order and the nesting in which it runs; variables and functions are known by their
place in the tables. What is proved about compiled code follows these rules. -/

namespace WasmCompiler

open Wasm

/-- Only `void` is not stored. -/
theorem Ty.eq_void_of_storage? {t : Ty} (h : t.storage? = none) : t = .void := by
  cases t with
  | void => rfl
  | _ => cases h

mutual

/-- The instructions of an expression of a type. -/
inductive Expr.Emits (fs : List Callable) (Γ : Env) : Expr → Ty → List Instr → Prop where
  | ident {s : Span} {x : String} {t : Ty} {slot : Nat} (hVar : Γ[slot]? = some (x, t)) :
      Emits fs Γ (.ident s x) t [.localGet slot]
  | number {s : Span} {v : Literal} {t : Ty} (hLit : v.HasType t) :
      Emits fs Γ (.number s v) t [v.lower.1]
  | bool {s : Span} {b : Bool} : Emits fs Γ (.bool s b) .bool [.i32Const (if b then 1 else 0)]
  | assign {s : Span} {x : String} {e : Expr} {t : Ty} {slot : Nat} {is : List Instr}
      (hVar : Γ[slot]? = some (x, t)) (hValue : Emits fs Γ e t is) :
      Emits fs Γ (.assign s x e) .void (is ++ [.localSet slot])
  | binary {s : Span} {op : BinaryOp} {a b : Expr} {t r : Ty} {opcode : Opcode}
      {is js : List Instr} (hLeft : Emits fs Γ a t is) (hRight : Emits fs Γ b t js)
      (hOp : op.HasType t r) (hCode : op.opcode? t = some opcode) :
      Emits fs Γ (.binary s op a b) r (is ++ (js ++ [.plain opcode]))
  | plus {s : Span} {e : Expr} {t : Ty} {is : List Instr} (hOperand : Emits fs Γ e t is)
      (hNum : t ∈ [.i32, .i64, .f32, .f64]) : Emits fs Γ (.unary s .plus e) t is
  | neg {s : Span} {e : Expr} {t : Ty} {stored : ValType} {minusOne : Instr} {mul : Opcode}
      {is : List Instr} (hOperand : Emits fs Γ e t is) (hStored : t.storage? = some stored)
      (hNum : t ∈ [.i32, .i64, .f32, .f64]) (hOne : Instr.minusOne? stored = some minusOne)
      (hMul : BinaryOp.opcode? .mul t = some mul) :
      Emits fs Γ (.unary s .neg e) t (is ++ [minusOne, .plain mul])
  | not {s : Span} {e : Expr} {is : List Instr} (hOperand : Emits fs Γ e .bool is) :
      Emits fs Γ (.unary s .not e) .bool (is ++ [.i32Const 1, .plain .i32Xor])
  | cast {s : Span} {e : Expr} {t target : Ty} {source stored : ValType} {is : List Instr}
      (hOperand : Emits fs Γ e t is) (hType : e.HasType fs Γ t)
      (hSource : t.storage? = some source) (hStored : target.storage? = some stored) :
      Emits fs Γ (.cast s target.name e) target
        (is ++ ((conversion? source stored).map Instr.plain).toList)
  | call {s : Span} {f : Callable} {args : List Expr} {index : Nat} {is : List Instr}
      (hCallee : fs[index]? = some f) (hArgs : AllEmit fs Γ args f.params is) :
      Emits fs Γ (.call s f.name args) f.ret (is ++ [.call index])

/-- The instructions of arguments one after the other. -/
inductive Expr.AllEmit (fs : List Callable) (Γ : Env) :
    List Expr → List Ty → List Instr → Prop where
  | nil : AllEmit fs Γ [] [] []
  | cons {e : Expr} {es : List Expr} {t : Ty} {ts : List Ty} {is js : List Instr}
      (hHead : Emits fs Γ e t is) (hTail : AllEmit fs Γ es ts js) :
      AllEmit fs Γ (e :: es) (t :: ts) (is ++ js)

end

mutual

/-- The instructions of a statement in a function with result type `r`. -/
inductive Stmt.Emits (fs : List Callable) (Γ : Env) (r : Ty) : Stmt → List Instr → Prop where
  | var {s : Span} {type x : String} : Emits fs Γ r (.var ⟨s, type, x, none⟩) []
  | varInit {s : Span} {type x : String} {e : Expr} {t : Ty} {slot : Nat} {is : List Instr}
      (hVar : Γ[slot]? = some (x, t)) (hInit : e.Emits fs Γ t is) :
      Emits fs Γ r (.var ⟨s, type, x, some e⟩) (is ++ [.localSet slot])
  | branch {s : Span} {conds : List Expr} {blocks : List (List Stmt)} {is : List Instr}
      (hChain : ChainEmits fs Γ r conds blocks is) : Emits fs Γ r (.branch s conds blocks) is
  | loop {s : Span} {cond : Expr} {body : List Stmt} {is js : List Instr}
      (hCond : cond.Emits fs Γ .bool is) (hBody : AllEmit fs Γ r body js) :
      Emits fs Γ r (.loop s cond body)
        (.loop :: (is ++ (.ifOp :: (js ++ [.br 1] ++ [.plain .endOp])) ++ [.plain .endOp]))
  | ret {s : Span} {e : Expr} {is : List Instr} (hValue : e.Emits fs Γ r is) :
      Emits fs Γ r (.ret s e) (is ++ [.plain .ret])
  | eval {s : Span} {e : Expr} {t : Ty} {stored : ValType} {is : List Instr}
      (hExpr : e.Emits fs Γ t is) (hStored : t.storage? = some stored) :
      Emits fs Γ r (.eval s e) (is ++ [.plain .drop])
  | evalVoid {s : Span} {e : Expr} {is : List Instr} (hExpr : e.Emits fs Γ .void is) :
      Emits fs Γ r (.eval s e) is

inductive Stmt.AllEmit (fs : List Callable) (Γ : Env) (r : Ty) :
    List Stmt → List Instr → Prop where
  | nil : AllEmit fs Γ r [] []
  | cons {s : Stmt} {ss : List Stmt} {is js : List Instr} (hHead : Emits fs Γ r s is)
      (hTail : AllEmit fs Γ r ss js) : AllEmit fs Γ r (s :: ss) (is ++ js)

/-- The conditions and blocks of a branch, each nested in the `else` of the one before it. -/
inductive Stmt.ChainEmits (fs : List Callable) (Γ : Env) (r : Ty) :
    List Expr → List (List Stmt) → List Instr → Prop where
  | last {cond : Expr} {block : List Stmt} {is js : List Instr}
      (hCond : cond.Emits fs Γ .bool is) (hBlock : AllEmit fs Γ r block js) :
      ChainEmits fs Γ r [cond] [block] (is ++ (.ifOp :: (js ++ [.plain .endOp])))
  | orElse {cond : Expr} {block other : List Stmt} {is js ks : List Instr}
      (hCond : cond.Emits fs Γ .bool is) (hBlock : AllEmit fs Γ r block js)
      (hOther : AllEmit fs Γ r other ks) :
      ChainEmits fs Γ r [cond] [block, other]
        (is ++ (.ifOp :: (js ++ (.plain .elseOp :: (ks ++ [.plain .endOp])))))
  | more {cond : Expr} {conds : List Expr} {block : List Stmt} {blocks : List (List Stmt)}
      {is js ks : List Instr} (hCond : cond.Emits fs Γ .bool is)
      (hBlock : AllEmit fs Γ r block js) (hMore : ChainEmits fs Γ r conds blocks ks) :
      ChainEmits fs Γ r (cond :: conds) (block :: blocks)
        (is ++ (.ifOp :: (js ++ (.plain .elseOp :: (ks ++ [.plain .endOp])))))

end

/-- An instruction without operands of its own that only works on the stack. -/
structure Wasm.Opcode.IsOperator (op : Opcode) : Prop where
  immediate : op.immediate = .none
  stays : op ≠ .ret
  opens : op.opens = false
  closes : op.closes = false

theorem BinaryOp.isOperator_of_opcode? {op : BinaryOp} {t : Ty} {opcode : Opcode}
    (h : op.opcode? t = some opcode) : opcode.IsOperator := by
  cases op <;> cases t <;> cases h <;> exact ⟨rfl, by decide, rfl, rfl⟩

theorem isOperator_of_conversion? {source target : ValType} {opcode : Opcode}
    (h : conversion? source target = some opcode) : opcode.IsOperator := by
  cases source <;> cases target <;> cases h <;> exact ⟨rfl, by decide, rfl, rfl⟩

/-- A variable has one type, if the names differ. -/
theorem Env.type_unique {Γ : Env} (hDistinct : (Γ.map Prod.fst).Nodup) {x : String} {t u : Ty}
    (hT : (x, t) ∈ Γ) (hU : (x, u) ∈ Γ) : t = u :=
  (Prod.mk.inj (List.inj_on_of_nodup_map hDistinct hT hU rfl)).2

namespace Expr

variable {fs gs : List Callable} {Γ Δ : Env}

mutual

/-- More functions and variables do not change a type. -/
theorem HasType.mono (hFuns : fs ⊆ gs) (hVars : Γ ⊆ Δ) :
    ∀ {e : Expr} {t : Ty}, e.HasType fs Γ t → e.HasType gs Δ t
  | _, _, .ident hVar => .ident (hVars hVar)
  | _, _, .number hLit => .number hLit
  | _, _, .bool => .bool
  | _, _, .assign hVar hValue => .assign (hVars hVar) (hValue.mono hFuns hVars)
  | _, _, .binary hLeft hRight hOp =>
      .binary (hLeft.mono hFuns hVars) (hRight.mono hFuns hVars) hOp
  | _, _, .unary hOperand hOp => .unary (hOperand.mono hFuns hVars) hOp
  | _, _, .cast hOperand => .cast (hOperand.mono hFuns hVars)
  | _, _, .castStr => .castStr
  | _, _, .call hCallee hArgs => .call (hFuns hCallee) (hArgs.mono hFuns hVars)

theorem HaveTypes.mono (hFuns : fs ⊆ gs) (hVars : Γ ⊆ Δ) :
    ∀ {es : List Expr} {ts : List Ty}, HaveTypes fs Γ es ts → HaveTypes gs Δ es ts
  | _, _, .nil => .nil
  | _, _, .cons hHead hTail => .cons (hHead.mono hFuns hVars) (hTail.mono hFuns hVars)

end

end Expr

namespace Stmt

variable {fs : List Callable} {r : Ty}

mutual

/-- Variables stay declared. -/
theorem WellTyped.subset : ∀ {s : Stmt} {Γ Γ' : Env}, WellTyped fs r Γ s Γ' → Γ ⊆ Γ'
  | _, _, _, .var _ _ => List.subset_append_left _ _
  | _, _, _, .varInit _ _ _ => List.subset_append_left _ _
  | _, _, _, .branch _ hBlocks => hBlocks.subset
  | _, _, _, .loop _ hBody => hBody.subset
  | _, _, _, .ret _ => List.Subset.refl _
  | _, _, _, .raw => List.Subset.refl _
  | _, _, _, .eval _ => List.Subset.refl _

theorem AllWellTyped.subset : ∀ {ss : List Stmt} {Γ Γ' : Env},
    AllWellTyped fs r Γ ss Γ' → Γ ⊆ Γ'
  | _, _, _, .nil => List.Subset.refl _
  | _, _, _, .cons hHead hTail => List.Subset.trans hHead.subset hTail.subset

theorem BlocksWellTyped.subset : ∀ {bs : List (List Stmt)} {Γ Γ' : Env},
    BlocksWellTyped fs r Γ bs Γ' → Γ ⊆ Γ'
  | _, _, _, .nil => List.Subset.refl _
  | _, _, _, .cons hHead hTail => List.Subset.trans hHead.subset hTail.subset

end

end Stmt

namespace Scope

/-- The functions that can be called, as the typing rules see them. -/
def callables (scope : Scope) : List Callable := scope.signatures.callables

/-- A variable has the slot of its place in the table. -/
theorem slot_eq_ok {scope : Scope} {x : String} {s : Span} {i : Nat} {t : Ty} :
    scope.slot x s = .ok (i, t) ↔ scope.locals.env[i]? = some (x, t) := by
  have hEnv : scope.locals.env[i]? = some (x, t) ↔
      ∃ v, scope.locals.entries[i]? = some v ∧ v.name = x ∧ v.type = t := by
    simp [Locals.env]
  rw [hEnv, Scope.slot, Locals.slot?]
  cases hIndex : scope.locals.index? x with
  | none =>
      have hNew := Table.index?_eq_none_iff.1 hIndex
      constructor
      · intro h
        cases h
      · rintro ⟨v, hAt, rfl, -⟩
        exact absurd (List.mem_map_of_mem (List.mem_of_getElem? hAt)) hNew
  | some j =>
      obtain ⟨v, hAt, hName⟩ := Table.index?_eq_some_iff.1 hIndex
      have hGet : scope.locals.get? x = some v :=
        Table.get?_eq_some_iff.2 ⟨List.mem_of_getElem? hAt, hName⟩
      simp only [hGet, Except.ok.injEq, Prod.mk.injEq]
      constructor
      · rintro ⟨rfl, rfl⟩
        exact ⟨v, hAt, hName, rfl⟩
      · rintro ⟨w, hW, hSame, rfl⟩
        have hOther := Table.index?_eq_some_iff.2 ⟨w, hW, hSame⟩
        cases hIndex.symm.trans hOther
        cases hAt.symm.trans hW
        exact ⟨rfl, rfl⟩

/-- A function that can be called has an entry, and the number of its place. -/
theorem exists_callee {scope : Scope} {f : Callable} (hCallee : f ∈ scope.callables) :
    ∃ index signature, scope.signatures.index? f.name = some index ∧
      scope.signatures.get? f.name = some signature ∧ signature.callable = f ∧
      scope.callables[index]? = some f := by
  obtain ⟨signature, hMem, rfl⟩ := List.mem_map.1 hCallee
  obtain ⟨index, hAt⟩ := List.mem_iff_getElem?.1 hMem
  refine ⟨index, signature, Table.index?_eq_some_iff.2 ⟨signature, hAt, rfl⟩,
    Table.get?_eq_some_iff.2 ⟨hMem, rfl⟩, rfl, ?_⟩
  simp [callables, Signatures.callables, hAt]

end Scope

/-- An operation is one instruction, and a comparison gives a truth value. -/
theorem BinaryOp.lower_eq_ok {op : BinaryOp} {t u : Ty} {s : Span} {is : List Instr}
    (h : op.lower t s = .ok (is, u)) :
    ∃ opcode, op.opcode? t = some opcode ∧ is = [.plain opcode] ∧
      u = if op.isPredicate then .bool else t := by
  unfold BinaryOp.lower at h
  cases hOpcode : op.opcode? t with
  | none => simp [hOpcode, EmitError.throw] at h
  | some opcode =>
      simp only [hOpcode] at h
      cases h
      exact ⟨opcode, rfl, rfl, rfl⟩

/-- The type of an operation is that of its operands, or for a comparison a truth value. -/
theorem BinaryOp.result_of_hasType {op : BinaryOp} {t r : Ty} (h : op.HasType t r) :
    r = if op.isPredicate then .bool else t := by
  cases h with
  | logical hOp => simp [isPredicate, isLogical_iff.2 hOp]
  | equality hOp => simp [isPredicate, isEquality_iff.2 hOp]
  | relational hOp => simp [isPredicate, isRelational_iff.2 hOp]
  | arithmetic hOp => simp [isPredicate_eq_false_iff.2 hOp]

/-- Storing a type succeeds exactly if it is stored. -/
theorem Ty.storage_eq_ok {t : Ty} {s : Span} {stored : ValType} :
    t.storage s = .ok stored ↔ t.storage? = some stored := by
  unfold Ty.storage
  cases t.storage? with
  | none => simp [EmitError.throw]
  | some found => simp

/-- The code of an operand with that of an operator is code of the operation. -/
theorem Expr.emits_unary {fs : List Callable} {Γ : Env} {s u : Span} {op : UnaryOp} {e : Expr}
    {t : Ty} {is js : List Instr} (hEmits : e.Emits fs Γ t is) (hOp : op.HasType t)
    (hCode : op.lower t u = .ok js) : (Expr.unary s op e).Emits fs Γ t (is ++ js) := by
  cases hOp with
  | not =>
      simp only [UnaryOp.lower, if_true, Except.ok.injEq] at hCode
      subst hCode
      exact .not hEmits
  | sign hSign hNum =>
      rcases List.mem_pair.1 hSign with rfl | rfl
      · simp only [UnaryOp.lower, Except.ok.injEq] at hCode
        subst hCode
        rw [List.append_nil]
        exact .plus hEmits hNum
      · simp only [UnaryOp.lower, Ty.isNumeric_iff.2 hNum, if_true, bind_eq_ok] at hCode
        obtain ⟨stored, hStored, hRest⟩ := hCode
        cases hOne : Instr.minusOne? stored with
        | none => simp [hOne, EmitError.throw] at hRest
        | some minusOne =>
            cases hMul : BinaryOp.opcode? .mul t with
            | none => simp [hOne, hMul, EmitError.throw] at hRest
            | some mul =>
                simp only [hOne, hMul] at hRest
                cases hRest
                exact .neg hEmits (Ty.storage_eq_ok.1 hStored) hNum hOne hMul

/-- A cast is at most one instruction, between the stored types. -/
theorem Ty.lowerCast_eq_ok {t target u : Ty} {s : Span} {is : List Instr}
    (h : t.lowerCast target.name s = .ok (is, u)) :
    ∃ source stored, t.storage? = some source ∧ target.storage? = some stored ∧
      is = ((conversion? source stored).map Instr.plain).toList ∧ u = target := by
  simp only [Ty.lowerCast, Ty.ofName?_eq_some.2 rfl] at h
  cases hSource : t.storage? with
  | none => simp [hSource, EmitError.throw] at h
  | some source =>
      cases hStored : target.storage? with
      | none => simp [hSource, hStored, EmitError.throw] at h
      | some stored =>
          simp only [hSource, hStored] at h
          cases h
          exact ⟨source, stored, rfl, rfl, rfl, rfl⟩

section Lowering

variable {scope : Scope}

mutual

/-- The code of a well-typed expression is the code that the rules give, for the same type. -/
theorem Expr.emits_of_lower : ∀ {e : Expr} {t u : Ty} {is : List Instr},
    e.HasType scope.callables scope.locals.env t → e.lower scope = .ok (is, u) →
      u = t ∧ e.Emits scope.callables scope.locals.env t is
  | .ident s x, t, u, is, hType, hLower => by
      cases hType with
      | ident hVar =>
          simp only [Expr.lower, bind_eq_ok, pure_eq_ok, Prod.exists, Prod.mk.injEq] at hLower
          obtain ⟨slot, found, hSlot, rfl, rfl⟩ := hLower
          have hAt := Scope.slot_eq_ok.1 hSlot
          have hSame := Env.type_unique scope.locals.distinct_env (List.mem_of_getElem? hAt) hVar
          subst hSame
          exact ⟨rfl, .ident hAt⟩
  | .number s v, t, u, is, hType, hLower => by
      cases hType with
      | number hLit =>
          simp only [Expr.lower, Except.ok.injEq, Prod.mk.injEq] at hLower
          obtain ⟨rfl, rfl⟩ := hLower
          refine ⟨?_, .number hLit⟩
          cases hLit <;> rfl
  | .bool s b, t, u, is, hType, hLower => by
      cases hType with
      | bool =>
          simp only [Expr.lower, Except.ok.injEq, Prod.mk.injEq] at hLower
          obtain ⟨rfl, rfl⟩ := hLower
          exact ⟨rfl, .bool⟩
  | .str s text, t, u, is, hType, _ => nomatch hType
  | .assign s x e, t, u, is, hType, hLower => by
      cases hType with
      | assign hVar hValue =>
          simp only [Expr.lower, bind_eq_ok, pure_eq_ok, Prod.exists, Prod.mk.injEq] at hLower
          obtain ⟨js, v, hValueLower, slot, found, hSlot, rfl, rfl⟩ := hLower
          have hAt := Scope.slot_eq_ok.1 hSlot
          have hSame := Env.type_unique scope.locals.distinct_env (List.mem_of_getElem? hAt) hVar
          subst hSame
          exact ⟨rfl, .assign hAt (Expr.emits_of_lower hValue hValueLower).2⟩
  | .binary s op a b, t, u, is, hType, hLower => by
      cases hType with
      | binary hLeft hRight hOp =>
          simp only [Expr.lower, bind_eq_ok, pure_eq_ok, Prod.exists, Prod.mk.injEq] at hLower
          obtain ⟨js, v, hA, ks, w, hB, code, result, hCode, rfl, rfl⟩ := hLower
          obtain ⟨rfl, hEmitsA⟩ := Expr.emits_of_lower hLeft hA
          obtain ⟨rfl, hEmitsB⟩ := Expr.emits_of_lower hRight hB
          obtain ⟨opcode, hOpcode, rfl, rfl⟩ := BinaryOp.lower_eq_ok hCode
          rw [List.append_assoc]
          exact ⟨(BinaryOp.result_of_hasType hOp).symm, .binary hEmitsA hEmitsB hOp hOpcode⟩
  | .unary s op e, t, u, is, hType, hLower => by
      cases hType with
      | unary hOperand hOp =>
          simp only [Expr.lower, bind_eq_ok, pure_eq_ok, Prod.exists, Prod.mk.injEq] at hLower
          obtain ⟨js, v, hE, code, hCode, rfl, rfl⟩ := hLower
          obtain ⟨rfl, hEmits⟩ := Expr.emits_of_lower hOperand hE
          exact ⟨rfl, Expr.emits_unary hEmits hOp hCode⟩
  | .cast s name e, t, u, is, hType, hLower => by
      simp only [Expr.lower, bind_eq_ok, pure_eq_ok, Prod.exists, Prod.mk.injEq] at hLower
      obtain ⟨js, v, hE, code, result, hCode, rfl, rfl⟩ := hLower
      cases hType with
      | cast hOperand =>
          obtain ⟨rfl, hEmits⟩ := Expr.emits_of_lower hOperand hE
          obtain ⟨source, stored, hSource, hStored, rfl, rfl⟩ := Ty.lowerCast_eq_ok hCode
          exact ⟨rfl, .cast hEmits hOperand hSource hStored⟩
      | castStr => simp [Expr.lower, EmitError.throw] at hE
  | .call s callee args, t, u, is, hType, hLower => by
      cases hType with
      | call hCallee hArgs =>
          simp only [Expr.lower, bind_eq_ok] at hLower
          obtain ⟨js, hArgsLower, hRest⟩ := hLower
          have hEmits := Expr.allEmit_of_lowerArgs hArgs hArgsLower
          obtain ⟨index, signature, hIndex, hGet, rfl, hAt⟩ := Scope.exists_callee hCallee
          simp only [hIndex, hGet, pure_eq_ok, Prod.mk.injEq] at hRest
          obtain ⟨rfl, rfl⟩ := hRest
          exact ⟨rfl, .call hAt hEmits⟩

/-- The code of arguments that have types is code of the arguments in turn. -/
theorem Expr.allEmit_of_lowerArgs :
    ∀ {es : List Expr} {ts : List Ty} {is : List Instr},
    Expr.HaveTypes scope.callables scope.locals.env es ts → Expr.lowerArgs scope es = .ok is →
      Expr.AllEmit scope.callables scope.locals.env es ts is
  | [], ts, is, hTypes, hLower => by
      cases hTypes
      simp only [Expr.lowerArgs, Except.ok.injEq] at hLower
      subst hLower
      exact .nil
  | e :: es, ts, is, hTypes, hLower => by
      cases hTypes with
      | cons hHead hTail =>
          simp only [Expr.lowerArgs, bind_eq_ok, pure_eq_ok, Prod.exists] at hLower
          obtain ⟨js, v, hE, ks, hEs, rfl⟩ := hLower
          exact .cons (Expr.emits_of_lower hHead hE).2
            (Expr.allEmit_of_lowerArgs hTail hEs)

end

/-- What joins a chain to the code before it stands at its start. -/
theorem Stmt.lowerChain_link {link : List Instr} {cond : Expr} {conds : List Expr}
    {block : List Stmt} {blocks : List (List Stmt)} {code : Code}
    (h : lowerChain scope link (cond :: conds) (block :: blocks) = .ok code) :
    ∃ rest, lowerChain scope [] (cond :: conds) (block :: blocks) = .ok rest ∧
      code = Code.ofInstrs link ++ rest := by
  simp only [lowerChain, bind_eq_ok, pure_eq_ok, Prod.exists] at h ⊢
  obtain ⟨test, t, hTest, first, hFirst, others, hOthers, rfl⟩ := h
  refine ⟨_, ⟨test, t, hTest, first, hFirst, others, hOthers, rfl⟩, ?_⟩
  simp [Code.ofInstrs]

mutual

/-- The code of a well-typed statement is the code that the rules give. -/
theorem Stmt.emits_of_lower {fs : List Callable} {r : Ty}
    (hFuns : fs ⊆ scope.callables) : ∀ {s : Stmt} {Γ Δ : Env} {code : Code},
    s.WellTyped fs r Γ Δ → Δ ⊆ scope.locals.env → s.isRawFree = true → s.isShaped = true →
      s.lower scope = .ok code →
      ∃ is, code = Code.ofInstrs is ∧ s.Emits scope.callables scope.locals.env r is
  | .function s type name params body, Γ, Δ, code, hTyped, hEnv, hRaw, hShape, hLower =>
      nomatch hTyped
  | .var decl, Γ, Δ, code, hTyped, hEnv, hRaw, hShape, hLower => by
      cases hTyped with
      | var hFresh hVoid =>
          simp only [Stmt.lower, Except.ok.injEq] at hLower
          exact ⟨[], hLower.symm, .var⟩
      | varInit hFresh hVoid hInit =>
          simp only [Stmt.lower, bind_eq_ok, pure_eq_ok, Prod.exists] at hLower
          obtain ⟨is, u, hValue, slot, found, hSlot, rfl⟩ := hLower
          have hWide := hInit.mono hFuns (List.Subset.trans (List.subset_append_left _ _) hEnv)
          obtain ⟨rfl, hEmits⟩ := Expr.emits_of_lower hWide hValue
          have hAt := Scope.slot_eq_ok.1 hSlot
          have hSame := Env.type_unique scope.locals.distinct_env (List.mem_of_getElem? hAt)
            (hEnv (List.mem_append_right _ List.mem_cons_self))
          subst hSame
          exact ⟨_, rfl, .varInit hAt hEmits⟩
  | .branch s conds blocks, Γ, Δ, code, hTyped, hEnv, hRaw, hShape, hLower => by
      cases hTyped with
      | branch hConds hBlocks =>
          simp only [Stmt.lower, bind_eq_ok, pure_eq_ok] at hLower
          obtain ⟨chain, hChain, rfl⟩ := hLower
          simp only [Stmt.isShaped, Bool.and_eq_true, Bool.not_eq_true', List.isEmpty_eq_false_iff,
            Bool.or_eq_true, beq_iff_eq] at hShape
          have hWide : ∀ c ∈ conds, c.HasType scope.callables scope.locals.env .bool :=
            fun c hC => (hConds c hC).mono hFuns (List.Subset.trans hBlocks.subset hEnv)
          obtain ⟨is, hCode, hEmits⟩ := Stmt.chainEmits_of_lowerChain hFuns hShape.1.1
            hShape.1.2 hWide hBlocks hEnv hRaw hShape.2 hChain
          exact ⟨is, hCode, .branch hEmits⟩
  | .loop s cond body, Γ, Δ, code, hTyped, hEnv, hRaw, hShape, hLower => by
      cases hTyped with
      | loop hCond hBody =>
          simp only [Stmt.lower, bind_eq_ok, pure_eq_ok, Prod.exists] at hLower
          obtain ⟨test, u, hTest, inner, hInner, rfl⟩ := hLower
          have hWide := hCond.mono hFuns (List.Subset.trans hBody.subset hEnv)
          have hEmitsCond := (Expr.emits_of_lower hWide hTest).2
          obtain ⟨js, rfl, hEmitsBody⟩ :=
            Stmt.allEmit_of_lowerAll hFuns hBody hEnv hRaw hShape hInner
          refine ⟨_, ?_, .loop hEmitsCond hEmitsBody⟩
          simp [Code.ofInstrs]
  | .ret s e, Γ, Δ, code, hTyped, hEnv, hRaw, hShape, hLower => by
      cases hTyped with
      | ret hValue =>
          simp only [Stmt.lower, bind_eq_ok, pure_eq_ok, Prod.exists] at hLower
          obtain ⟨is, u, hE, rfl⟩ := hLower
          exact ⟨_, rfl, .ret (Expr.emits_of_lower (hValue.mono hFuns hEnv) hE).2⟩
  | .raw s text, Γ, Δ, code, hTyped, hEnv, hRaw, hShape, hLower => nomatch hRaw
  | .eval s e, Γ, Δ, code, hTyped, hEnv, hRaw, hShape, hLower => by
      cases hTyped with
      | eval hExpr =>
          simp only [Stmt.lower, bind_eq_ok, pure_eq_ok, Prod.exists] at hLower
          obtain ⟨is, u, hE, rfl⟩ := hLower
          obtain ⟨rfl, hEmits⟩ := Expr.emits_of_lower (hExpr.mono hFuns hEnv) hE
          cases hStored : u.storage? with
          | some stored => exact ⟨_, rfl, .eval hEmits hStored⟩
          | none =>
              obtain rfl := Ty.eq_void_of_storage? hStored
              exact ⟨is, by simp, .evalVoid hEmits⟩

/-- The code of statements that are well-typed is code of the statements in turn. -/
theorem Stmt.allEmit_of_lowerAll {fs : List Callable} {r : Ty}
    (hFuns : fs ⊆ scope.callables) : ∀ {ss : List Stmt} {Γ Δ : Env} {code : Code},
    AllWellTyped fs r Γ ss Δ → Δ ⊆ scope.locals.env → isRawFreeAll ss = true →
      isShapedAll ss = true → lowerAll scope ss = .ok code →
      ∃ is, code = Code.ofInstrs is ∧ AllEmit scope.callables scope.locals.env r ss is
  | [], Γ, Δ, code, hTyped, hEnv, hRaw, hShape, hLower => by
      simp only [lowerAll, Except.ok.injEq] at hLower
      exact ⟨[], hLower.symm, .nil⟩
  | s :: ss, Γ, Δ, code, hTyped, hEnv, hRaw, hShape, hLower => by
      cases hTyped with
      | cons hHead hTail =>
          simp only [lowerAll, bind_eq_ok, pure_eq_ok] at hLower
          obtain ⟨first, hFirst, others, hOthers, rfl⟩ := hLower
          simp only [isRawFreeAll, isShapedAll, Bool.and_eq_true] at hRaw hShape
          obtain ⟨is, rfl, hEmitsHead⟩ := Stmt.emits_of_lower hFuns hHead
            (List.Subset.trans hTail.subset hEnv) hRaw.1 hShape.1 hFirst
          obtain ⟨js, rfl, hEmitsTail⟩ :=
            Stmt.allEmit_of_lowerAll hFuns hTail hEnv hRaw.2 hShape.2 hOthers
          exact ⟨is ++ js, by simp [Code.ofInstrs], .cons hEmitsHead hEmitsTail⟩

/-- A chain and the ends that close it, which all stand after its last block. -/
theorem Stmt.chainEmits_of_lowerChain {fs : List Callable} {r : Ty}
    (hFuns : fs ⊆ scope.callables) : ∀ {blocks : List (List Stmt)} {conds : List Expr}
    {Γ Δ : Env} {code : Code}, conds ≠ [] →
      (blocks.length = conds.length ∨ blocks.length = conds.length + 1) →
      (∀ c ∈ conds, c.HasType scope.callables scope.locals.env .bool) →
      BlocksWellTyped fs r Γ blocks Δ → Δ ⊆ scope.locals.env → isRawFreeBlocks blocks = true →
      isShapedBlocks blocks = true → lowerChain scope [] conds blocks = .ok code →
      ∃ is, code ++ Code.ofInstrs (List.replicate conds.length (.plain .endOp)) =
          Code.ofInstrs is ∧ ChainEmits scope.callables scope.locals.env r conds blocks is
  | [], conds, Γ, Δ, code, hSome, hLength, hConds, hTyped, hEnv, hRaw, hShape, hLower => by
      have hPos := List.length_pos_iff.2 hSome
      rw [List.length_nil] at hLength
      omega
  | block :: blocks, [], Γ, Δ, code, hSome, hLength, hConds, hTyped, hEnv, hRaw, hShape,
    hLower => absurd rfl hSome
  | block :: blocks, cond :: conds, Γ, Δ, code, hSome, hLength, hConds, hTyped, hEnv, hRaw,
    hShape, hLower => by
      cases hTyped with
      | cons hHead hTail =>
          simp only [lowerChain, bind_eq_ok, pure_eq_ok, Prod.exists] at hLower
          obtain ⟨test, u, hTest, first, hFirst, others, hOthers, rfl⟩ := hLower
          simp only [isRawFreeBlocks, isShapedBlocks, Bool.and_eq_true] at hRaw hShape
          have hCond := (Expr.emits_of_lower (hConds cond List.mem_cons_self) hTest).2
          obtain ⟨js, rfl, hBlock⟩ := Stmt.allEmit_of_lowerAll hFuns hHead
            (List.Subset.trans hTail.subset hEnv) hRaw.1 hShape.1 hFirst
          cases conds with
          | nil =>
              cases blocks with
              | nil =>
                  simp only [lowerChain, Except.ok.injEq] at hOthers
                  subst hOthers
                  exact ⟨_, by simp [Code.ofInstrs], .last hCond hBlock⟩
              | cons other more =>
                  have hMore : more = [] := by
                    simpa using hLength
                  subst hMore
                  cases hTail with
                  | cons hOther hNil =>
                      simp only [lowerChain, bind_eq_ok, pure_eq_ok] at hOthers
                      obtain ⟨last, hLast, rfl⟩ := hOthers
                      simp only [isRawFreeBlocks, isShapedBlocks, Bool.and_eq_true] at hRaw hShape
                      obtain ⟨ks, rfl, hEmitsOther⟩ := Stmt.allEmit_of_lowerAll hFuns
                        hOther (List.Subset.trans hNil.subset hEnv) hRaw.2.1 hShape.2.1 hLast
                      exact ⟨_, by simp [Code.ofInstrs], .orElse hCond hBlock hEmitsOther⟩
          | cons next conds =>
              cases blocks with
              | nil => simp at hLength
              | cons other more =>
                  obtain ⟨rest, hRest, rfl⟩ := Stmt.lowerChain_link hOthers
                  have hLess : (other :: more).length = (next :: conds).length ∨
                      (other :: more).length = (next :: conds).length + 1 := by
                    simpa using hLength
                  obtain ⟨ks, hCode, hMore⟩ := Stmt.chainEmits_of_lowerChain hFuns
                    (List.cons_ne_nil next conds) hLess
                    (fun c hC => hConds c (List.mem_cons_of_mem cond hC)) hTail hEnv hRaw.2
                    hShape.2 hRest
                  refine ⟨_, ?_, .more hCond hBlock hMore⟩
                  -- The end of this block is the last of the ends.
                  rw [List.length_cons, List.replicate_succ', Code.ofInstrs, List.map_append]
                  have hInner := congrArg (· ++ [Item.instr (.plain .endOp)]) hCode
                  simp only [Code.ofInstrs] at hInner ⊢
                  simpa using hInner

end

end Lowering

end WasmCompiler
