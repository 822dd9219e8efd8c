import WasmCompiler.Proofs.Basic
import WasmCompiler.Proofs.TypingRules
import WasmCompiler.Typing.Checker

/-! Checking agrees with the typing rules: a program passes exactly if it keeps them. -/

namespace WasmCompiler

/-- A type is found by its name and by no other. -/
theorem Ty.ofName?_eq_some {text : String} {t : Ty} : ofName? text = some t ↔ t.name = text := by
  constructor
  · intro h
    simpa using List.find?_some h
  · rintro rfl
    cases t <;> rfl

theorem Ty.name_injective {t u : Ty} (h : t.name = u.name) : t = u :=
  Option.some.inj ((ofName?_eq_some.2 rfl).symm.trans (ofName?_eq_some.2 h.symm))

theorem Ty.resolve_eq_ok {text : String} {s : Span} {t : Ty} :
    resolve text s = .ok t ↔ t.name = text := by
  rw [← Ty.ofName?_eq_some, resolve]
  cases h : ofName? text with
  | none => simp [TypeError.throw]
  | some u => simp

theorem Ty.isNumeric_iff {t : Ty} : t.isNumeric = true ↔ t ∈ [.i32, .i64, .f32, .f64] := by
  cases t <;> decide

/-- All types but two are types of numbers. -/
theorem Ty.mem_numbers_iff {t : Ty} : t ∈ [i32, i64, f32, f64] ↔ t ≠ .void ∧ t ≠ .bool := by
  cases t <;> decide

theorem BinaryOp.isLogical_iff {op : BinaryOp} : op.isLogical = true ↔ op ∈ [and, or] := by
  cases op <;> decide

theorem BinaryOp.isEquality_iff {op : BinaryOp} : op.isEquality = true ↔ op ∈ [eq, ne] := by
  cases op <;> decide

theorem BinaryOp.isRelational_iff {op : BinaryOp} :
    op.isRelational = true ↔ op ∈ [lt, le, gt, ge] := by
  cases op <;> decide

/-- The operators that do not give a truth value are those of arithmetic and on bits. -/
theorem BinaryOp.isPredicate_eq_false_iff {op : BinaryOp} :
    op.isPredicate = false ↔ op ∈ [add, sub, mul, div, bitAnd, bitOr] := by
  cases op <;> decide

/-- The checker's sequence of tests on an operator finds the one rule that applies. -/
theorem BinaryOp.check_eq_ok {op : BinaryOp} {l r t : Ty} {s : Span} :
    op.check l r s = .ok t ↔ l = r ∧ op.HasType l t := by
  constructor
  · intro h
    unfold BinaryOp.check at h
    by_cases hSame : l = r
    case neg => simp [hSame, TypeError.throw] at h
    rw [if_neg (not_not.2 hSame)] at h
    refine ⟨hSame, ?_⟩
    by_cases hVoid : l = .void
    case pos => simp [hVoid, TypeError.throw] at h
    rw [if_neg hVoid] at h
    by_cases hLogical : op.isLogical = true
    · rw [if_pos hLogical] at h
      by_cases hBool : l = .bool
      · rw [if_neg (not_not.2 hBool), Except.ok.injEq] at h
        subst hBool h
        exact .logical (isLogical_iff.1 hLogical)
      · simp [hBool, TypeError.throw] at h
    rw [if_neg hLogical] at h
    by_cases hEquality : op.isEquality = true
    · rw [if_pos hEquality, Except.ok.injEq] at h
      subst h
      exact .equality (isEquality_iff.1 hEquality) hVoid
    rw [if_neg hEquality] at h
    by_cases hBool : l = .bool
    case pos => simp [hBool, TypeError.throw] at h
    rw [if_neg hBool] at h
    have hNum := Ty.mem_numbers_iff.2 ⟨hVoid, hBool⟩
    by_cases hRelational : op.isRelational = true
    · rw [if_pos hRelational, Except.ok.injEq] at h
      subst h
      exact .relational (isRelational_iff.1 hRelational) hNum
    · rw [if_neg hRelational, Except.ok.injEq] at h
      subst h
      refine .arithmetic (isPredicate_eq_false_iff.1 ?_) hNum
      simp [isPredicate, hRelational, hEquality, hLogical]
  · rintro ⟨rfl, h⟩
    cases h with
    | logical hOp =>
        have hLogical := isLogical_iff.2 hOp
        simp [BinaryOp.check, hLogical]
    | equality hOp hVoid =>
        have hEquality := isEquality_iff.2 hOp
        have hLogical : op.isLogical = false := by
          simp only [List.mem_cons, List.not_mem_nil, or_false] at hOp
          rcases hOp with rfl | rfl <;> rfl
        simp [BinaryOp.check, hLogical, hEquality, hVoid]
    | relational hOp hNum =>
        have hRelational := isRelational_iff.2 hOp
        have hOther : op.isLogical = false ∧ op.isEquality = false := by
          simp only [List.mem_cons, List.not_mem_nil, or_false] at hOp
          rcases hOp with rfl | rfl | rfl | rfl <;> exact ⟨rfl, rfl⟩
        simp [BinaryOp.check, hOther, hRelational, Ty.mem_numbers_iff.1 hNum]
    | arithmetic hOp hNum =>
        have hOther : op.isLogical = false ∧ op.isEquality = false ∧ op.isRelational = false := by
          rw [← isPredicate_eq_false_iff] at hOp
          simp only [isPredicate, Bool.or_eq_false_iff] at hOp
          exact ⟨hOp.2, hOp.1.2, hOp.1.1⟩
        simp [BinaryOp.check, hOther, Ty.mem_numbers_iff.1 hNum]

/-- A unary operation passes its check exactly if the rules type it. -/
theorem UnaryOp.check_eq_ok {op : UnaryOp} {t u : Ty} {s : Span} :
    op.check t s = .ok u ↔ t = u ∧ op.HasType t := by
  cases op with
  | not =>
      simp only [UnaryOp.check]
      constructor
      · intro h
        by_cases hBool : t = .bool
        · rw [if_neg (not_not.2 hBool), Except.ok.injEq] at h
          subst hBool h
          exact ⟨rfl, .not⟩
        · simp [hBool, TypeError.throw] at h
      · rintro ⟨rfl, h⟩
        cases h with
        | not => simp
        | sign hOp _ => simp at hOp
  | plus | neg =>
      simp only [UnaryOp.check]
      constructor
      · intro h
        by_cases hNum : t.isNumeric = true
        · rw [if_pos hNum, Except.ok.injEq] at h
          exact ⟨h, .sign (by decide) (Ty.isNumeric_iff.1 hNum)⟩
        · simp [hNum, TypeError.throw] at h
      · rintro ⟨rfl, h⟩
        cases h with
        | sign _ hNum => simp [Ty.isNumeric_iff.2 hNum]

/-- A number passes its check exactly if the rules type it. -/
theorem Literal.check_eq_ok {v : Literal} {s : Span} {t : Ty} :
    v.check s = .ok t ↔ v.HasType t := by
  cases v with
  | int value =>
      simp only [Literal.check]
      constructor
      · intro h
        by_cases hRange : value.toInt < -0x80000000 ∨ 0x100000000 ≤ value.toInt
        · simp [hRange, TypeError.throw] at h
        · rw [if_neg hRange, Except.ok.injEq] at h
          subst h
          exact .int (by omega) (by omega)
      · rintro (⟨hLow, hHigh⟩ | _)
        rw [if_neg (by omega)]
  | float value =>
      simp only [Literal.check, Except.ok.injEq]
      constructor
      · rintro rfl
        exact .float
      · rintro (_ | _)
        rfl

/-- The names and types of a table of variables. -/
def Locals.env (l : Locals) : Env := l.entries.map fun v => (v.name, v.type)

theorem Locals.names_env (l : Locals) : l.env.map Prod.fst = l.entries.map Variable.name := by
  simp [env]

theorem Locals.distinct_env (l : Locals) : (l.env.map Prod.fst).Nodup :=
  l.names_env ▸ l.distinct

/-- A variable that is declared is added to the environment. -/
theorem Locals.env_of_entries {l l' : Locals} {v : Variable} (h : l'.entries = l.entries ++ [v]) :
    l'.env = l.env ++ [(v.name, v.type)] := by
  simp [env, h]

/-- What the callers of a function see of its signature. -/
def Signature.callable (s : Signature) : Callable := ⟨s.name, s.params, s.ret⟩

/-- What callers see of a table of functions. -/
def Signatures.callables (t : Signatures) : List Callable := t.entries.map Signature.callable

theorem Signatures.names_callables (t : Signatures) :
    t.callables.map Callable.name = t.entries.map Signature.name := by
  simp [callables, Signature.callable]

/-- A variable has the type that the table gives to its name. -/
theorem Locals.typeOf_eq_ok {l : Locals} {x : String} {s : Span} {t : Ty} :
    l.typeOf x s = .ok t ↔ (x, t) ∈ l.env := by
  rw [typeOf]
  constructor
  · intro h
    cases hGet : l.get? x with
    | none => simp [hGet, TypeError.throw] at h
    | some v =>
        obtain ⟨hMem, rfl⟩ := Table.get?_eq_some_iff.1 hGet
        rw [hGet, Except.ok.injEq] at h
        subst h
        exact List.mem_map_of_mem (f := fun v => (v.name, v.type)) hMem
  · intro h
    obtain ⟨v, hMem, hEq⟩ := List.mem_map.1 h
    obtain ⟨rfl, rfl⟩ := Prod.mk.inj hEq
    rw [Table.get?_eq_some_iff.2 ⟨hMem, rfl⟩]

namespace Expr

variable {signatures : Signatures} {locals : Locals}

/-- The string under a cast has no type of its own, and any other operand needs one. -/
theorem hasType_cast_iff {fs : List Callable} {Γ : Env} {s : Span} {name : String} {e : Expr}
    {t : Ty} :
    HasType fs Γ (.cast s name e) t ↔
      t.name = name ∧ (e.isStr = false → ∃ u, HasType fs Γ e u) := by
  constructor
  · intro h
    cases h with
    | cast hOperand => exact ⟨rfl, fun _ => ⟨_, hOperand⟩⟩
    | castStr => exact ⟨rfl, fun hStr => by simp [isStr] at hStr⟩
  · rintro ⟨rfl, hOperand⟩
    cases hStr : e.isStr with
    | false =>
        obtain ⟨u, hType⟩ := hOperand hStr
        exact .cast hType
    | true =>
        cases e <;> simp [isStr] at hStr
        exact .castStr

/-- There are as many types as expressions. -/
theorem HaveTypes.length_eq {fs : List Callable} {Γ : Env} : ∀ {es : List Expr} {ts : List Ty},
    HaveTypes fs Γ es ts → es.length = ts.length
  | _, _, .nil => rfl
  | _, _, .cons _ hTail => congrArg (· + 1) hTail.length_eq

mutual

/-- The checker finds a type exactly if the rules give it. -/
theorem check_eq_ok : ∀ (e : Expr) {t : Ty},
    e.check signatures locals = .ok t ↔ e.HasType signatures.callables locals.env t
  | .ident s x, t => by
      rw [check, Locals.typeOf_eq_ok]
      exact ⟨.ident, fun | .ident hVar => hVar⟩
  | .number s v, t => by
      rw [check, Literal.check_eq_ok]
      exact ⟨.number, fun | .number hLit => hLit⟩
  | .bool s b, t => by
      rw [check, Except.ok.injEq]
      exact ⟨fun h => h ▸ .bool, fun | .bool => rfl⟩
  | .str s text, t => by
      simp only [check, TypeError.throw, reduceCtorEq, false_iff]
      intro h
      cases h
  | .assign s x e, t => by
      simp only [check, bind_eq_ok, Locals.typeOf_eq_ok,
        check_eq_ok e]
      constructor
      · rintro ⟨u, hVar, v, hValue, h⟩
        by_cases hSame : v = u
        · rw [if_neg (not_not.2 hSame), pure_eq_ok] at h
          subst hSame h
          exact .assign hVar hValue
        · simp [hSame, TypeError.throw] at h
      · intro h
        cases h with
        | assign hVar hValue => exact ⟨_, hVar, _, hValue, by simp [pure_eq_ok]⟩
  | .binary s op a b, t => by
      simp only [check, bind_eq_ok, check_eq_ok a, check_eq_ok b,
        BinaryOp.check_eq_ok]
      constructor
      · rintro ⟨l, hLeft, r, hRight, rfl, hOp⟩
        exact .binary hLeft hRight hOp
      · intro h
        cases h with
        | binary hLeft hRight hOp => exact ⟨_, hLeft, _, hRight, rfl, hOp⟩
  | .unary s op e, t => by
      simp only [check, bind_eq_ok, check_eq_ok e, UnaryOp.check_eq_ok]
      constructor
      · rintro ⟨u, hOperand, rfl, hOp⟩
        exact .unary hOperand hOp
      · intro h
        cases h with
        | unary hOperand hOp => exact ⟨t, hOperand, rfl, hOp⟩
  | .cast s name e, t => by
      rw [hasType_cast_iff]
      cases hStr : e.isStr with
      | true => simp [check, hStr, Ty.resolve_eq_ok]
      | false =>
          simp [check, hStr, bind_eq_ok, Ty.resolve_eq_ok, check_eq_ok e, and_comm]
  | .call s f args, t => by
      rw [check]
      constructor
      · intro h
        cases hGet : signatures.get? f with
        | none => simp [hGet, TypeError.throw] at h
        | some g =>
            obtain ⟨hMem, rfl⟩ := Table.get?_eq_some_iff.1 hGet
            simp only [hGet] at h
            by_cases hCount : g.params.length = args.length
            case neg => simp [hCount, TypeError.throw] at h
            rw [if_neg (not_not.2 hCount)] at h
            obtain ⟨⟨⟩, hArgs, hRet⟩ := bind_eq_ok.1 h
            rw [pure_eq_ok] at hRet
            subst hRet
            rw [checkArgs_eq_ok args _ hCount.symm] at hArgs
            exact .call (f := g.callable) (List.mem_map_of_mem hMem) hArgs
      · intro h
        cases h with
        | @call _ f _ hCallee hArgs =>
            obtain ⟨g, hMem, rfl⟩ := List.mem_map.1 hCallee
            have hGet : signatures.get? g.callable.name = some g :=
              Table.get?_eq_some_iff.2 ⟨hMem, rfl⟩
            have hCount : args.length = g.params.length := hArgs.length_eq
            simp only [hGet, hCount, ne_eq, not_true_eq_false, if_false, bind_eq_ok, pure_eq_ok]
            exact ⟨(), (checkArgs_eq_ok args _ hCount).2 hArgs, rfl⟩

/-- Arguments pass their check exactly if they have the types that are wanted. -/
theorem checkArgs_eq_ok : ∀ (es : List Expr) (ts : List Ty)
    (_ : es.length = ts.length) {callee : String} {index : Nat},
    checkArgs signatures locals callee index es ts = .ok () ↔
      HaveTypes signatures.callables locals.env es ts
  | [], [], _, callee, index => by
      simp only [checkArgs, true_iff]
      exact .nil
  | e :: es, t :: ts, hCount, callee, index => by
      simp only [checkArgs, bind_eq_ok, check_eq_ok e]
      constructor
      · rintro ⟨u, hHead, h⟩
        by_cases hSame : u = t
        · rw [if_neg (not_not.2 hSame)] at h
          subst hSame
          exact .cons hHead ((checkArgs_eq_ok es ts (by simpa using hCount)).1 h)
        · simp [hSame, TypeError.throw] at h
      · rintro (_ | ⟨hHead, hTail⟩)
        refine ⟨t, hHead, ?_⟩
        rw [if_neg (by simp)]
        exact (checkArgs_eq_ok es ts (by simpa using hCount)).2 hTail

end

end Expr

/-- A condition passes if it has the type of truth values. -/
theorem Expr.checkCondition_eq_ok {signatures : Signatures} {locals : Locals} {cond : Expr}
    {u : Unit} : cond.checkCondition signatures locals = .ok u ↔
      cond.HasType signatures.callables locals.env .bool := by
  simp only [checkCondition, bind_eq_ok, check_eq_ok]
  constructor
  · rintro ⟨t, hType, h⟩
    by_cases hBool : t = .bool
    · rwa [hBool] at hType
    · simp [hBool, TypeError.throw] at h
  · intro h
    exact ⟨.bool, h, by simp [pure_eq_ok]⟩

/-- Conditions pass their check exactly if each of them is a truth value. -/
theorem Expr.checkConditions_eq_ok {signatures : Signatures} {locals : Locals} {conds : List Expr}
    {u : Unit} : checkConditions signatures locals conds = .ok u ↔
      ∀ c ∈ conds, c.HasType signatures.callables locals.env .bool := by
  induction conds with
  | nil => simp [checkConditions]
  | cons c cs ih =>
      simp only [checkConditions, bind_eq_ok, checkCondition_eq_ok, ih, exists_const,
        List.forall_mem_cons]

/-- A declaration of a variable, and what it declares. -/
def Declaration.Declares (d : Declaration) (v : String × Ty) : Prop :=
  d.name = v.1 ∧ d.type = v.2.name ∧ v.2 ≠ .void

/-- What checking a declaration comes down to, and the entry that it adds. -/
theorem Declaration.check_eq_ok {ctx : Context} {l l' : Locals} {d : Declaration} :
    d.check ctx l = .ok l' ↔
      ∃ t : Ty, d.Declares (d.name, t) ∧ d.name ∉ l.entries.map Variable.name ∧
        (∀ e, d.init = some e → e.check ctx.signatures l = .ok t) ∧
        l'.entries = l.entries ++ [⟨d.name, t, false⟩] := by
  unfold Declaration.check
  constructor
  · intro h
    by_cases hSome : (l.get? d.name).isSome = true
    case pos => simp [hSome, TypeError.throw] at h
    rw [if_neg hSome] at h
    have hNew : d.name ∉ l.entries.map Variable.name :=
      Table.isSome_get?_eq_false_iff.1 (by simpa using hSome)
    obtain ⟨t, hType, hRest⟩ := bind_eq_ok.1 h
    by_cases hVoid : t = .void
    case pos => simp [hVoid, TypeError.throw] at hRest
    rw [if_neg hVoid] at hRest
    refine ⟨t, ⟨rfl, (Ty.resolve_eq_ok.1 hType).symm, hVoid⟩, hNew, ?_⟩
    cases hInit : d.init with
    | none =>
        simp only [hInit, pure_eq_ok] at hRest
        exact ⟨nofun, hRest ▸ Table.entries_declared hNew⟩
    | some e =>
        simp only [hInit, bind_eq_ok] at hRest
        obtain ⟨found, hFound, hDone⟩ := hRest
        by_cases hSame : found = t
        case neg => simp [hSame, TypeError.throw] at hDone
        rw [if_neg (not_not.2 hSame), pure_eq_ok] at hDone
        refine ⟨fun _ hE => ?_, hDone ▸ Table.entries_declared hNew⟩
        cases hE
        exact hSame ▸ hFound
  · rintro ⟨t, ⟨-, hType, hVoid⟩, hNew, hInit, hEntries⟩
    have hTable : l.declared ⟨d.name, t, false⟩ = l' :=
      Table.eq_of_entries ((Table.entries_declared hNew).trans hEntries.symm)
    simp only [Table.isSome_get?_eq_false_iff.2 hNew, Bool.false_eq_true, if_false, bind_eq_ok]
    refine ⟨t, Ty.resolve_eq_ok.2 hType.symm, ?_⟩
    cases hSome : d.init with
    | none => simp [hVoid, hTable, pure_eq_ok]
    | some e =>
        simp only [hVoid, if_false, bind_eq_ok]
        exact ⟨t, hInit e hSome, by simp [hTable, pure_eq_ok]⟩

namespace Stmt

section Checking

variable {ctx : Context}

/-- A variable passes if its name is new and its initial value, if any, has its type. -/
theorem check_var_iff {locals : Locals} {d : Declaration} {Γ : Env} :
    (∃ l, d.check ctx locals = .ok l ∧ l.env = Γ) ↔
      WellTyped ctx.signatures.callables ctx.ret locals.env (.var d) Γ := by
  constructor
  · rintro ⟨l, h, rfl⟩
    obtain ⟨t, ⟨-, hType, hVoid⟩, hNew, hInit, hEntries⟩ := Declaration.check_eq_ok.1 h
    rw [← Locals.names_env] at hNew
    rw [Locals.env_of_entries hEntries]
    obtain ⟨s, type, x, init⟩ := d
    obtain rfl : type = t.name := hType
    cases init with
    | none => exact .var hNew hVoid
    | some e => exact .varInit hNew hVoid ((Expr.check_eq_ok e).1 (hInit e rfl))
  · intro h
    cases h with
    | @var _ s x t hNew hVoid =>
        have hEntries := Table.entries_declared (t := locals) (a := ⟨x, t, false⟩)
          (locals.names_env ▸ hNew)
        exact ⟨_, Declaration.check_eq_ok.2 ⟨t, ⟨rfl, rfl, hVoid⟩, locals.names_env ▸ hNew, nofun,
          hEntries⟩, Locals.env_of_entries hEntries⟩
    | @varInit _ s x t e hNew hVoid hInit =>
        have hEntries := Table.entries_declared (t := locals) (a := ⟨x, t, false⟩)
          (locals.names_env ▸ hNew)
        refine ⟨_, Declaration.check_eq_ok.2 ⟨t, ⟨rfl, rfl, hVoid⟩, locals.names_env ▸ hNew, ?_,
          hEntries⟩, Locals.env_of_entries hEntries⟩
        rintro _ ⟨rfl⟩
        exact (Expr.check_eq_ok e).2 hInit

mutual

/-- Checking a statement declares exactly the variables that the rules let it declare. -/
theorem check_iff:
    ∀ (s : Stmt) {locals : Locals} {Γ : Env},
    (∃ l, s.check ctx locals = .ok l ∧ l.env = Γ) ↔
      WellTyped ctx.signatures.callables ctx.ret locals.env s Γ
  | .function s r f ps body, locals, Γ => by
      simp only [check, TypeError.throw, reduceCtorEq, false_and, exists_false, false_iff]
      intro h
      cases h
  | .var d, locals, Γ => by
      simp only [check]
      exact check_var_iff
  | .branch s conds blocks, locals, Γ => by
      simp only [check, bind_eq_ok, Expr.checkConditions_eq_ok]
      constructor
      · rintro ⟨l, ⟨_, hConds, hCheck⟩, hEnv⟩
        exact .branch hConds ((checkBlocks_iff blocks).1 ⟨l, hCheck, hEnv⟩)
      · intro h
        cases h with
        | branch hConds hBlocks =>
            obtain ⟨l, hCheck, hEnv⟩ := (checkBlocks_iff blocks).2 hBlocks
            exact ⟨l, ⟨(), hConds, hCheck⟩, hEnv⟩
  | .loop s cond body, locals, Γ => by
      simp only [check, bind_eq_ok, Expr.checkCondition_eq_ok]
      constructor
      · rintro ⟨l, ⟨_, hCond, hCheck⟩, hEnv⟩
        exact .loop hCond ((checkAll_iff body).1 ⟨l, hCheck, hEnv⟩)
      · intro h
        cases h with
        | loop hCond hBody =>
            obtain ⟨l, hCheck, hEnv⟩ := (checkAll_iff body).2 hBody
            exact ⟨l, ⟨(), hCond, hCheck⟩, hEnv⟩
  | .ret s e, locals, Γ => by
      simp only [check, bind_eq_ok, Expr.check_eq_ok e]
      constructor
      · rintro ⟨l, ⟨t, hValue, h⟩, rfl⟩
        by_cases hSame : t = ctx.ret
        case neg => simp [hSame, TypeError.throw] at h
        rw [if_neg (not_not.2 hSame)] at h
        obtain rfl := pure_eq_ok.1 h
        exact .ret (hSame ▸ hValue)
      · intro h
        cases h with
        | ret hValue => exact ⟨locals, ⟨ctx.ret, hValue, by simp [pure_eq_ok]⟩, rfl⟩
  | .raw s text, locals, Γ => by
      simp only [check, Except.ok.injEq, exists_eq_left']
      constructor
      · rintro rfl
        exact .raw
      · intro h
        cases h
        rfl
  | .eval s e, locals, Γ => by
      simp only [check, bind_eq_ok, Expr.check_eq_ok e, pure_eq_ok]
      constructor
      · rintro ⟨l, ⟨t, hExpr, rfl⟩, rfl⟩
        exact .eval hExpr
      · intro h
        cases h with
        | eval hExpr => exact ⟨locals, ⟨_, hExpr, rfl⟩, rfl⟩

/-- Statements pass their check exactly if they are well-typed in turn. -/
theorem checkAll_iff:
    ∀ (ss : List Stmt) {locals : Locals} {Γ : Env},
    (∃ l, checkAll ctx locals ss = .ok l ∧ l.env = Γ) ↔
      AllWellTyped ctx.signatures.callables ctx.ret locals.env ss Γ
  | [], locals, Γ => by
      simp only [checkAll, Except.ok.injEq, exists_eq_left']
      constructor
      · rintro rfl
        exact .nil
      · intro h
        cases h
        rfl
  | s :: ss, locals, Γ => by
      simp only [checkAll, bind_eq_ok]
      constructor
      · rintro ⟨l, ⟨middle, hCheck, hRest⟩, hEnv⟩
        have hHead := (check_iff s).1 ⟨middle, hCheck, rfl⟩
        exact .cons hHead ((checkAll_iff ss).1 ⟨l, hRest, hEnv⟩)
      · intro h
        cases h with
        | cons hHead hTail =>
            obtain ⟨middle, hCheck, rfl⟩ := (check_iff s).2 hHead
            obtain ⟨l, hRest, hEnv⟩ := (checkAll_iff ss).2 hTail
            exact ⟨l, ⟨middle, hCheck, hRest⟩, hEnv⟩

/-- Blocks pass their check exactly if they are well-typed in turn. -/
theorem checkBlocks_iff:
    ∀ (bs : List (List Stmt)) {locals : Locals} {Γ : Env},
    (∃ l, checkBlocks ctx locals bs = .ok l ∧ l.env = Γ) ↔
      BlocksWellTyped ctx.signatures.callables ctx.ret locals.env bs Γ
  | [], locals, Γ => by
      simp only [checkBlocks, Except.ok.injEq, exists_eq_left']
      constructor
      · rintro rfl
        exact .nil
      · intro h
        cases h
        rfl
  | b :: bs, locals, Γ => by
      simp only [checkBlocks, bind_eq_ok]
      constructor
      · rintro ⟨l, ⟨middle, hCheck, hRest⟩, hEnv⟩
        have hHead := (checkAll_iff b).1 ⟨middle, hCheck, rfl⟩
        exact .cons hHead ((checkBlocks_iff bs).1 ⟨l, hRest, hEnv⟩)
      · intro h
        cases h with
        | cons hHead hTail =>
            obtain ⟨middle, hCheck, rfl⟩ := (checkAll_iff b).2 hHead
            obtain ⟨l, hRest, hEnv⟩ := (checkBlocks_iff bs).2 hTail
            exact ⟨l, ⟨middle, hCheck, hRest⟩, hEnv⟩

end

end Checking

end Stmt

namespace Declaration

/-- A parameter passes if its name is new and its type is not `void`, and it has no initial
value. -/
theorem checkParam_eq_ok {locals l : Locals} {d : Declaration} :
    d.checkParam locals = .ok l ↔
      ∃ t : Ty, d.IsParam (d.name, t) ∧ d.name ∉ locals.env.map Prod.fst ∧
        l.entries = locals.entries ++ [⟨d.name, t, true⟩] := by
  simp only [checkParam, bind_eq_ok, Ty.resolve_eq_ok, IsParam, Locals.names_env]
  constructor
  · rintro ⟨t, hType, h⟩
    by_cases hVoid : t = .void
    case pos => simp [hVoid, TypeError.throw] at h
    rw [if_neg hVoid] at h
    by_cases hInit : d.init.isSome = true
    case pos => simp [hInit, TypeError.throw] at h
    rw [if_neg hInit] at h
    cases hDeclare : locals.declare ⟨d.name, t, true⟩ with
    | none => simp [hDeclare, TypeError.throw] at h
    | some declared =>
        simp only [hDeclare] at h
        cases pure_eq_ok.1 h
        obtain ⟨hNew, hEntries⟩ := Table.declare_eq_some_iff.1 hDeclare
        exact ⟨t, ⟨trivial, hType.symm, hVoid, by simpa using hInit⟩, hNew, hEntries⟩
  · rintro ⟨t, ⟨-, hType, hVoid, hInit⟩, hNew, hEntries⟩
    have hDeclare : locals.declare ⟨d.name, t, true⟩ = some l :=
      Table.declare_eq_some_iff.2 ⟨hNew, hEntries⟩
    exact ⟨t, hType.symm, by simp [hVoid, hInit, hDeclare, pure_eq_ok]⟩

/-- Parameters pass if they declare variables with distinct names, which come last in the
table. -/
theorem checkParams_iff : ∀ {ds : List Declaration} {locals : Locals} {Γ : Env},
    (∃ l, checkParams locals ds = .ok l ∧ l.env = Γ) ↔
      ∃ Δ, List.Forall₂ IsParam ds Δ ∧ Γ = locals.env ++ Δ ∧ (Γ.map Prod.fst).Nodup
  | [], locals, Γ => by
      simp only [checkParams, Except.ok.injEq, exists_eq_left', List.forall₂_nil_left_iff]
      constructor
      · rintro rfl
        exact ⟨[], rfl, (List.append_nil _).symm, locals.distinct_env⟩
      · rintro ⟨_, rfl, rfl, -⟩
        exact (List.append_nil _).symm
  | d :: ds, locals, Γ => by
      simp only [checkParams, bind_eq_ok, checkParam_eq_ok]
      constructor
      · rintro ⟨l, ⟨first, ⟨t, hParam, -, hEntries⟩, hRest⟩, hEnv⟩
        obtain ⟨Δ, hParams, hAll, hNodup⟩ := checkParams_iff.1 ⟨l, hRest, hEnv⟩
        refine ⟨(d.name, t) :: Δ, .cons hParam hParams, ?_, hNodup⟩
        rw [hAll, Locals.env_of_entries hEntries, List.append_assoc, List.singleton_append]
      · rintro ⟨row, hRow, rfl, hNodup⟩
        cases hRow with
        | @cons _ v _ Δ hParam hParams =>
            obtain ⟨x, t⟩ := v
            obtain rfl : d.name = x := hParam.1
            have hNew : d.name ∉ locals.env.map Prod.fst := by
              rw [List.map_append, List.nodup_append] at hNodup
              exact fun hMem => hNodup.2.2 _ hMem _ List.mem_cons_self rfl
            have hEntries := Table.entries_declared (t := locals) (a := ⟨d.name, t, true⟩)
              (locals.names_env ▸ hNew)
            have hDeclared := Locals.env_of_entries hEntries
            obtain ⟨l, hRest, hEnv⟩ := checkParams_iff.2
              ⟨Δ, hParams, by rw [hDeclared, List.append_assoc, List.singleton_append], hNodup⟩
            exact ⟨l, ⟨_, ⟨t, hParam, hNew, hEntries⟩, hRest⟩, hEnv⟩

end Declaration

/-- What checking a function comes down to, and the entry that it adds. -/
theorem Stmt.checkFunction_eq_ok {symbols after : Symbols} {s : Span} {type name : String}
    {params : List Declaration} {body : List Stmt} :
    checkFunction symbols s type name params body = .ok after ↔
      ∃ (r : Ty) (paramLocals locals : Locals) (signature : Signature),
        signature = ⟨name, r, paramLocals.env.map Prod.snd, s⟩ ∧
        name ≠ Wasm.memoryExport ∧ name ∉ symbols.signatures.entries.map Signature.name ∧
        r.name = type ∧ Declaration.checkParams .empty params = .ok paramLocals ∧
        checkAll ⟨symbols.signatures.declared signature, name, r⟩ paramLocals body =
          .ok locals ∧
        after = symbols.declared signature locals := by
  have hTypes (l : Locals) : l.entries.map Variable.type = l.env.map Prod.snd := by
    simp [Locals.env]
  constructor
  · intro h
    unfold checkFunction at h
    by_cases hMemory : name = Wasm.memoryExport
    case pos => simp [hMemory, TypeError.throw] at h
    rw [if_neg hMemory] at h
    by_cases hSome : (symbols.signatures.get? name).isSome = true
    case pos => simp [hSome, TypeError.throw] at h
    rw [if_neg hSome] at h
    obtain ⟨r, hRet, hRest⟩ := bind_eq_ok.1 h
    obtain ⟨paramLocals, hParams, hRest⟩ := bind_eq_ok.1 hRest
    rw [hTypes] at hRest
    obtain ⟨locals, hBody, hDone⟩ := bind_eq_ok.1 hRest
    exact ⟨r, paramLocals, locals, _, rfl, hMemory,
      Table.isSome_get?_eq_false_iff.1 (by simpa using hSome), Ty.resolve_eq_ok.1 hRet, hParams,
      hBody, (pure_eq_ok.1 hDone).symm⟩
  · rintro ⟨r, paramLocals, locals, _, rfl, hMemory, hNew, hRet, hParams, hBody, rfl⟩
    simp only [checkFunction, hMemory, Table.isSome_get?_eq_false_iff.2 hNew, Bool.false_eq_true,
      if_false, bind_eq_ok, hTypes]
    exact ⟨r, Ty.resolve_eq_ok.2 hRet, paramLocals, hParams, locals, hBody, rfl⟩

/-- A function under a new name is added to what callers see. -/
theorem Signatures.callables_declared {signatures : Signatures} {s : Signature}
    (h : s.name ∉ signatures.entries.map Signature.name) :
    Signatures.callables (signatures.declared s) = signatures.callables ++ [s.callable] := by
  simp [callables, Table.entries_declared h]

/-- A function passes after others exactly if the rules let it follow them. -/
theorem Stmt.checkFunction_iff {symbols : Symbols} {s : Span} {type name : String}
    {params : List Declaration} {body : List Stmt} {fs : List Callable} :
    (∃ after, checkFunction symbols s type name params body = .ok after ∧
        after.signatures.callables = fs) ↔
      ∃ f, IsFunction symbols.signatures.callables (.function s type name params body) f ∧
        fs = symbols.signatures.callables ++ [f] := by
  constructor
  · rintro ⟨after, h, rfl⟩
    obtain ⟨r, paramLocals, locals, signature, rfl, hMemory, hNew, rfl, hParams, hBody, rfl⟩ :=
      checkFunction_eq_ok.1 h
    obtain ⟨Γ, hDecls, hEnv, hDistinct⟩ :=
      Declaration.checkParams_iff.1 ⟨paramLocals, hParams, rfl⟩
    have hTyped := (checkAll_iff body).1 ⟨locals, hBody, rfl⟩
    rw [Signatures.callables_declared hNew] at hTyped
    refine ⟨⟨name, paramLocals.env.map Prod.snd, r⟩, ?_, ?_⟩
    · have hDecls' : List.Forall₂ Declaration.IsParam params paramLocals.env := by
        rwa [hEnv]
      exact .function hMemory (by rwa [Signatures.names_callables]) hDecls' hDistinct hTyped
    · rw [Symbols.signatures_declared, Signatures.callables_declared hNew]
      rfl
  · rintro ⟨f, h, rfl⟩
    cases h with
    | @function _ _ r _ _ Γ Γ' hMemory hNew hParams hDistinct hBody =>
        rw [Signatures.names_callables] at hNew
        obtain ⟨paramLocals, hDecls, rfl⟩ := (@Declaration.checkParams_iff params .empty Γ).2
          ⟨Γ, hParams, (List.nil_append Γ).symm, hDistinct⟩
        have hCallables := @Signatures.callables_declared symbols.signatures
          ⟨name, r, paramLocals.env.map Prod.snd, s⟩ hNew
        obtain ⟨locals, hCheck, -⟩ :=
          (@checkAll_iff ⟨_, name, r⟩ body paramLocals _).2 (hCallables ▸ hBody)
        refine ⟨_, checkFunction_eq_ok.2
          ⟨r, paramLocals, locals, _, rfl, hMemory, hNew, rfl, hDecls, hCheck, rfl⟩, ?_⟩
        rw [Symbols.signatures_declared, hCallables]
        rfl

/-- A statement outside of functions passes its check exactly if it is a function that the rules
type. -/
theorem Stmt.checkTop_iff {symbols : Symbols} {s : Stmt} {fs : List Callable} :
    (∃ after, checkTop symbols s = .ok after ∧ after.signatures.callables = fs) ↔
      ∃ f, IsFunction symbols.signatures.callables s f ∧
        fs = symbols.signatures.callables ++ [f] := by
  cases s with
  | function s type name params body => exact checkFunction_iff
  | eval s e =>
      refine ⟨fun ⟨_, h, _⟩ => ?_, fun ⟨_, h, _⟩ => nomatch h⟩
      cases e <;> simp [checkTop, TypeError.throw] at h
  | _ =>
      refine ⟨fun ⟨_, h, _⟩ => ?_, fun ⟨_, h, _⟩ => nomatch h⟩
      simp [checkTop, TypeError.throw] at h

/-- Statements pass after others exactly if the rules let them follow in order. -/
theorem Program.checkFrom_iff {p : Program} {symbols : Symbols} :
    (∃ after, p.checkFrom symbols = .ok after) ↔
      p.WellTypedAfter symbols.signatures.callables := by
  induction p generalizing symbols with
  | nil =>
      simp only [checkFrom, Except.ok.injEq, exists_eq', true_iff]
      exact .nil
  | cons s p ih =>
      simp only [checkFrom, bind_eq_ok]
      constructor
      · rintro ⟨after, middle, hCheck, hRest⟩
        obtain ⟨f, hHead, hEq⟩ := Stmt.checkTop_iff.1 ⟨middle, hCheck, rfl⟩
        exact .cons hHead (hEq ▸ ih.1 ⟨after, hRest⟩)
      · intro h
        cases h with
        | cons hHead hTail =>
            obtain ⟨middle, hCheck, hEq⟩ := Stmt.checkTop_iff.2 ⟨_, hHead, rfl⟩
            obtain ⟨after, hRest⟩ := ih.2 (hEq ▸ hTail)
            exact ⟨after, middle, hCheck, hRest⟩

/-- A program passes the checker exactly if it keeps the typing rules, and a program is reported
as a semantic error exactly if it does not keep them. -/
theorem Program.check_iff_wellTyped (p : Program) :
    ((∃ symbols, p.check = .ok symbols) ↔ p.WellTyped) ∧
      ((∃ e, p.check = .error e ∧ (TypeError.report e).category = .semantic) ↔
        ¬ p.WellTyped) := by
  have hIff : (∃ symbols, p.check = .ok symbols) ↔ p.WellTyped :=
    @checkFrom_iff p .empty
  refine ⟨hIff, ?_⟩
  rw [← hIff]
  cases p.check with
  | ok symbols => simp
  | error e => simp [TypeError.report, Located.report]

end WasmCompiler
