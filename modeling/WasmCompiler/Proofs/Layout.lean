import WasmCompiler.Compilation
import WasmCompiler.Proofs.ParsingLayout

/-! Only what the tokens of a source say decides how it compiles. Checking and lowering carry the
places of a tree into their errors and their tables, and decide nothing by them. -/

namespace WasmCompiler

open Wasm

section Unplaced

variable {κ α β γ : Type}

/-- An outcome without the place of its error. -/
def unplaced (x : Except (Located κ) α) : Except κ α := observe Located.cause id x

@[simp] theorem unplaced_ok (a : α) : unplaced (.ok a : Except (Located κ) α) = .ok a := rfl

@[simp] theorem unplaced_pure (a : α) : unplaced (pure a : Except (Located κ) α) = .ok a := rfl

@[simp] theorem unplaced_throw (s : Span) (e : TypeError) :
    unplaced (TypeError.throw s e : Checked α) = .error e := rfl

@[simp] theorem unplaced_emitThrow (s : Span) (e : EmitError) :
    unplaced (EmitError.throw s e : Lowered α) = .error e := rfl

@[simp] theorem unplaced_bind (x : Except (Located κ) α) (f : α → Except (Located κ) β) :
    unplaced (x >>= f) = unplaced x >>= fun a => unplaced (f a) := by
  cases x <;> rfl

@[simp] theorem unplaced_ite (p : Prop) [Decidable p] (x y : Except (Located κ) α) :
    unplaced (if p then x else y) = if p then unplaced x else unplaced y :=
  apply_ite unplaced p x y

end Unplaced

/-- A signature without its place. -/
def Signature.eraseSpan (s : Signature) : Signature := { s with span := .point 0 }

/-- The table of a function without its place. -/
def Function.eraseSpan (f : Function) : Function := { f with signature := f.signature.eraseSpan }

/-- The functions of a program without their places. -/
def Symbols.eraseSpans (symbols : Symbols) : List Function :=
  symbols.functions.map Function.eraseSpan

namespace Signatures

variable {sigs sigs' : Signatures}

/-- Signatures that agree, places apart. The two programs of a comparison are checked against
tables of their own, which agree in this sense only. -/
def Agree (sigs sigs' : Signatures) : Prop :=
  sigs.entries.map Signature.eraseSpan = sigs'.entries.map Signature.eraseSpan

/-- Signatures that agree have the same names in the same order. -/
theorem Agree.names_eq (h : Agree sigs sigs') :
    sigs.entries.map Signature.name = sigs'.entries.map Signature.name := by
  have hNames := congrArg (List.map Signature.name) h
  simpa [Signature.eraseSpan, Function.comp_def] using hNames

/-- Signatures that agree have each name at the same index. -/
theorem Agree.index?_eq (h : Agree sigs sigs') (name : String) :
    sigs.index? name = sigs'.index? name := by
  rw [Table.index?, Table.index?, sigs.numbers_eq, sigs'.numbers_eq, h.names_eq]

/-- A function under a new name is added to both tables. -/
theorem Agree.declared {s s' : Signature} (h : Agree sigs sigs')
    (hS : s.eraseSpan = s'.eraseSpan) (hNew : s.name ∉ sigs.entries.map Signature.name) :
    Agree (sigs.declared s) (sigs'.declared s') := by
  have hName : s.eraseSpan.name = s'.eraseSpan.name := by rw [hS]
  have hNew' : s'.name ∉ sigs'.entries.map Signature.name := by
    rw [← h.names_eq]
    exact fun hMem => hNew (hName ▸ hMem)
  rw [Agree, Table.entries_declared hNew, Table.entries_declared hNew', List.map_append,
    List.map_append, h, List.map_singleton, List.map_singleton, hS]

/-- A name is known to both tables or to none, with the same types. -/
theorem Agree.get?_cases (h : Agree sigs sigs') (name : String) :
    (sigs.get? name = none ∧ sigs'.get? name = none) ∨
      ∃ s s', sigs.get? name = some s ∧ sigs'.get? name = some s' ∧
        s.params = s'.params ∧ s.ret = s'.ret := by
  have hAt (i : Nat) : sigs.entries[i]?.map Signature.eraseSpan =
      sigs'.entries[i]?.map Signature.eraseSpan := by
    rw [← List.getElem?_map, ← List.getElem?_map, h]
  cases hIndex : sigs'.index? name with
  | none =>
      have hIndex' := (h.index?_eq name).trans hIndex
      exact .inl ⟨by rw [Table.get?, hIndex', Option.bind_none],
        by rw [Table.get?, hIndex, Option.bind_none]⟩
  | some i =>
      obtain ⟨s', hS', hName'⟩ := Table.index?_eq_some_iff.1 hIndex
      obtain ⟨s, hS, hName⟩ := Table.index?_eq_some_iff.1 ((h.index?_eq name).trans hIndex)
      have hBoth := hAt i
      rw [hS, hS'] at hBoth
      have hSame : s.eraseSpan = s'.eraseSpan := Option.some.inj hBoth
      have hParams : s.eraseSpan.params = s'.eraseSpan.params := by rw [hSame]
      have hRet : s.eraseSpan.ret = s'.eraseSpan.ret := by rw [hSame]
      exact .inr ⟨s, s', Table.get?_eq_some_iff.2 ⟨List.mem_of_getElem? hS, hName⟩,
        Table.get?_eq_some_iff.2 ⟨List.mem_of_getElem? hS', hName'⟩, hParams, hRet⟩

end Signatures

section Checking

variable {sigs sigs' : Signatures}

/-- Whether a name is a type does not depend on where it stands. -/
theorem Ty.unplaced_resolve (name : String) (s s' : Span) :
    unplaced (Ty.resolve name s) = unplaced (Ty.resolve name s') := by
  unfold Ty.resolve
  split <;> rfl

theorem Locals.unplaced_typeOf (l : Locals) (name : String) (s s' : Span) :
    unplaced (l.typeOf name s) = unplaced (l.typeOf name s') := by
  unfold Locals.typeOf
  split <;> rfl

/-- The type of a number does not depend on where it stands. -/
theorem Literal.unplaced_check (v : Literal) (s s' : Span) :
    unplaced (v.check s) = unplaced (v.check s') := by
  cases v <;> simp [Literal.check]

/-- The type of an operation does not depend on where it stands. -/
theorem BinaryOp.unplaced_check (op : BinaryOp) (lhs rhs : Ty) (s s' : Span) :
    unplaced (op.check lhs rhs s) = unplaced (op.check lhs rhs s') := by
  simp only [BinaryOp.check, unplaced_ite, unplaced_throw, unplaced_ok]

theorem UnaryOp.unplaced_check (op : UnaryOp) (t : Ty) (s s' : Span) :
    unplaced (op.check t s) = unplaced (op.check t s') := by
  cases op <;> simp only [UnaryOp.check, unplaced_ite, unplaced_throw, unplaced_ok]

namespace Expr

@[simp] theorem isStr_eraseSpans (e : Expr) : e.eraseSpans.isStr = e.isStr := by
  cases e <;> rfl

mutual

/-- The type of an expression does not depend on places. -/
theorem check_eraseSpans (h : Signatures.Agree sigs sigs') (locals : Locals) : ∀ e : Expr,
    unplaced (e.check sigs locals) = unplaced (e.eraseSpans.check sigs' locals)
  | ident s name => locals.unplaced_typeOf name s _
  | number s value => value.unplaced_check s _
  | bool _ _ => rfl
  | str _ _ => rfl
  | assign s target value => by
      simp only [check, eraseSpans, unplaced_bind, unplaced_ite, unplaced_throw, unplaced_pure,
        locals.unplaced_typeOf target s (.point 0), check_eraseSpans h locals value]
  | binary s op lhs rhs => by
      simp only [check, eraseSpans, unplaced_bind, check_eraseSpans h locals lhs,
        check_eraseSpans h locals rhs, fun l r => op.unplaced_check l r s (.point 0)]
  | unary s op operand => by
      simp only [check, eraseSpans, unplaced_bind, check_eraseSpans h locals operand,
        fun t => op.unplaced_check t s (.point 0)]
  | cast s type operand => by
      simp only [check, eraseSpans, isStr_eraseSpans]
      split <;> simp only [unplaced_bind, check_eraseSpans h locals operand,
        Ty.unplaced_resolve type s (.point 0)]
  | call s callee args => by
      simp only [check, eraseSpans, length_eraseAllSpans]
      rcases h.get?_cases callee with ⟨hNone, hNone'⟩ | ⟨f, f', hSome, hSome', hParams, hRet⟩
      · simp only [hNone, hNone', unplaced_throw]
      · simp only [hSome, hSome', hParams, hRet, unplaced_ite, unplaced_throw, unplaced_bind,
          unplaced_pure, checkArgs_eraseSpans h locals callee 1 args f'.params]

/-- Nor are the spans of arguments looked at where they are checked. -/
theorem checkArgs_eraseSpans (h : Signatures.Agree sigs sigs') (locals : Locals) (callee : String) :
    ∀ (index : Nat) (args : List Expr) (wants : List Ty),
      unplaced (checkArgs sigs locals callee index args wants) =
        unplaced (checkArgs sigs' locals callee index (eraseAllSpans args) wants)
  | _, [], _ => by simp only [checkArgs, eraseAllSpans]
  | _, _ :: _, [] => by simp only [checkArgs, eraseAllSpans]
  | index, arg :: args, want :: wants => by
      simp only [checkArgs, eraseAllSpans, unplaced_bind, unplaced_ite, unplaced_throw,
        check_eraseSpans h locals arg, checkArgs_eraseSpans h locals callee (index + 1) args wants]

end

end Expr

/-- The spans of a condition are not looked at, nor those of the signatures. -/
theorem Expr.checkCondition_eraseSpans (h : Signatures.Agree sigs sigs') (locals : Locals)
    (cond : Expr) :
    unplaced (cond.checkCondition sigs locals) =
      unplaced (cond.eraseSpans.checkCondition sigs' locals) := by
  simp only [checkCondition, unplaced_bind, unplaced_ite, unplaced_throw, unplaced_pure,
    cond.check_eraseSpans h locals]

theorem Expr.checkConditions_eraseSpans (h : Signatures.Agree sigs sigs') (locals : Locals)
    (conds : List Expr) :
    unplaced (checkConditions sigs locals conds) =
      unplaced (checkConditions sigs' locals (eraseAllSpans conds)) := by
  induction conds with
  | nil => rfl
  | cons cond conds ih =>
      simp only [checkConditions, eraseAllSpans, unplaced_bind, ih,
        cond.checkCondition_eraseSpans h locals]

namespace Declaration

/-- The spans of a declaration are not looked at, nor those of the signatures. -/
theorem check_eraseSpans (h : Signatures.Agree sigs sigs') (function : String) (ret : Ty)
    (locals : Locals) (d : Declaration) :
    unplaced (d.check ⟨sigs, function, ret⟩ locals) =
      unplaced (d.eraseSpans.check ⟨sigs', function, ret⟩ locals) := by
  obtain ⟨s, type, name, init⟩ := d
  cases init with
  | none =>
      change _ = unplaced (check ⟨sigs', function, ret⟩ locals ⟨.point 0, type, name, none⟩)
      simp only [check, unplaced_bind, unplaced_ite, unplaced_throw, unplaced_pure,
        Ty.unplaced_resolve type s (.point 0)]
  | some init =>
      change _ = unplaced
        (check ⟨sigs', function, ret⟩ locals ⟨.point 0, type, name, some init.eraseSpans⟩)
      simp only [check, unplaced_bind, unplaced_ite, unplaced_throw, unplaced_pure,
        Ty.unplaced_resolve type s (.point 0), init.check_eraseSpans h locals]

/-- The spans of a parameter are not looked at. -/
theorem checkParam_eraseSpans (locals : Locals) (d : Declaration) :
    unplaced (d.checkParam locals) = unplaced (d.eraseSpans.checkParam locals) := by
  obtain ⟨s, type, name, init⟩ := d
  change _ = unplaced (checkParam locals ⟨.point 0, type, name, init.map Expr.eraseSpans⟩)
  simp only [checkParam, Option.isSome_map, unplaced_bind, unplaced_ite, unplaced_throw,
    Ty.unplaced_resolve type s (.point 0)]
  congr 1
  funext t
  cases locals.declare ⟨name, t, true⟩ <;> rfl

theorem checkParams_eraseSpans (locals : Locals) (ds : List Declaration) :
    unplaced (checkParams locals ds) = unplaced (checkParams locals (ds.map eraseSpans)) := by
  induction ds generalizing locals with
  | nil => rfl
  | cons d ds ih =>
      simp only [checkParams, List.map_cons, unplaced_bind, checkParam_eraseSpans locals d, ih]

end Declaration

namespace Stmt

mutual

/-- What a statement declares does not depend on places. -/
theorem check_eraseSpans (h : Signatures.Agree sigs sigs') (function : String) (ret : Ty) :
    ∀ (stmt : Stmt) (locals : Locals), unplaced (stmt.check ⟨sigs, function, ret⟩ locals) =
      unplaced (stmt.eraseSpans.check ⟨sigs', function, ret⟩ locals)
  | .function _ _ _ _ _, _ => rfl
  | .var decl, locals => decl.check_eraseSpans h function ret locals
  | .branch _ conds blocks, locals => by
      simp only [check, eraseSpans, unplaced_bind, Expr.checkConditions_eraseSpans h locals conds,
        checkBlocks_eraseSpans h function ret blocks locals]
  | .loop _ cond body, locals => by
      simp only [check, eraseSpans, unplaced_bind, cond.checkCondition_eraseSpans h locals,
        checkAll_eraseSpans h function ret body locals]
  | .ret _ value, locals => by
      simp only [check, eraseSpans, unplaced_bind, unplaced_ite, unplaced_throw, unplaced_pure,
        value.check_eraseSpans h locals]
  | .raw _ _, _ => rfl
  | .eval _ expr, locals => by
      simp only [check, eraseSpans, unplaced_bind, unplaced_pure, expr.check_eraseSpans h locals]

theorem checkAll_eraseSpans (h : Signatures.Agree sigs sigs') (function : String) (ret : Ty) :
    ∀ (stmts : List Stmt) (locals : Locals),
      unplaced (checkAll ⟨sigs, function, ret⟩ locals stmts) =
        unplaced (checkAll ⟨sigs', function, ret⟩ locals (eraseAllSpans stmts))
  | [], _ => by simp only [checkAll, eraseAllSpans]
  | stmt :: stmts, locals => by
      simp only [checkAll, eraseAllSpans, unplaced_bind, check_eraseSpans h function ret stmt,
        checkAll_eraseSpans h function ret stmts]

theorem checkBlocks_eraseSpans (h : Signatures.Agree sigs sigs') (function : String) (ret : Ty) :
    ∀ (blocks : List (List Stmt)) (locals : Locals),
      unplaced (checkBlocks ⟨sigs, function, ret⟩ locals blocks) =
        unplaced (checkBlocks ⟨sigs', function, ret⟩ locals (eraseBlockSpans blocks))
  | [], _ => by simp only [checkBlocks, eraseBlockSpans]
  | block :: blocks, locals => by
      simp only [checkBlocks, eraseBlockSpans, unplaced_bind,
        checkAll_eraseSpans h function ret block, checkBlocks_eraseSpans h function ret blocks]

end

end Stmt

end Checking

section Tables

variable {symbols symbols' : Symbols}

/-- Tables that differ only in their spans have signatures that agree. -/
theorem Symbols.agree_signatures (h : symbols.eraseSpans = symbols'.eraseSpans) :
    Signatures.Agree symbols.signatures symbols'.signatures := by
  have hErased (t : Symbols) : t.signatures.entries.map Signature.eraseSpan =
      t.eraseSpans.map Function.signature := by
    simp [← t.signatures_functions, Symbols.eraseSpans, Function.eraseSpan, Function.comp_def]
  rw [Signatures.Agree, hErased, hErased, h]

theorem Symbols.length_eq (h : symbols.eraseSpans = symbols'.eraseSpans) :
    symbols.signatures.entries.length = symbols'.signatures.entries.length := by
  have hLength := congrArg List.length h
  rwa [Symbols.eraseSpans, Symbols.eraseSpans, List.length_map, List.length_map,
    symbols.length_functions, symbols'.length_functions] at hLength

/-- Tables that differ only in their spans have the same variables for each function. -/
theorem Symbols.locals?_eq (h : symbols.eraseSpans = symbols'.eraseSpans) (name : String) :
    symbols.locals? name = symbols'.locals? name := by
  have hErased (t : Symbols) :
      t.locals.reverse = t.eraseSpans.map fun f => (f.signature.name, f.locals) := by
    rw [← t.tables_eq.2, Symbols.eraseSpans, List.map_map]
    rfl
  have hLocals : symbols.locals = symbols'.locals :=
    List.reverse_inj.1 (by rw [hErased, hErased, h])
  rw [Symbols.locals?, Symbols.locals?, hLocals]

namespace Stmt

/-- What a function adds to the tables does not depend on places, its own place apart. -/
theorem checkFunction_alike (h : symbols.eraseSpans = symbols'.eraseSpans) (s : Span)
    (type name : String) (params : List Declaration) (body : List Stmt) :
    observe Located.cause Symbols.eraseSpans (checkFunction symbols s type name params body) =
      observe Located.cause Symbols.eraseSpans (checkFunction symbols' (.point 0) type name
        (params.map Declaration.eraseSpans) (eraseAllSpans body)) := by
  have hAgree := Symbols.agree_signatures h
  have hTaken : (symbols.signatures.get? name).isSome = (symbols'.signatures.get? name).isSome := by
    rcases hAgree.get?_cases name with ⟨hNone, hNone'⟩ | ⟨f, f', hSome, hSome', -, -⟩
    · rw [hNone, hNone']
    · rw [hSome, hSome']
      rfl
  unfold checkFunction
  rw [← hTaken]
  by_cases hMemory : name = memoryExport
  · rw [if_pos hMemory, if_pos hMemory]
    rfl
  by_cases hSome : (symbols.signatures.get? name).isSome = true
  · rw [if_neg hMemory, if_neg hMemory, if_pos hSome, if_pos hSome]
    rfl
  rw [if_neg hMemory, if_neg hMemory, if_neg hSome, if_neg hSome]
  have hNew := Table.isSome_get?_eq_false_iff.1 (Bool.eq_false_iff.2 hSome)
  refine observe_bind (Ty.unplaced_resolve type s (.point 0)) ?_
  rintro ret _ rfl
  refine observe_bind (Declaration.checkParams_eraseSpans .empty params) ?_
  rintro locals _ rfl
  -- A function is known in its own body, so the tables for it already differ in a place.
  let signature (place : Span) : Signature :=
    ⟨name, ret, locals.entries.map Variable.type, place⟩
  have hOwn : Signatures.Agree (symbols.signatures.declared (signature s))
      (symbols'.signatures.declared (signature (.point 0))) := hAgree.declared rfl hNew
  refine observe_bind (checkAll_eraseSpans hOwn name ret body locals) ?_
  rintro all _ rfl
  have hTables : (symbols.declared (signature s) all).eraseSpans =
      (symbols'.declared (signature (.point 0)) all).eraseSpans := by
    have hNew' : name ∉ symbols'.signatures.entries.map Signature.name := hAgree.names_eq ▸ hNew
    rw [Symbols.eraseSpans, Symbols.eraseSpans, Symbols.functions_declared all hNew,
      Symbols.functions_declared all hNew', List.map_append, List.map_append]
    exact congrArg (· ++ _) h
  exact congrArg Except.ok hTables

/-- A statement outside of functions leaves tables that differ only in their spans. -/
theorem checkTop_alike (h : symbols.eraseSpans = symbols'.eraseSpans) (stmt : Stmt) :
    observe Located.cause Symbols.eraseSpans (checkTop symbols stmt) =
      observe Located.cause Symbols.eraseSpans (checkTop symbols' stmt.eraseSpans) := by
  cases stmt with
  | function s type name params body =>
      simp only [checkTop, eraseSpans]
      exact checkFunction_alike h s type name params body
  | eval s expr => cases expr <;> rfl
  | var _ => rfl
  | branch _ _ _ => rfl
  | loop _ _ _ => rfl
  | ret _ _ => rfl
  | raw _ _ => rfl

end Stmt

namespace Program

/-- So do statements in turn, as long as none of them fails. -/
theorem checkFrom_alike (p : Program) (h : symbols.eraseSpans = symbols'.eraseSpans) :
    observe Located.cause Symbols.eraseSpans (checkFrom symbols p) =
      observe Located.cause Symbols.eraseSpans (checkFrom symbols' p.eraseSpans) := by
  induction p generalizing symbols symbols' with
  | nil => exact congrArg Except.ok h
  | cons stmt stmts ih =>
      exact observe_bind (Stmt.checkTop_alike h stmt) fun _ _ hNext => ih hNext

/-- Programs that are equal, places apart, declare the same, places apart, or break the same
rule. -/
theorem check_alike {p q : Program} (h : p.eraseSpans = q.eraseSpans) :
    observe Located.cause Symbols.eraseSpans p.check =
      observe Located.cause Symbols.eraseSpans q.check := by
  have hErased (r : Program) : observe Located.cause Symbols.eraseSpans r.check =
      observe Located.cause Symbols.eraseSpans r.eraseSpans.check := checkFrom_alike r rfl
  rw [hErased p, hErased q, h]

end Program

end Tables

section Lowering

variable {sigs sigs' : Signatures}

/-- How a type is stored does not depend on where it stands. -/
theorem Ty.unplaced_storage (t : Ty) (s s' : Span) :
    unplaced (t.storage s) = unplaced (t.storage s') := by
  unfold Ty.storage
  split <;> rfl

/-- The slot of a name depends on the variables alone. -/
theorem Scope.unplaced_slot (locals : Locals) (name : String) (s s' : Span) :
    unplaced (slot ⟨sigs, locals⟩ name s) = unplaced (slot ⟨sigs', locals⟩ name s') := by
  unfold Scope.slot
  cases locals.slot? name <;> cases locals.get? name <;> rfl

/-- The instruction of an operation does not depend on where it stands. -/
theorem BinaryOp.unplaced_lower (op : BinaryOp) (t : Ty) (s s' : Span) :
    unplaced (op.lower t s) = unplaced (op.lower t s') := by
  unfold BinaryOp.lower
  split <;> rfl

theorem UnaryOp.unplaced_lower (op : UnaryOp) (t : Ty) (s s' : Span) :
    unplaced (op.lower t s) = unplaced (op.lower t s') := by
  cases op with
  | plus => rfl
  | neg =>
      simp only [UnaryOp.lower, unplaced_ite, unplaced_bind, unplaced_emitThrow,
        t.unplaced_storage s s']
      congr 2
      funext stored
      split <;> rfl
  | not => simp only [UnaryOp.lower, unplaced_ite, unplaced_emitThrow]

/-- The conversion of a cast does not depend on where it stands. -/
theorem Ty.unplaced_lowerCast (t : Ty) (target : String) (s s' : Span) :
    unplaced (t.lowerCast target s) = unplaced (t.lowerCast target s') := by
  unfold Ty.lowerCast
  split
  · rfl
  · split <;> rfl

namespace Expr

mutual

/-- The instructions of an expression do not depend on places. -/
theorem lower_eraseSpans (h : Signatures.Agree sigs sigs') (locals : Locals) : ∀ e : Expr,
    unplaced (e.lower ⟨sigs, locals⟩) = unplaced (e.eraseSpans.lower ⟨sigs', locals⟩)
  | ident s name => by
      simp only [lower, eraseSpans, unplaced_bind, unplaced_pure,
        @Scope.unplaced_slot sigs sigs' locals name s (.point 0)]
  | number _ _ => rfl
  | bool _ _ => rfl
  | str _ _ => rfl
  | assign s target value => by
      simp only [lower, eraseSpans, unplaced_bind, unplaced_pure, lower_eraseSpans h locals value,
        @Scope.unplaced_slot sigs sigs' locals target s (.point 0)]
  | binary s op lhs rhs => by
      simp only [lower, eraseSpans, unplaced_bind, unplaced_pure, lower_eraseSpans h locals lhs,
        lower_eraseSpans h locals rhs, fun t => op.unplaced_lower t s (.point 0)]
  | unary s op operand => by
      simp only [lower, eraseSpans, unplaced_bind, unplaced_pure, lower_eraseSpans h locals operand,
        fun t => op.unplaced_lower t s (.point 0)]
  | cast s target operand => by
      simp only [lower, eraseSpans, unplaced_bind, unplaced_pure, lower_eraseSpans h locals operand,
        fun t => Ty.unplaced_lowerCast t target s (.point 0)]
  | call s callee args => by
      simp only [lower, Signature.index?, eraseSpans, unplaced_bind,
        lowerArgs_eraseSpans h locals args, h.index?_eq callee]
      congr 1
      funext code
      rcases h.get?_cases callee with ⟨hNone, hNone'⟩ | ⟨f, f', hSome, hSome', -, hRet⟩
      · simp only [hNone, hNone']
        cases sigs'.index? callee <;> rfl
      · simp only [hSome, hSome']
        cases sigs'.index? callee with
        | none => rfl
        | some index => simp only [hRet, unplaced_pure]

theorem lowerArgs_eraseSpans (h : Signatures.Agree sigs sigs') (locals : Locals) :
    ∀ args : List Expr, unplaced (lowerArgs ⟨sigs, locals⟩ args) =
      unplaced (lowerArgs ⟨sigs', locals⟩ (eraseAllSpans args))
  | [] => by simp only [lowerArgs, eraseAllSpans]
  | arg :: args => by
      simp only [lowerArgs, eraseAllSpans, unplaced_bind, unplaced_pure,
        lower_eraseSpans h locals arg, lowerArgs_eraseSpans h locals args]

end

end Expr

namespace Stmt

theorem eraseAllSpans_eq_map (stmts : List Stmt) : eraseAllSpans stmts = stmts.map eraseSpans := by
  induction stmts with
  | nil => rfl
  | cons stmt stmts ih => rw [eraseAllSpans, ih, List.map_cons]

mutual

/-- The code of a statement does not depend on places. -/
theorem lower_eraseSpans (h : Signatures.Agree sigs sigs') (locals : Locals) : ∀ stmt : Stmt,
    unplaced (stmt.lower ⟨sigs, locals⟩) = unplaced (stmt.eraseSpans.lower ⟨sigs', locals⟩)
  | function _ _ _ _ _ => rfl
  | var ⟨_, _, _, none⟩ => rfl
  | var ⟨s, _, name, some init⟩ => by
      simp only [lower, eraseSpans, Declaration.eraseSpans, Option.map_some, unplaced_bind,
        unplaced_pure, init.lower_eraseSpans h locals,
        @Scope.unplaced_slot sigs sigs' locals name s (.point 0)]
  | branch _ conds blocks => by
      simp only [lower, eraseSpans, unplaced_bind, unplaced_pure, Expr.length_eraseAllSpans,
        lowerChain_eraseSpans h locals [] conds blocks]
  | loop _ cond body => by
      simp only [lower, eraseSpans, unplaced_bind, unplaced_pure, cond.lower_eraseSpans h locals,
        lowerAll_eraseSpans h locals body]
  | ret _ value => by
      simp only [lower, eraseSpans, unplaced_bind, unplaced_pure, value.lower_eraseSpans h locals]
  | raw _ text => by
      simp only [lower, eraseSpans]
      split <;> rfl
  | eval _ expr => by
      simp only [lower, eraseSpans, unplaced_bind, unplaced_pure, expr.lower_eraseSpans h locals]

theorem lowerAll_eraseSpans (h : Signatures.Agree sigs sigs') (locals : Locals) :
    ∀ stmts : List Stmt, unplaced (lowerAll ⟨sigs, locals⟩ stmts) =
      unplaced (lowerAll ⟨sigs', locals⟩ (eraseAllSpans stmts))
  | [] => by simp only [lowerAll, eraseAllSpans]
  | stmt :: stmts => by
      simp only [lowerAll, eraseAllSpans, unplaced_bind, unplaced_pure,
        lower_eraseSpans h locals stmt, lowerAll_eraseSpans h locals stmts]

/-- Nor are they looked at in a chain of branches. -/
theorem lowerChain_eraseSpans (h : Signatures.Agree sigs sigs') (locals : Locals) :
    ∀ (link : List Instr) (conds : List Expr) (blocks : List (List Stmt)),
      unplaced (lowerChain ⟨sigs, locals⟩ link conds blocks) =
        unplaced (lowerChain ⟨sigs', locals⟩ link (Expr.eraseAllSpans conds)
          (eraseBlockSpans blocks))
  | link, cond :: conds, block :: blocks => by
      simp only [lowerChain, Expr.eraseAllSpans, eraseBlockSpans, unplaced_bind, unplaced_pure,
        cond.lower_eraseSpans h locals, lowerAll_eraseSpans h locals block,
        lowerChain_eraseSpans h locals [.plain .elseOp] conds blocks]
  | _, [], block :: _ => by
      simp only [lowerChain, Expr.eraseAllSpans, eraseBlockSpans, unplaced_bind, unplaced_pure,
        lowerAll_eraseSpans h locals block]
  | _, [], [] => rfl
  | _, _ :: _, [] => rfl

end

end Stmt

/-- Whether a body ends in a return statement does not depend on its spans. -/
theorem endsInRet_eraseAllSpans (body : List Stmt) :
    endsInRet (Stmt.eraseAllSpans body) = endsInRet body := by
  have hRet (stmt : Stmt) : stmt.eraseSpans.isRet = stmt.isRet := by cases stmt <;> rfl
  rw [Stmt.eraseAllSpans_eq_map, endsInRet, endsInRet, List.getLast?_map]
  cases body.getLast? with
  | none => rfl
  | some stmt => exact hRet stmt

namespace Function

variable {symbols symbols' : Symbols}

theorem unplaced_storages (s s' : Span) (types : List Ty) :
    unplaced (storages s types) = unplaced (storages s' types) := by
  induction types with
  | nil => rfl
  | cons t types ih =>
      simp only [storages, unplaced_bind, unplaced_pure, t.unplaced_storage s s', ih]

/-- The code of a body does not depend on its spans. -/
theorem lowerCode_eraseSpans (h : Signatures.Agree sigs sigs') (locals : Locals) (ret : Ty)
    (body : List Stmt) :
    unplaced (lowerCode ⟨sigs, locals⟩ ret body) =
      unplaced (lowerCode ⟨sigs', locals⟩ ret (Stmt.eraseAllSpans body)) := by
  simp only [lowerCode, unplaced_bind, unplaced_pure, endsInRet_eraseAllSpans,
    Stmt.lowerAll_eraseSpans h locals body]

/-- The body of a function does not depend on its spans. -/
theorem lower_eraseSpans (h : symbols.eraseSpans = symbols'.eraseSpans) (s : Span) (name : String)
    (body : List Stmt) :
    unplaced (lower symbols s name body) =
      unplaced (lower symbols' (.point 0) name (Stmt.eraseAllSpans body)) := by
  have hAgree := Symbols.agree_signatures h
  unfold lower
  rw [Symbols.locals?_eq h name]
  rcases hAgree.get?_cases name with ⟨hNone, hNone'⟩ | ⟨f, f', hSome, hSome', -, hRet⟩
  · simp only [hNone, hNone']
    rfl
  · simp only [hSome, hSome']
    cases symbols'.locals? name with
    | none => rfl
    | some locals =>
        simp only [unplaced_bind, unplaced_pure, hRet,
          lowerCode_eraseSpans hAgree locals f'.ret body, unplaced_storages s (.point 0)]

/-- Signatures that agree are lowered to the same types. -/
theorem lowerTypes_alike (h : Signatures.Agree sigs sigs') :
    unplaced (lowerTypes sigs.entries) = unplaced (lowerTypes sigs'.entries) := by
  have hErased (l : List Signature) :
      unplaced (lowerTypes l) = unplaced (lowerTypes (l.map Signature.eraseSpan)) := by
    induction l with
    | nil => rfl
    | cons f l ih =>
        simp only [lowerTypes, List.map_cons, unplaced_bind, unplaced_pure, ih,
          unplaced_storages f.span f.eraseSpan.span]
        rfl
  rw [hErased sigs.entries, hErased sigs'.entries, h]

end Function

namespace Program

variable {symbols symbols' : Symbols}

/-- The bodies of functions do not depend on their spans. -/
theorem lowerFrom_eraseSpans (h : symbols.eraseSpans = symbols'.eraseSpans) (index : Nat)
    (p : Program) :
    unplaced (lowerFrom symbols index p) = unplaced (lowerFrom symbols' index p.eraseSpans) := by
  have hIndex := (Symbols.agree_signatures h).index?_eq
  induction p generalizing index with
  | nil => rfl
  | cons stmt stmts ih =>
      cases stmt with
      | function s type name params body =>
          change _ = unplaced (lowerFrom symbols' index
            (.function (.point 0) type name (params.map Declaration.eraseSpans)
              (Stmt.eraseAllSpans body) :: eraseSpans stmts))
          simp only [lowerFrom, hIndex name, unplaced_ite, unplaced_bind, unplaced_pure,
            unplaced_emitThrow, Function.lower_eraseSpans h s name body, ih]
      | var _ => rfl
      | branch _ _ _ => rfl
      | loop _ _ _ => rfl
      | ret _ _ => rfl
      | raw _ _ => rfl
      | eval _ _ => rfl

/-- Programs and tables that are equal, places apart, give the same module or the same error. -/
theorem lower_alike {p q : Program} (hTree : p.eraseSpans = q.eraseSpans)
    (hTables : symbols.eraseSpans = symbols'.eraseSpans) :
    unplaced (lower symbols p) = unplaced (lower symbols' q) := by
  have hAgree := Symbols.agree_signatures hTables
  have hCode : unplaced (lowerFrom symbols 0 p) = unplaced (lowerFrom symbols' 0 q) := by
    rw [lowerFrom_eraseSpans hTables, hTree]
    exact (lowerFrom_eraseSpans rfl 0 q).symm
  have hErased (l : List Signature) : (l.mapIdx fun i s => (⟨s.name, .func, i⟩ : Export)) =
      (l.map Signature.eraseSpan).mapIdx fun i s => ⟨s.name, .func, i⟩ := by
    apply List.ext_getElem?
    intro i
    simp [Signature.eraseSpan, Function.comp_def]
  have hExports : (symbols.signatures.entries.mapIdx fun i s => (⟨s.name, .func, i⟩ : Export)) =
      symbols'.signatures.entries.mapIdx fun i s => ⟨s.name, .func, i⟩ := by
    rw [hErased, hErased symbols'.signatures.entries, hAgree]
  simp only [lower, unplaced_bind, unplaced_pure, unplaced_ite, unplaced_emitThrow, hCode,
    Function.lowerTypes_alike hAgree, Symbols.length_eq hTables, hExports]

end Program

end Lowering

section Erasing

mutual

/-- Spans are erased once and for all. -/
theorem Expr.eraseSpans_eraseSpans : ∀ e : Expr, e.eraseSpans.eraseSpans = e.eraseSpans
  | .ident _ _ | .number _ _ | .bool _ _ | .str _ _ => by simp only [eraseSpans]
  | .assign _ _ e | .unary _ _ e | .cast _ _ e => by
      simp only [eraseSpans, eraseSpans_eraseSpans e]
  | .binary _ _ a b => by
      simp only [eraseSpans, eraseSpans_eraseSpans a, eraseSpans_eraseSpans b]
  | .call _ _ args => by simp only [eraseSpans, eraseAllSpans_eraseAllSpans args]

theorem Expr.eraseAllSpans_eraseAllSpans : ∀ es : List Expr,
    eraseAllSpans (eraseAllSpans es) = eraseAllSpans es
  | [] => by simp only [eraseAllSpans]
  | e :: es => by
      simp only [eraseAllSpans, eraseSpans_eraseSpans e, eraseAllSpans_eraseAllSpans es]

end

theorem Declaration.eraseSpans_eraseSpans (d : Declaration) :
    d.eraseSpans.eraseSpans = d.eraseSpans := by
  simp [eraseSpans, Function.comp_def, Expr.eraseSpans_eraseSpans]

namespace Stmt

mutual

theorem eraseSpans_eraseSpans : ∀ s : Stmt, s.eraseSpans.eraseSpans = s.eraseSpans
  | .function _ _ _ params body => by
      have hParams : (params.map Declaration.eraseSpans).map Declaration.eraseSpans =
          params.map Declaration.eraseSpans := by
        rw [List.map_map]
        exact List.map_congr_left fun d _ => d.eraseSpans_eraseSpans
      simp only [eraseSpans, hParams, eraseAllSpans_eraseAllSpans body]
  | .var decl => by simp only [eraseSpans, decl.eraseSpans_eraseSpans]
  | .branch _ conds blocks => by
      simp only [eraseSpans, Expr.eraseAllSpans_eraseAllSpans conds,
        eraseBlockSpans_eraseBlockSpans blocks]
  | .loop _ cond body => by
      simp only [eraseSpans, cond.eraseSpans_eraseSpans, eraseAllSpans_eraseAllSpans body]
  | .ret _ e | .eval _ e => by simp only [eraseSpans, e.eraseSpans_eraseSpans]
  | .raw _ _ => by simp only [eraseSpans]

theorem eraseAllSpans_eraseAllSpans : ∀ ss : List Stmt,
    eraseAllSpans (eraseAllSpans ss) = eraseAllSpans ss
  | [] => by simp only [eraseAllSpans]
  | s :: ss => by
      simp only [eraseAllSpans, eraseSpans_eraseSpans s, eraseAllSpans_eraseAllSpans ss]

theorem eraseBlockSpans_eraseBlockSpans : ∀ bs : List (List Stmt),
    eraseBlockSpans (eraseBlockSpans bs) = eraseBlockSpans bs
  | [] => by simp only [eraseBlockSpans]
  | b :: bs => by
      simp only [eraseBlockSpans, eraseAllSpans_eraseAllSpans b,
        eraseBlockSpans_eraseBlockSpans bs]

end

mutual

/-- The shape of a statement does not depend on its spans. -/
theorem isShaped_eraseSpans : ∀ s : Stmt, s.eraseSpans.isShaped = s.isShaped
  | .function _ _ _ _ body | .loop _ _ body => by
      simp only [eraseSpans, isShaped, isShapedAll_eraseAllSpans body]
  | .branch _ conds blocks => by
      have hEmpty : (Expr.eraseAllSpans conds).isEmpty = conds.isEmpty := by cases conds <;> rfl
      simp only [eraseSpans, isShaped, isShapedBlocks_eraseBlockSpans blocks,
        length_eraseBlockSpans, Expr.length_eraseAllSpans, hEmpty]
  | .var _ | .ret _ _ | .eval _ _ | .raw _ _ => by simp only [eraseSpans, isShaped]

theorem isShapedAll_eraseAllSpans : ∀ ss : List Stmt,
    isShapedAll (eraseAllSpans ss) = isShapedAll ss
  | [] => by simp only [eraseAllSpans]
  | s :: ss => by
      simp only [eraseAllSpans, isShapedAll, isShaped_eraseSpans s, isShapedAll_eraseAllSpans ss]

theorem isShapedBlocks_eraseBlockSpans : ∀ bs : List (List Stmt),
    isShapedBlocks (eraseBlockSpans bs) = isShapedBlocks bs
  | [] => by simp only [eraseBlockSpans]
  | b :: bs => by
      simp only [eraseBlockSpans, isShapedBlocks, isShapedAll_eraseAllSpans b,
        isShapedBlocks_eraseBlockSpans bs]

end

end Stmt

theorem Program.eraseSpans_eraseSpans (p : Program) : p.eraseSpans.eraseSpans = p.eraseSpans :=
  Stmt.eraseAllSpans_eraseAllSpans p

end Erasing

section Compiling

variable {p q : Program}

/-- What a report says, without its place. -/
def Diagnostic.gist (d : Diagnostic) : Category × String := (d.category, d.message)

/-- Programs that differ only in their spans have the same module, or fail with the same message. -/
theorem Program.toModule_alike (h : p.eraseSpans = q.eraseSpans) :
    observe Diagnostic.gist id p.toModule = observe Diagnostic.gist id q.toModule := by
  have hCheck : observe Diagnostic.gist Symbols.eraseSpans (p.check.mapError TypeError.report) =
      observe Diagnostic.gist Symbols.eraseSpans (q.check.mapError TypeError.report) := by
    rw [observe_mapError, observe_mapError]
    exact observe_coarsen (fun e : TypeError => (Category.semantic, e.message)) (check_alike h)
  refine observe_bind hCheck fun symbols symbols' hTables => ?_
  rw [observe_mapError, observe_mapError]
  exact observe_coarsen (fun e => (e.category, e.message)) (lower_alike h hTables)

/-- They are compiled to the same bytes, whatever is shown on the way. -/
theorem Program.compile_alike (dumps : Dumps) (h : p.eraseSpans = q.eraseSpans) :
    observe Diagnostic.gist id (p.compile dumps).result =
      observe Diagnostic.gist id (q.compile dumps).result := by
  rw [result_compile, result_compile]
  refine observe_bind (toModule_alike h) ?_
  rintro m _ rfl
  rfl

/-- Texts with the same lexemes are compiled to the same bytes, or fail with the same message. -/
theorem compileText_alike (dumps : Dumps) {source source' : String} {tokens tokens' : List Token}
    (hTokens : Token.ofText source = .ok tokens) (hTokens' : Token.ofText source' = .ok tokens')
    (h : tokens.map Token.lexeme = tokens'.map Token.lexeme) :
    observe Diagnostic.gist id (compileText dumps source).result =
      observe Diagnostic.gist id (compileText dumps source').result := by
  have hParse : observe Diagnostic.gist Program.eraseSpans
        ((Program.ofTokens tokens).mapError GrammarError.report) =
      observe Diagnostic.gist Program.eraseSpans
        ((Program.ofTokens tokens').mapError GrammarError.report) := by
    rw [observe_mapError, observe_mapError]
    exact observe_coarsen (fun wording : String => (Category.grammatical, wording))
      (Program.ofTokens_alike h)
  rw [result_compileText hTokens, result_compileText hTokens']
  exact observe_bind hParse fun r r' hTree => Program.compile_alike dumps hTree

/-- Only what the tokens of a source say decides how it compiles. Each stage gives the same, places
apart, on inputs that are the same, places apart, or fails with the same wording. So do sources
that differ in blanks, comments and line breaks only. -/
theorem outcome_ignores_layout :
    (∀ tokens tokens' : List Token, tokens.map Token.lexeme = tokens'.map Token.lexeme →
      observe (fun e => e.cause.message) Program.eraseSpans (Program.ofTokens tokens) =
        observe (fun e => e.cause.message) Program.eraseSpans (Program.ofTokens tokens')) ∧
    (∀ p q : Program, p.eraseSpans = q.eraseSpans →
      observe (fun e => e.cause.message) Symbols.eraseSpans p.check =
        observe (fun e => e.cause.message) Symbols.eraseSpans q.check ∧
      ∀ symbols symbols' : Symbols, symbols.eraseSpans = symbols'.eraseSpans →
        observe (fun e => (e.cause.category, e.cause.message)) id (p.lower symbols) =
          observe (fun e => (e.cause.category, e.cause.message)) id (q.lower symbols')) ∧
    ∀ (dumps : Dumps) (source source' : String) (tokens tokens' : List Token),
      Token.ofText source = .ok tokens → Token.ofText source' = .ok tokens' →
      tokens.map Token.lexeme = tokens'.map Token.lexeme →
      observe (fun d => (d.category, d.message)) id (compileText dumps source).result =
        observe (fun d => (d.category, d.message)) id (compileText dumps source').result := by
  refine ⟨fun _ _ h => Program.ofTokens_alike h, fun p q hTree => ⟨?_, ?_⟩, ?_⟩
  · exact observe_coarsen TypeError.message (Program.check_alike hTree)
  · intro symbols symbols' hTables
    exact observe_coarsen (fun e => (e.category, e.message)) (Program.lower_alike hTree hTables)
  · intro dumps source source' tokens tokens' hTokens hTokens' h
    exact compileText_alike dumps hTokens hTokens' h

/-- A comment and line breaks inside a function change the tokens and not the outcome. -/
theorem outcome_ignores_layout_comment :
    ∃ tokens tokens' : List Token, tokens ≠ tokens' ∧
      Token.ofText "void f()\x7b\x7d" = .ok tokens ∧
      Token.ofText "void f( /* none */ )\n\x7b\n\x7d" = .ok tokens' ∧
      tokens.map Token.lexeme = tokens'.map Token.lexeme ∧
      ∀ dumps, observe (fun d => (d.category, d.message)) id
          (compileText dumps "void f()\x7b\x7d").result =
        observe (fun d => (d.category, d.message)) id
          (compileText dumps "void f( /* none */ )\n\x7b\n\x7d").result := by
  let tokens : List Token := [⟨.type, "void", ⟨0, 4⟩⟩, ⟨.ident, "f", ⟨5, 6⟩⟩,
    ⟨.lparen, "(", ⟨6, 7⟩⟩, ⟨.rparen, ")", ⟨7, 8⟩⟩, ⟨.lbrace, "\x7b", ⟨8, 9⟩⟩,
    ⟨.rbrace, "\x7d", ⟨9, 10⟩⟩]
  let tokens' : List Token := [⟨.type, "void", ⟨0, 4⟩⟩, ⟨.ident, "f", ⟨5, 6⟩⟩,
    ⟨.lparen, "(", ⟨6, 7⟩⟩, ⟨.rparen, ")", ⟨19, 20⟩⟩, ⟨.lbrace, "\x7b", ⟨21, 22⟩⟩,
    ⟨.rbrace, "\x7d", ⟨23, 24⟩⟩]
  have hTokens : Token.ofText "void f()\x7b\x7d" = .ok tokens := by
    rw [Token.ofText_eq]
    decide +kernel
  have hTokens' : Token.ofText "void f( /* none */ )\n\x7b\n\x7d" = .ok tokens' := by
    rw [Token.ofText_eq]
    decide +kernel
  exact ⟨tokens, tokens', by decide, hTokens, hTokens', rfl, fun dumps =>
    outcome_ignores_layout.2.2 dumps _ _ tokens tokens' hTokens hTokens' rfl⟩

end Compiling

end WasmCompiler
