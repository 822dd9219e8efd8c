import WasmCompiler.Proofs.Occurrences

/-! Why lowering fails on what passes the checker. It finds every name, since the checker knows no
more names where it meets them; so it fails only where an expression has a type and no instruction,
or where a raw instruction cannot be read. -/

namespace WasmCompiler

open Wasm

/-- What passes the checker and has no code. -/
inductive Occurrence.NoCode (sofar : Scope) (final : Locals) : Occurrence → Prop where
  | castStr {s u : Span} {target text : String} :
      NoCode sofar final (.expr (.cast s target (.str u text)))
  | castToVoid {s : Span} {e : Expr} : NoCode sofar final (.expr (.cast s Ty.void.name e))
  | castOfVoid {s : Span} {target : String} {e : Expr}
      (h : e.check sofar.signatures sofar.locals = .ok .void) :
      NoCode sofar final (.expr (.cast s target e))
  | bits {s : Span} {op : BinaryOp} {a b : Expr} {t : Ty} (hOp : op ∈ [.bitAnd, .bitOr])
      (hFloat : t ∈ [.f32, .f64]) (hLeft : a.check sofar.signatures sofar.locals = .ok t)
      (hRight : b.check sofar.signatures sofar.locals = .ok t) :
      NoCode sofar final (.expr (.binary s op a b))
  | raw {text : String} {cause : EmitError} (h : RawInstr.read final text = .error cause) :
      NoCode sofar final (.raw text)

namespace Scope

variable {scope : Scope}

/-- A variable in scope has a slot, with its type. -/
theorem exists_slot {x : String} {t : Ty} (hVar : (x, t) ∈ scope.locals.env) (s : Span) :
    ∃ slot, scope.slot x s = .ok (slot, t) := by
  obtain ⟨slot, hAt⟩ := List.mem_iff_getElem?.1 hVar
  exact ⟨slot, slot_eq_ok.2 hAt⟩

end Scope

/-- The operations without an instruction are the bitwise ones on numbers with a fraction. -/
theorem BinaryOp.mem_of_opcode?_eq_none {op : BinaryOp} {t r : Ty} (hOp : op.HasType t r)
    (h : op.opcode? t = none) : op ∈ [.bitAnd, .bitOr] ∧ t ∈ [Ty.f32, .f64] := by
  cases hOp with
  | logical hOp => rcases List.mem_pair.1 hOp with rfl | rfl <;> cases h
  | equality hOp hVoid =>
      rcases List.mem_pair.1 hOp with rfl | rfl
      all_goals
        cases t with
        | void => exact absurd rfl hVoid
        | _ => cases h
  | relational hOp hNum =>
      simp only [List.mem_cons, List.not_mem_nil, or_false] at hOp hNum
      rcases hOp with rfl | rfl | rfl | rfl <;> rcases hNum with rfl | rfl | rfl | rfl <;> cases h
  | arithmetic hOp hNum =>
      -- Of these operators only the last two lack an instruction, for the last two types.
      simp only [List.mem_cons, List.not_mem_nil, or_false] at hOp hNum ⊢
      rcases hNum with rfl | rfl | hFloat
      · rcases hOp with rfl | rfl | rfl | rfl | rfl | rfl <;> cases h
      · rcases hOp with rfl | rfl | rfl | rfl | rfl | rfl <;> cases h
      · refine ⟨?_, hFloat⟩
        rcases hOp with rfl | rfl | rfl | rfl | hBits
        iterate 4 rcases hFloat with rfl | rfl <;> cases h
        exact hBits

/-- A unary operation that has a type has code. -/
theorem UnaryOp.exists_lower {op : UnaryOp} {t : Ty} (h : op.HasType t) (s : Span) :
    ∃ is, op.lower t s = .ok is := by
  cases h with
  | not => exact ⟨_, rfl⟩
  | sign hSign hNum =>
      rcases List.mem_pair.1 hSign with rfl | rfl
      · exact ⟨_, rfl⟩
      · simp only [List.mem_cons, List.not_mem_nil, or_false] at hNum
        rcases hNum with rfl | rfl | rfl | rfl <;> exact ⟨_, rfl⟩

/-- A cast between types of values has code. -/
theorem Ty.void_of_lowerCast {t target : Ty} {s : Span} {err : Located EmitError}
    (h : t.lowerCast target.name s = .error err) :
    err.cause.category = .emission ∧ (t = .void ∨ target = .void) := by
  simp only [lowerCast, Ty.ofName?_eq_some.2 rfl] at h
  cases hSource : t.storage? with
  | none =>
      rw [hSource] at h
      cases h
      exact ⟨rfl, .inl (Ty.eq_void_of_storage? hSource)⟩
  | some source =>
      cases hTarget : target.storage? with
      | none =>
          rw [hSource, hTarget] at h
          cases h
          exact ⟨rfl, .inr (Ty.eq_void_of_storage? hTarget)⟩
      | some stored =>
          rw [hSource, hTarget] at h
          cases h

section Lowering

variable {sofar scope : Scope}

/-- The type that comes with the code of an expression is the type of the expression. -/
theorem Expr.type_of_lower (hSofar : sofar.Precedes scope) {e : Expr}
    {t u : Ty} {is : List Instr} (hType : e.HasType sofar.callables sofar.locals.env t)
    (h : e.lower scope = .ok (is, u)) : u = t :=
  (Expr.emits_of_lower (hType.mono hSofar.funs hSofar.env) h).1

mutual

/-- If an expression that has a type has no code, then one of its parts is the reason. -/
theorem Expr.noCode_of_lower (hSofar : sofar.Precedes scope) :
    ∀ {e : Expr} {t : Ty} {err : Located EmitError},
    e.HasType sofar.callables sofar.locals.env t → e.lower scope = .error err →
      err.cause.category = .emission ∧
        ∃ part, part.Within e ∧ (Occurrence.expr part).NoCode sofar scope.locals
  | .ident s x, t, err, hType, h => by
      cases hType with
      | ident hVar =>
          obtain ⟨slot, hSlot⟩ := Scope.exists_slot (hSofar.env hVar) s
          rw [Expr.lower, hSlot] at h
          cases h
  | .number s v, t, err, hType, h => by
      rw [Expr.lower] at h
      cases h
  | .bool s b, t, err, hType, h => by
      rw [Expr.lower] at h
      cases h
  | .str s text, t, err, hType, h => nomatch hType
  | .assign s x e, t, err, hType, h => by
      cases hType with
      | assign hVar hValue =>
          obtain ⟨slot, hSlot⟩ := Scope.exists_slot (hSofar.env hVar) s
          simp only [Expr.lower, bind_eq_error] at h
          rcases h with hError | ⟨_, -, hError | ⟨_, -, hDone⟩⟩
          · obtain ⟨hKind, part, hPart, hNo⟩ := Expr.noCode_of_lower hSofar hValue hError
            exact ⟨hKind, part, .assign hPart, hNo⟩
          · rw [hSlot] at hError
            cases hError
          · cases hDone
  | .binary s op a b, t, err, hType, h => by
      cases hType with
      | binary hLeft hRight hOp =>
          simp only [Expr.lower, bind_eq_error, Prod.exists] at h
          rcases h with hError | ⟨is, u, hA, hError | ⟨js, v, hB, hError | ⟨_, _, -, hDone⟩⟩⟩
          · obtain ⟨hKind, part, hPart, hNo⟩ := Expr.noCode_of_lower hSofar hLeft hError
            exact ⟨hKind, part, .left hPart, hNo⟩
          · obtain ⟨hKind, part, hPart, hNo⟩ := Expr.noCode_of_lower hSofar hRight hError
            exact ⟨hKind, part, .right hPart, hNo⟩
          · obtain rfl := Expr.type_of_lower hSofar hLeft hA
            unfold BinaryOp.lower at hError
            cases hCode : op.opcode? u with
            | none =>
                obtain ⟨hBits, hFloat⟩ := BinaryOp.mem_of_opcode?_eq_none hOp hCode
                simp only [hCode] at hError
                cases hError
                exact ⟨rfl, _, .self, .bits hBits hFloat ((Expr.check_eq_ok a).2 hLeft)
                  ((Expr.check_eq_ok b).2 hRight)⟩
            | some opcode =>
                simp only [hCode] at hError
                cases hError
          · cases hDone
  | .unary s op e, t, err, hType, h => by
      cases hType with
      | unary hOperand hOp =>
          simp only [Expr.lower, bind_eq_error, Prod.exists] at h
          rcases h with hError | ⟨is, u, hE, hError | ⟨_, -, hDone⟩⟩
          · obtain ⟨hKind, part, hPart, hNo⟩ := Expr.noCode_of_lower hSofar hOperand hError
            exact ⟨hKind, part, .unary hPart, hNo⟩
          · cases Expr.type_of_lower hSofar hOperand hE
            obtain ⟨code, hCode⟩ := UnaryOp.exists_lower hOp s
            rw [hCode] at hError
            cases hError
          · cases hDone
  | .cast s name e, t, err, hType, h => by
      simp only [Expr.lower, bind_eq_error, Prod.exists] at h
      cases hType with
      | cast hOperand =>
          rcases h with hError | ⟨is, u, hE, hError | ⟨_, _, -, hDone⟩⟩
          · obtain ⟨hKind, part, hPart, hNo⟩ := Expr.noCode_of_lower hSofar hOperand hError
            exact ⟨hKind, part, .cast hPart, hNo⟩
          · cases Expr.type_of_lower hSofar hOperand hE
            obtain ⟨hKind, rfl | rfl⟩ := Ty.void_of_lowerCast hError
            · exact ⟨hKind, _, .self, .castOfVoid ((Expr.check_eq_ok e).2 hOperand)⟩
            · exact ⟨hKind, _, .self, .castToVoid⟩
          · cases hDone
      | castStr =>
          rcases h with hError | ⟨is, u, hE, -⟩
          · rw [Expr.lower] at hError
            cases hError
            exact ⟨rfl, _, .self, .castStr⟩
          · rw [Expr.lower] at hE
            cases hE
  | .call s callee args, t, err, hType, h => by
      cases hType with
      | call hCallee hArgs =>
          obtain ⟨index, signature, hIndex, hGet, -, -⟩ :=
            Scope.exists_callee (hSofar.funs hCallee)
          simp only [Expr.lower, bind_eq_error] at h
          rcases h with hError | ⟨_, -, hError⟩
          · obtain ⟨hKind, arg, hArg, part, hPart, hNo⟩ :=
              Expr.noCode_of_lowerArgs hSofar hArgs hError
            exact ⟨hKind, part, .arg hArg hPart, hNo⟩
          · simp only [hIndex, hGet] at hError
            cases hError

/-- Arguments that fail to be lowered have a part without code. -/
theorem Expr.noCode_of_lowerArgs (hSofar : sofar.Precedes scope) :
    ∀ {es : List Expr} {ts : List Ty} {err : Located EmitError},
    Expr.HaveTypes sofar.callables sofar.locals.env es ts → Expr.lowerArgs scope es = .error err →
      err.cause.category = .emission ∧
        ∃ e ∈ es, ∃ part, part.Within e ∧ (Occurrence.expr part).NoCode sofar scope.locals
  | [], ts, err, hTypes, h => by
      rw [Expr.lowerArgs] at h
      cases h
  | e :: es, ts, err, hTypes, h => by
      cases hTypes with
      | cons hHead hTail =>
          simp only [Expr.lowerArgs, bind_eq_error] at h
          rcases h with hError | ⟨_, -, hError | ⟨_, -, hDone⟩⟩
          · obtain ⟨hKind, part, hPart, hNo⟩ := Expr.noCode_of_lower hSofar hHead hError
            exact ⟨hKind, e, List.mem_cons_self, part, hPart, hNo⟩
          · obtain ⟨hKind, arg, hArg, hPart⟩ :=
              Expr.noCode_of_lowerArgs hSofar hTail hError
            exact ⟨hKind, arg, List.mem_cons_of_mem e hArg, hPart⟩
          · cases hDone

end

/-- An expression that passes its check and fails to be lowered has a part without code. -/
theorem Expr.noCode_of_check (hSofar : sofar.Precedes scope) {e : Expr}
    {t : Ty} (hCheck : e.check sofar.signatures sofar.locals = .ok t) {err : Located EmitError}
    (h : e.lower scope = .error err) :
    err.cause.category = .emission ∧
      ∃ part, part.Within e ∧ (Occurrence.expr part).NoCode sofar scope.locals := by
  exact Expr.noCode_of_lower hSofar ((Expr.check_eq_ok e).1 hCheck) h

/-- An operand that cannot be read has no code. -/
theorem Wasm.Operand.read_category {locals : Locals} {op : Opcode} {word : List Char}
    {cause : EmitError} (h : Operand.read locals op word = .error cause) :
    cause.category = .emission := by
  fun_cases Operand.read locals op word with
  | case1 name slot hSlot =>
      simp only [Operand.read, hSlot] at h
      cases h
  | case2 name hSlot =>
      simp only [Operand.read, hSlot] at h
      cases h
      rfl
  | case3 word operand hOperand hWord =>
      rw [Operand.read, hOperand] at h
      · cases h
      · exact hWord
  | case4 word hOperand hWord =>
      rw [Operand.read, hOperand] at h
      · cases h
        rfl
      · exact hWord

/-- The operands of a raw instruction fail only by an error of emission. -/
theorem Wasm.readOperands_category {locals : Locals} {op : Opcode} {words : List (List Char)}
    {cause : EmitError} (h : readOperands locals op words = .error cause) :
    cause.category = .emission := by
  induction words with
  | nil => cases h
  | cons word words ih =>
      simp only [readOperands, bind_eq_error] at h
      rcases h with hError | ⟨_, -, hError | ⟨_, -, hDone⟩⟩
      · exact Operand.read_category hError
      · exact ih hError
      · cases hDone

/-- A raw instruction that cannot be read has no code. -/
theorem Wasm.RawInstr.read_category {locals : Locals} {text : String} {cause : EmitError}
    (h : RawInstr.read locals text = .error cause) : cause.category = .emission := by
  unfold RawInstr.read at h
  cases hWords : Text.words text.toList with
  | nil =>
      rw [hWords] at h
      cases h
      rfl
  | cons name words =>
      simp only [hWords] at h
      cases hOp : Opcode.ofMnemonic? (String.ofList name) with
      | none =>
          rw [hOp] at h
          cases h
          rfl
      | some op =>
          simp only [hOp] at h
          cases hRead : readOperands locals op words with
          | error found =>
              rw [hRead] at h
              cases h
              exact readOperands_category hRead
          | ok operands =>
              rw [hRead] at h
              cases h

namespace Stmt

variable {ctx : Context}

mutual

/-- If a statement that passes has no code, then something in it is the reason. -/
theorem noCode_of_lower : ∀ {s : Stmt} {l l' : Locals}
    {err : Located EmitError}, s.check ctx l = .ok l' →
      (⟨ctx.signatures, l'⟩ : Scope).Precedes scope → s.lower scope = .error err →
      err.cause.category = .emission ∧
        ∃ m o, Meets ctx l s m o ∧ o.NoCode ⟨ctx.signatures, m⟩ scope.locals
  | .function s type name params body, l, l', err, hCheck, hFinal, h => by
      simp [check, TypeError.throw] at hCheck
  | .var decl, l, l', err, hCheck, hFinal, h => by
      have hSofar := hFinal.earlier (prefix_of_check hCheck)
      rw [check, Declaration.check_eq_ok] at hCheck
      obtain ⟨t, -, -, hInits, hEntries⟩ := hCheck
      have hVar : (decl.name, t) ∈ l'.env := by
        rw [Locals.env_of_entries hEntries]
        exact List.mem_append_right _ List.mem_cons_self
      obtain ⟨slot, hSlot⟩ := Scope.exists_slot (hFinal.env hVar) decl.span
      cases hInit : decl.init with
      | none =>
          simp only [lower, hInit] at h
          cases h
      | some init =>
          simp only [lower, hInit, bind_eq_error] at h
          rcases h with hError | ⟨_, -, hError | ⟨_, -, hDone⟩⟩
          · obtain ⟨hKind, part, hPart, hNo⟩ :=
              Expr.noCode_of_check hSofar (hInits init hInit) hError
            exact ⟨hKind, l, _, .init hInit hPart, hNo⟩
          · rw [hSlot] at hError
            cases hError
          · cases hDone
  | .branch s conds blocks, l, l', err, hCheck, hFinal, h => by
      have hSofar := hFinal.earlier (prefix_of_check hCheck)
      simp only [check, bind_eq_ok] at hCheck
      obtain ⟨_, hConds, hBlocks⟩ := hCheck
      simp only [lower, bind_eq_error] at h
      rcases h with hError | ⟨_, -, hDone⟩
      · obtain ⟨hKind, hFound | ⟨m, o, hMeets, hNo⟩⟩ := noCode_of_lowerChain hSofar
          (Expr.check_of_checkConditions hConds) hBlocks hFinal hError
        · obtain ⟨cond, hCond, part, hPart, hNo⟩ := hFound
          exact ⟨hKind, l, _, .cond hCond hPart, hNo⟩
        · exact ⟨hKind, m, o, .blocks hMeets, hNo⟩
      · cases hDone
  | .loop s cond body, l, l', err, hCheck, hFinal, h => by
      have hSofar := hFinal.earlier (prefix_of_check hCheck)
      simp only [check, bind_eq_ok] at hCheck
      obtain ⟨_, hCond, hBody⟩ := hCheck
      simp only [lower, bind_eq_error] at h
      rcases h with hError | ⟨_, -, hError | ⟨_, -, hDone⟩⟩
      · obtain ⟨hKind, part, hPart, hNo⟩ := Expr.noCode_of_check hSofar
          (Expr.check_of_checkCondition hCond) hError
        exact ⟨hKind, l, _, .test hPart, hNo⟩
      · obtain ⟨hKind, m, o, hMeets, hNo⟩ := noCode_of_lowerAll hBody hFinal hError
        exact ⟨hKind, m, o, .body hMeets, hNo⟩
      · cases hDone
  | .ret s e, l, l', err, hCheck, hFinal, h => by
      have hSofar := hFinal.earlier (prefix_of_check hCheck)
      simp only [check, bind_eq_ok] at hCheck
      obtain ⟨t, hType, -⟩ := hCheck
      simp only [lower, bind_eq_error] at h
      rcases h with hError | ⟨_, -, hDone⟩
      · obtain ⟨hKind, part, hPart, hNo⟩ := Expr.noCode_of_check hSofar hType hError
        exact ⟨hKind, l, _, .ret hPart, hNo⟩
      · cases hDone
  | .raw s text, l, l', err, hCheck, hFinal, h => by
      simp only [lower] at h
      cases hRead : RawInstr.read scope.locals text with
      | ok instr =>
          rw [hRead] at h
          cases h
      | error cause =>
          rw [hRead] at h
          cases h
          exact ⟨RawInstr.read_category hRead, l, _, .raw, .raw hRead⟩
  | .eval s e, l, l', err, hCheck, hFinal, h => by
      have hSofar := hFinal.earlier (prefix_of_check hCheck)
      simp only [check, bind_eq_ok] at hCheck
      obtain ⟨t, hType, -⟩ := hCheck
      simp only [lower, bind_eq_error] at h
      rcases h with hError | ⟨_, -, hDone⟩
      · obtain ⟨hKind, part, hPart, hNo⟩ := Expr.noCode_of_check hSofar hType hError
        exact ⟨hKind, l, _, .eval hPart, hNo⟩
      · cases hDone

/-- Statements that pass their check and fail to be lowered have a part without code. -/
theorem noCode_of_lowerAll : ∀ {ss : List Stmt} {l l' : Locals}
    {err : Located EmitError}, checkAll ctx l ss = .ok l' →
      (⟨ctx.signatures, l'⟩ : Scope).Precedes scope → lowerAll scope ss = .error err →
      err.cause.category = .emission ∧
        ∃ m o, AllMeet ctx l ss m o ∧ o.NoCode ⟨ctx.signatures, m⟩ scope.locals
  | [], l, l', err, hCheck, hFinal, h => by
      rw [lowerAll] at h
      cases h
  | s :: ss, l, l', err, hCheck, hFinal, h => by
      simp only [checkAll, bind_eq_ok] at hCheck
      obtain ⟨middle, hHead, hTail⟩ := hCheck
      have hMiddle := hFinal.earlier (prefix_of_checkAll hTail)
      simp only [lowerAll, bind_eq_error] at h
      rcases h with hError | ⟨_, -, hError | ⟨_, -, hDone⟩⟩
      · obtain ⟨hKind, m, o, hMeets, hNo⟩ := noCode_of_lower hHead hMiddle hError
        exact ⟨hKind, m, o, .here hMeets, hNo⟩
      · obtain ⟨hKind, m, o, hMeets, hNo⟩ := noCode_of_lowerAll hTail hFinal hError
        exact ⟨hKind, m, o, .later hHead hMeets, hNo⟩
      · cases hDone

/-- The conditions are met before the blocks, with the variables that `l` has. -/
theorem noCode_of_lowerChain {l : Locals}
    (hSofar : (⟨ctx.signatures, l⟩ : Scope).Precedes scope) :
    ∀ {blocks : List (List Stmt)} {conds : List Expr} {start l' : Locals} {link : List Instr}
    {err : Located EmitError}, (∀ cond ∈ conds, cond.check ctx.signatures l = .ok .bool) →
      checkBlocks ctx start blocks = .ok l' → (⟨ctx.signatures, l'⟩ : Scope).Precedes scope →
      lowerChain scope link conds blocks = .error err →
      err.cause.category = .emission ∧
        ((∃ cond ∈ conds, ∃ part, part.Within cond ∧
            (Occurrence.expr part).NoCode ⟨ctx.signatures, l⟩ scope.locals) ∨
          ∃ m o, BlocksMeet ctx start blocks m o ∧ o.NoCode ⟨ctx.signatures, m⟩ scope.locals)
  | [], conds, start, l', link, err, hConds, hCheck, hFinal, h => by
      cases conds <;> simp [lowerChain] at h
  | block :: blocks, [], start, l', link, err, hConds, hCheck, hFinal, h => by
      simp only [checkBlocks, bind_eq_ok] at hCheck
      obtain ⟨middle, hHead, hTail⟩ := hCheck
      have hMiddle := hFinal.earlier (prefix_of_checkBlocks hTail)
      simp only [lowerChain, bind_eq_error] at h
      rcases h with hError | ⟨_, -, hDone⟩
      · obtain ⟨hKind, m, o, hMeets, hNo⟩ := noCode_of_lowerAll hHead hMiddle hError
        exact ⟨hKind, .inr ⟨m, o, .here hMeets, hNo⟩⟩
      · cases hDone
  | block :: blocks, cond :: conds, start, l', link, err, hConds, hCheck, hFinal, h => by
      obtain ⟨hCond, hMore⟩ := List.forall_mem_cons.1 hConds
      simp only [checkBlocks, bind_eq_ok] at hCheck
      obtain ⟨middle, hHead, hTail⟩ := hCheck
      have hMiddle := hFinal.earlier (prefix_of_checkBlocks hTail)
      simp only [lowerChain, bind_eq_error] at h
      rcases h with hError | ⟨_, -, hError | ⟨_, -, hError | ⟨_, -, hDone⟩⟩⟩
      · obtain ⟨hKind, part, hPart, hNo⟩ := Expr.noCode_of_check hSofar hCond hError
        exact ⟨hKind, .inl ⟨cond, List.mem_cons_self, part, hPart, hNo⟩⟩
      · obtain ⟨hKind, m, o, hMeets, hNo⟩ := noCode_of_lowerAll hHead hMiddle hError
        exact ⟨hKind, .inr ⟨m, o, .here hMeets, hNo⟩⟩
      · obtain ⟨hKind, ⟨other, hMem, hFound⟩ | ⟨m, o, hMeets, hNo⟩⟩ :=
          noCode_of_lowerChain hSofar hMore hTail hFinal hError
        · exact ⟨hKind, .inl ⟨other, List.mem_cons_of_mem cond hMem, hFound⟩⟩
        · exact ⟨hKind, .inr ⟨m, o, .later hHead hMeets, hNo⟩⟩
      · cases hDone

end

end Stmt

end Lowering

end WasmCompiler
