import WasmCompiler.Proofs.Operators

/-! Compiled code does what the language says. The variables of a function are kept in slots, the
value of an expression is left on the operands, and a statement leaves the operands as they
were or leaves the function. Runs of the program and of the machine are related under the same
bound, so that one ends if and only if the other does. -/

namespace WasmCompiler

open Number Wasm

/-- The slots hold the variables. -/
structure Agrees (Γ : Env) (store : Store) (locals : List Val) : Prop where
  length : locals.length = Γ.length
  value : ∀ {slot : Nat} {x : String} {t : Ty}, Γ[slot]? = some (x, t) →
    ∃ v, store x = some v ∧ v.type = t ∧ locals[slot]? = some v.encode

/-- Setting a variable and setting its slot keep the slots in agreement with the variables. -/
theorem Agrees.set {Γ : Env} {store : Store} {locals : List Val}
    (hDistinct : (Γ.map Prod.fst).Nodup) (hAgrees : Agrees Γ store locals) {slot : Nat}
    {x : String} {t : Ty} (hVar : Γ[slot]? = some (x, t)) {v : Value} (hType : v.type = t) :
    Agrees Γ (store.set x v) (locals.set slot v.encode) := by
  have hSlot : slot < locals.length := by
    rw [hAgrees.length]
    exact (List.getElem?_eq_some_iff.1 hVar).1
  refine ⟨by rw [List.length_set, hAgrees.length], fun {other y u} hOther => ?_⟩
  by_cases hSame : slot = other
  · subst hSame
    rw [hVar] at hOther
    cases hOther
    exact ⟨v, by simp [Store.set], hType, by simp [hSlot]⟩
  · obtain ⟨w, hStore, hW, hLocal⟩ := hAgrees.value hOther
    have hName : y ≠ x := by
      rintro rfl
      refine hSame ((List.getElem?_inj ?_ hDistinct).1 ?_)
      · rw [List.length_map, ← hAgrees.length]
        exact hSlot
      · simp [hVar, hOther]
    exact ⟨w, by simp [Store.set, hName, hStore], hW, by rw [List.getElem?_set_ne hSame, hLocal]⟩

/-- The result of a type: a value of it, or none if it is `void`. -/
def Typed (t : Ty) : Option Value → Prop
  | some v => v.type = t
  | none => t = .void

/-- An expression of a type other than `void` has a value of that type. -/
theorem Typed.exists_value {t : Ty} {v : Option Value} (h : Typed t v) (hVoid : t ≠ .void) :
    ∃ w, v = some w ∧ w.type = t := by
  cases v with
  | none => exact absurd h hVoid
  | some w => exact ⟨w, rfl, h⟩

theorem Value.type_ne_void (v : Value) : v.type ≠ .void := by
  cases v <;> simp [type]

/-- The operands that a result leaves. -/
def operands (v : Option Value) : List Val := (v.map Value.encode).toList

/-- Functions are called by their names in the program and by their numbers on the machine, with
the same results. -/
structure CallsAgree (fs : List Callable) (call : Expr.Calls) (number : Calls) : Prop where
  params : ∀ f ∈ fs, Ty.void ∉ f.params
  agree : ∀ {index : Nat} {f : Callable}, fs[index]? = some f → ∀ {args : List Value},
    args.map Value.type = f.params → ∀ s : List Val,
      Run.Rel (fun v stack => Typed f.ret v ∧ stack = operands v ++ s) (call f.name args)
        (number index ((args.map Value.encode).reverse ++ s))

namespace Wasm.Structured

variable {call : Calls} {bound : Nat}

@[simp] theorem runAll_nil (f : Frame) : runAll call bound [] f = .done (.next f) := by
  rw [runAll]

theorem runAll_singleton (t : Structured) (f : Frame) :
    runAll call bound [t] f = run call bound t f := by
  rw [runAll]
  cases run call bound t f with
  | done signal => cases signal <;> simp [Signal.andThen]
  | trap => rfl
  | timeout => rfl
  | stuck => rfl

/-- Code after code runs where the first part leads to, unless that leaves for elsewhere. -/
theorem runAll_append (ts us : List Structured) (f : Frame) :
    runAll call bound (ts ++ us) f =
      runAll call bound ts f >>= fun signal => signal.andThen (runAll call bound us) := by
  induction ts generalizing f with
  | nil => simp [Signal.andThen]
  | cons t ts ih =>
      rw [List.cons_append, runAll, runAll]
      cases run call bound t f with
      | done signal =>
          cases signal with
          | next g => exact ih g
          | br depth g => rfl
          | ret stack => rfl
      | trap => rfl
      | timeout => rfl
      | stuck => rfl

end Wasm.Structured

open Structured

/-- A signal that leads to the next instruction, with a frame that is related to a value. -/
inductive Reaches {α : Type} (R : α → Frame → Prop) (a : α) : Signal → Prop where
  | next {f : Frame} (h : R a f) : Reaches R a (.next f)

/-- Code after code, where the first part leads to the second. -/
theorem Run.Rel.append {α β : Type} {R : α → Frame → Prop} {S : β → Signal → Prop} {x : Run α}
    {rest : α → Run β} {call : Calls} {bound : Nat} {ts us : List Structured} {f : Frame}
    (hFirst : Run.Rel (Reaches R) x (runAll call bound ts f))
    (hRest : ∀ a g, R a g → Run.Rel S (rest a) (runAll call bound us g)) :
    Run.Rel S (x >>= rest) (runAll call bound (ts ++ us) f) := by
  rw [runAll_append]
  refine hFirst.bind ?_
  rintro a _ ⟨h⟩
  exact hRest a _ h

/-- Instructions that open no block. -/
def plains (is : List Instr) : List Structured := is.map .plain

@[simp] theorem plains_append (is js : List Instr) : plains (is ++ js) = plains is ++ plains js :=
  List.map_append

theorem plains_cons (i : Instr) (is : List Instr) : plains (i :: is) = plains [i] ++ plains is :=
  rfl

theorem runAll_plain {call : Calls} {bound : Nat} (i : Instr) (f : Frame) :
    runAll call bound (plains [i]) f = i.step call f := by
  rw [plains, List.map_singleton, runAll_singleton, run]

/-- An instruction without operands acts on the stack alone, a return apart. -/
theorem step_plain {op : Opcode} (hRet : op ≠ .ret) (call : Calls) (f : Frame) :
    (Instr.plain op).step call f = do return .next ⟨f.locals, ← op.apply f.stack⟩ := by
  cases op
  case ret => exact absurd rfl hRet
  all_goals rfl

/-- An expression leaves its value before the operands, and its variables in their slots. -/
structure Leaves (Γ : Env) (t : Ty) (s : List Val) (result : Option Value × Store) (f : Frame) :
    Prop where
  typed : Typed t result.1
  stack : f.stack = operands result.1 ++ s
  agrees : Agrees Γ result.2 f.locals

/-- Arguments leave their values before the operands, the last of them first. -/
structure LeavesAll (Γ : Env) (ts : List Ty) (s : List Val) (result : List Value × Store)
    (f : Frame) : Prop where
  types : result.1.map Value.type = ts
  stack : f.stack = (result.1.map Value.encode).reverse ++ s
  agrees : Agrees Γ result.2 f.locals

section Expressions

variable {fs : List Callable} {Γ : Env} {call : Expr.Calls} {number : Wasm.Calls} {bound : Nat}

/-- A computation that pushes its value leaves it, with the variables as they were. -/
theorem Run.Rel.leaves {t : Ty} {s : List Val} {x : Run Value} {y : Run (List Val)}
    (h : Pushes t s x y) {store : Store} {locals : List Val} (hAgrees : Agrees Γ store locals) :
    Run.Rel (Reaches (Leaves Γ t s)) (do return (some (← x), store))
      (do return .next ⟨locals, ← y⟩) := by
  refine h.bind ?_
  rintro v _ ⟨hType, rfl⟩
  exact .done (.next ⟨hType, rfl, hAgrees⟩)

/-- Code after the code of an operand, which has a value. -/
theorem Run.Rel.operand {β : Type} {S : β → Signal → Prop} {x : Run (Option Value × Store)}
    {rest : Option Value × Store → Run β} {t : Ty} {s : List Val} {ts us : List Structured}
    {f : Frame} (hFirst : Run.Rel (Reaches (Leaves Γ t s)) x (runAll number bound ts f))
    (hVoid : t ≠ .void)
    (hRest : ∀ (v : Value) (store : Store) (locals : List Val), v.type = t →
      Agrees Γ store locals →
        Run.Rel S (rest (some v, store)) (runAll number bound us ⟨locals, v.encode :: s⟩)) :
    Run.Rel S (x >>= rest) (runAll number bound (ts ++ us) f) := by
  refine hFirst.append ?_
  rintro ⟨v, store⟩ ⟨locals, stack⟩ ⟨hTyped, hStack, hAgrees⟩
  obtain ⟨w, rfl, hType⟩ := hTyped.exists_value hVoid
  dsimp only at hStack
  subst hStack
  exact hRest w store locals hType hAgrees

theorem Ty.ne_void_of_numeric {t : Ty} (hNum : t ∈ [.i32, .i64, .f32, .f64]) : t ≠ .void := by
  rintro rfl
  simp at hNum

theorem Ty.ne_void_of_storage? {t : Ty} {stored : ValType} (h : t.storage? = some stored) :
    t ≠ .void := by
  rintro rfl
  cases h

theorem BinaryOp.HasType.ne_void {op : BinaryOp} {t r : Ty} (h : op.HasType t r) :
    t ≠ .void := by
  cases h with
  | logical _ => simp
  | equality _ hVoid => exact hVoid
  | relational _ hNum => exact Ty.ne_void_of_numeric hNum
  | arithmetic _ hNum => exact Ty.ne_void_of_numeric hNum

/-- A plus sign changes no number. -/
theorem UnaryOp.apply_plus {v : Value} (hNum : v.type ∈ [.i32, .i64, .f32, .f64]) :
    UnaryOp.plus.apply v = .done v := by
  cases v
  case bool => simp [Value.type] at hNum
  all_goals rfl

mutual

/-- The code of an expression computes it. -/
theorem Expr.Emits.simulates (hDistinct : (Γ.map Prod.fst).Nodup)
    (hCalls : CallsAgree fs call number) : ∀ {e : Expr} {t : Ty} {is : List Instr},
    e.Emits fs Γ t is → e.BoolCasts fs Γ → ∀ {store : Store} {locals : List Val} (s : List Val),
      Agrees Γ store locals →
      Run.Rel (Reaches (Leaves Γ t s)) (e.eval call store)
        (runAll number bound (plains is) ⟨locals, s⟩)
  | _, _, _, .ident hVar, _, store, locals, s, hAgrees => by
      obtain ⟨v, hStore, hType, hLocal⟩ := hAgrees.value hVar
      simp only [Expr.eval, runAll_plain, Instr.step, Instr.localGet, hStore, hLocal, Run.need]
      exact .done (.next ⟨hType, rfl, hAgrees⟩)
  | _, _, _, .number hLit, _, store, locals, s, hAgrees => by
      rw [Expr.eval, runAll_plain, Literal.step_lower]
      exact .done (.next ⟨Literal.type_value hLit, rfl, hAgrees⟩)
  | _, _, _, .bool, _, store, locals, s, hAgrees => by
      rw [Expr.eval, runAll_plain, Instr.step_i32Const_bool]
      exact .done (.next ⟨rfl, rfl, hAgrees⟩)
  | _, _, _, .assign hVar hValue, hCasts, store, locals, s, hAgrees => by
      obtain ⟨old, -, hOld, -⟩ := hAgrees.value hVar
      rw [Expr.eval, plains_append]
      refine (hValue.simulates hDistinct hCalls hCasts s hAgrees).operand
        (hOld ▸ old.type_ne_void) ?_
      intro v after slots hType hAfter
      have hSlot := (List.getElem?_eq_some_iff.1 hVar).1
      rw [runAll_plain, Instr.localSet, Instr.step]
      dsimp only
      rw [if_pos (hAfter.length ▸ hSlot)]
      exact .done (.next ⟨rfl, rfl, hAfter.set hDistinct hVar hType⟩)
  | _, _, _, .binary hLeft hRight hOp hCode, hCasts, store, locals, s, hAgrees => by
      rw [Expr.eval, plains_append, plains_append]
      refine (hLeft.simulates hDistinct hCalls hCasts.1 s hAgrees).operand hOp.ne_void ?_
      intro left store₁ locals₁ hLeftType hAgrees₁
      refine (hRight.simulates hDistinct hCalls hCasts.2 _ hAgrees₁).operand hOp.ne_void ?_
      intro right store₂ locals₂ hRightType hAgrees₂
      rw [runAll_plain, step_plain (BinaryOp.isOperator_of_opcode? hCode).stays]
      exact (BinaryOp.pushes_apply s hOp hCode hLeftType hRightType).leaves hAgrees₂
  | _, _, _, .plus hOperand hNum, hCasts, store, locals, s, hAgrees => by
      rw [Expr.eval, ← List.append_nil (plains _)]
      refine (hOperand.simulates hDistinct hCalls hCasts s hAgrees).operand
        (Ty.ne_void_of_numeric hNum) ?_
      intro v after slots hType hAfter
      subst hType
      simp only [Run.need, Run.done_bind, UnaryOp.apply_plus hNum, runAll_nil]
      exact .done (.next ⟨rfl, rfl, hAfter⟩)
  | _, _, _, .neg hOperand hStored hNum hOne hMul, hCasts, store, locals, s, hAgrees => by
      rw [Expr.eval, plains_append]
      refine (hOperand.simulates hDistinct hCalls hCasts s hAgrees).operand
        (Ty.ne_void_of_numeric hNum) ?_
      intro v after slots hType hAfter
      obtain ⟨one, hStep, hPushes⟩ := UnaryOp.pushes_neg hStored hNum hOne hMul hType s
      rw [plains_cons, runAll_append, runAll_plain, hStep]
      simp only [Run.done_bind, Signal.andThen, Run.need]
      rw [runAll_plain, step_plain (BinaryOp.isOperator_of_opcode? hMul).stays]
      exact hPushes.leaves hAfter
  | _, _, _, .not hOperand, hCasts, store, locals, s, hAgrees => by
      rw [Expr.eval, plains_append]
      refine (hOperand.simulates hDistinct hCalls hCasts s hAgrees).operand (by simp) ?_
      intro v after slots hType hAfter
      obtain ⟨b, rfl⟩ : ∃ b, v = .bool b := by
        cases v <;> cases hType
        exact ⟨_, rfl⟩
      have hXor := congrArg (fun q => Val.i32 q :: s) (Value.ofBool_xor_one b)
      exact .done (.next ⟨rfl, hXor, hAfter⟩)
  | _, _, _, @Expr.Emits.cast _ _ _ _ _ target source stored _ hOperand hType hSource hStored,
    hCasts, store, locals, s, hAgrees => by
      rw [Expr.eval, plains_append]
      refine (hOperand.simulates hDistinct hCalls hCasts.2 s hAgrees).operand
        (Ty.ne_void_of_storage? hSource) ?_
      intro v after slots hValue hAfter
      have hPushes := Value.pushes_cast hSource hStored
        (fun hBool => hCasts.1 (congrArg Ty.name hBool) _ hType) hValue s
      simp only [Run.need, Run.done_bind, Ty.ofName?_eq_some.2 rfl]
      cases hCode : conversion? source stored with
      | none =>
          rw [hCode] at hPushes
          exact hPushes.leaves hAfter
      | some opcode =>
          rw [hCode] at hPushes
          rw [Option.map_some, Option.toList_some, runAll_plain,
            step_plain (isOperator_of_conversion? hCode).stays]
          exact hPushes.leaves hAfter
  | _, _, _, .call hCallee hArgs, hCasts, store, locals, s, hAgrees => by
      have hVoid := hCalls.params _ (List.mem_of_getElem? hCallee)
      rw [Expr.eval, plains_append]
      refine (hArgs.simulates hDistinct hCalls hCasts hVoid s hAgrees).append ?_
      rintro ⟨vs, after⟩ ⟨slots, stack⟩ ⟨hTypes, hStack, hAfter⟩
      dsimp only at hTypes hStack hAfter
      subst hStack
      rw [runAll_plain]
      refine (hCalls.agree hCallee hTypes s).bind ?_
      rintro v _ ⟨hTyped, rfl⟩
      exact .done (.next ⟨hTyped, rfl, hAfter⟩)

/-- The code of arguments leaves their values, the last of them on top. -/
theorem Expr.AllEmit.simulates (hDistinct : (Γ.map Prod.fst).Nodup)
    (hCalls : CallsAgree fs call number) : ∀ {es : List Expr} {ts : List Ty} {is : List Instr},
    AllEmit fs Γ es ts is → AllBoolCasts fs Γ es → Ty.void ∉ ts →
      ∀ {store : Store} {locals : List Val} (s : List Val), Agrees Γ store locals →
      Run.Rel (Reaches (LeavesAll Γ ts s)) (Expr.evalArgs call store es)
        (runAll number bound (plains is) ⟨locals, s⟩)
  | _, _, _, .nil, _, _, store, locals, s, hAgrees => by
      rw [Expr.evalArgs]
      exact .done (.next ⟨rfl, rfl, hAgrees⟩)
  | _, _, _, .cons hHead hTail, hCasts, hVoid, store, locals, s, hAgrees => by
      rw [List.mem_cons, not_or] at hVoid
      rw [Expr.evalArgs, plains_append]
      refine (hHead.simulates hDistinct hCalls hCasts.1 s hAgrees).operand (Ne.symm hVoid.1) ?_
      intro v store₁ locals₁ hType hAgrees₁
      have hRest := hTail.simulates hDistinct hCalls hCasts.2 hVoid.2 (v.encode :: s) hAgrees₁
      rw [← List.append_nil (plains _)]
      refine hRest.append ?_
      rintro ⟨vs, store₂⟩ ⟨locals₂, stack⟩ ⟨hTypes, hStack, hAgrees₂⟩
      refine .done (.next ⟨?_, ?_, hAgrees₂⟩)
      · rw [List.map_cons, hType, hTypes]
      · simpa using hStack

end

/-- A condition leaves the number that stands for its truth value. -/
structure Tests (Γ : Env) (s : List Val) (result : Bool × Store) (f : Frame) : Prop where
  stack : f.stack = .i32 (Value.ofBool result.1) :: s
  agrees : Agrees Γ result.2 f.locals

/-- The code of a condition leaves one for a condition that holds and zero for one that does not. -/
theorem Expr.Emits.tests (hDistinct : (Γ.map Prod.fst).Nodup)
    (hCalls : CallsAgree fs call number) {cond : Expr} {is : List Instr}
    (hCond : cond.Emits fs Γ .bool is) (hCasts : cond.BoolCasts fs Γ) {store : Store}
    {locals : List Val} (s : List Val) (hAgrees : Agrees Γ store locals) :
    Run.Rel (Reaches (Tests Γ s)) (cond.test call store)
      (runAll number bound (plains is) ⟨locals, s⟩) := by
  rw [Expr.test, ← List.append_nil (plains is)]
  refine (hCond.simulates hDistinct hCalls hCasts s hAgrees).operand (by simp) ?_
  intro v after slots hType hAfter
  cases v <;> cases hType
  exact .done (.next ⟨rfl, hAfter⟩)

end Expressions

/-- Instructions that are nested in a given way, whatever stands around them. -/
def Nests (is : List Instr) (ts : List Structured) : Prop :=
  ∀ rest done around, nestFrom (is ++ rest) done around = nestFrom rest (done ++ ts) around

namespace Nests

/-- Instructions that are nested in one way wherever they stand are nested so on their own. -/
theorem nest?_eq {is : List Instr} {ts : List Structured} (h : Nests is ts) :
    nest? is = some ts := by
  simpa [nest?, nestFrom] using h [] [] []

theorem nil : Nests [] [] := by
  intro rest done around
  simp

/-- Instructions after instructions are nested after them. -/
theorem append {is js : List Instr} {ts us : List Structured} (hIs : Nests is ts)
    (hJs : Nests js us) : Nests (is ++ js) (ts ++ us) := by
  intro rest done around
  rw [List.append_assoc, hIs, hJs, List.append_assoc]

/-- An instruction that neither opens nor closes a block. -/
theorem plain {i : Instr} (hOpens : i.op.opens = false) (hCloses : i.op.closes = false) :
    Nests [i] [.plain i] := by
  obtain ⟨op, arg⟩ := i
  intro rest done around
  cases op
  case block | loop | ifOp => cases hOpens
  case elseOp | endOp => cases hCloses
  all_goals rfl

theorem operator {op : Opcode} (h : op.IsOperator) : Nests [.plain op] [.plain (.plain op)] :=
  plain h.opens h.closes

/-- A loop is nested around its body. -/
theorem loop {body : List Instr} {ts : List Structured} (hBody : Nests body ts) :
    Nests (.loop :: (body ++ [.plain .endOp])) [.loop ts] := by
  intro rest done around
  rw [List.cons_append, List.append_assoc]
  exact hBody _ [] ((.loop, done) :: around)

/-- A branch is nested around its block. -/
theorem branch {yes : List Instr} {ts : List Structured} (hYes : Nests yes ts) :
    Nests (.ifOp :: (yes ++ [.plain .endOp])) [.branch 0 ts []] := by
  intro rest done around
  rw [List.cons_append, List.append_assoc]
  exact hYes _ [] ((.yes 0, done) :: around)

/-- A branch with an `else` is nested around both its blocks. -/
theorem branchElse {yes no : List Instr} {ts us : List Structured} (hYes : Nests yes ts)
    (hNo : Nests no us) :
    Nests (.ifOp :: (yes ++ (.plain .elseOp :: (no ++ [.plain .endOp])))) [.branch 0 ts us] := by
  intro rest done around
  have hElse := hNo ([.plain .endOp] ++ rest) [] ((.no 0 ts, done) :: around)
  rw [List.cons_append, List.append_assoc, List.cons_append, List.append_assoc]
  exact (hYes _ [] ((.yes 0, done) :: around)).trans hElse

end Nests

section Statements

variable {fs : List Callable} {Γ : Env} {r : Ty}

theorem Literal.nests_lower (v : Literal) : Nests [v.lower.1] (plains [v.lower.1]) := by
  cases v <;> exact .plain rfl rfl

theorem Instr.nests_minusOne? {stored : ValType} {i : Instr} (h : Instr.minusOne? stored = some i) :
    Nests [i] (plains [i]) := by
  cases stored <;> cases h <;> exact .plain rfl rfl

mutual

/-- The code of an expression has no blocks. -/
theorem Expr.Emits.nests : ∀ {e : Expr} {t : Ty} {is : List Instr}, e.Emits fs Γ t is →
    Nests is (plains is)
  | _, _, _, .ident _ => .plain rfl rfl
  | _, _, _, .number _ => Literal.nests_lower _
  | _, _, _, .bool => .plain rfl rfl
  | _, _, _, .assign _ hValue => plains_append _ _ ▸ hValue.nests.append (.plain rfl rfl)
  | _, _, _, .binary hLeft hRight _ hCode => by
      rw [plains_append, plains_append]
      exact hLeft.nests.append
        (hRight.nests.append (.operator (BinaryOp.isOperator_of_opcode? hCode)))
  | _, _, _, .plus hOperand _ => hOperand.nests
  | _, _, _, .neg hOperand _ _ hOne hMul => by
      rw [plains_append, plains_cons]
      exact hOperand.nests.append
        ((Instr.nests_minusOne? hOne).append (.operator (BinaryOp.isOperator_of_opcode? hMul)))
  | _, _, _, .not hOperand => by
      rw [plains_append, plains_cons]
      exact hOperand.nests.append (.append (.plain rfl rfl) (.plain rfl rfl))
  | _, _, _, @Expr.Emits.cast _ _ _ _ _ _ source stored _ hOperand _ _ _ => by
      rw [plains_append]
      refine hOperand.nests.append ?_
      cases hCode : conversion? source stored with
      | none => exact .nil
      | some opcode => exact .operator (isOperator_of_conversion? hCode)
  | _, _, _, .call _ hArgs => plains_append _ _ ▸ hArgs.nests.append (.plain rfl rfl)

theorem Expr.AllEmit.nests : ∀ {es : List Expr} {ts : List Ty} {is : List Instr},
    AllEmit fs Γ es ts is → Nests is (plains is)
  | _, _, _, .nil => .nil
  | _, _, _, .cons hHead hTail => plains_append _ _ ▸ hHead.nests.append hTail.nests

end

/-- Where a statement leads. It leaves the operands alone, and what it returns is on top of
them. -/
inductive Follows (Γ : Env) (r : Ty) (s : List Val) : Flow → Signal → Prop where
  | next {store : Store} {locals : List Val} (hAgrees : Agrees Γ store locals) :
      Follows Γ r s (.next store) (.next ⟨locals, s⟩)
  | ret {v : Option Value} (hTyped : Typed r v) (rest : List Val) :
      Follows Γ r s (.ret v) (.ret (operands v ++ rest))

/-- A block leaves the operands below it alone, wherever it leads. -/
theorem Follows.leave {flow : Flow} {signal : Signal} (h : Follows Γ r [] flow signal)
    (s : List Val) : Follows Γ r s flow (signal.leave 0 s) := by
  cases h with
  | next hAgrees => exact .next hAgrees
  | ret hTyped rest => exact .ret hTyped rest

variable {call : Expr.Calls} {number : Wasm.Calls} {bound : Nat}

/-- Code does what a statement does, from variables that agree. -/
def Simulates (Γ : Env) (r : Ty) (number : Wasm.Calls) (bound : Nat) (exec : Store → Run Flow)
    (ts : List Structured) : Prop :=
  ∀ {store : Store} {locals : List Val} (s : List Val), Agrees Γ store locals →
    Run.Rel (Follows Γ r s) (exec store) (runAll number bound ts ⟨locals, s⟩)

/-- Code after code does what a statement after a statement does. -/
theorem Simulates.append {first rest : Store → Run Flow} {ts us : List Structured}
    (hFirst : Simulates Γ r number bound first ts) (hRest : Simulates Γ r number bound rest us) :
    Simulates Γ r number bound (fun store => do (← first store).andThen rest) (ts ++ us) := by
  intro store locals s hAgrees
  rw [runAll_append]
  refine (hFirst s hAgrees).bind ?_
  intro flow signal hFollows
  cases hFollows with
  | next hAfter => exact hRest s hAfter
  | ret hTyped rest => exact .done (.ret hTyped rest)

/-- A test and the block that it chooses. What the machine does after the block is part of the
statement, since a loop goes on from there. -/
theorem branch_rel {α : Type} {S : α → Signal → Prop} {test : Run (Bool × Store)}
    (yes no : Store → Run α) (after : Signal → Run Signal) {is : List Instr}
    {ts us : List Structured} {s : List Val} {f : Frame}
    (hTest : Run.Rel (Reaches (Tests Γ s)) test (runAll number bound (plains is) f))
    (hYes : ∀ {store : Store} {locals : List Val}, Agrees Γ store locals →
      Run.Rel S (yes store)
        (runAll number bound ts ⟨locals, []⟩ >>= fun signal => after (signal.leave 0 s)))
    (hNo : ∀ {store : Store} {locals : List Val}, Agrees Γ store locals →
      Run.Rel S (no store)
        (runAll number bound us ⟨locals, []⟩ >>= fun signal => after (signal.leave 0 s))) :
    Run.Rel S (do let (holds, store) ← test; if holds then yes store else no store)
      (runAll number bound (plains is ++ [.branch 0 ts us]) f >>= after) := by
  rw [runAll_append, Run.bind_assoc]
  refine hTest.bind ?_
  rintro ⟨holds, store⟩ _ @⟨⟨locals, stack⟩, ⟨hStack, hAgrees⟩⟩
  dsimp only at hStack hAgrees
  subst hStack
  simp only [Signal.andThen, runAll_singleton, run]
  cases holds with
  | true =>
      have hOne : Value.ofBool true ≠ 0 := by decide
      rw [if_neg hOne, Run.bind_assoc, if_pos rfl]
      exact hYes hAgrees
  | false =>
      have hZero : Value.ofBool false = 0 := rfl
      rw [if_pos hZero, Run.bind_assoc, if_neg (by simp)]
      exact hNo hAgrees

/-- Every round of the loop of the machine is a round of the loop of the program. -/
theorem loop_rel {test : Store → Run (Bool × Store)} {body : Store → Run Flow} {is : List Instr}
    {ts : List Structured}
    (hTest : ∀ {store : Store} {locals : List Val}, Agrees Γ store locals →
      Run.Rel (Reaches (Tests Γ [])) (test store)
        (runAll number bound (plains is) ⟨locals, []⟩))
    (hBody : Simulates Γ r number bound body ts) (s : List Val) (rounds : Nat) :
    ∀ {store : Store} {locals : List Val}, Agrees Γ store locals →
      Run.Rel (Follows Γ r s) (whileRounds test body rounds store)
        (loopRounds (fun locals => runAll number bound
          (plains is ++ [.branch 0 (ts ++ [.plain (.br 1)]) []]) ⟨locals, []⟩) s rounds
            locals) := by
  induction rounds with
  | zero =>
      intro store locals _
      exact .timeout
  | succ rounds ih =>
      intro store locals hAgrees
      rw [whileRounds, loopRounds]
      refine branch_rel (fun store => do (← body store).andThen (whileRounds test body rounds))
        (fun store => .done (.next store)) _ (hTest hAgrees) ?_ ?_
      · intro store locals hAgrees
        rw [runAll_append, Run.bind_assoc]
        refine (hBody [] hAgrees).bind ?_
        intro flow signal hFollows
        cases hFollows with
        | next hAfter => exact ih hAfter
        | ret hTyped rest => exact .done (.ret hTyped rest)
      · intro store locals hAgrees
        exact .done (.next hAgrees)

/-- Code that tests a condition and then chooses between two blocks. -/
theorem Simulates.branch {test : Store → Run (Bool × Store)} (yes no : Store → Run Flow)
    {is : List Instr} {ts us : List Structured}
    (hTest : ∀ {store : Store} {locals : List Val} (s : List Val), Agrees Γ store locals →
      Run.Rel (Reaches (Tests Γ s)) (test store) (runAll number bound (plains is) ⟨locals, s⟩))
    (hYes : Simulates Γ r number bound yes ts) (hNo : Simulates Γ r number bound no us) :
    Simulates Γ r number bound
      (fun store => do let (holds, store) ← test store; if holds then yes store else no store)
      (plains is ++ [.branch 0 ts us]) := by
  intro store locals s hAgrees
  have hBlock {exec : Store → Run Flow} {block : List Structured}
      (h : Simulates Γ r number bound exec block) {store : Store} {locals : List Val}
      (hAgrees : Agrees Γ store locals) :
      Run.Rel (Follows Γ r s) (exec store)
        (runAll number bound block ⟨locals, []⟩ >>= fun signal => .done (signal.leave 0 s)) := by
    rw [← Run.bind_done (exec store)]
    refine (h [] hAgrees).bind ?_
    intro flow signal hFollows
    exact .done (hFollows.leave s)
  rw [← Run.bind_done (runAll _ _ _ _)]
  exact branch_rel yes no .done (hTest s hAgrees) (hBlock hYes) (hBlock hNo)

mutual

/-- The code of a statement does what the statement does. -/
theorem Stmt.Emits.simulates (hDistinct : (Γ.map Prod.fst).Nodup)
    (hCalls : CallsAgree fs call number) : ∀ {stmt : Stmt} {is : List Instr},
    stmt.Emits fs Γ r is → stmt.BoolCasts fs Γ →
      ∃ ts, Nests is ts ∧ Simulates Γ r number bound (stmt.exec call bound) ts
  | _, _, .var, _ => by
      refine ⟨[], .nil, ?_⟩
      intro store locals s hAgrees
      rw [Stmt.exec]
      exact .done (.next hAgrees)
  | _, _, .varInit hVar hInit, hCasts => by
      refine ⟨_, hInit.nests.append (.plain rfl rfl), ?_⟩
      intro store locals s hAgrees
      obtain ⟨old, -, hOld, -⟩ := hAgrees.value hVar
      rw [Stmt.exec]
      refine (hInit.simulates hDistinct hCalls (hCasts _ rfl) s hAgrees).operand
        (hOld ▸ old.type_ne_void) ?_
      intro v after slots hType hAfter
      have hSlot := (List.getElem?_eq_some_iff.1 hVar).1
      rw [runAll_singleton, run, Instr.localSet, Instr.step]
      dsimp only
      rw [if_pos (hAfter.length ▸ hSlot)]
      exact .done (.next (hAfter.set hDistinct hVar hType))
  | _, _, .branch hChain, hCasts => by
      obtain ⟨ts, hNests, hSimulates⟩ := hChain.simulates hDistinct hCalls hCasts.1 hCasts.2
      refine ⟨ts, hNests, ?_⟩
      intro store locals s hAgrees
      rw [Stmt.exec]
      exact hSimulates s hAgrees
  | _, _, .loop hCond hBody, hCasts => by
      obtain ⟨ts, hNests, hSimulates⟩ := hBody.simulates hDistinct hCalls hCasts.2
      refine ⟨_, .loop (hCond.nests.append (.branch (hNests.append (.plain rfl rfl)))), ?_⟩
      intro store locals s hAgrees
      rw [Stmt.exec, runAll_singleton, run]
      exact loop_rel (hCond.tests hDistinct hCalls hCasts.1 []) hSimulates s bound hAgrees
  | _, _, .ret hValue, hCasts => by
      refine ⟨_, hValue.nests.append (.plain rfl rfl), ?_⟩
      intro store locals s hAgrees
      rw [Stmt.exec]
      refine (hValue.simulates hDistinct hCalls hCasts s hAgrees).append ?_
      rintro ⟨v, after⟩ ⟨slots, stack⟩ ⟨hTyped, hStack, -⟩
      dsimp only at hStack
      subst hStack
      exact .done (.ret hTyped s)
  | _, _, .eval hExpr hStored, hCasts => by
      refine ⟨_, hExpr.nests.append (.plain rfl rfl), ?_⟩
      intro store locals s hAgrees
      rw [Stmt.exec]
      refine (hExpr.simulates hDistinct hCalls hCasts s hAgrees).operand
        (Ty.ne_void_of_storage? hStored) ?_
      intro v after slots hType hAfter
      exact .done (.next hAfter)
  | _, _, .evalVoid hExpr, hCasts => by
      refine ⟨_, hExpr.nests, ?_⟩
      intro store locals s hAgrees
      rw [Stmt.exec, ← List.append_nil (plains _)]
      refine (hExpr.simulates hDistinct hCalls hCasts s hAgrees).append ?_
      rintro ⟨v, after⟩ ⟨slots, stack⟩ ⟨hTyped, hStack, hAfter⟩
      dsimp only at hTyped hStack
      subst hStack
      cases v with
      | none => exact .done (.next hAfter)
      | some w => exact absurd hTyped w.type_ne_void

/-- The code of statements is nested, and does what they do in turn. -/
theorem Stmt.AllEmit.simulates (hDistinct : (Γ.map Prod.fst).Nodup)
    (hCalls : CallsAgree fs call number) : ∀ {stmts : List Stmt} {is : List Instr},
    AllEmit fs Γ r stmts is → AllBoolCasts fs Γ stmts →
      ∃ ts, Nests is ts ∧ Simulates Γ r number bound (execAll call bound stmts) ts
  | _, _, .nil, _ => by
      refine ⟨[], .nil, ?_⟩
      intro store locals s hAgrees
      rw [execAll]
      exact .done (.next hAgrees)
  | _, _, .cons hHead hTail, hCasts => by
      obtain ⟨ts, hNests, hFirst⟩ := hHead.simulates hDistinct hCalls hCasts.1
      obtain ⟨us, hMore, hRest⟩ := hTail.simulates hDistinct hCalls hCasts.2
      refine ⟨ts ++ us, hNests.append hMore, ?_⟩
      intro store locals s hAgrees
      rw [execAll]
      exact hFirst.append hRest s hAgrees

/-- The code of a chain of branches is nested, and does what the first branch that is taken does. -/
theorem Stmt.ChainEmits.simulates (hDistinct : (Γ.map Prod.fst).Nodup)
    (hCalls : CallsAgree fs call number) : ∀ {conds : List Expr} {blocks : List (List Stmt)}
    {is : List Instr}, ChainEmits fs Γ r conds blocks is → Expr.AllBoolCasts fs Γ conds →
      BlocksBoolCasts fs Γ blocks →
      ∃ ts, Nests is ts ∧ Simulates Γ r number bound (execChain call bound conds blocks) ts
  | _, _, _, .last hCond hBlock, hConds, hBlocks => by
      obtain ⟨ts, hNests, hYes⟩ := hBlock.simulates hDistinct hCalls hBlocks.1
      have hNo : Simulates Γ r number bound (execChain call bound [] []) [] := by
        intro store locals s hAgrees
        rw [execChain]
        exact .done (.next hAgrees)
      refine ⟨_, hCond.nests.append (.branch hNests), ?_⟩
      intro store locals s hAgrees
      rw [execChain]
      exact Simulates.branch _ _ (hCond.tests hDistinct hCalls hConds.1) hYes hNo s hAgrees
  | _, _, _, .orElse hCond hBlock hOther, hConds, hBlocks => by
      obtain ⟨ts, hNests, hYes⟩ := hBlock.simulates hDistinct hCalls hBlocks.1
      obtain ⟨us, hNestsElse, hNo⟩ := hOther.simulates hDistinct hCalls hBlocks.2.1
      refine ⟨_, hCond.nests.append (.branchElse hNests hNestsElse), ?_⟩
      intro store locals s hAgrees
      rw [execChain]
      simp only [execChain]
      exact Simulates.branch _ _ (hCond.tests hDistinct hCalls hConds.1) hYes hNo s hAgrees
  | _, _, _, .more hCond hBlock hMore, hConds, hBlocks => by
      obtain ⟨ts, hNests, hYes⟩ := hBlock.simulates hDistinct hCalls hBlocks.1
      obtain ⟨us, hNestsElse, hNo⟩ := hMore.simulates hDistinct hCalls hConds.2 hBlocks.2
      refine ⟨_, hCond.nests.append (.branchElse hNests hNestsElse), ?_⟩
      intro store locals s hAgrees
      rw [execChain]
      exact Simulates.branch _ _ (hCond.tests hDistinct hCalls hConds.1) hYes hNo s hAgrees

end

end Statements

end WasmCompiler
