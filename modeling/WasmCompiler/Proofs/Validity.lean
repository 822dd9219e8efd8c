import Mathlib
import WasmCompiler.Proofs.Functions
import WasmCompiler.Proofs.StatementReading
import WasmCompiler.Proofs.Validation

/-! Compiled modules are valid. An expression adds the operand that stores its value to those
before it, and a statement leaves the operands as they were. -/

namespace WasmCompiler

open Wasm Validation

namespace Wasm.Validation

namespace State

/-- A state inside a block, with all operands from below the block. -/
def IsOpen (s : State) : Prop := ∃ c cs, s.controls = c :: cs ∧ c.height ≤ s.operands.length

@[simp] theorem controls_push (s : State) (types : List ValType) :
    (s.push types).controls = s.controls := rfl

@[simp] theorem push_nil (s : State) : s.push [] = s := rfl

theorem push_append (s : State) (ts us : List ValType) :
    s.push (ts ++ us) = (s.push ts).push us := by
  simp [push]

theorem IsOpen.isEmpty_controls {s : State} (h : s.IsOpen) : s.controls.isEmpty = false := by
  obtain ⟨c, cs, hControls, -⟩ := h
  rw [hControls, List.isEmpty_cons]

/-- A state inside a block stays inside if operands are pushed. -/
theorem IsOpen.push {s : State} (h : s.IsOpen) (types : List ValType) : (s.push types).IsOpen := by
  obtain ⟨c, cs, hControls, hHeight⟩ := h
  exact ⟨c, cs, hControls, by simp only [State.push, List.length_append]; omega⟩

/-- An operand of the type that is wanted is popped. -/
theorem popOf?_cons {ops : List (Option ValType)} {c : Control} {cs : List Control}
    (hHeight : c.height ≤ ops.length) (t : ValType) :
    popOf? ⟨some t :: ops, c :: cs⟩ t = some ⟨ops, c :: cs⟩ := by
  have hAbove : ¬ ops.length + 1 = c.height := by omega
  simp [popOf?, pop?, hAbove]

/-- Operands of the types that are wanted are popped in turn. -/
theorem foldlM_popOf? {ops : List (Option ValType)} {c : Control} {cs : List Control}
    (hHeight : c.height ≤ ops.length) (types : List ValType) :
    types.foldlM popOf? ⟨types.map some ++ ops, c :: cs⟩ = some ⟨ops, c :: cs⟩ := by
  induction types with
  | nil => rfl
  | cons t types ih =>
      rw [List.foldlM_cons, List.map_cons, List.cons_append,
        popOf?_cons (by rw [List.length_append]; omega)]
      exact ih

/-- Operands that were just put there can be taken. -/
theorem IsOpen.popAll?_push {s : State} (h : s.IsOpen) (types : List ValType) :
    (s.push types).popAll? types = some s := by
  obtain ⟨ops, controls⟩ := s
  obtain ⟨c, cs, rfl, hHeight⟩ := h
  exact foldlM_popOf? hHeight types.reverse

/-- What was pushed is popped again. -/
theorem IsOpen.popOf?_push {s : State} (h : s.IsOpen) (t : ValType) :
    (s.push [t]).popOf? t = some s := by
  simpa [popAll?] using h.popAll?_push [t]

/-- Where nothing is reached, any operands can be taken. -/
theorem popAll?_of_unreachable {s : State} {c : Control} {cs : List Control}
    (hControls : s.controls = c :: cs) (hUnreachable : c.unreachable = true)
    (hHeight : s.operands.length = c.height) (types : List ValType) :
    s.popAll? types = some s := by
  have hPop (t : ValType) : s.popOf? t = some s := by
    simp [popOf?, pop?, hControls, hUnreachable, hHeight]
  unfold popAll?
  induction types.reverse with
  | nil => rfl
  | cons t types ih =>
      rw [List.foldlM_cons, hPop]
      exact ih

end State

/-- Instructions that pass the check, from the state before them to the one after them. -/
def Passes (ctx : BodyContext) (is : List Instr) (s s' : State) : Prop :=
  is.foldlM (step ctx) s = some s'

variable {ctx : BodyContext} {is js : List Instr} {i : Instr} {s s' s'' : State}

theorem Passes.nil : Passes ctx [] s s := rfl

/-- Code after code passes from where the first part leads to. -/
theorem Passes.append (hFirst : Passes ctx is s s') (hNext : Passes ctx js s' s'') :
    Passes ctx (is ++ js) s s'' := by
  rw [Passes, List.foldlM_append, hFirst]
  exact hNext

theorem Passes.single (h : step ctx s i = some s') : Passes ctx [i] s s' := by
  simp [Passes, h]

/-- An instruction before code passes to where the code starts. -/
theorem Passes.cons (hFirst : step ctx s i = some s') (hNext : Passes ctx is s' s'') :
    Passes ctx (i :: is) s s'' :=
  (Passes.single hFirst).append hNext

/-- An instruction that says its type replaces its operands by its results. -/
theorem step_of_type? (h : s.IsOpen) {type : FuncType}
    (hType : i.op.type? = some type) (hArg : i.arg.isValid i.op = true) :
    step ctx (s.push type.params) i = some (s.push type.results) := by
  simp [step, h.isEmpty_controls, hType, hArg, h.popAll?_push]

/-- A constant pushes its type. -/
theorem step_constant (h : s.IsOpen) {results : List ValType}
    (hType : i.op.type? = some ⟨[], results⟩) (hArg : i.arg.isValid i.op = true) :
    step ctx s i = some (s.push results) :=
  step_of_type? h hType hArg

/-- An instruction with a type pops its parameters and pushes its results. -/
theorem step_typed (h : s.IsOpen) {op : Opcode} {type : FuncType} (hType : op.type? = some type) :
    step ctx (s.push type.params) (.plain op) = some (s.push type.results) :=
  step_of_type? h hType rfl

/-- What these instructions take and give depends on where they stand, so they say no type. -/
theorem type?_of_placed {op : Opcode}
    (h : op ∈ [.elseOp, .endOp, .br, .ret, .call, .drop, .localGet, .localSet]) :
    op.type? = none := by
  simp only [List.mem_cons, List.not_mem_nil, or_false] at h
  rcases h with rfl | rfl | rfl | rfl | rfl | rfl | rfl | rfl <;> rfl

/-- Reading a variable pushes the type of its slot. -/
theorem step_localGet (h : s.IsOpen) {slot : Nat} {t : ValType}
    (hLocal : ctx.locals[slot]? = some t) :
    step ctx s (.localGet slot) = some (s.push [t]) := by
  simp [step, h.isEmpty_controls, Instr.localGet, type?_of_placed, hLocal]

/-- Setting a variable pops the type of its slot. -/
theorem step_localSet (h : s.IsOpen) {slot : Nat} {t : ValType}
    (hLocal : ctx.locals[slot]? = some t) : step ctx (s.push [t]) (.localSet slot) = some s := by
  simp [step, h.isEmpty_controls, Instr.localSet, type?_of_placed, hLocal, h.popOf?_push]

/-- A call pops the parameters of the function and pushes its results. -/
theorem step_call (h : s.IsOpen) {index : Nat} {type : FuncType}
    (hType : ctx.module.typeOf? index = some type) :
    step ctx (s.push type.params) (.call index) = some (s.push type.results) := by
  simp [step, h.isEmpty_controls, Instr.call, type?_of_placed, hType, h.popAll?_push]

theorem step_drop (h : s.IsOpen) (t : ValType) :
    step ctx (s.push [t]) (.plain .drop) = some s := by
  obtain ⟨ops, controls⟩ := s
  obtain ⟨c, cs, rfl, hHeight⟩ := h
  have hAbove : ¬ ops.length + 1 = c.height := by
    dsimp only at hHeight
    omega
  simp [step, Instr.plain, type?_of_placed, State.push, State.pop?, hAbove]

/-- A state in a block, with no operands but those below the block. -/
def State.atBase (op : Opcode) (type : FuncType) (ops : List (Option ValType))
    (unreachable : Bool) (around : List Control) : State :=
  ⟨ops, ⟨op, type, ops.length, unreachable⟩ :: around⟩

section Blocks

variable {op : Opcode} {type : FuncType} {ops : List (Option ValType)} {b : Bool}
  {around : List Control}

/-- At the base of a block there are no operands of the block. -/
theorem State.isOpen_atBase : (State.atBase op type ops b around).IsOpen :=
  ⟨_, _, rfl, Nat.le_refl _⟩

/-- A loop opens a block at the base, around which the old one stands. -/
theorem step_loop : step ctx (.atBase op type ops b around) .loop =
    some (.atBase .loop ⟨[], []⟩ ops false (⟨op, type, ops.length, b⟩ :: around)) := rfl

/-- A branch pops its condition and opens a block at the base. -/
theorem step_ifOp : step ctx ((State.atBase op type ops b around).push [.i32]) .ifOp =
    some (.atBase .ifOp ⟨[], []⟩ ops false (⟨op, type, ops.length, b⟩ :: around)) := by
  simp only [step, (State.isOpen_atBase.push _).isEmpty_controls, Instr.ifOp,
    BodyContext.blockType?, Option.bind_eq_bind, Option.bind_some, State.isOpen_atBase.popOf?_push]
  rfl

/-- An `else` starts its block at the base of the first one. -/
theorem step_else : step ctx (.atBase .ifOp ⟨[], []⟩ ops b around) (.plain .elseOp) =
    some (.atBase .elseOp ⟨[], []⟩ ops false around) := by
  simp [step, Instr.plain, type?_of_placed, State.leave?, State.atBase, State.popAll?, State.enter,
    State.push]

/-- An `end` goes back to the block around, with its operands. -/
theorem step_end : step ctx (.atBase op ⟨[], []⟩ ops b around) (.plain .endOp) =
    some ⟨ops, around⟩ := by
  simp [step, Instr.plain, type?_of_placed, State.leave?, State.atBase, State.popAll?]

/-- A jump to the loop around makes the rest of the block unreachable. -/
theorem step_br {height : Nat} {reached : Bool} :
    step ctx (.atBase op type ops b (⟨.loop, ⟨[], []⟩, height, reached⟩ :: around)) (.br 1) =
      some (.atBase op type ops true (⟨.loop, ⟨[], []⟩, height, reached⟩ :: around)) := by
  simp [step, Instr.br, type?_of_placed, State.atBase, Control.label, State.popAll?, State.divert?]

/-- A return pops the results and makes the rest of the block unreachable. -/
theorem step_ret {types : List ValType} (hResults : ctx.results = types) :
    step ctx ((State.atBase op type ops b around).push types) (.plain .ret) =
      some (.atBase op type ops true around) := by
  simp only [step, (State.isOpen_atBase.push _).isEmpty_controls, Instr.plain, hResults,
    State.isOpen_atBase.popAll?_push, Option.bind_eq_bind, Option.bind_some]
  simp [type?_of_placed, State.divert?, State.atBase]

end Blocks

end Wasm.Validation

/-- A context in which the variables of a function and the functions of a program can be used. -/
structure Provides (ctx : BodyContext) (fs : List Callable) (Γ : Env) (r : Ty) : Prop where
  locals : ctx.locals.map some = Γ.map fun v => v.2.storage?
  functions : ∀ {index : Nat} {f : Callable}, fs[index]? = some f →
    ∃ type, ctx.module.typeOf? index = some type ∧
      type.params.map some = f.params.map Ty.storage? ∧ type.results = f.ret.storage?.toList
  results : ctx.results = r.storage?.toList

/-- A variable of the function has a slot of its stored type. -/
theorem Provides.local {ctx : BodyContext} {fs : List Callable} {Γ : Env} {r : Ty}
    (h : Provides ctx fs Γ r) {slot : Nat} {x : String} {t : Ty} (hVar : Γ[slot]? = some (x, t)) :
    ∃ stored, t.storage? = some stored ∧ ctx.locals[slot]? = some stored := by
  have hAt := congrArg (fun types => types[slot]?) h.locals
  simp only [List.getElem?_map, hVar, Option.map_some] at hAt
  obtain ⟨stored, hStored, hEq⟩ := Option.map_eq_some_iff.1 hAt
  exact ⟨stored, hEq.symm, hStored⟩

/-- The instruction of an operation has the type of the operation. -/
theorem BinaryOp.type?_opcode? {op : BinaryOp} {t r : Ty} {opcode : Opcode}
    (hOp : op.HasType t r) (hCode : op.opcode? t = some opcode) :
    ∃ type, opcode.type? = some type ∧ type.params = t.storage?.toList ++ t.storage?.toList ∧
      type.results = r.storage?.toList := by
  cases hOp with
  | logical hOp =>
      cases op <;> simp at hOp <;> cases hCode <;> exact ⟨_, rfl, rfl, rfl⟩
  | equality hOp =>
      cases op <;> simp at hOp <;> cases t <;> cases hCode <;> exact ⟨_, rfl, rfl, rfl⟩
  | relational hOp =>
      cases op <;> simp at hOp <;> cases t <;> cases hCode <;> exact ⟨_, rfl, rfl, rfl⟩
  | arithmetic hOp =>
      cases op <;> simp at hOp <;> cases t <;> cases hCode <;> exact ⟨_, rfl, rfl, rfl⟩

/-- The constant that negation multiplies by has the type of the operand. -/
theorem type?_of_minusOne? {t : Ty} {stored : ValType} {i : Instr}
    (hStored : t.storage? = some stored) (h : Instr.minusOne? stored = some i) :
    i.op.type? = some ⟨[], t.storage?.toList⟩ ∧ i.arg.isValid i.op = true := by
  rw [hStored]
  cases stored <;> cases h <;> exact ⟨rfl, rfl⟩

/-- The constant of a number has the type of the number. -/
theorem Literal.type?_lower {v : Literal} {t : Ty} (h : v.HasType t) :
    v.lower.1.op.type? = some ⟨[], t.storage?.toList⟩ ∧
      v.lower.1.arg.isValid v.lower.1.op = true := by
  cases h <;> exact ⟨rfl, rfl⟩

/-- A cast between types that are stored alike needs no instruction. -/
theorem type?_conversion? {t target : Ty} {source stored : ValType}
    (hSource : t.storage? = some source) (hStored : target.storage? = some stored) :
    match conversion? source stored with
    | none => source = stored
    | some op => op.type? = some ⟨[source], [stored]⟩ := by
  cases t <;> cases hSource <;> cases target <;> cases hStored <;> rfl

section Code

variable {ctx : BodyContext} {fs : List Callable} {Γ : Env} {r : Ty}

mutual

/-- The code of an expression adds the operand that stores its value. -/
theorem Expr.Emits.passes (h : Provides ctx fs Γ r) :
    ∀ {e : Expr} {t : Ty} {is : List Instr}, e.Emits fs Γ t is → ∀ {s : State}, s.IsOpen →
      Passes ctx is s (s.push t.storage?.toList)
  | _, _, _, .ident hVar, s, hOpen => by
      obtain ⟨stored, hStored, hLocal⟩ := h.local hVar
      rw [hStored]
      exact .single (step_localGet hOpen hLocal)
  | _, _, _, .number hLit, s, hOpen => by
      obtain ⟨hType, hArg⟩ := Literal.type?_lower hLit
      exact .single (step_constant hOpen hType hArg)
  | _, _, _, .bool, s, hOpen => .single (step_constant hOpen rfl rfl)
  | _, _, _, .assign hVar hValue, s, hOpen => by
      obtain ⟨stored, hStored, hLocal⟩ := h.local hVar
      have hPasses := hValue.passes h hOpen
      rw [hStored] at hPasses
      exact hPasses.append (.single (step_localSet hOpen hLocal))
  | _, _, _, .binary hLeft hRight hOp hCode, s, hOpen => by
      obtain ⟨type, hType, hParams, hResults⟩ := BinaryOp.type?_opcode? hOp hCode
      have hOperands := (hLeft.passes h hOpen).append (hRight.passes h (hOpen.push _))
      rw [← State.push_append, ← hParams] at hOperands
      rw [← hResults, ← List.append_assoc]
      exact hOperands.append (.single (step_typed hOpen hType))
  | _, _, _, .plus hOperand _, s, hOpen => hOperand.passes h hOpen
  | _, _, _, .neg hOperand hStored hNum hOne hMul, s, hOpen => by
      obtain ⟨hType, hArg⟩ := type?_of_minusOne? hStored hOne
      obtain ⟨type, hMulType, hParams, hResults⟩ :=
        BinaryOp.type?_opcode? (.arithmetic (by simp) hNum) hMul
      have hPasses := (hOperand.passes h hOpen).append
        (.single (step_constant (hOpen.push _) hType hArg))
      rw [← State.push_append, ← hParams] at hPasses
      rw [← hResults, List.append_cons]
      exact hPasses.append (.single (step_typed hOpen hMulType))
  | _, _, _, .not hOperand, s, hOpen => by
      have hOne : step ctx (s.push [.i32]) (.i32Const 1) = some ((s.push [.i32]).push [.i32]) :=
        step_constant (hOpen.push _) rfl rfl
      have hXor : step ctx (s.push [.i32, .i32]) (.plain .i32Xor) = some (s.push [.i32]) :=
        step_typed hOpen (rfl : Opcode.type? .i32Xor = some ⟨[.i32, .i32], [.i32]⟩)
      exact (hOperand.passes h hOpen).append (.cons hOne (.single hXor))
  | _, _, _, .cast hOperand _ hSource hStored, s, hOpen => by
      have hPasses := hOperand.passes h hOpen
      have hType := type?_conversion? hSource hStored
      rw [hSource] at hPasses
      rw [hStored]
      generalize conversion? _ _ = op? at hType ⊢
      cases op? with
      | none => simpa [show _ = _ from hType] using hPasses
      | some op => exact hPasses.append (.single (step_typed hOpen hType))
  | _, _, _, .call hCallee hArgs, s, hOpen => by
      obtain ⟨type, hType, hParams, hResults⟩ := h.functions hCallee
      rw [← hResults]
      exact (hArgs.passes h hParams hOpen).append (.single (step_call hOpen hType))

/-- The code of arguments passes, and pushes their stored types. -/
theorem Expr.AllEmit.passes (h : Provides ctx fs Γ r) :
    ∀ {es : List Expr} {ts : List Ty} {is : List Instr}, Expr.AllEmit fs Γ es ts is →
      ∀ {stored : List ValType}, stored.map some = ts.map Ty.storage? → ∀ {s : State},
        s.IsOpen → Passes ctx is s (s.push stored)
  | _, _, _, .nil, stored, hStored, s, _ => by
      have hNil : stored = [] := by simpa using hStored
      rw [hNil]
      exact .nil
  | _, _, _, .cons hHead hTail, stored, hStored, s, hOpen => by
      cases stored with
      | nil => simp at hStored
      | cons first others =>
          rw [List.map_cons, List.map_cons, List.cons.injEq] at hStored
          have hFirst := hHead.passes h hOpen
          rw [← hStored.1] at hFirst
          rw [← List.singleton_append, State.push_append]
          exact hFirst.append (hTail.passes h hStored.2 (hOpen.push _))

end

/-- The code of an expression with a stored type passes, and pushes that type. -/
theorem Expr.Emits.passes_stored (h : Provides ctx fs Γ r) {e : Expr} {t : Ty} {is : List Instr}
    (hEmits : e.Emits fs Γ t is) {stored : ValType} (hStored : t.storage? = some stored)
    {s : State} (hOpen : s.IsOpen) : Passes ctx is s (s.push [stored]) := by
  have hPasses := hEmits.passes h hOpen
  rwa [hStored] at hPasses

mutual

/-- The code of a statement leaves the operands as they were. A return cuts off what follows. -/
theorem Stmt.Emits.passes (h : Provides ctx fs Γ r) :
    ∀ {s : Stmt} {is : List Instr}, s.Emits fs Γ r is →
      ∀ {op : Opcode} {type : FuncType} {ops : List (Option ValType)} {b : Bool}
        {around : List Control}, Passes ctx is (.atBase op type ops b around)
          (.atBase op type ops (b || s.isRet) around)
  | _, _, .var, _, _, _, b, _ => by
      simp only [Stmt.isRet, Bool.or_false]
      exact .nil
  | _, _, .varInit hVar hInit, _, _, _, b, _ => by
      obtain ⟨stored, hStored, hLocal⟩ := h.local hVar
      simp only [Stmt.isRet, Bool.or_false]
      exact (hInit.passes_stored h hStored State.isOpen_atBase).append
        (.single (step_localSet State.isOpen_atBase hLocal))
  | _, _, .branch hChain, _, _, _, b, _ => by
      simp only [Stmt.isRet, Bool.or_false]
      exact hChain.passes h
  | _, _, .loop hCond hBody, _, _, _, b, _ => by
      simp only [Stmt.isRet, Bool.or_false]
      refine .cons step_loop (.append ?_ (.single (@step_end _ .loop _ false _)))
      refine (hCond.passes h State.isOpen_atBase).append (.cons step_ifOp ?_)
      exact ((hBody.passes h).append (.single step_br)).append (.single step_end)
  | _, _, .ret hValue, _, _, _, b, _ => by
      simp only [Stmt.isRet, Bool.or_true]
      exact (hValue.passes h State.isOpen_atBase).append (.single (step_ret h.results))
  | _, _, .eval hExpr hStored, _, _, _, b, _ => by
      simp only [Stmt.isRet, Bool.or_false]
      exact (hExpr.passes_stored h hStored State.isOpen_atBase).append
        (.single (step_drop State.isOpen_atBase _))
  | _, _, .evalVoid hExpr, _, _, _, b, _ => by
      simp only [Stmt.isRet, Bool.or_false]
      exact hExpr.passes h State.isOpen_atBase

/-- The code of statements passes, and what follows a return statement is unreachable. -/
theorem Stmt.AllEmit.passes (h : Provides ctx fs Γ r) :
    ∀ {ss : List Stmt} {is : List Instr}, Stmt.AllEmit fs Γ r ss is →
      ∀ {op : Opcode} {type : FuncType} {ops : List (Option ValType)} {b : Bool}
        {around : List Control}, Passes ctx is (.atBase op type ops b around)
          (.atBase op type ops (b || ss.any Stmt.isRet) around)
  | _, _, .nil, _, _, _, b, _ => by
      rw [List.any_nil, Bool.or_false]
      exact .nil
  | _, _, .cons hHead hTail, _, _, _, b, _ => by
      rw [List.any_cons, ← Bool.or_assoc]
      exact (hHead.passes h).append (hTail.passes h)

/-- The code of a chain of branches passes, and leaves the block as reachable as it was. -/
theorem Stmt.ChainEmits.passes (h : Provides ctx fs Γ r) :
    ∀ {conds : List Expr} {blocks : List (List Stmt)} {is : List Instr},
      Stmt.ChainEmits fs Γ r conds blocks is →
        ∀ {op : Opcode} {type : FuncType} {ops : List (Option ValType)} {b : Bool}
          {around : List Control}, Passes ctx is (.atBase op type ops b around)
            (.atBase op type ops b around)
  | _, _, _, .last hCond hBlock, _, _, _, _, _ => by
      refine (hCond.passes h State.isOpen_atBase).append (.cons step_ifOp ?_)
      exact (hBlock.passes h).append (.single step_end)
  | _, _, _, .orElse hCond hBlock hOther, _, _, _, _, _ => by
      refine (hCond.passes h State.isOpen_atBase).append (.cons step_ifOp ?_)
      refine (hBlock.passes h).append (.cons step_else ?_)
      exact (hOther.passes h).append (.single step_end)
  | _, _, _, .more hCond hBlock hMore, _, _, _, _, _ => by
      refine (hCond.passes h State.isOpen_atBase).append (.cons step_ifOp ?_)
      refine (hBlock.passes h).append (.cons step_else ?_)
      exact (hMore.passes h).append (.single step_end)

end

end Code

/-- A body that ends in a return statement has one. -/
theorem any_isRet_of_endsInRet {stmts : List Stmt} (h : endsInRet stmts = true) :
    stmts.any Stmt.isRet = true := by
  revert h
  fun_cases endsInRet stmts with
  | case1 stmt hLast =>
      exact fun h => List.any_eq_true.2 ⟨stmt, List.mem_of_getLast? hLast, h⟩
  | case2 => rintro ⟨⟩

namespace Compiled

variable {fs : List Callable} {f : Callable} {d : Definition} {type : FuncType} {body : Body}
  {Γ others : Env} {is : List Instr}

/-- The code of a function ends where it cannot be reached, unless the function has no result. -/
theorem passes (h : Compiled fs f d type body Γ others is) {ctx : BodyContext}
    (hCtx : Provides ctx fs (Γ ++ others) f.ret) :
    ∃ b, Passes ctx (is ++ Function.ending f.ret d.body) (start ctx)
      (.atBase .block ⟨[], ctx.results⟩ [] b []) ∧ (b = true ∨ ctx.results = []) := by
  have hPasses : Passes ctx is (start ctx) _ :=
    @Stmt.AllEmit.passes ctx fs _ f.ret hCtx _ _ h.emits .block ⟨[], ctx.results⟩ [] false []
  rw [Bool.false_or] at hPasses
  by_cases hTrap : f.ret ≠ .void ∧ !endsInRet d.body
  · rw [Function.ending, if_pos hTrap]
    exact ⟨true, hPasses.append (.single rfl), .inl rfl⟩
  · rw [Function.ending, if_neg hTrap, List.append_nil]
    refine ⟨_, hPasses, ?_⟩
    by_cases hVoid : f.ret = .void
    · rw [hCtx.results, hVoid]
      exact .inr rfl
    · have hRet : endsInRet d.body = true := by simpa [hVoid] using hTrap
      exact .inl (any_isRet_of_endsInRet hRet)

/-- The code of a function, with its end, is a body for its type. -/
theorem isBody (h : Compiled fs f d type body Γ others is) {ctx : BodyContext}
    (hCtx : Provides ctx fs (Γ ++ others) f.ret) :
    Validation.isBody ctx (is ++ Function.ending f.ret d.body ++ [.plain .endOp]) = true := by
  obtain ⟨b, hPasses, hEnd⟩ := h.passes hCtx
  have hPop : (State.atBase .block ⟨[], ctx.results⟩ [] b []).popAll? ctx.results =
      some (.atBase .block ⟨[], ctx.results⟩ [] b []) := by
    rcases hEnd with rfl | hNone
    · exact State.popAll?_of_unreachable rfl rfl rfl _
    · rw [hNone]
      rfl
  have hLeave : (State.atBase .block ⟨[], ctx.results⟩ [] b []).leave? =
      some (⟨.block, ⟨[], ctx.results⟩, 0, b⟩, ⟨[], []⟩) := by
    change ((State.atBase .block ⟨[], ctx.results⟩ [] b []).popAll? ctx.results).bind _ = _
    rw [hPop]
    rfl
  have hStep : step ctx (.atBase .block ⟨[], ctx.results⟩ [] b []) (.plain .endOp) =
      some (State.push ⟨[], []⟩ ctx.results) := by
    simp [step, State.isOpen_atBase.isEmpty_controls, Instr.plain, type?_of_placed, hLeave]
  have hAll := hPasses.append (.single hStep)
  rw [Passes] at hAll
  rw [Validation.isBody, hAll]
  rfl

end Compiled

namespace Program

variable {p : Program} {symbols : Symbols} {m : Module}

/-- The body of each function is valid in the module. -/
theorem isValidBody_of_compiled (hCheck : p.check = .ok symbols) (hLower : p.lower symbols = .ok m)
    (hRaw : Stmt.isRawFreeAll p = true) (hShape : Stmt.isShapedAll p = true) {index : Nat}
    {f : Function} (hAt : symbols.functions[index]? = some f) :
    ∃ type body, m.typeOf? index = some type ∧ m.code[index]? = some body ∧
      m.isValidBody type body = true := by
  obtain ⟨d, type, body, Γ, others, is, -, hType, hBody, -, -, hFun⟩ :=
    compiled hCheck hLower hRaw hShape hAt
  refine ⟨type, body, hType, hBody, ?_⟩
  have hCtx : Provides ⟨m, type.params ++ body.locals, type.results⟩ symbols.callables
      (Γ ++ others) f.signature.ret := by
    refine ⟨?_, fun hCallee => ?_, hFun.results⟩
    · rw [List.map_append, List.map_append, hFun.storedParams, hFun.storedLocals,
        ← hFun.paramTypes, List.map_map]
      rfl
    · obtain ⟨g, hG, rfl⟩ := Symbols.getElem?_callables hCallee
      obtain ⟨_, calleeType, _, _, _, _, -, hCalleeType, -, -, -, hCalleeFun⟩ :=
        compiled hCheck hLower hRaw hShape hG
      exact ⟨calleeType, hCalleeType, hCalleeFun.storedParams, hCalleeFun.results⟩
  have hCode : decode? (body.code ++ [Opcode.endOp.byte]) =
      some (is ++ Function.ending f.signature.ret d.body ++ [.plain .endOp]) := by
    have hEnd : [Opcode.endOp.byte] = Code.encode (Code.ofInstrs [.plain .endOp]) := rfl
    rw [hFun.code, hEnd, ← Code.encode_ofInstrs_append]
    exact decode?_encode (allEncodable_append.2
      ⟨hFun.encodable, allEncodable_cons.2 ⟨Instr.encodable_plain rfl, allEncodable_nil⟩⟩)
  rw [Module.isValidBody, hCode]
  exact hFun.isBody hCtx

/-- There are as many types and bodies as functions. -/
theorem lengths_of_lower (hCheck : p.check = .ok symbols) (hLower : p.lower symbols = .ok m) :
    m.types.length = symbols.functions.length ∧ m.code.length = symbols.functions.length := by
  obtain ⟨hTypes, hBodies, -⟩ := lower_eq_ok hLower
  constructor
  · rw [← hTypes.length_eq, symbols.length_functions]
  · rw [← hBodies.length_eq, (check_eq_ok hCheck).length_eq]

/-- No function is exported under the name of the memory. -/
theorem memoryExport_notMem (hCheck : p.check = .ok symbols) :
    memoryExport ∉ symbols.signatures.entries.map Signature.name := by
  intro hMem
  rw [← symbols.signatures_functions, List.map_map] at hMem
  obtain ⟨f, hF, hName⟩ := List.mem_map.1 hMem
  obtain ⟨i, hAt⟩ := List.mem_iff_getElem?.1 hF
  obtain ⟨s, -, hChecked⟩ := forall₂_getElem? (check_eq_ok hCheck) hAt
  cases hChecked with
  | function hMemory => exact hMemory hName

/-- A program without instructions given as text is compiled to a valid module. -/
theorem valid_of_lower {tokens : List Token} (hRead : ofTokens tokens = .ok p)
    (hRaw : Stmt.isRawFreeAll p = true) (hCheck : p.check = .ok symbols)
    (hLower : p.lower symbols = .ok m) :
    m.Valid ∧ m.funcs = List.range m.types.length ∧ m.code.length = m.types.length := by
  have hShape := isShapedAll_of_ofTokens hRead
  obtain ⟨hTypes, hCode⟩ := lengths_of_lower hCheck hLower
  obtain ⟨-, -, hFuncs, hMemory, hExports⟩ := lower_eq_ok hLower
  have hFuncsLength : m.funcs.length = symbols.functions.length := by
    rw [hFuncs, List.length_range, hTypes]
  refine ⟨⟨?_, ?_, ?_, ?_, ?_, ?_⟩, hFuncs, hCode.trans hTypes.symm⟩
  · intro index hIndex
    rwa [hFuncs, List.mem_range] at hIndex
  · rw [hCode, hFuncsLength]
  · intro index type body hType hBody
    have hIndex : index < symbols.functions.length :=
      hCode ▸ (List.getElem?_eq_some_iff.1 hBody).1
    obtain ⟨type', body', hType', hBody', hValid⟩ :=
      isValidBody_of_compiled hCheck hLower hRaw hShape (List.getElem?_eq_getElem hIndex)
    cases hType.symm.trans hType'
    cases hBody.symm.trans hBody'
    exact hValid
  · rw [hMemory]
    exact ⟨by decide, fun max hMax => by cases hMax; decide⟩
  · intro e hE
    rw [hExports, List.mem_append, List.mem_mapIdx, List.mem_singleton] at hE
    rcases hE with ⟨i, hI, rfl⟩ | rfl
    · simpa [Module.hasExport, hFuncsLength, symbols.length_functions] using hI
    · rfl
  · have hNames : m.exports.map Export.name = symbols.signatures.entries.map Signature.name ++
        [memoryExport] := by
      rw [hExports, List.map_append]
      congr 1
      apply List.ext_getElem?
      simp [Function.comp_def]
    rw [hNames]
    exact List.nodup_append'.2 ⟨symbols.signatures.distinct, List.nodup_singleton _,
      List.disjoint_singleton.2 (memoryExport_notMem hCheck)⟩

/-- The tokens of `i32 f(bool b) { if (b) return 1; else return 2; }`. -/
def choiceTokens : List Token :=
  [(.type, "i32"), (.ident, "f"), (.lparen, "("), (.type, "bool"), (.ident, "b"), (.rparen, ")"),
    (.lbrace, "\x7b"), (.kwIf, "if"), (.lparen, "("), (.ident, "b"), (.rparen, ")"),
    (.kwReturn, "return"), (.number, "1"), (.semicolon, ";"), (.kwElse, "else"),
    (.kwReturn, "return"), (.number, "2"), (.semicolon, ";"),
    (.rbrace, "\x7d")].map fun word => ⟨word.1, word.2, .point 0⟩

/-- Both blocks return, and still the end of the function needs a result. -/
theorem valid_of_lower_choice :
    ∃ p symbols m, ofTokens choiceTokens = .ok p ∧ p.check = .ok symbols ∧
      p.lower symbols = .ok m ∧ m.Valid := by
  let ret (value : Int64) := Stmt.ret (.point 0) (.number (.point 0) (.int value))
  let p : Program := [.function (.point 0) "i32" "f" [⟨.point 0, "bool", "b", none⟩]
    [.branch (.point 0) [.ident (.point 0) "b"] [[ret 1], [ret 2]]]]
  let symbols := Symbols.ofList
    [⟨⟨"f", .i32, [.bool], .point 0⟩, .ofList [⟨"b", .bool, true⟩]⟩]
  have hRead : ofTokens choiceTokens = .ok p := by cbv
  have hRaw : Stmt.isRawFreeAll p = true := by cbv
  have hCheck : p.check = .ok symbols := by cbv
  obtain ⟨m, hLower⟩ : ∃ m, p.lower symbols = .ok m := ⟨_, rfl⟩
  exact ⟨p, symbols, m, hRead, hCheck, hLower, (valid_of_lower hRead hRaw hCheck hLower).1⟩

end Program

end WasmCompiler
