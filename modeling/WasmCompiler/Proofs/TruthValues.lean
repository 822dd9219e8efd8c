import WasmCompiler.Proofs.LoweringAgreement
import WasmCompiler.Proofs.Points
import WasmCompiler.Proofs.Preservation

/-! Truth values on the machine. A number that stands for a truth value is zero or one: wherever a
run of a compiled function is, its variables hold values of their types, the functions that it calls
get arguments of their types, and its expressions leave values of their types. A cast to `bool` does
not change a number, so this needs casts to `bool` whose operands are truth values themselves. -/

namespace WasmCompiler

open Wasm Structured

/-- A number of the machine that can stand for a value of a type: it is stored as the values of the
type are, and it is zero or one if the type is `bool`. -/
def Ty.Holds (t : Ty) (v : Val) : Prop :=
  t.storage? = some v.type ∧ (t = .bool → v = .i32 0 ∨ v = .i32 1)

/-- A number that a type can hold is the code of a value of the type. -/
theorem Ty.holds_iff {t : Ty} {v : Val} :
    t.Holds v ↔ ∃ w : Value, w.type = t ∧ w.encode = v := by
  constructor
  · rintro ⟨hStored, hBool⟩
    cases t with
    | bool =>
        rcases hBool rfl with rfl | rfl
        · exact ⟨.bool false, rfl, rfl⟩
        · exact ⟨.bool true, rfl, rfl⟩
    | void => cases hStored
    | i32 => cases v <;> cases hStored; exact ⟨.i32 _, rfl, rfl⟩
    | i64 => cases v <;> cases hStored; exact ⟨.i64 _, rfl, rfl⟩
    | f32 => cases v <;> cases hStored; exact ⟨.f32 _, rfl, rfl⟩
    | f64 => cases v <;> cases hStored; exact ⟨.f64 _, rfl, rfl⟩
  · rintro ⟨w, rfl, rfl⟩
    refine ⟨w.storage?_type, fun hBool => ?_⟩
    cases w with
    | bool b =>
        cases b
        · exact .inl rfl
        · exact .inr rfl
    | _ => cases hBool

/-- A truth value leaves zero or one. -/
theorem Typed.operands_bool {v : Option Value} (h : Typed .bool v) :
    operands v = [.i32 0] ∨ operands v = [.i32 1] := by
  obtain ⟨w, rfl, hType⟩ := h.exists_value (by simp)
  rcases (Ty.holds_iff.2 ⟨w, hType, rfl⟩).2 rfl with hEncode | hEncode
  · exact .inl (congrArg (fun v => [v]) hEncode)
  · exact .inr (congrArg (fun v => [v]) hEncode)

/-- Numbers that types can hold are the codes of values. -/
theorem exists_values {ts : List Ty} {vals : List Val} (h : List.Forall₂ Ty.Holds ts vals) :
    ∃ vs : List Value, vs.map Value.type = ts ∧ vs.map Value.encode = vals := by
  induction h with
  | nil => exact ⟨[], rfl, rfl⟩
  | cons hHead hTail ih =>
      obtain ⟨v, rfl, rfl⟩ := Ty.holds_iff.1 hHead
      obtain ⟨vs, rfl, rfl⟩ := ih
      exact ⟨v :: vs, rfl, rfl⟩

theorem holds_encode (vs : List Value) :
    List.Forall₂ Ty.Holds (vs.map Value.type) (vs.map Value.encode) := by
  induction vs with
  | nil => exact .nil
  | cons v vs ih => exact .cons (Ty.holds_iff.2 ⟨v, rfl, rfl⟩) ih

/-- Slots that agree with variables hold what the types of the variables can hold. -/
theorem Agrees.holds {Γ : Env} {store : Store} {locals : List Val} (h : Agrees Γ store locals) :
    List.Forall₂ Ty.Holds (Γ.map Prod.snd) locals := by
  refine List.forall₂_iff_get.2 ⟨by rw [List.length_map, h.length], fun i hI hLocal => ?_⟩
  rw [List.length_map] at hI
  obtain ⟨v, -, hType, hAt⟩ := h.value (List.getElem?_eq_getElem hI)
  obtain ⟨_, hGet⟩ := List.getElem?_eq_some_iff.1 hAt
  exact Ty.holds_iff.2 ⟨v, by simpa using hType, by simpa using hGet.symm⟩

/-- Operands that start with arguments of the types that a function takes. -/
def Ready (fs : List Callable) (index : Nat) (stack : List Val) : Prop :=
  ∃ (f : Callable) (vs : List Value) (s : List Val), fs[index]? = some f ∧
    vs.map Value.type = f.params ∧ stack = (vs.map Value.encode).reverse ++ s

/-- Code that keeps values of their types in the variables and calls functions with arguments of
their types, from variables that hold values of their types. -/
def KeepsTypes (fs : List Callable) (Γ : Env) (number : Wasm.Calls) (bound : Nat)
    (ts : List Structured) : Prop :=
  ∀ f : Frame, (∃ store, Agrees Γ store f.locals) →
    Safe number bound (fun locals => ∃ store, Agrees Γ store locals) (Ready fs) ts f

/-- An instruction that neither sets a variable nor calls a function. -/
def Wasm.Instr.IsQuiet (i : Instr) : Prop := i.op ∉ [.localSet, .localTee, .call]

namespace Wasm

theorem Instr.isQuiet_mk {op : Opcode} {arg : Argument}
    (h : op ∉ [.localSet, .localTee, .call]) : IsQuiet ⟨op, arg⟩ := h

/-- An operator neither sets a variable nor calls a function. -/
theorem Opcode.IsOperator.isQuiet {op : Opcode} (h : op.IsOperator) :
    (Instr.plain op).IsQuiet := by
  intro hMem
  simp only [List.mem_cons, List.not_mem_nil, or_false] at hMem
  rcases hMem with hOp | hOp | hOp <;> cases hOp <;> cases h.immediate

end Wasm

theorem Literal.isQuiet_lower (v : Literal) : v.lower.1.IsQuiet := by
  cases v <;> exact Instr.isQuiet_mk (by decide)

theorem Instr.isQuiet_minusOne? {stored : ValType} {i : Instr}
    (h : Instr.minusOne? stored = some i) : i.IsQuiet := by
  cases stored <;> cases h <;> exact Instr.isQuiet_mk (by decide)

section Code

variable {fs : List Callable} {Γ : Env} {r : Ty} {call : Expr.Calls} {number : Wasm.Calls}
  {bound : Nat} {ts us : List Structured}

namespace KeepsTypes

theorem nil : KeepsTypes fs Γ number bound [] := fun _ hLocals => .nil hLocals

/-- Code after code keeps the types if both parts do. -/
theorem append (hFirst : KeepsTypes fs Γ number bound ts)
    (hRest : KeepsTypes fs Γ number bound us) : KeepsTypes fs Γ number bound (ts ++ us) := by
  intro f hLocals
  exact (hFirst f hLocals).append fun g _ hAfter => hRest g hAfter

/-- A branch keeps the types if both its blocks do. -/
theorem branch {arity : Nat} (hYes : KeepsTypes fs Γ number bound ts)
    (hNo : KeepsTypes fs Γ number bound us) :
    KeepsTypes fs Γ number bound [.branch arity ts us] := by
  intro f hLocals
  exact .branch hLocals (hYes _ hLocals) (hNo _ hLocals)

/-- A loop keeps the types if its body does. -/
theorem loop (hBody : KeepsTypes fs Γ number bound ts) :
    KeepsTypes fs Γ number bound [.loop ts] := by
  intro f hLocals
  exact .loop hLocals fun _ hStart => hBody _ hStart

/-- What neither sets a variable nor calls a function keeps the types. -/
theorem quiet {i : Instr} (hQuiet : i.IsQuiet) : KeepsTypes fs Γ number bound (plains [i]) := by
  intro f hLocals
  refine .plain hLocals (fun index hCall => ?_) fun g hStep => ?_
  · subst hCall
    exact absurd (by simp [Instr.call]) hQuiet
  · have hSame := (Instr.locals_of_step hStep).1 (hQuiet ∘ List.mem_append_left [Opcode.call]) g rfl
    exact hSame ▸ hLocals

end KeepsTypes

/-- Code that goes on in a frame does so where what it simulates has a result. -/
theorem Run.Rel.exists_of_next {α : Type} {R : α → Frame → Prop} {x : Run α} {y : Run Signal}
    (h : Run.Rel (Reaches R) x y) {g : Frame} (hRun : y = .done (.next g)) : ∃ a, R a g := by
  obtain ⟨a, ⟨h⟩⟩ := h.exists_of_done hRun
  exact ⟨a, h⟩

/-- The value of an expression is set in a variable of its type. -/
theorem safe_localSet (hDistinct : (Γ.map Prod.fst).Nodup) {slot : Nat} {x : String} {t : Ty}
    (hVar : Γ[slot]? = some (x, t)) {s : List Val} {result : Option Value × Store} {f : Frame}
    (hLeaves : Leaves Γ t s result f) :
    Safe number bound (fun locals => ∃ store, Agrees Γ store locals) (Ready fs)
      (plains [.localSet slot]) f := by
  obtain ⟨v, store⟩ := result
  obtain ⟨hTyped, hStack, hAgrees⟩ := hLeaves
  obtain ⟨old, -, hOld, -⟩ := hAgrees.value hVar
  obtain ⟨w, rfl, hType⟩ := hTyped.exists_value (hOld ▸ old.type_ne_void)
  refine .plain ⟨store, hAgrees⟩ (fun index hCall => nomatch congrArg Instr.op hCall)
    fun g hStep => ?_
  simp only [Instr.localSet, Instr.step, hStack, operands, Option.map_some, Option.toList_some,
    List.singleton_append] at hStep
  split at hStep
  · cases hStep
    exact ⟨_, hAgrees.set hDistinct hVar hType⟩
  · cases hStep

mutual

/-- The code of an expression keeps to the types. -/
theorem Expr.Emits.keepsTypes (hDistinct : (Γ.map Prod.fst).Nodup)
    (hCalls : CallsAgree fs call number) : ∀ {e : Expr} {t : Ty} {is : List Instr},
    e.Emits fs Γ t is → e.BoolCasts fs Γ → KeepsTypes fs Γ number bound (plains is)
  | _, _, _, .ident _, _ => .quiet (Instr.isQuiet_mk (by decide))
  | _, _, _, .number _, _ => .quiet (Literal.isQuiet_lower _)
  | _, _, _, .bool, _ => .quiet (Instr.isQuiet_mk (by decide))
  | _, _, _, .assign hVar hValue, hCasts => by
      rw [plains_append]
      rintro f ⟨store, hAgrees⟩
      refine (hValue.keepsTypes hDistinct hCalls hCasts f ⟨store, hAgrees⟩).append
        fun g hRun _ => ?_
      obtain ⟨_, hLeaves⟩ :=
        (hValue.simulates hDistinct hCalls hCasts f.stack hAgrees).exists_of_next hRun
      exact safe_localSet hDistinct hVar hLeaves
  | _, _, _, .binary hLeft hRight _ hCode, hCasts => by
      rw [plains_append, plains_append]
      exact (hLeft.keepsTypes hDistinct hCalls hCasts.1).append
        ((hRight.keepsTypes hDistinct hCalls hCasts.2).append
          (.quiet (BinaryOp.isOperator_of_opcode? hCode).isQuiet))
  | _, _, _, .plus hOperand _, hCasts => hOperand.keepsTypes hDistinct hCalls hCasts
  | _, _, _, .neg hOperand _ _ hOne hMul, hCasts => by
      rw [plains_append, plains_cons]
      exact (hOperand.keepsTypes hDistinct hCalls hCasts).append
        ((KeepsTypes.quiet (Instr.isQuiet_minusOne? hOne)).append
          (.quiet (BinaryOp.isOperator_of_opcode? hMul).isQuiet))
  | _, _, _, .not hOperand, hCasts => by
      rw [plains_append, plains_cons]
      exact (hOperand.keepsTypes hDistinct hCalls hCasts).append
        ((KeepsTypes.quiet (Instr.isQuiet_mk (by decide))).append
          (.quiet (Instr.isQuiet_mk (by decide))))
  | _, _, _, @Expr.Emits.cast _ _ _ _ _ _ source stored _ hOperand _ _ _, hCasts => by
      rw [plains_append]
      refine (hOperand.keepsTypes hDistinct hCalls hCasts.2).append ?_
      cases hCode : conversion? source stored with
      | none => exact .nil
      | some opcode => exact .quiet (isOperator_of_conversion? hCode).isQuiet
  | _, _, _, .call hCallee hArgs, hCasts => by
      rw [plains_append]
      rintro f ⟨store, hAgrees⟩
      refine (hArgs.keepsTypes hDistinct hCalls hCasts f ⟨store, hAgrees⟩).append
        fun g hRun hAfter => ?_
      -- The arguments have values of their types, as those of the program have.
      obtain ⟨result, hTypes, hStack, -⟩ := (hArgs.simulates hDistinct hCalls hCasts
        (hCalls.params _ (List.mem_of_getElem? hCallee)) f.stack hAgrees).exists_of_next hRun
      refine .plain hAfter (fun index hCall => ?_) fun k hStep => ?_
      · cases hCall
        exact ⟨_, result.1, f.stack, hCallee, hTypes, hStack⟩
      · exact (Instr.locals_of_step hStep).1 (by simp [Instr.call]) k rfl ▸ hAfter

theorem Expr.AllEmit.keepsTypes (hDistinct : (Γ.map Prod.fst).Nodup)
    (hCalls : CallsAgree fs call number) : ∀ {es : List Expr} {ts : List Ty} {is : List Instr},
    AllEmit fs Γ es ts is → AllBoolCasts fs Γ es → KeepsTypes fs Γ number bound (plains is)
  | _, _, _, .nil, _ => .nil
  | _, _, _, .cons hHead hTail, hCasts => by
      rw [plains_append]
      exact (hHead.keepsTypes hDistinct hCalls hCasts.1).append
        (hTail.keepsTypes hDistinct hCalls hCasts.2)

end

mutual

/-- The code of a statement keeps to the types. -/
theorem Stmt.Emits.keepsTypes (hDistinct : (Γ.map Prod.fst).Nodup)
    (hCalls : CallsAgree fs call number) : ∀ {stmt : Stmt} {is : List Instr},
    stmt.Emits fs Γ r is → stmt.BoolCasts fs Γ →
      ∃ ts, Nests is ts ∧ KeepsTypes fs Γ number bound ts
  | _, _, .var, _ => ⟨[], .nil, .nil⟩
  | _, _, .varInit hVar hInit, hCasts => by
      refine ⟨_, hInit.nests.append (.plain rfl rfl), ?_⟩
      rintro f ⟨store, hAgrees⟩
      refine (hInit.keepsTypes hDistinct hCalls (hCasts _ rfl) f ⟨store, hAgrees⟩).append
        fun g hRun _ => ?_
      obtain ⟨_, hLeaves⟩ :=
        (hInit.simulates hDistinct hCalls (hCasts _ rfl) f.stack hAgrees).exists_of_next hRun
      exact safe_localSet hDistinct hVar hLeaves
  | _, _, .branch hChain, hCasts => hChain.keepsTypes hDistinct hCalls hCasts.1 hCasts.2
  | _, _, .loop hCond hBody, hCasts => by
      obtain ⟨ts, hNests, hKeeps⟩ := hBody.keepsTypes hDistinct hCalls hCasts.2
      refine ⟨_, .loop (hCond.nests.append (.branch (hNests.append (.plain rfl rfl)))), ?_⟩
      have hRound : KeepsTypes fs Γ number bound (ts ++ plains [.br 1]) :=
        hKeeps.append (.quiet (Instr.isQuiet_mk (by decide)))
      exact ((hCond.keepsTypes hDistinct hCalls hCasts.1).append (.branch hRound .nil)).loop
  | _, _, .ret hValue, hCasts =>
      ⟨_, hValue.nests.append (.plain rfl rfl), (hValue.keepsTypes hDistinct hCalls hCasts).append
        (.quiet (Instr.isQuiet_mk (by decide)))⟩
  | _, _, .eval hExpr _, hCasts =>
      ⟨_, hExpr.nests.append (.plain rfl rfl), (hExpr.keepsTypes hDistinct hCalls hCasts).append
        (.quiet (Instr.isQuiet_mk (by decide)))⟩
  | _, _, .evalVoid hExpr, hCasts => ⟨_, hExpr.nests, hExpr.keepsTypes hDistinct hCalls hCasts⟩

/-- The code of statements in turn keeps the types. -/
theorem Stmt.AllEmit.keepsTypes (hDistinct : (Γ.map Prod.fst).Nodup)
    (hCalls : CallsAgree fs call number) : ∀ {stmts : List Stmt} {is : List Instr},
    AllEmit fs Γ r stmts is → AllBoolCasts fs Γ stmts →
      ∃ ts, Nests is ts ∧ KeepsTypes fs Γ number bound ts
  | _, _, .nil, _ => ⟨[], .nil, .nil⟩
  | _, _, .cons hHead hTail, hCasts => by
      obtain ⟨ts, hNests, hFirst⟩ := hHead.keepsTypes hDistinct hCalls hCasts.1
      obtain ⟨us, hMore, hRest⟩ := hTail.keepsTypes hDistinct hCalls hCasts.2
      exact ⟨ts ++ us, hNests.append hMore, hFirst.append hRest⟩

/-- The code of a chain of branches keeps the types. -/
theorem Stmt.ChainEmits.keepsTypes (hDistinct : (Γ.map Prod.fst).Nodup)
    (hCalls : CallsAgree fs call number) : ∀ {conds : List Expr} {blocks : List (List Stmt)}
    {is : List Instr}, ChainEmits fs Γ r conds blocks is → Expr.AllBoolCasts fs Γ conds →
      BlocksBoolCasts fs Γ blocks → ∃ ts, Nests is ts ∧ KeepsTypes fs Γ number bound ts
  | _, _, _, .last hCond hBlock, hConds, hBlocks => by
      obtain ⟨ts, hNests, hYes⟩ := hBlock.keepsTypes hDistinct hCalls hBlocks.1
      exact ⟨_, hCond.nests.append (.branch hNests),
        (hCond.keepsTypes hDistinct hCalls hConds.1).append (.branch hYes .nil)⟩
  | _, _, _, .orElse hCond hBlock hOther, hConds, hBlocks => by
      obtain ⟨ts, hNests, hYes⟩ := hBlock.keepsTypes hDistinct hCalls hBlocks.1
      obtain ⟨us, hNestsElse, hNo⟩ := hOther.keepsTypes hDistinct hCalls hBlocks.2.1
      exact ⟨_, hCond.nests.append (.branchElse hNests hNestsElse),
        (hCond.keepsTypes hDistinct hCalls hConds.1).append (.branch hYes hNo)⟩
  | _, _, _, .more hCond hBlock hMore, hConds, hBlocks => by
      obtain ⟨ts, hNests, hYes⟩ := hBlock.keepsTypes hDistinct hCalls hBlocks.1
      obtain ⟨us, hNestsElse, hNo⟩ := hMore.keepsTypes hDistinct hCalls hConds.2 hBlocks.2
      exact ⟨_, hCond.nests.append (.branchElse hNests hNestsElse),
        (hCond.keepsTypes hDistinct hCalls hConds.1).append (.branch hYes hNo)⟩

end

end Code

section Parts

variable {fs : List Callable} {Γ : Env} {ctx : Context}

theorem Expr.AllBoolCasts.of_mem : ∀ {es : List Expr}, AllBoolCasts fs Γ es →
    ∀ e ∈ es, e.BoolCasts fs Γ
  | [], _ => by simp
  | _ :: _, hCasts => List.forall_mem_cons.2 ⟨hCasts.1, AllBoolCasts.of_mem hCasts.2⟩

/-- A part of an expression has no other casts than the expression. -/
theorem Expr.Within.boolCasts {part e : Expr} (h : part.Within e) (hCasts : e.BoolCasts fs Γ) :
    part.BoolCasts fs Γ := by
  induction h with
  | self => exact hCasts
  | assign _ ih => exact ih hCasts
  | left _ ih => exact ih hCasts.1
  | right _ ih => exact ih hCasts.2
  | unary _ ih => exact ih hCasts
  | cast _ ih => exact ih hCasts.2
  | arg hMem _ ih => exact ih (Expr.AllBoolCasts.of_mem hCasts _ hMem)

mutual

/-- An expression that is met in a statement has no other casts than the statement. -/
theorem Stmt.Meets.boolCasts : ∀ {s : Stmt} {l m : Locals} {e : Expr},
    Meets ctx l s m (.expr e) → s.BoolCasts fs Γ → e.BoolCasts fs Γ
  | _, _, _, _, .init hInit h, hCasts => h.boolCasts (hCasts _ hInit)
  | _, _, _, _, .cond hCond h, hCasts => h.boolCasts (Expr.AllBoolCasts.of_mem hCasts.1 _ hCond)
  | _, _, _, _, .blocks h, hCasts => h.boolCasts hCasts.2
  | _, _, _, _, .test h, hCasts => h.boolCasts hCasts.1
  | _, _, _, _, .body h, hCasts => h.boolCasts hCasts.2
  | _, _, _, _, .ret h, hCasts => h.boolCasts hCasts
  | _, _, _, _, .eval h, hCasts => h.boolCasts hCasts

theorem Stmt.AllMeet.boolCasts : ∀ {ss : List Stmt} {l m : Locals} {e : Expr},
    AllMeet ctx l ss m (.expr e) → AllBoolCasts fs Γ ss → e.BoolCasts fs Γ
  | _, _, _, _, .here h, hCasts => h.boolCasts hCasts.1
  | _, _, _, _, .later _ h, hCasts => h.boolCasts hCasts.2

theorem Stmt.BlocksMeet.boolCasts : ∀ {bs : List (List Stmt)} {l m : Locals} {e : Expr},
    BlocksMeet ctx l bs m (.expr e) → BlocksBoolCasts fs Γ bs → e.BoolCasts fs Γ
  | _, _, _, _, .here h, hCasts => h.boolCasts hCasts.1
  | _, _, _, _, .later _ h, hCasts => h.boolCasts hCasts.2

end

end Parts

namespace Program

variable {p : Program} {symbols : Symbols} {m : Module}

/-- An expression that is met in a program has no other casts than the program. -/
theorem Meets.boolCasts {sofar final : Scope} {e : Expr}
    (h : p.Meets symbols sofar final (.expr e)) (hCheck : p.check = .ok symbols)
    (hCasts : p.BoolCasts symbols) : e.BoolCasts symbols.callables final.locals.env := by
  cases h with
  | intro hStmt hFunction hHolds =>
      obtain ⟨f, hF, hChecks⟩ := check_getElem? hCheck hStmt
      cases hFunction.symm.trans hF
      cases hChecks with
      | function hParams hBody =>
          cases hHolds with
          | function hStart hMeets =>
              exact hMeets.boolCasts
                (boolCasts_of_mem hCasts hF (List.mem_of_getElem? hStmt))

/-- A function that is called with arguments of its types keeps to its types. -/
theorem exists_entry (hCheck : p.check = .ok symbols) (hLower : p.lower symbols = .ok m)
    (hRaw : Stmt.isRawFreeAll p = true) (hShape : Stmt.isShapedAll p = true)
    (hCasts : p.BoolCasts symbols) (bound : Nat) {index : Nat} {f : Function}
    (hAt : symbols.functions[index]? = some f) {args : List Val}
    (hArgs : List.Forall₂ Ty.Holds f.signature.params args) :
    ∃ ts frame, m.start? index args = some (ts, frame) ∧
      Safe (m.callOn (m.invoke bound)) bound
        (fun locals => ∃ store, Agrees f.locals.env store locals) (Ready symbols.callables) ts
        frame := by
  obtain ⟨d, type, body, Γ, others, is, -, hType, hBody, hVars, ⟨s, hMem⟩, hFun⟩ :=
    compiled hCheck hLower hRaw hShape hAt
  have hBodyCasts := boolCasts_of_mem hCasts hAt hMem
  have hCalls := callsAgree hCheck hLower hRaw hShape hCasts bound
  rw [hVars.env] at hBodyCasts ⊢
  obtain ⟨vs, hTypes, rfl⟩ := exists_values hArgs
  obtain ⟨zeros, hZeros, hStart⟩ := exists_zeros hFun.storedLocals
  obtain ⟨ts, hNests, hKeeps⟩ : ∃ ts, Nests is ts ∧
      KeepsTypes symbols.callables (Γ ++ others) (m.callOn (m.invoke bound)) bound ts :=
    hFun.emits.keepsTypes hFun.distinct hCalls hBodyCasts
  refine ⟨ts ++ plains (Function.ending f.signature.callable.ret d.body),
    ⟨vs.map Value.encode ++ zeros, []⟩, ?_, ?_⟩
  · simp only [Module.start?, hType, hBody, hFun.nest?_code hNests, hZeros, Option.bind_eq_bind,
      Option.bind_some, hFun.types_encode hTypes, if_true]
  · refine hKeeps.append ?_ _ ⟨_, hFun.agrees_entry hTypes hStart⟩
    unfold Function.ending
    split
    · exact .quiet (Instr.isQuiet_mk (by decide))
    · exact .nil

/-- Every function that a call enters gets arguments of its types. -/
theorem holds_of_enters (hCheck : p.check = .ok symbols) (hLower : p.lower symbols = .ok m)
    (hRaw : Stmt.isRawFreeAll p = true) (hShape : Stmt.isShapedAll p = true)
    (hCasts : p.BoolCasts symbols) {bound depth index last : Nat} {args vals : List Val}
    (h : m.Enters bound index args depth last vals) {f : Function}
    (hAt : symbols.functions[index]? = some f)
    (hArgs : List.Forall₂ Ty.Holds f.signature.params args) :
    ∃ g, symbols.functions[last]? = some g ∧ List.Forall₂ Ty.Holds g.signature.params vals := by
  induction h generalizing f with
  | self => exact ⟨f, hAt, hArgs⟩
  | @call bound _ _ callee _ _ _ _ _ _ _ type hEntry hPasses hType _ ih =>
      obtain ⟨_, _, hSame, hSafe⟩ :=
        exists_entry hCheck hLower hRaw hShape hCasts bound hAt hArgs
      cases hEntry.symm.trans hSame
      obtain ⟨_, vs, s, hCallee, hTypes, hStack⟩ := (hSafe _ _ hPasses).2 _ _ rfl
      obtain ⟨g, hG, rfl⟩ := Symbols.getElem?_callables hCallee
      obtain ⟨_, _, _, _, _, _, -, hOther, -, -, -, hFun⟩ :=
        compiled hCheck hLower hRaw hShape hG
      cases hType.symm.trans hOther
      have hLength : type.params.length = (vs.map Value.encode).reverse.length := by
        rw [hFun.length_typeParams, ← hTypes]
        simp
      refine ih hG ?_
      have hHolds := holds_encode vs
      rw [hTypes] at hHolds
      rw [hStack, hLength, List.take_left, List.reverse_reverse]
      exact hHolds

/-- Numbers that stand for truth values are zero or one, in every function that a call with
arguments of the right types enters: the arguments that it gets, the result that it returns, the
variables wherever it is, and the value that the code of an expression leaves where it is run. -/
theorem bool_values_zero_or_one {tokens : List Token} (hRead : ofTokens tokens = .ok p)
    (hRaw : Stmt.isRawFreeAll p = true) (hCheck : p.check = .ok symbols)
    (hCasts : p.BoolCasts symbols) (hLower : p.lower symbols = .ok m) {index : Nat} {f : Function}
    (hAt : symbols.functions[index]? = some f) {args : List Val}
    (hArgs : List.Forall₂ Ty.Holds f.signature.params args) {bound depth last : Nat}
    {vals : List Val} (hEnters : m.Enters bound index args (depth + 1) last vals) :
    ∃ g, symbols.functions[last]? = some g ∧ List.Forall₂ Ty.Holds g.signature.params vals ∧
      (∀ results, m.invoke (depth + 1) last vals = .done results → g.signature.ret = .bool →
        results = [.i32 0] ∨ results = [.i32 1]) ∧
      ∃ ts frame, m.start? last vals = some (ts, frame) ∧
        ∀ us here, Passes (m.callOn (m.invoke depth)) depth ts frame us here →
          List.Forall₂ Ty.Holds (g.locals.entries.map Variable.type) here.locals ∧
          ∀ sofar e is u rest after,
            p.Meets symbols sofar ⟨symbols.signatures, g.locals⟩ (.expr e) →
            e.check sofar.signatures sofar.locals = .ok .bool →
            e.lower ⟨symbols.signatures, g.locals⟩ = .ok (is, u) → us = plains is ++ rest →
            runAll (m.callOn (m.invoke depth)) depth (plains is) here = .done (.next after) →
              after.stack = .i32 0 :: here.stack ∨ after.stack = .i32 1 :: here.stack := by
  have hShape := isShapedAll_of_ofTokens hRead
  obtain ⟨g, hG, hVals⟩ := holds_of_enters hCheck hLower hRaw hShape hCasts hEnters hAt hArgs
  obtain ⟨ts, frame, hEntry, hSafe⟩ :=
    exists_entry hCheck hLower hRaw hShape hCasts depth hG hVals
  refine ⟨g, hG, hVals, fun results hResults hBool => ?_, ts, frame, hEntry,
    fun us here hPasses => ?_⟩
  · have hCallable : symbols.callables[last]? = some g.signature.callable := by
      simp [Symbols.callables_eq, hG]
    obtain ⟨vs, hTypes, rfl⟩ := exists_values hVals
    have hRel :=
      call_rel_invoke hCheck hLower hRaw hShape hCasts (depth + 1) hCallable hTypes
    obtain ⟨v, hTyped, rfl⟩ := hRel.exists_of_done hResults
    exact Typed.operands_bool (hBool ▸ hTyped)
  · obtain ⟨store, hAgrees⟩ := (hSafe us here hPasses).1
    refine ⟨by simpa [Locals.env, Function.comp_def] using hAgrees.holds, ?_⟩
    intro sofar e is u rest after hMeets hType hCode _ hRun
    -- From variables that agree, the code of an expression computes its value wherever it stands.
    obtain ⟨hSofar, -⟩ := hMeets.passes hCheck
    have hTyped := ((Expr.check_eq_ok e).1 hType).mono hSofar.funs hSofar.env
    obtain ⟨rfl, hEmits⟩ := Expr.emits_of_lower hTyped hCode
    have hCalls := callsAgree hCheck hLower hRaw hShape hCasts depth
    obtain ⟨_, hValue, hStack, -⟩ := (hEmits.simulates g.locals.distinct_env hCalls
      (hMeets.boolCasts hCheck hCasts) here.stack hAgrees).exists_of_next hRun
    rw [hStack]
    exact hValue.operands_bool.imp (congrArg (· ++ here.stack)) (congrArg (· ++ here.stack))

/-- The tokens of `bool flip(bool b) { return !b; } bool f(i32 n) { return flip(n > 1); }`. -/
def flipTokens : List Token :=
  [(.type, "bool"), (.ident, "flip"), (.lparen, "("), (.type, "bool"), (.ident, "b"),
    (.rparen, ")"), (.lbrace, "\x7b"), (.kwReturn, "return"), (.bang, "!"), (.ident, "b"),
    (.semicolon, ";"), (.rbrace, "\x7d"), (.type, "bool"), (.ident, "f"), (.lparen, "("),
    (.type, "i32"), (.ident, "n"), (.rparen, ")"), (.lbrace, "\x7b"), (.kwReturn, "return"),
    (.ident, "flip"), (.lparen, "("), (.ident, "n"), (.gt, ">"), (.number, "1"), (.rparen, ")"),
    (.semicolon, ";"), (.rbrace, "\x7d")].map fun word => ⟨word.1, word.2, .point 0⟩

/-- The module of these functions. -/
def flipModule : Module where
  types := [⟨[.i32], [.i32]⟩, ⟨[.i32], [.i32]⟩]
  funcs := [0, 1]
  memory := compiledMemory
  exports := [⟨"flip", .func, 0⟩, ⟨"f", .func, 1⟩, ⟨memoryExport, .memory, 0⟩]
  code := [⟨[], [0x20, 0x00, 0x41, 0x01, 0x73, 0x0f]⟩,
    ⟨[], [0x20, 0x00, 0x41, 0x01, 0x4a, 0x10, 0x00, 0x0f]⟩]

/-- The comparison is an argument of the function that is called. -/
theorem bool_values_zero_or_one_flip :
    ∃ p symbols, ofTokens flipTokens = .ok p ∧ p.check = .ok symbols ∧
      p.lower symbols = .ok flipModule ∧ flipModule.Enters 2 1 [.i32 4] 1 0 [.i32 1] ∧
      ∀ results, flipModule.invoke 1 0 [.i32 1] = .done results →
        results = [.i32 0] ∨ results = [.i32 1] := by
  let flip : List Stmt := [.ret (.point 0) (.unary (.point 0) .not (.ident (.point 0) "b"))]
  let body : List Stmt := [.ret (.point 0) (.call (.point 0) "flip"
    [.binary (.point 0) .gt (.ident (.point 0) "n") (.number (.point 0) (.int 1))])]
  let p : Program :=
    [.function (.point 0) "bool" "flip" [⟨.point 0, "bool", "b", none⟩] flip,
      .function (.point 0) "bool" "f" [⟨.point 0, "i32", "n", none⟩] body]
  let symbols := Symbols.ofList
    [⟨⟨"flip", .bool, [.bool], .point 0⟩, .ofList [⟨"b", .bool, true⟩]⟩,
      ⟨⟨"f", .bool, [.i32], .point 0⟩, .ofList [⟨"n", .i32, true⟩]⟩]
  have hRead : ofTokens flipTokens = .ok p := by cbv
  have hRaw : Stmt.isRawFreeAll p = true := by cbv
  have hCheck : p.check = .ok symbols := by cbv
  have hLower : p.lower symbols = .ok flipModule := by cbv
  have hCasts : p.BoolCasts symbols := by
    intro s type name params body hMem l hLocals
    simp only [p, List.mem_cons, List.not_mem_nil, or_false] at hMem
    rcases hMem with hMem | hMem <;> cases hMem <;>
      simp [flip, body, Stmt.AllBoolCasts, Stmt.BoolCasts, Expr.BoolCasts, Expr.AllBoolCasts]
  have hStart : flipModule.start? 1 [.i32 4] = some (plains [.localGet 0, .i32Const 1,
      .plain .i32GtS, .call 0, .plain .ret], ⟨[.i32 4], []⟩) := by cbv
  have hEnters : flipModule.Enters 2 1 [.i32 4] 1 0 [.i32 1] :=
    .call hStart (.next rfl (.next rfl (.next rfl .here))) rfl .self
  obtain ⟨g, hG, -, hResults, -⟩ := bool_values_zero_or_one hRead hRaw hCheck hCasts hLower rfl
    (.cons ⟨rfl, by simp⟩ .nil) hEnters
  cases hG
  exact ⟨p, symbols, hRead, hCheck, hLower, hEnters, fun results h => hResults results h rfl⟩

/-- The tokens of `bool f() { return (bool) 2; }`. -/
def boolCastTokens : List Token :=
  [(.type, "bool"), (.ident, "f"), (.lparen, "("), (.rparen, ")"), (.lbrace, "\x7b"),
    (.kwReturn, "return"), (.lparen, "("), (.type, "bool"), (.rparen, ")"), (.number, "2"),
    (.semicolon, ";"), (.rbrace, "\x7d")].map fun word => ⟨word.1, word.2, .point 0⟩

/-- A cast of a number to `bool` leaves the number, which is then a result of type `bool`. -/
theorem bool_cast_result_two :
    ∃ p symbols m, ofTokens boolCastTokens = .ok p ∧ Stmt.isRawFreeAll p = true ∧
      p.check = .ok symbols ∧ p.lower symbols = .ok m ∧
      symbols.signatures.entries.map Signature.ret = [.bool] ∧
      m.invoke 1 0 [] = .done [.i32 2] := by
  let value := Expr.cast (.point 0) "bool" (.number (.point 0) (.int 2))
  let p : Program := [.function (.point 0) "bool" "f" [] [.ret (.point 0) value]]
  let symbols := Symbols.ofList [⟨⟨"f", .bool, [], .point 0⟩, .empty⟩]
  have hRead : ofTokens boolCastTokens = .ok p := by cbv
  have hCheck : p.check = .ok symbols := by cbv
  exact ⟨p, symbols, _, hRead, by cbv, hCheck, rfl, rfl, by cbv⟩

end Program

end WasmCompiler
