import Mathlib
import WasmCompiler.Proofs.Functions
import WasmCompiler.Proofs.Simulation
import WasmCompiler.Proofs.StatementReading

/-! Compilation preserves meaning: a function of a module does what the function of the program
does, for the same arguments and with the same outcome. -/

namespace WasmCompiler

open Number Wasm

section Entry

/-- An argument is found by the name of its parameter, if the names differ. -/
theorem lookup_zip_of_getElem? {names : List String} (hDistinct : names.Nodup)
    {args : List Value} {i : Nat} {x : String} {v : Value} (hName : names[i]? = some x)
    (hArg : args[i]? = some v) : (names.zip args).lookup x = some v := by
  induction names generalizing args i with
  | nil => simp at hName
  | cons name names ih =>
      obtain ⟨hFirst, hOthers⟩ := List.nodup_cons.1 hDistinct
      cases args with
      | nil => simp at hArg
      | cons arg args =>
          cases i with
          | zero =>
              cases hName
              cases hArg
              simp
          | succ i =>
              have hNe : x ≠ name := by
                rintro rfl
                exact hFirst (List.mem_of_getElem? hName)
              rw [List.zip_cons_cons, List.lookup_cons, beq_false_of_ne hNe]
              exact ih hOthers hName hArg

theorem lookup_zip_of_notMem {names : List String} {args : List Value} {x : String}
    (hName : x ∉ names) : (names.zip args).lookup x = none := by
  rw [List.lookup_eq_none_iff]
  rintro ⟨y, v⟩ hMem
  have hY : y ∈ names := (List.of_mem_zip hMem).1
  exact bne_iff_ne.2 fun hEq => hName (hEq ▸ hY)

/-- What a variable holds before it is set, in the program and in its slot. -/
def StartsAs (v : String × Ty) (z : Val) : Prop :=
  ∃ w, Value.zero? v.2 = some w ∧ w.type = v.2 ∧ z = w.encode

/-- The variables that are no parameters start as zeros of their stored types. -/
theorem exists_zeros {others : Env} {stored : List ValType}
    (hStored : stored.map some = others.map fun v => v.2.storage?) :
    ∃ zeros, stored.mapM ValType.zero? = some zeros ∧ List.Forall₂ StartsAs others zeros := by
  induction others generalizing stored with
  | nil =>
      have hNil : stored = [] := by simpa using hStored
      subst hNil
      exact ⟨[], rfl, .nil⟩
  | cons v others ih =>
      cases stored with
      | nil => simp at hStored
      | cons first stored =>
          rw [List.map_cons, List.map_cons, List.cons.injEq] at hStored
          obtain ⟨zeros, hZeros, hStart⟩ := ih hStored.2
          obtain ⟨x, t⟩ := v
          have hFirst : ∃ w, Value.zero? t = some w ∧ w.type = t ∧
              first.zero? = some w.encode := by
            have hSome : some first = t.storage? := hStored.1
            cases t <;> cases hSome <;> exact ⟨_, rfl, rfl, rfl⟩
          obtain ⟨w, hZero, hType, hSlot⟩ := hFirst
          refine ⟨w.encode :: zeros, ?_, .cons ⟨w, hZero, hType, rfl⟩ hStart⟩
          simp [List.mapM_cons, hSlot, hZeros]

/-- A declared variable starts as the zero of its type. -/
theorem Value.zero?_declared {ds : List Declaration} {others : Env}
    (hDeclared : List.Forall₂ Declaration.Declares ds others)
    (hDistinct : (others.map Prod.fst).Nodup) {j : Nat} {x : String} {t : Ty}
    (hVar : others[j]? = some (x, t)) :
    ((ds.find? fun decl => decl.name == x).bind fun decl =>
      (Ty.ofName? decl.type).bind Value.zero?) = Value.zero? t := by
  obtain ⟨d, hD, hName, hType, -⟩ := forall₂_getElem? hDeclared hVar
  rw [← map_eq_of_forall₂ (fun _ _ h => h.1) hDeclared] at hDistinct
  rw [(find?_name_eq_some hDistinct).2 ⟨List.mem_of_getElem? hD, hName⟩, Option.bind_some,
    Ty.ofName?_eq_some.2 hType.symm, Option.bind_some]

/-- When a function is entered, its slots hold its variables. -/
theorem Compiled.agrees_entry {fs : List Callable} {f : Callable} {d : Definition}
    {type : FuncType} {body : Body} {Γ others : Env} {is : List Instr}
    (h : Compiled fs f d type body Γ others is) {args : List Value}
    (hArgs : args.map Value.type = f.params) {zeros : List Val}
    (hZeros : List.Forall₂ StartsAs others zeros) :
    Agrees (Γ ++ others) (d.entry args) (args.map Value.encode ++ zeros) := by
  have hNames : d.params.map Declaration.name = Γ.map Prod.fst :=
    map_eq_of_forall₂ (fun _ _ h => h.1) h.params
  have hLength : args.length = Γ.length := by
    have := congrArg List.length (hArgs.trans h.paramTypes.symm)
    simpa using this
  obtain ⟨hParams, hOthers, hApart⟩ := List.nodup_append.1 (List.map_append ▸ h.distinct)
  refine ⟨by simp [hLength, hZeros.length_eq], fun {slot x t} hVar => ?_⟩
  rcases Nat.lt_or_ge slot Γ.length with hParam | hOther
  · rw [List.getElem?_append_left hParam] at hVar
    obtain ⟨v, hArg⟩ : ∃ v, args[slot]? = some v := ⟨_, List.getElem?_eq_getElem (hLength ▸ hParam)⟩
    have hType : v.type = t := by
      have hAt := congrArg (fun types => types[slot]?) (hArgs.trans h.paramTypes.symm)
      simpa [hArg, hVar] using hAt
    have hLookup : ((d.params.map Declaration.name).zip args).lookup x = some v := by
      rw [hNames]
      exact lookup_zip_of_getElem? hParams (by simp [hVar]) hArg
    refine ⟨v, by simp [Definition.entry, hLookup], hType, ?_⟩
    rw [List.getElem?_append_left (by simpa [hLength] using hParam)]
    simp [hArg]
  · rw [List.getElem?_append_right hOther] at hVar
    obtain ⟨z, hZ, w, hZero, hType, rfl⟩ := forall₂_getElem? hZeros.flip hVar
    have hNotParam : x ∉ d.params.map Declaration.name := by
      rw [hNames]
      intro hMem
      exact hApart x hMem x (List.mem_map_of_mem (List.mem_of_getElem? hVar)) rfl
    refine ⟨w, ?_, hType, ?_⟩
    · rw [Definition.entry, lookup_zip_of_notMem hNotParam]
      exact (Value.zero?_declared h.declared hOthers hVar).trans hZero
    · rw [List.getElem?_append_right (by simpa [hLength] using hOther)]
      simpa [hLength] using hZ

end Entry

/-- A body that ends by returning is not left through its end. -/
theorem Stmt.execAll_ne_next {call : Expr.Calls} {bound : Nat} {stmts : List Stmt}
    (hRet : endsInRet stmts = true) (store after : Store) :
    execAll call bound stmts store ≠ .done (.next after) := by
  induction stmts generalizing store with
  | nil => simp [endsInRet] at hRet
  | cons s ss ih =>
      rw [execAll]
      intro hRun
      cases ss with
      | nil =>
          cases s with
          | ret span e =>
              rw [exec] at hRun
              cases hEval : e.eval call store with
              | done result => simp [hEval, Flow.andThen] at hRun
              | _ => simp [hEval] at hRun
          | _ => simp [endsInRet, isRet] at hRet
      | cons t ts =>
          cases hFirst : exec call bound s store with
          | done flow =>
              rw [hFirst] at hRun
              cases flow with
              | next middle => exact ih (by simpa [endsInRet] using hRet) middle hRun
              | ret v => simp [Flow.andThen] at hRun
          | _ => simp [hFirst] at hRun

/-- An expression leaves one operand, or none if it is `void`. -/
theorem Typed.length_operands {t : Ty} {v : Option Value} (h : Typed t v) :
    (operands v).length = t.storage?.toList.length := by
  cases v with
  | none =>
      cases h
      rfl
  | some w =>
      cases h
      cases w <;> rfl

/-- The results of a function are the operands on top when it is left. -/
theorem Typed.take_operands {t : Ty} {v : Option Value} (h : Typed t v) (rest : List Val) :
    ((operands v ++ rest).take t.storage?.toList.length).reverse = operands v := by
  rw [← h.length_operands, List.take_left]
  cases v <;> rfl

/-- The code of a value has the stored type of the value. -/
theorem Value.storage?_type (v : Value) : v.type.storage? = some v.encode.type := by
  cases v <;> rfl

namespace Compiled

variable {fs : List Callable} {f : Callable} {d : Definition} {type : FuncType} {body : Body}
  {Γ others : Env} {is : List Instr}

/-- The codes of arguments have the types of the parameters of the function. -/
theorem types_encode (h : Compiled fs f d type body Γ others is) {args : List Value}
    (hArgs : args.map Value.type = f.params) :
    (args.map Value.encode).map Val.type = type.params := by
  apply List.map_injective_iff.2 (Option.some_injective ValType)
  rw [h.storedParams, ← hArgs]
  simp [Function.comp_def, Value.storage?_type]

theorem length_params (h : Compiled fs f d type body Γ others is) :
    d.params.length = f.params.length := by
  rw [← h.paramTypes, List.length_map, h.params.length_eq]

theorem length_typeParams (h : Compiled fs f d type body Γ others is) :
    type.params.length = f.params.length := by
  simpa using congrArg List.length h.storedParams

theorem void_notMem_params (h : Compiled fs f d type body Γ others is) : Ty.void ∉ f.params := by
  intro hVoid
  have hNone : none ∈ f.params.map Ty.storage? := List.mem_map.2 ⟨.void, hVoid, rfl⟩
  rw [← h.storedParams] at hNone
  simp at hNone

/-- What is added at the end of a function has no blocks. -/
theorem nests_ending (r : Ty) (stmts : List Stmt) :
    Nests (Function.ending r stmts) (plains (Function.ending r stmts)) := by
  unfold Function.ending
  split
  · exact .plain rfl rfl
  · exact .nil

/-- The code of a function as it is nested. -/
theorem nest?_code (h : Compiled fs f d type body Γ others is) {ts : List Structured}
    (hNests : Nests is ts) : (decode? body.code).bind nest? =
      some (ts ++ plains (Function.ending f.ret d.body)) := by
  rw [h.code, decode?_encode h.encodable]
  exact (hNests.append (nests_ending _ _)).nest?_eq

/-- The body of a function does what its definition says. -/
theorem run (h : Compiled fs f d type body Γ others is) {call : Expr.Calls}
    {number : Wasm.Calls} (hCalls : CallsAgree fs call number) (bound : Nat)
    (hCasts : Stmt.AllBoolCasts fs (Γ ++ others) d.body) {args : List Value}
    (hArgs : args.map Value.type = f.params) :
    ∃ ts zeros, (decode? body.code).bind nest? = some ts ∧
      body.locals.mapM ValType.zero? = some zeros ∧
      Run.Rel (fun v results => Typed f.ret v ∧ results = operands v) (d.run call bound args)
        (Structured.runAll number bound ts ⟨args.map Value.encode ++ zeros, []⟩ >>=
          fun signal => signal.results type.results.length) := by
  obtain ⟨zeros, hZeros, hStart⟩ := exists_zeros h.storedLocals
  obtain ⟨ts, hNests, hSimulates⟩ :=
    @Stmt.AllEmit.simulates fs _ f.ret call number bound h.distinct hCalls _ _ h.emits hCasts
  refine ⟨_, zeros, h.nest?_code hNests, hZeros, ?_⟩
  have hLength : ¬ args.length ≠ d.params.length := by
    rw [h.length_params, ← hArgs, List.length_map]
    exact not_not.2 rfl
  rw [Definition.run, if_neg hLength, Structured.runAll_append, Run.bind_assoc]
  have hRel := hSimulates [] (h.agrees_entry hArgs hStart)
  have hRet (hEnds : endsInRet d.body = true) (after : Store) :=
    @Stmt.execAll_ne_next call bound _ hEnds (d.entry args) after
  generalize Stmt.execAll call bound d.body (d.entry args) = source at hRel hRet ⊢
  generalize Structured.runAll number bound ts ⟨args.map Value.encode ++ zeros, []⟩ = machine
    at hRel ⊢
  cases hRel with
  | trap => exact .trap
  | timeout => exact .timeout
  | done hFollows =>
      cases hFollows with
      | ret hTyped rest => exact .done ⟨hTyped, h.results ▸ hTyped.take_operands rest⟩
      | @next after _ hAgrees =>
          -- A function that is left through its end has no result, or else it traps there.
          by_cases hVoid : f.ret = .void
          · have hName : Ty.ofName? d.ret = some .void := by
              rw [Ty.ofName?_eq_some, h.ret, hVoid]
            have hEnding : Function.ending f.ret d.body = [] := if_neg fun hBoth => hBoth.1 hVoid
            simp only [Run.done_bind, Signal.andThen, hName, hEnding, if_true]
            exact .done ⟨hVoid, by simp [operands]⟩
          · have hName : Ty.ofName? d.ret ≠ some .void := by
              rw [Ne, Ty.ofName?_eq_some, h.ret]
              exact fun hEq => hVoid (Ty.name_injective hEq.symm)
            have hOpen : endsInRet d.body = false :=
              Bool.eq_false_iff.2 fun hEnds => hRet hEnds after rfl
            have hEnding : Function.ending f.ret d.body = [.plain .unreachable] :=
              if_pos ⟨hVoid, by simp [hOpen]⟩
            simp only [Run.done_bind, Signal.andThen, hEnding, if_neg hName]
            exact .trap

end Compiled

/-- No cast to `bool` in a program has an operand of another type. -/
def Program.BoolCasts (p : Program) (symbols : Symbols) : Prop :=
  ∀ s type name params body, Stmt.function s type name params body ∈ p →
    ∀ l, symbols.locals? name = some l → Stmt.AllBoolCasts symbols.callables l.env body

theorem reverse_operands (v : Option Value) : (operands v).reverse = operands v := by
  cases v <;> rfl

/-- A call among other instructions takes its arguments and leaves its result. -/
theorem callsAgree_callOn {fs : List Callable} {m : Module} {call : Expr.Calls}
    {invoke : Nat → List Val → Run (List Val)} (hParams : ∀ f ∈ fs, Ty.void ∉ f.params)
    (hTypes : ∀ {index : Nat} {f : Callable}, fs[index]? = some f →
      ∃ type, m.typeOf? index = some type ∧ type.params.length = f.params.length)
    (hInvoke : ∀ {index : Nat} {f : Callable}, fs[index]? = some f → ∀ {args : List Value},
      args.map Value.type = f.params →
        Run.Rel (fun v results => Typed f.ret v ∧ results = operands v) (call f.name args)
          (invoke index (args.map Value.encode))) :
    CallsAgree fs call (m.callOn invoke) := by
  refine ⟨hParams, fun {index f} hAt {args} hArgs s => ?_⟩
  obtain ⟨type, hType, hLength⟩ := hTypes hAt
  have hCount : type.params.length = (args.map Value.encode).reverse.length := by
    rw [hLength, ← hArgs]
    simp
  rw [Module.callOn, hType, Run.need, Run.done_bind, hCount, List.take_left, List.drop_left,
    List.reverse_reverse, ← Run.bind_done (call f.name args)]
  refine (hInvoke hAt hArgs).bind fun v results hResults => ?_
  obtain ⟨hTyped, rfl⟩ := hResults
  exact .done ⟨hTyped, by rw [reverse_operands]⟩

namespace Program

variable {p : Program} {symbols : Symbols} {m : Module}

/-- Calls among other instructions agree with those in the program, if the calls that they make
do. -/
theorem callsAgree_of_invoke (hCheck : p.check = .ok symbols) (hLower : p.lower symbols = .ok m)
    (hRaw : Stmt.isRawFreeAll p = true) (hShape : Stmt.isShapedAll p = true) {bound : Nat}
    (hInvoke : ∀ {index : Nat} {f : Callable}, symbols.callables[index]? = some f →
      ∀ {args : List Value}, args.map Value.type = f.params →
        Run.Rel (fun v results => Typed f.ret v ∧ results = operands v) (p.call bound f.name args)
          (m.invoke bound index (args.map Value.encode))) :
    CallsAgree symbols.callables (p.call bound) (m.callOn (m.invoke bound)) := by
  refine callsAgree_callOn ?_ (fun hCallee => ?_) hInvoke
  · intro callee hMem
    obtain ⟨i, hI⟩ := List.mem_iff_getElem?.1 hMem
    obtain ⟨g, hG, rfl⟩ := Symbols.getElem?_callables hI
    obtain ⟨d, type, body, Γ, others, is, -, -, -, -, -, hG⟩ :=
      compiled hCheck hLower hRaw hShape hG
    exact hG.void_notMem_params
  · obtain ⟨g, hG, rfl⟩ := Symbols.getElem?_callables hCallee
    obtain ⟨d, type, body, Γ, others, is, -, hType, -, -, -, hG⟩ :=
      compiled hCheck hLower hRaw hShape hG
    exact ⟨type, hType, hG.length_typeParams⟩

/-- No operand that is cast to `bool` in a function of the program has another type. -/
theorem boolCasts_of_mem (hCasts : p.BoolCasts symbols) {index : Nat} {f : Function}
    (hAt : symbols.functions[index]? = some f) {s : Span} {type : String}
    {params : List Declaration} {body : List Stmt}
    (hMem : Stmt.function s type f.signature.name params body ∈ p) :
    Stmt.AllBoolCasts symbols.callables f.locals.env body :=
  hCasts _ _ _ _ _ hMem _
    (Symbols.locals?_of_mem (List.mem_of_getElem? hAt))

/-- Every call gives the same on the machine as in the program. Each call on the machine
goes with one in the program and each round of a loop with one round, so the bound is the same. -/
theorem call_rel_invoke (hCheck : p.check = .ok symbols) (hLower : p.lower symbols = .ok m)
    (hRaw : Stmt.isRawFreeAll p = true) (hShape : Stmt.isShapedAll p = true)
    (hCasts : p.BoolCasts symbols) (bound : Nat) {index : Nat} {f : Callable}
    (hAt : symbols.callables[index]? = some f) {args : List Value}
    (hArgs : args.map Value.type = f.params) :
    Run.Rel (fun v results => Typed f.ret v ∧ results = operands v) (p.call bound f.name args)
      (m.invoke bound index (args.map Value.encode)) := by
  induction bound generalizing index f args with
  | zero => exact .timeout
  | succ bound ih =>
      have hCalls := callsAgree_of_invoke hCheck hLower hRaw hShape ih
      obtain ⟨g, hG, rfl⟩ := Symbols.getElem?_callables hAt
      obtain ⟨d, type, body, Γ, others, is, hDef, hType, hBody, hVars, ⟨s, hMem⟩, hFun⟩ :=
        compiled hCheck hLower hRaw hShape hG
      have hBodyCasts := boolCasts_of_mem hCasts hG hMem
      rw [hVars.env] at hBodyCasts
      obtain ⟨ts, zeros, hCode, hZeros, hRel⟩ := hFun.run hCalls bound hBodyCasts hArgs
      simp only [call, Signature.callable, hDef, Module.invoke, hType, hBody, hCode, hZeros,
        Run.need, Run.done_bind, hFun.types_encode hArgs, ne_eq, not_true_eq_false, if_false]
      exact hRel

/-- The calls of the program and those of the module agree, with the same bound for both. -/
theorem callsAgree (hCheck : p.check = .ok symbols) (hLower : p.lower symbols = .ok m)
    (hRaw : Stmt.isRawFreeAll p = true) (hShape : Stmt.isShapedAll p = true)
    (hCasts : p.BoolCasts symbols) (bound : Nat) :
    CallsAgree symbols.callables (p.call bound) (m.callOn (m.invoke bound)) :=
  callsAgree_of_invoke hCheck hLower hRaw hShape fun hAt =>
    call_rel_invoke hCheck hLower hRaw hShape hCasts bound hAt

/-- A function of a checked program, by its number and as its callers see it. -/
theorem exists_index_of_mem (hCheck : p.check = .ok symbols) {s : Span} {type name : String}
    {params : List Declaration} {body : List Stmt}
    (hMem : Stmt.function s type name params body ∈ p) :
    ∃ index f, symbols.signatures.index? name = some index ∧
      symbols.signatures.entries[index]? = some f ∧ f.name = name ∧ type = f.ret.name ∧
      params.map Declaration.type = f.params.map Ty.name := by
  obtain ⟨index, hIndex⟩ := List.mem_iff_getElem?.1 hMem
  obtain ⟨f, hF, hChecked⟩ := forall₂_getElem? (check_eq_ok hCheck).flip hIndex
  have hAt := Symbols.getElem?_signatures hF
  cases hChecked with
  | function hMemory hParams =>
      refine ⟨index, _, Table.index?_eq_some_iff.2 ⟨_, hAt, rfl⟩, hAt, rfl, rfl, ?_⟩
      rw [List.map_map]
      exact map_eq_of_forall₂ (fun _ _ h => h.2.1) hParams

/-- A compiled function does what the program says it does. It ends where the function of the
program ends, with its result, without one or in a trap, and goes on for ever where that does. -/
theorem invoke_ends_iff_call_ends {tokens : List Token} (hRead : ofTokens tokens = .ok p)
    (hRaw : Stmt.isRawFreeAll p = true) (hCheck : p.check = .ok symbols)
    (hCasts : p.BoolCasts symbols) (hLower : p.lower symbols = .ok m) {s : Span}
    {type name : String} {params : List Declaration} {body : List Stmt}
    (hMem : Stmt.function s type name params body ∈ p) :
    ∃ index f, symbols.signatures.index? name = some index ∧
      symbols.signatures.entries[index]? = some f ∧ type = f.ret.name ∧
      params.map Declaration.type = f.params.map Ty.name ∧
      ∀ args : List Value, args.map Value.type = f.params →
        (∀ outcome, Run.Ends (fun bound => m.invoke bound index (args.map Value.encode)) outcome ↔
          ∃ result, Run.Ends (fun bound => p.call bound name args) result ∧
            outcome = operands <$> result) ∧
        (∀ result, Run.Ends (fun bound => p.call bound name args) result →
          (∃ v, result = .done v ∧ Typed f.ret v) ∨ result = .trap) ∧
        ∀ result other, Run.Ends (fun bound => p.call bound name args) result →
          Run.Ends (fun bound => p.call bound name args) other → result = other := by
  have hShape := isShapedAll_of_ofTokens hRead
  obtain ⟨index, f, hIndex, hAt, rfl, hRet, hParams⟩ := exists_index_of_mem hCheck hMem
  have hCallable : symbols.callables[index]? = some f.callable := by
    simp [Symbols.callables, Signatures.callables, hAt]
  refine ⟨index, f, hIndex, hAt, hRet, hParams, fun args hArgs => ?_⟩
  have hRel (bound : Nat) :=
    call_rel_invoke hCheck hLower hRaw hShape hCasts bound hCallable hArgs
  refine ⟨fun outcome => ?_, ?_, fun result other => ?_⟩
  · exact Run.Ends.iff_of_rel fun bound => (hRel bound).mono fun _ _ => And.right
  · rintro _ ⟨hEnded, bound, rfl⟩
    rcases (hRel bound).done_or_trap hEnded with ⟨v, hDone, _, hTyped, -⟩ | hTrap
    · exact .inl ⟨v, hDone, hTyped⟩
    · exact .inr hTrap
  · exact Run.Ends.unique fun n m hBound => p.call_extends hBound f.name args

/-- The tokens of `i32 f(i32 n) { while (n > 1) { n = n - 2; } return 6 / n; }`. -/
def countdownTokens : List Token :=
  [(.type, "i32"), (.ident, "f"), (.lparen, "("), (.type, "i32"), (.ident, "n"), (.rparen, ")"),
    (.lbrace, "\x7b"), (.kwWhile, "while"), (.lparen, "("), (.ident, "n"), (.gt, ">"),
    (.number, "1"), (.rparen, ")"), (.lbrace, "\x7b"), (.ident, "n"), (.assign, "="),
    (.ident, "n"), (.minus, "-"), (.number, "2"), (.semicolon, ";"), (.rbrace, "\x7d"),
    (.kwReturn, "return"), (.number, "6"), (.slash, "/"), (.ident, "n"), (.semicolon, ";"),
    (.rbrace, "\x7d")].map fun word => ⟨word.1, word.2, .point 0⟩

def countdownBody : List Stmt :=
  let n := Expr.ident (.point 0) "n"
  let number (value : Int64) := Expr.number (.point 0) (.int value)
  [.loop (.point 0) (.binary (.point 0) .gt n (number 1))
      [.eval (.point 0) (.assign (.point 0) "n" (.binary (.point 0) .sub n (number 2)))],
    .ret (.point 0) (.binary (.point 0) .div (number 6) n)]

/-- The loop takes an even number to zero, by which nothing is divided, and an odd one to one. -/
theorem invoke_ends_countdown :
    ∃ p symbols m, ofTokens countdownTokens = .ok p ∧ p.check = .ok symbols ∧
      p.lower symbols = .ok m ∧ Run.Ends (fun bound => m.invoke bound 0 [.i32 4]) .trap ∧
      Run.Ends (fun bound => m.invoke bound 0 [.i32 5]) (.done [.i32 6]) := by
  let decl : Declaration := ⟨.point 0, "i32", "n", none⟩
  let p : Program := [.function (.point 0) "i32" "f" [decl] countdownBody]
  let symbols := Symbols.ofList
    [⟨⟨"f", .i32, [.i32], .point 0⟩, .ofList [⟨"n", .i32, true⟩]⟩]
  have hRead : ofTokens countdownTokens = .ok p := by cbv
  have hRaw : Stmt.isRawFreeAll p = true := by cbv
  have hCheck : p.check = .ok symbols := by cbv
  obtain ⟨m, hLower⟩ : ∃ m, p.lower symbols = .ok m := ⟨_, rfl⟩
  have hCasts : p.BoolCasts symbols := by
    intro s type name params body hMem l hLocals
    cases List.mem_singleton.1 hMem
    cases hLocals
    simp [countdownBody, Stmt.AllBoolCasts, Stmt.BoolCasts, Expr.BoolCasts]
  have hMem : Stmt.function (.point 0) "i32" "f" [decl] countdownBody ∈ p :=
    List.mem_singleton.2 rfl
  obtain ⟨index, f, hIndex, hF, -, -, hEnds⟩ :=
    invoke_ends_iff_call_ends hRead hRaw hCheck hCasts hLower hMem
  cases hIndex
  cases hF
  refine ⟨p, symbols, m, hRead, hCheck, hLower, ?_, ?_⟩
  · exact ((hEnds [.i32 4] rfl).1 _).2 ⟨.trap, ⟨by simp, 4, by cbv⟩, rfl⟩
  · exact ((hEnds [.i32 5] rfl).1 _).2 ⟨.done (some (.i32 6)), ⟨by simp, 4, by cbv⟩, rfl⟩

end Program

end WasmCompiler
