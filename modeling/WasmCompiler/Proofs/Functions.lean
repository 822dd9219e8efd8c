import WasmCompiler.Proofs.Decoding
import WasmCompiler.Proofs.Meaning

/-! The functions of a checked program: their tables, their definitions and their bodies, which
all have the same number. -/

namespace WasmCompiler

open Wasm

/-- A table holds the given parameters, and then the given other variables. -/
def Locals.HasVars (l : Locals) (params others : Env) : Prop :=
  l.entries = params.map (fun v => ⟨v.1, v.2, true⟩) ++ others.map fun v => ⟨v.1, v.2, false⟩

namespace Locals.HasVars

variable {l l' : Locals} {params others : Env} {x : String} {t : Ty}

theorem env (h : l.HasVars params others) : l.env = params ++ others := by
  simp [Locals.env, show l.entries = _ from h, Function.comp_def]

theorem locals (h : l.HasVars params others) :
    l.locals.map Variable.type = others.map Prod.snd := by
  simp [Locals.locals, show l.entries = _ from h, List.filter_map, Function.comp_def]

/-- The variables of a function have different names. -/
theorem distinct (h : l.HasVars params others) : ((params ++ others).map Prod.fst).Nodup :=
  h.env ▸ l.distinct_env

/-- A variable that is declared comes last. -/
theorem add (h : l.HasVars params others) (hEntries : l'.entries = l.entries ++ [⟨x, t, false⟩]) :
    l'.HasVars params (others ++ [(x, t)]) := by
  simp [HasVars, hEntries, show l.entries = _ from h]

/-- A parameter is added after the others. -/
theorem addParam (h : l.HasVars params [])
    (hEntries : l'.entries = l.entries ++ [⟨x, t, true⟩]) :
    l'.HasVars (params ++ [(x, t)]) [] := by
  simp [HasVars, hEntries, show l.entries = _ from h]

end Locals.HasVars

namespace Declaration

/-- The parameters of a function are its first variables, in their order. -/
theorem hasVars_of_checkParams : ∀ {ds : List Declaration} {params : Env} {l l' : Locals},
    l.HasVars params [] → checkParams l ds = .ok l' →
      ∃ more, List.Forall₂ IsParam ds more ∧ l'.HasVars (params ++ more) []
  | [], params, l, l', hVars, h => by
      simp only [checkParams, Except.ok.injEq] at h
      exact ⟨[], .nil, by simpa [← h] using hVars⟩
  | d :: ds, params, l, l', hVars, h => by
      simp only [checkParams, bind_eq_ok, checkParam_eq_ok] at h
      obtain ⟨_, ⟨t, hParam, -, hEntries⟩, hRest⟩ := h
      obtain ⟨more, hMore, hAll⟩ := hasVars_of_checkParams (hVars.addParam hEntries) hRest
      exact ⟨(d.name, t) :: more, .cons hParam hMore, by simpa using hAll⟩

end Declaration

namespace Stmt

mutual

/-- Checking a statement adds the variables that it declares to the table, in order. -/
theorem hasVars_of_check {ctx : Context} {params : Env} :
    ∀ {s : Stmt} {others : Env} {l l' : Locals}, l.HasVars params others →
    s.check ctx l = .ok l' →
      ∃ more, List.Forall₂ Declaration.Declares (declared s) more ∧
        l'.HasVars params (others ++ more)
  | .function s r f ps body, others, l, l', hVars, h => by
      simp [check, TypeError.throw] at h
  | .var d, others, l, l', hVars, h => by
      rw [check, Declaration.check_eq_ok] at h
      obtain ⟨t, hDeclares, -, -, hEntries⟩ := h
      exact ⟨[(d.name, t)], by simpa [declared] using hDeclares, hVars.add hEntries⟩
  | .branch s conds blocks, others, l, l', hVars, h => by
      simp only [check, bind_eq_ok] at h
      obtain ⟨_, -, hBlocks⟩ := h
      simpa only [declared] using hasVars_of_checkBlocks hVars hBlocks
  | .loop s cond body, others, l, l', hVars, h => by
      simp only [check, bind_eq_ok] at h
      obtain ⟨_, -, hBody⟩ := h
      simpa only [declared] using hasVars_of_checkAll hVars hBody
  | .ret s e, others, l, l', hVars, h => by
      simp only [check, bind_eq_ok] at h
      obtain ⟨t, -, hDone⟩ := h
      by_cases hSame : t = ctx.ret
      · rw [if_neg (not_not.2 hSame), pure_eq_ok] at hDone
        exact ⟨[], by simp [declared], by simpa [← hDone] using hVars⟩
      · simp [hSame, TypeError.throw] at hDone
  | .raw s text, others, l, l', hVars, h => by
      simp only [check, Except.ok.injEq] at h
      exact ⟨[], by simp [declared], by simpa [← h] using hVars⟩
  | .eval s e, others, l, l', hVars, h => by
      simp only [check, bind_eq_ok, pure_eq_ok] at h
      obtain ⟨t, -, rfl⟩ := h
      exact ⟨[], by simp [declared], by simpa using hVars⟩

/-- Statements in turn add their variables in turn. -/
theorem hasVars_of_checkAll {ctx : Context} {params : Env} :
    ∀ {ss : List Stmt} {others : Env} {l l' : Locals}, l.HasVars params others →
    checkAll ctx l ss = .ok l' →
      ∃ more, List.Forall₂ Declaration.Declares (declaredAll ss) more ∧
        l'.HasVars params (others ++ more)
  | [], others, l, l', hVars, h => by
      simp only [checkAll, Except.ok.injEq] at h
      exact ⟨[], by simp [declaredAll], by simpa [← h] using hVars⟩
  | s :: ss, others, l, l', hVars, h => by
      simp only [checkAll, bind_eq_ok] at h
      obtain ⟨_, hHead, hTail⟩ := h
      obtain ⟨first, hFirst, hMiddle⟩ := hasVars_of_check hVars hHead
      obtain ⟨more, hMore, hAll⟩ := hasVars_of_checkAll hMiddle hTail
      exact ⟨first ++ more, List.rel_append hFirst hMore, by rwa [← List.append_assoc]⟩

theorem hasVars_of_checkBlocks {ctx : Context} {params : Env} :
    ∀ {bs : List (List Stmt)} {others : Env} {l l' : Locals}, l.HasVars params others →
    checkBlocks ctx l bs = .ok l' →
      ∃ more, List.Forall₂ Declaration.Declares (declaredBlocks bs) more ∧
        l'.HasVars params (others ++ more)
  | [], others, l, l', hVars, h => by
      simp only [checkBlocks, Except.ok.injEq] at h
      exact ⟨[], by simp [declaredBlocks], by simpa [← h] using hVars⟩
  | b :: bs, others, l, l', hVars, h => by
      simp only [checkBlocks, bind_eq_ok] at h
      obtain ⟨_, hHead, hTail⟩ := h
      obtain ⟨first, hFirst, hMiddle⟩ := hasVars_of_checkAll hVars hHead
      obtain ⟨more, hMore, hAll⟩ := hasVars_of_checkBlocks hMiddle hTail
      exact ⟨first ++ more, List.rel_append hFirst hMore, by rwa [← List.append_assoc]⟩

end

/-- A function as the checker leaves it: its entry in the table of functions, for a body that is
well-typed where functions among `fs` can be called. -/
inductive ChecksTo (fs : List Callable) : Stmt → Function → Prop where
  | function {s : Span} {name : String} {r : Ty} {params : List Declaration} {body : List Stmt}
      {locals : Locals} {Γ others : Env} {gs : List Callable} (hMemory : name ≠ memoryExport)
      (hParams : List.Forall₂ Declaration.IsParam params Γ)
      (hDeclared : List.Forall₂ Declaration.Declares (declaredAll body) others)
      (hVars : locals.HasVars Γ others) (hFuns : gs ⊆ fs)
      (hBody : AllWellTyped gs r Γ body (Γ ++ others)) :
      ChecksTo fs (.function s r.name name params body)
        ⟨⟨name, r, Γ.map Prod.snd, s⟩, locals⟩

end Stmt

/-- The table of some declarations in order. -/
def Table.ofList {α : Type} {nameOf : α → String} (row : List α) : Table α nameOf :=
  row.foldl Table.declared .empty

/-- The tables of some functions in order. -/
def Symbols.ofList (row : List Function) : Symbols :=
  row.foldl (fun symbols f => symbols.declared f.signature f.locals) .empty

/-- The functions of a table, as the typing rules see them. -/
def Symbols.callables (symbols : Symbols) : List Callable := symbols.signatures.callables

theorem Symbols.callables_eq (symbols : Symbols) :
    symbols.callables = symbols.functions.map fun f => f.signature.callable := by
  rw [callables, Signatures.callables, ← symbols.signatures_functions, List.map_map]
  rfl

/-- The function at an index can be called at that index. -/
theorem Symbols.getElem?_callables {symbols : Symbols} {index : Nat} {f : Callable}
    (hAt : symbols.callables[index]? = some f) :
    ∃ g : Function, symbols.functions[index]? = some g ∧ g.signature.callable = f := by
  rwa [callables_eq, List.getElem?_map, Option.map_eq_some_iff] at hAt

/-- The signature of a function has the number of the function. -/
theorem Symbols.getElem?_signatures {symbols : Symbols} {index : Nat} {f : Function}
    (hAt : symbols.functions[index]? = some f) :
    symbols.signatures.entries[index]? = some f.signature := by
  rw [← symbols.signatures_functions, List.getElem?_map, hAt, Option.map_some]

theorem Symbols.distinct_functions (symbols : Symbols) :
    (symbols.functions.map fun f => f.signature.name).Nodup := by
  have hNames := symbols.signatures.distinct
  rwa [← symbols.signatures_functions, List.map_map] at hNames

/-- A function that passes is added to the table. -/
theorem Stmt.checkTop_eq_ok {symbols after : Symbols} {s : Stmt}
    (h : checkTop symbols s = .ok after) :
    ∃ f : Function, s.ChecksTo (symbols.callables ++ [f.signature.callable]) f ∧
      after.functions = symbols.functions ++ [f] := by
  cases s with
  | function s type name params body =>
      obtain ⟨r, paramLocals, locals, signature, rfl, hMemory, hNew, rfl, hParams, hBody, rfl⟩ :=
        checkFunction_eq_ok.1 h
      obtain ⟨Γ, hDecls, hStart⟩ :=
        @Declaration.hasVars_of_checkParams _ [] .empty _ rfl hParams
      rw [List.nil_append] at hStart
      obtain ⟨others, hDeclared, hVars⟩ := hasVars_of_checkAll hStart hBody
      rw [List.nil_append] at hVars
      have hTyped := (checkAll_iff body).1 ⟨locals, hBody, hVars.env⟩
      have hTypes : paramLocals.env = Γ := by rw [hStart.env, List.append_nil]
      rw [hTypes] at hTyped ⊢
      rw [Signatures.callables_declared hNew] at hTyped
      exact ⟨⟨⟨name, r, Γ.map Prod.snd, s⟩, locals⟩,
        .function hMemory hDecls hDeclared hVars (List.Subset.refl _) hTyped,
        Symbols.functions_declared locals hNew⟩
  | eval s e => cases e <;> simp [checkTop, TypeError.throw] at h
  | _ => simp [checkTop, TypeError.throw] at h

/-- A function that checks against some functions checks against more of them. -/
theorem Stmt.ChecksTo.mono {fs gs : List Callable} {s : Stmt} {f : Function}
    (h : s.ChecksTo fs f) (hSub : fs ⊆ gs) : s.ChecksTo gs f := by
  cases h with
  | function hMemory hParams hDeclared hVars hFuns hBody =>
      exact .function hMemory hParams hDeclared hVars (List.Subset.trans hFuns hSub) hBody

/-- The table of a checked program has an entry for each of its statements, in order, after those
that it had before. -/
theorem Program.checkFrom_eq_ok {p : Program} {symbols after : Symbols}
    (h : p.checkFrom symbols = .ok after) :
    ∃ more, after.functions = symbols.functions ++ more ∧
      List.Forall₂ (Stmt.ChecksTo after.callables) p more := by
  induction p generalizing symbols with
  | nil =>
      simp only [checkFrom, Except.ok.injEq] at h
      subst h
      exact ⟨[], by simp, .nil⟩
  | cons s p ih =>
      simp only [checkFrom, bind_eq_ok] at h
      obtain ⟨middle, hHead, hTail⟩ := h
      obtain ⟨f, hChecks, hMiddle⟩ := Stmt.checkTop_eq_ok hHead
      obtain ⟨more, hAll, hMore⟩ := ih hTail
      rw [hMiddle, List.append_assoc, List.singleton_append] at hAll
      refine ⟨f :: more, hAll, .cons (hChecks.mono ?_) hMore⟩
      rw [after.callables_eq, hAll, symbols.callables_eq, List.map_append, List.map_cons]
      exact List.append_subset.2 ⟨List.subset_append_left _ _, by simp⟩

/-- The functions of a program that passes its check are checked one by one. -/
theorem Program.check_eq_ok {p : Program} {symbols : Symbols} (h : p.check = .ok symbols) :
    List.Forall₂ (Stmt.ChecksTo symbols.callables) p symbols.functions := by
  obtain ⟨more, hAll, hMore⟩ := checkFrom_eq_ok h
  rwa [hAll]

namespace Function

/-- Types are stored one by one. -/
theorem storages_eq_ok {s : Span} {types : List Ty} {stored : List ValType}
    (h : storages s types = .ok stored) : stored.map some = types.map Ty.storage? := by
  induction types generalizing stored with
  | nil =>
      simp only [storages, Except.ok.injEq] at h
      simp [← h]
  | cons t types ih =>
      simp only [storages, bind_eq_ok, pure_eq_ok, Ty.storage_eq_ok] at h
      obtain ⟨first, hFirst, others, hOthers, rfl⟩ := h
      simp [hFirst, ih hOthers]

/-- The type of a function in a module. -/
structure HasFuncType (s : Signature) (type : FuncType) : Prop where
  params : type.params.map some = s.params.map Ty.storage?
  results : type.results = s.ret.storage?.toList

/-- Signatures have their types one by one. -/
theorem lowerTypes_eq_ok {signatures : List Signature} {types : List FuncType}
    (h : lowerTypes signatures = .ok types) : List.Forall₂ HasFuncType signatures types := by
  induction signatures generalizing types with
  | nil =>
      simp only [lowerTypes, Except.ok.injEq] at h
      subst h
      exact .nil
  | cons s signatures ih =>
      simp only [lowerTypes, bind_eq_ok, pure_eq_ok] at h
      obtain ⟨params, hParams, others, hOthers, rfl⟩ := h
      exact .cons ⟨storages_eq_ok hParams, rfl⟩ (ih hOthers)

end Function

inductive Stmt.LowersTo (symbols : Symbols) : Stmt → Body → Prop where
  | function {s : Span} {type name : String} {params : List Declaration} {stmts : List Stmt}
      {body : Body} (h : Function.lower symbols s name stmts = .ok body) :
      LowersTo symbols (.function s type name params stmts) body

/-- Functions have their bodies one by one. -/
theorem Program.lowerFrom_eq_ok {symbols : Symbols} {p : Program} {index : Nat}
    {code : List Body} (h : p.lowerFrom symbols index = .ok code) :
    List.Forall₂ (Stmt.LowersTo symbols) p code := by
  induction p generalizing index code with
  | nil =>
      simp only [lowerFrom, Except.ok.injEq] at h
      subst h
      exact .nil
  | cons s p ih =>
      cases s with
      | function s type name params stmts =>
          simp only [lowerFrom] at h
          by_cases hIndex : symbols.signatures.index? name = some index
          · simp only [if_pos hIndex, bind_eq_ok, pure_eq_ok] at h
            obtain ⟨first, hFirst, others, hOthers, rfl⟩ := h
            exact .cons (.function hFirst) (ih hOthers)
          · simp [hIndex, EmitError.throw] at h
      | _ => simp [lowerFrom, EmitError.throw] at h

/-- What lowering a program comes down to. -/
theorem Program.lower_eq_ok {symbols : Symbols} {p : Program} {m : Module}
    (h : p.lower symbols = .ok m) :
    List.Forall₂ Function.HasFuncType symbols.signatures.entries m.types ∧
      List.Forall₂ (Stmt.LowersTo symbols) p m.code ∧
      m.funcs = List.range m.types.length ∧ m.memory = compiledMemory ∧
      m.exports = (symbols.signatures.entries.mapIdx fun i s => ⟨s.name, .func, i⟩) ++
        [⟨memoryExport, .memory, 0⟩] := by
  simp only [Program.lower, bind_eq_ok] at h
  obtain ⟨types, hTypes, code, hCode, hRest⟩ := h
  by_cases hLength : code.length = symbols.signatures.entries.length
  · rw [if_neg (not_not.2 hLength)] at hRest
    cases hRest
    exact ⟨Function.lowerTypes_eq_ok hTypes, lowerFrom_eq_ok hCode, rfl, rfl, rfl⟩
  · simp [hLength, EmitError.throw] at hRest

/-- What ends the code of a function that has a result and does not return it at its end. -/
def Function.ending (r : Ty) (stmts : List Stmt) : List Instr :=
  if r ≠ .void ∧ !endsInRet stmts then [.plain .unreachable] else []

theorem Function.encodable_ending (r : Ty) (stmts : List Stmt) :
    AllEncodable (ending r stmts) := by
  unfold ending
  by_cases hTrap : r ≠ .void ∧ (!endsInRet stmts) = true
  · simp [hTrap, @Instr.encodable_plain .unreachable rfl]
  · rw [if_neg hTrap]
    simp

/-- A compiled function: its definition with its variables, and its type and body with their
code. -/
structure Compiled (fs : List Callable) (f : Callable) (d : Definition) (type : FuncType)
    (body : Body) (Γ others : Env) (is : List Instr) : Prop where
  ret : d.ret = f.ret.name
  params : List.Forall₂ Declaration.IsParam d.params Γ
  paramTypes : Γ.map Prod.snd = f.params
  declared : List.Forall₂ Declaration.Declares (Stmt.declaredAll d.body) others
  distinct : ((Γ ++ others).map Prod.fst).Nodup
  emits : Stmt.AllEmit fs (Γ ++ others) f.ret d.body is
  storedParams : type.params.map some = f.params.map Ty.storage?
  results : type.results = f.ret.storage?.toList
  storedLocals : body.locals.map some = others.map fun v => v.2.storage?
  code : body.code = Code.encode (Code.ofInstrs (is ++ Function.ending f.ret d.body))

/-- The code of a function can be encoded, with what is added at its end. -/
theorem Compiled.encodable {fs : List Callable} {f : Callable} {d : Definition} {type : FuncType}
    {body : Body} {Γ others : Env} {is : List Instr}
    (h : Compiled fs f d type body Γ others is) :
    AllEncodable (is ++ Function.ending f.ret d.body) :=
  allEncodable_append.2 ⟨h.emits.encodable, Function.encodable_ending _ _⟩

/-- The code of a function that was checked follows the rules. -/
theorem Function.emits_of_lower {symbols : Symbols} {s : Span} {name : String} {r : Ty}
    {stmts : List Stmt} {locals : Locals} {Γ others : Env} {gs : List Callable} {body : Body}
    (hMem : ⟨⟨name, r, Γ.map Prod.snd, s⟩, locals⟩ ∈ symbols.functions)
    (hVars : locals.HasVars Γ others) (hFuns : gs ⊆ symbols.callables)
    (hTyped : Stmt.AllWellTyped gs r Γ stmts (Γ ++ others))
    (hRaw : Stmt.isRawFreeAll stmts = true) (hShape : Stmt.isShapedAll stmts = true)
    (h : Function.lower symbols s name stmts = .ok body) :
    ∃ is, lowerCode ⟨symbols.signatures, locals⟩ r stmts =
        .ok (Code.ofInstrs (is ++ ending r stmts)) ∧
      Stmt.AllEmit symbols.callables (Γ ++ others) r stmts is ∧
      body.locals.map some = others.map (fun v => v.2.storage?) ∧
      body.code = Code.encode (Code.ofInstrs (is ++ ending r stmts)) := by
  have hGet := Symbols.get?_of_mem hMem
  have hLocals := Symbols.locals?_of_mem hMem
  simp only at hGet hLocals
  simp only [Function.lower, hGet, hLocals, bind_eq_ok, pure_eq_ok] at h
  obtain ⟨code, hLowered, stored, hStored, rfl⟩ := h
  obtain ⟨parts, hParts, hCode⟩ := bind_eq_ok.1 hLowered
  obtain ⟨is, rfl, hEmits⟩ := Stmt.allEmit_of_lowerAll hFuns hTyped
    (by rw [hVars.env]; exact List.Subset.refl _) hRaw hShape hParts
  rw [hVars.env] at hEmits
  have hAll : code = Code.ofInstrs (is ++ ending r stmts) :=
    (pure_eq_ok.1 hCode).symm.trans List.map_append.symm
  refine ⟨is, hAll ▸ hLowered, hEmits, ?_, congrArg Code.encode hAll⟩
  simpa [hVars.locals, Function.comp_def] using storages_eq_ok hStored

/-- The definition of a function is the statement at its number. -/
theorem Program.definition?_of_getElem? {fs : List Callable} {p : Program}
    {functions : List Function} (hChecks : List.Forall₂ (Stmt.ChecksTo fs) p functions)
    (hNames : (functions.map fun f => f.signature.name).Nodup) {s : Span} {type name : String}
    {params : List Declaration} {body : List Stmt}
    (hMem : Stmt.function s type name params body ∈ p) :
    p.definition? name = some ⟨type, params, body⟩ := by
  induction hChecks with
  | nil => simp at hMem
  | @cons stmt f p functions hHead hTail ih =>
      obtain ⟨hFirst, hOthers⟩ := List.nodup_cons.1 hNames
      rw [definition?, List.findSome?_cons]
      rcases List.mem_cons.1 hMem with rfl | hRest
      · simp [Stmt.definition?]
      · obtain ⟨i, hI⟩ := List.mem_iff_getElem?.1 hRest
        obtain ⟨g, hG, hChecks⟩ := forall₂_getElem? hTail.flip hI
        cases hHead with
        | function =>
            cases hChecks with
            | function =>
                have hNe := fun hEq => hFirst (List.mem_map.2 ⟨_, List.mem_of_getElem? hG, hEq⟩)
                rw [Stmt.definition?, if_neg (Ne.symm hNe)]
                exact ih hOthers hRest

/-- Every function of a program that is checked and lowered is compiled. -/
theorem Program.compiled {p : Program} {symbols : Symbols} {m : Module}
    (hCheck : p.check = .ok symbols) (hLower : p.lower symbols = .ok m)
    (hRaw : Stmt.isRawFreeAll p = true) (hShape : Stmt.isShapedAll p = true) {index : Nat}
    {f : Function} (hAt : symbols.functions[index]? = some f) :
    ∃ d type body Γ others is, p.definition? f.signature.name = some d ∧
      m.typeOf? index = some type ∧ m.code[index]? = some body ∧ f.locals.HasVars Γ others ∧
      (∃ s, Stmt.function s d.ret f.signature.name d.params d.body ∈ p) ∧
      Compiled symbols.callables f.signature.callable d type body Γ others is := by
  have hChecks := check_eq_ok hCheck
  obtain ⟨hTypes, hBodies, hFuncs, -, -⟩ := lower_eq_ok hLower
  obtain ⟨stmt, hStmt, hChecked⟩ := forall₂_getElem? hChecks hAt
  obtain ⟨body, hBody, hLowered⟩ := forall₂_getElem? hBodies.flip hStmt
  obtain ⟨type, hType, hFuncType⟩ :=
    forall₂_getElem? hTypes.flip (Symbols.getElem?_signatures hAt)
  have hMem := List.mem_of_getElem? hStmt
  have hTypeOf : m.typeOf? index = some type := by
    obtain ⟨hIndex, hGet⟩ := List.getElem?_eq_some_iff.1 hType
    simp [Module.typeOf?, hFuncs, hIndex, hGet]
  cases hChecked with
  | @function s name r params stmts _ Γ others gs _ hParams hDeclared hVars hFuns hTyped =>
      cases hLowered with
      | function hFunction =>
          obtain ⟨is, -, hEmits, hStored, hCode⟩ := Function.emits_of_lower
            (List.mem_of_getElem? hAt) hVars hFuns hTyped (Stmt.isRawFreeAll_iff.1 hRaw _ hMem)
            (Stmt.isShapedAll_iff.1 hShape _ hMem) hFunction
          exact ⟨⟨r.name, params, stmts⟩, type, body, Γ, others, is,
            definition?_of_getElem? hChecks symbols.distinct_functions hMem, hTypeOf, hBody, hVars,
            ⟨s, hMem⟩, rfl, hParams, rfl, hDeclared, hVars.distinct, hEmits, hFuncType.params,
            hFuncType.results, hStored, hCode⟩

end WasmCompiler
