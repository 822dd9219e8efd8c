import Mathlib
import WasmCompiler.Proofs.Occurrences

/-! The tables of a checked program follow its declarations: functions and variables stand in them
in the order of the text, a name is found at its place, and whatever the body of a function names
is declared. -/

namespace WasmCompiler

namespace Stmt

mutual

/-- The expressions in a statement, those that are parts of others apart. -/
def exprs : Stmt → List Expr
  | function _ _ _ _ body => exprsAll body
  | var decl => decl.init.toList
  | branch _ conds blocks => conds ++ exprsBlocks blocks
  | loop _ cond body => cond :: exprsAll body
  | ret _ e | eval _ e => [e]
  | raw _ _ => []

def exprsAll : List Stmt → List Expr
  | [] => []
  | s :: ss => exprs s ++ exprsAll ss

def exprsBlocks : List (List Stmt) → List Expr
  | [] => []
  | b :: bs => exprsAll b ++ exprsBlocks bs

end

section Typing

variable {fs : List Callable} {r : Ty}

mutual

/-- The expressions in a well-typed statement have types, with all that is declared after it. -/
theorem WellTyped.exprs : ∀ {s : Stmt} {Γ Γ' : Env}, WellTyped fs r Γ s Γ' →
    ∀ e ∈ s.exprs, ∃ t, e.HasType fs Γ' t
  | _, _, _, .var _ _ => by simp [Stmt.exprs]
  | _, _, _, .varInit _ _ hInit => by
      simp only [Stmt.exprs, Option.toList_some, List.forall_mem_singleton]
      exact ⟨_, hInit.mono (List.Subset.refl _) (List.subset_append_left _ _)⟩
  | _, _, _, .branch hConds hBlocks => by
      rw [Stmt.exprs]
      refine List.forall_mem_append.2 ⟨fun c hC => ?_, hBlocks.exprs⟩
      exact ⟨_, (hConds c hC).mono (List.Subset.refl _) hBlocks.subset⟩
  | _, _, _, .loop hCond hBody => by
      rw [Stmt.exprs]
      exact List.forall_mem_cons.2
        ⟨⟨_, hCond.mono (List.Subset.refl _) hBody.subset⟩, hBody.exprs⟩
  | _, _, _, .ret hValue => by simpa [Stmt.exprs] using ⟨_, hValue⟩
  | _, _, _, .raw => by simp [Stmt.exprs]
  | _, _, _, .eval hExpr => by simpa [Stmt.exprs] using ⟨_, hExpr⟩

theorem AllWellTyped.exprs : ∀ {ss : List Stmt} {Γ Γ' : Env}, AllWellTyped fs r Γ ss Γ' →
    ∀ e ∈ exprsAll ss, ∃ t, e.HasType fs Γ' t
  | _, _, _, .nil => by simp [exprsAll]
  | _, _, _, .cons hHead hTail => by
      rw [exprsAll]
      refine List.forall_mem_append.2 ⟨fun e hE => ?_, hTail.exprs⟩
      obtain ⟨t, hType⟩ := hHead.exprs e hE
      exact ⟨t, hType.mono (List.Subset.refl _) hTail.subset⟩

theorem BlocksWellTyped.exprs : ∀ {bs : List (List Stmt)} {Γ Γ' : Env},
    BlocksWellTyped fs r Γ bs Γ' → ∀ e ∈ exprsBlocks bs, ∃ t, e.HasType fs Γ' t
  | _, _, _, .nil => by simp [exprsBlocks]
  | _, _, _, .cons hHead hTail => by
      rw [exprsBlocks]
      refine List.forall_mem_append.2 ⟨fun e hE => ?_, hTail.exprs⟩
      obtain ⟨t, hType⟩ := hHead.exprs e hE
      exact ⟨t, hType.mono (List.Subset.refl _) hTail.subset⟩

end

end Typing

end Stmt

/-- A table in which every variable is found at its own slot. -/
structure Locals.IsIndexed (l : Locals) : Prop where
  distinct : (l.entries.map Variable.name).Nodup
  slot : ∀ x i, l.slot? x = some i ↔ ∃ v, l.entries[i]? = some v ∧ v.name = x
  get : ∀ x, l.get? x = (l.slot? x).bind fun i => l.entries[i]?

/-- The variables of a function have their indices by their order, and no two share a name. -/
theorem Locals.isIndexed (l : Locals) : l.IsIndexed where
  distinct := l.distinct
  slot _ _ := Table.index?_eq_some_iff
  get _ := rfl

/-- What a table says of a variable, in the words of its declaration. -/
def Variable.row (v : Variable) : Bool × String × String := (v.isParam, v.type.name, v.name)

def Declaration.row (isParam : Bool) (d : Declaration) : Bool × String × String :=
  (isParam, d.type, d.name)

/-- Declarations are entered into the table row by row. -/
theorem Declaration.rows_of_declares {isParam : Bool} {ds : List Declaration} {vs : Env}
    (h : List.Forall₂ Declares ds vs) :
    (vs.map fun v => (⟨v.1, v.2, isParam⟩ : Variable)).map Variable.row =
      ds.map (Declaration.row isParam) := by
  induction h with
  | nil => rfl
  | cons hHead _ ih =>
      obtain ⟨hName, hType, -⟩ := hHead
      simp only [List.map_cons, ih, Variable.row, Declaration.row, hName, hType]

/-- A function of a program and its entry in the tables. The signature says what the function says
of itself; the table of variables has its parameters and then the variables of its body, in the
order of their declarations, whatever blocks these stand in. -/
inductive Stmt.HasEntry : Stmt → Function → Prop where
  | function {s : Span} {type name : String} {params : List Declaration} {body : List Stmt}
      {ret : Ty} {paramTypes : List Ty} {locals : Locals} (hRet : ret.name = type)
      (hParams : paramTypes.map Ty.name = params.map Declaration.type)
      (hVars : locals.entries.map Variable.row =
        params.map (Declaration.row true) ++ (declaredAll body).map (Declaration.row false))
      (hLocals : locals.locals = locals.entries.drop params.length) :
      HasEntry (.function s type name params body) ⟨⟨name, ret, paramTypes, s⟩, locals⟩

/-- A function as the checker leaves it has the entry that its declarations ask for. -/
theorem Stmt.ChecksTo.hasEntry {fs : List Callable} {s : Stmt} {f : Function}
    (h : s.ChecksTo fs f) : s.HasEntry f := by
  cases h with
  | @function s name r params body locals Γ others gs hMemory hParams hDeclared hVars hFuns hBody =>
      have hDeclares : List.Forall₂ Declaration.Declares params Γ :=
        hParams.imp fun _ _ h => ⟨h.1, h.2.1, h.2.2.1⟩
      have hLength : (Γ.map fun v => (⟨v.1, v.2, true⟩ : Variable)).length = params.length := by
        rw [List.length_map, hParams.length_eq]
      refine .function rfl ?_ ?_ ?_
      · rw [List.map_map]
        exact (map_eq_of_forall₂ (fun d v hDeclares => hDeclares.2.1) hDeclares).symm
      · rw [hVars, List.map_append, Declaration.rows_of_declares hDeclares,
          Declaration.rows_of_declares hDeclared]
      · rw [Locals.locals, Locals.vars, hVars, ← hLength, List.drop_left]
        simp [List.filter_map, Function.comp_def]

/-- What an expression names is declared: the function that it calls is one of the first, up to
number `last`, and the variable that it reads or sets has a slot. -/
def Expr.IsResolved (signatures : Signatures) (last : Nat) (locals : Locals) : Expr → Prop
  | call _ callee _ => ∃ index ≤ last, signatures.index? callee = some index
  | ident _ x | assign _ x _ => ∃ slot, locals.slot? x = some slot
  | _ => True

/-- The first entries of a table have the first numbers. -/
theorem Table.index?_of_mem_take {α : Type} {nameOf : α → String} {t : Table α nameOf} {n : Nat}
    {name : String} (h : name ∈ (t.take n).entries.map nameOf) :
    ∃ index < n, t.index? name = some index := by
  obtain ⟨a, hMem, hName⟩ := List.mem_map.1 h
  obtain ⟨index, hAt⟩ := List.mem_iff_getElem?.1 hMem
  have hLess : index < n := by
    have hLength := (List.getElem?_eq_some_iff.1 hAt).1
    simp only [take, List.length_take] at hLength
    omega
  refine ⟨index, hLess, index?_eq_some_iff.2 ⟨a, ?_, hName⟩⟩
  rwa [take, List.getElem?_take_of_lt hLess] at hAt

/-- The parts of an expression name what is declared, if it has a type. -/
theorem Expr.HasType.isResolved {signatures : Signatures} {last : Nat} {locals : Locals}
    {whole e : Expr} {t : Ty}
    (h : whole.HasType (Signatures.callables (signatures.take (last + 1))) locals.env t)
    (hWithin : e.Within whole) : e.IsResolved signatures last locals := by
  have hSlot {x : String} {u : Ty} (hVar : (x, u) ∈ locals.env) :
      ∃ slot, locals.slot? x = some slot := by
    obtain ⟨v, hMem, hEq⟩ := List.mem_map.1 hVar
    obtain ⟨slot, hAt⟩ := List.mem_iff_getElem?.1 hMem
    exact ⟨slot, Table.index?_eq_some_iff.2 ⟨v, hAt, congrArg Prod.fst hEq⟩⟩
  rcases h.of_within hWithin with hStr | ⟨u, hType⟩
  · cases e with
    | str => trivial
    | _ => cases hStr
  · cases hType with
    | ident hVar | assign hVar _ => exact hSlot hVar
    | @call _ f _ hCallee _ =>
        have hName : f.name ∈ (signatures.take (last + 1)).entries.map Signature.name := by
          rw [← Signatures.names_callables]
          exact List.mem_map_of_mem hCallee
        obtain ⟨index, hLess, hIndex⟩ := Table.index?_of_mem_take hName
        exact ⟨index, Nat.le_of_lt_succ hLess, hIndex⟩
    | _ => trivial

namespace Program

/-- The expressions of function number `i` have types where the functions up to it can be called,
with all variables of the function. -/
theorem hasType_of_mem_exprs {p : Program} {symbols : Symbols} (hCheck : p.check = .ok symbols)
    {i : Nat} {stmt : Stmt} {f : Function} (hStmt : p[i]? = some stmt)
    (hFunction : symbols.functions[i]? = some f) {e : Expr} (hE : e ∈ stmt.exprs) :
    ∃ t, e.HasType (Signatures.callables (symbols.signatures.take (i + 1))) f.locals.env t := by
  obtain ⟨g, hG, hChecks⟩ := check_getElem? hCheck hStmt
  cases hFunction.symm.trans hG
  cases hChecks with
  | @function _ name r _ _ _ _ hParams hBody =>
      have hTyped := (Stmt.checkAll_iff _).1 ⟨_, hBody, rfl⟩
      rw [Stmt.exprs] at hE
      exact hTyped.exprs e hE

/-- The tables of a checked program follow its declarations. Its functions are listed in order, and
the index of a name is its place; each has its table of variables, in which every name is found at
its slot. Whatever function number `i` calls has an index of at most `i`, and each variable that it
reads or sets has a slot. -/
theorem tables_follow_declarations {p : Program} {symbols : Symbols}
    (hCheck : p.check = .ok symbols) :
    List.Forall₂ Stmt.HasEntry p symbols.functions ∧
    (∀ name i, symbols.signatures.index? name = some i ↔
      ∃ f, symbols.functions[i]? = some f ∧ f.signature.name = name) ∧
    (∀ f ∈ symbols.functions, symbols.signatures.get? f.signature.name = some f.signature ∧
      symbols.locals? f.signature.name = some f.locals ∧ f.locals.IsIndexed) ∧
    ∀ (i : Nat) (stmt : Stmt) (f : Function), p[i]? = some stmt →
      symbols.functions[i]? = some f → ∀ whole ∈ stmt.exprs, ∀ e : Expr, e.Within whole →
        e.IsResolved symbols.signatures i f.locals := by
  refine ⟨(check_eq_ok hCheck).imp fun _ _ h => h.hasEntry, fun name i => ?_, fun f hF =>
    ⟨Symbols.get?_of_mem hF, Symbols.locals?_of_mem hF, f.locals.isIndexed⟩, ?_⟩
  · rw [Table.index?_eq_some_iff, ← symbols.signatures_functions]
    simp
  · intro i stmt f hStmt hF whole hWhole e hWithin
    obtain ⟨t, hType⟩ := hasType_of_mem_exprs hCheck hStmt hF hWhole
    exact hType.isResolved hWithin

/-- The program `i32 f(i32 a) { return a; } i32 g(i32 n, bool b) { while (b) { i32 x = f(n);
if (b) { i64 y; } else { f32 z; g(x, b); } b = false; } return x; }`. -/
def scattered : Program :=
  let at0 := Span.point 0
  let var (x : String) := Expr.ident at0 x
  let call := Stmt.eval at0 (.call at0 "g" [var "x", var "b"])
  [.function at0 "i32" "f" [⟨at0, "i32", "a", none⟩] [.ret at0 (var "a")],
    .function at0 "i32" "g" [⟨at0, "i32", "n", none⟩, ⟨at0, "bool", "b", none⟩]
      [.loop at0 (var "b")
        [.var ⟨at0, "i32", "x", some (.call at0 "f" [var "n"])⟩,
          .branch at0 [var "b"]
            [[.var ⟨at0, "i64", "y", none⟩], [.var ⟨at0, "f32", "z", none⟩, call]],
          .eval at0 (.assign at0 "b" (.bool at0 false))],
        .ret at0 (var "x")]]

/-- The variables of three blocks share a table, after the parameters. -/
theorem tables_follow_declarations_scattered :
    ∃ symbols, scattered.check = .ok symbols ∧
      List.Forall₂ Stmt.HasEntry scattered symbols.functions ∧
      ∃ f, symbols.functions[1]? = some f ∧ f.locals.IsIndexed ∧
        f.locals.entries.map Variable.row = [(true, "i32", "n"), (true, "bool", "b"),
          (false, "i32", "x"), (false, "i64", "y"), (false, "f32", "z")] ∧
        (Expr.call (.point 0) "f" [.ident (.point 0) "n"]).IsResolved symbols.signatures 1
          f.locals := by
  let f : Function := ⟨⟨"f", .i32, [.i32], .point 0⟩, Table.empty.declared ⟨"a", .i32, true⟩⟩
  let g : Function := ⟨⟨"g", .i32, [.i32, .bool], .point 0⟩,
    [⟨"n", .i32, true⟩, ⟨"b", .bool, true⟩, ⟨"x", .i32, false⟩, ⟨"y", .i64, false⟩,
      ⟨"z", .f32, false⟩].foldl Table.declared .empty⟩
  let symbols := (Symbols.empty.declared f.signature f.locals).declared g.signature g.locals
  have hCheck : scattered.check = .ok symbols := by cbv
  obtain ⟨hEntries, -, hTables, hResolved⟩ := tables_follow_declarations hCheck
  have hG : symbols.functions[1]? = some g := by cbv
  have hCall := hResolved 1 _ g rfl hG _ (List.mem_cons_of_mem _ List.mem_cons_self) _ .self
  exact ⟨symbols, hCheck, hEntries, g, hG, (hTables g (List.mem_of_getElem? hG)).2.2, by cbv, hCall⟩

end Program

end WasmCompiler
