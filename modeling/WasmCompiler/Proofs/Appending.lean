import WasmCompiler.Proofs.SymbolTables

/-! Functions at the end of a program do not disturb those before them. A function names only itself
and what comes before it, so its code is the same under the longer tables. -/

namespace WasmCompiler

open Wasm

namespace Expr

/-- Every function that an expression calls is among those with the given names. -/
def CallsAmong (names : List String) (e : Expr) : Prop :=
  ∀ s callee args, (call s callee args).Within e → callee ∈ names

def AllCallAmong (names : List String) (es : List Expr) : Prop := ∀ e ∈ es, e.CallsAmong names

variable {signatures longer : Signatures}

mutual

/-- The code of an expression does not depend on functions that it does not name. -/
theorem lower_longer (hLonger : signatures.entries <+: longer.entries) (locals : Locals) :
    ∀ {e : Expr}, e.CallsAmong (signatures.entries.map Signature.name) →
      e.lower ⟨longer, locals⟩ = e.lower ⟨signatures, locals⟩
  | .ident _ _, _ | .number _ _, _ | .bool _ _, _ | .str _ _, _ => by
      simp only [lower, Scope.slot]
  | .assign _ _ e, h => by
      simp only [lower, Scope.slot,
        lower_longer hLonger locals (e := e) fun s f args hWithin => h s f args (.assign hWithin)]
  | .binary _ _ a b, h => by
      simp only [lower,
        lower_longer hLonger locals (e := a) fun s f args hWithin => h s f args (.left hWithin),
        lower_longer hLonger locals (e := b) fun s f args hWithin => h s f args (.right hWithin)]
  | .unary _ _ e, h => by
      simp only [lower,
        lower_longer hLonger locals (e := e) fun s f args hWithin => h s f args (.unary hWithin)]
  | .cast _ _ e, h => by
      simp only [lower,
        lower_longer hLonger locals (e := e) fun s f args hWithin => h s f args (.cast hWithin)]
  | .call s f args, h => by
      have hCallee := h s f args .self
      have hArgs : AllCallAmong (signatures.entries.map Signature.name) args :=
        fun e hE s g args' hWithin => h s g args' (.arg hE hWithin)
      simp only [lower, Table.index?_of_prefix hLonger hCallee,
        Table.get?_of_prefix hLonger hCallee, lowerArgs_longer hLonger locals hArgs]

theorem lowerArgs_longer (hLonger : signatures.entries <+: longer.entries)
    (locals : Locals) : ∀ {es : List Expr},
    AllCallAmong (signatures.entries.map Signature.name) es →
      lowerArgs ⟨longer, locals⟩ es = lowerArgs ⟨signatures, locals⟩ es
  | [], _ => by simp only [lowerArgs]
  | e :: es, h => by
      obtain ⟨hHead, hTail⟩ := List.forall_mem_cons.1 h
      simp only [lowerArgs, lower_longer hLonger locals hHead,
        lowerArgs_longer hLonger locals hTail]

end

end Expr

namespace Stmt

variable {signatures longer : Signatures}

mutual

/-- The code of a statement does not depend on functions that are declared after those it calls. -/
theorem lower_longer (hLonger : signatures.entries <+: longer.entries) (locals : Locals) :
    ∀ {s : Stmt}, Expr.AllCallAmong (signatures.entries.map Signature.name) s.exprs →
      s.lower ⟨longer, locals⟩ = s.lower ⟨signatures, locals⟩
  | .function _ _ _ _ _, _ | .raw _ _, _ => by simp only [lower]
  | .var ⟨_, _, _, none⟩, _ => by simp only [lower]
  | .var ⟨_, _, _, some init⟩, h => by
      have hInit := h init (by simp [exprs])
      simp only [lower, Scope.slot, Expr.lower_longer hLonger locals hInit]
  | .branch _ conds blocks, h => by
      rw [exprs] at h
      obtain ⟨hConds, hBlocks⟩ := List.forall_mem_append.1 h
      simp only [lower, lowerChain_longer hLonger locals hConds hBlocks]
  | .loop _ cond body, h => by
      rw [exprs] at h
      obtain ⟨hCond, hBody⟩ := List.forall_mem_cons.1 h
      simp only [lower, Expr.lower_longer hLonger locals hCond,
        lowerAll_longer hLonger locals hBody]
  | .ret _ e, h | .eval _ e, h => by
      have hE := h e (by simp [exprs])
      simp only [lower, Expr.lower_longer hLonger locals hE]

theorem lowerAll_longer (hLonger : signatures.entries <+: longer.entries)
    (locals : Locals) : ∀ {ss : List Stmt},
    Expr.AllCallAmong (signatures.entries.map Signature.name) (exprsAll ss) →
      lowerAll ⟨longer, locals⟩ ss = lowerAll ⟨signatures, locals⟩ ss
  | [], _ => by simp only [lowerAll]
  | s :: ss, h => by
      rw [exprsAll] at h
      obtain ⟨hHead, hTail⟩ := List.forall_mem_append.1 h
      simp only [lowerAll, lower_longer hLonger locals hHead, lowerAll_longer hLonger locals hTail]

/-- Nor does the code of a chain of branches. -/
theorem lowerChain_longer (hLonger : signatures.entries <+: longer.entries)
    (locals : Locals) : ∀ {conds : List Expr}
    {blocks : List (List Stmt)} {link : List Instr},
    Expr.AllCallAmong (signatures.entries.map Signature.name) conds →
    Expr.AllCallAmong (signatures.entries.map Signature.name) (exprsBlocks blocks) →
      lowerChain ⟨longer, locals⟩ link conds blocks =
        lowerChain ⟨signatures, locals⟩ link conds blocks
  | cond :: conds, block :: blocks, link, hConds, hBlocks => by
      rw [exprsBlocks] at hBlocks
      obtain ⟨hCond, hConds⟩ := List.forall_mem_cons.1 hConds
      obtain ⟨hBlock, hBlocks⟩ := List.forall_mem_append.1 hBlocks
      simp only [lowerChain, Expr.lower_longer hLonger locals hCond,
        lowerAll_longer hLonger locals hBlock, lowerChain_longer hLonger locals hConds hBlocks]
  | [], block :: blocks, link, _, hBlocks => by
      rw [exprsBlocks] at hBlocks
      have hBlock := (List.forall_mem_append.1 hBlocks).1
      simp only [lowerChain, lowerAll_longer hLonger locals hBlock]
  | [], [], link, _, _ | _ :: _, [], link, _, _ => by simp only [lowerChain]

end

end Stmt

/-- A function whose name, and those of the functions that it calls, are among the given ones. -/
def Stmt.NamesAmong (names : List String) : Stmt → Prop
  | .function _ _ name _ body => name ∈ names ∧ Expr.AllCallAmong names (exprsAll body)
  | _ => False

namespace Symbols

variable {sofar symbols : Symbols}

/-- Functions that go on from others have signatures that go on from theirs. -/
theorem prefix_signatures (h : sofar.functions <+: symbols.functions) :
    sofar.signatures.entries <+: symbols.signatures.entries := by
  rw [← sofar.signatures_functions, ← symbols.signatures_functions]
  exact h.map Function.signature

/-- A function has the same variables under longer tables. -/
theorem locals?_longer (h : sofar.functions <+: symbols.functions) {name : String}
    (hName : name ∈ sofar.signatures.entries.map Signature.name) :
    ∃ locals, sofar.locals? name = some locals ∧ symbols.locals? name = some locals := by
  rw [← sofar.signatures_functions, List.map_map] at hName
  obtain ⟨f, hF, rfl⟩ := List.mem_map.1 hName
  exact ⟨f.locals, locals?_of_mem hF, locals?_of_mem (h.subset hF)⟩

end Symbols

namespace Function

/-- A function has the same body under longer tables, if its own names are in the shorter ones. -/
theorem lower_longer {sofar symbols : Symbols} (hLonger : sofar.functions <+: symbols.functions)
    {name : String} {body : List Stmt}
    (hName : name ∈ sofar.signatures.entries.map Signature.name)
    (hBody : Expr.AllCallAmong (sofar.signatures.entries.map Signature.name) (Stmt.exprsAll body))
    (s : Span) : Function.lower symbols s name body = Function.lower sofar s name body := by
  have hSignatures := Symbols.prefix_signatures hLonger
  obtain ⟨locals, hSofar, hLocals⟩ := Symbols.locals?_longer hLonger hName
  simp only [Function.lower, Table.get?_of_prefix hSignatures hName, hSofar, hLocals, lowerCode,
    Stmt.lowerAll_longer hSignatures _ hBody]

/-- The types of more functions go on from the types of the first. -/
theorem lowerTypes_append {first second : List Signature} {types : List FuncType}
    (h : lowerTypes (first ++ second) = .ok types) :
    ∃ earlier later, lowerTypes first = .ok earlier ∧ types = earlier ++ later := by
  induction first generalizing types with
  | nil => exact ⟨[], types, rfl, rfl⟩
  | cons s first ih =>
      simp only [List.cons_append, lowerTypes, bind_eq_ok, pure_eq_ok] at h
      obtain ⟨params, hParams, others, hOthers, rfl⟩ := h
      obtain ⟨earlier, later, hEarlier, rfl⟩ := ih hOthers
      refine ⟨_ :: earlier, later, ?_, rfl⟩
      simp only [lowerTypes, bind_eq_ok, pure_eq_ok]
      exact ⟨params, hParams, earlier, hEarlier, rfl⟩

end Function

namespace Program

variable {p q : Program} {symbols : Symbols}

/-- Statements after statements are checked with what the first declared. -/
theorem checkFrom_append : ∀ (p : Program) {symbols : Symbols},
    (p ++ q).checkFrom symbols = p.checkFrom symbols >>= fun sofar => q.checkFrom sofar
  | [], _ => rfl
  | s :: p, symbols => by
      rw [List.cons_append, checkFrom, checkFrom, bind_assoc]
      exact bind_congr fun sofar => checkFrom_append p

/-- The functions of a checked program name only functions that are in its table. -/
theorem namesAmong_of_check (hCheck : p.check = .ok symbols) {stmt : Stmt} (hMem : stmt ∈ p) :
    stmt.NamesAmong (symbols.signatures.entries.map Signature.name) := by
  obtain ⟨i, hAt⟩ := List.mem_iff_getElem?.1 hMem
  obtain ⟨f, hF, hChecks⟩ := check_getElem? hCheck hAt
  have hExprs : Expr.AllCallAmong (symbols.signatures.entries.map Signature.name) stmt.exprs := by
    intro e hE s callee args hWithin
    obtain ⟨t, hType⟩ := hasType_of_mem_exprs hCheck hAt hF hE
    obtain ⟨index, -, hIndex⟩ := hType.isResolved hWithin
    obtain ⟨g, hG, hName⟩ := Table.index?_eq_some_iff.1 hIndex
    exact hName ▸ List.mem_map_of_mem (List.mem_of_getElem? hG)
  have hSignature := List.mem_of_getElem? (Symbols.getElem?_signatures hF)
  cases hChecks with
  | function =>
      rw [Stmt.exprs] at hExprs
      exact ⟨List.mem_map_of_mem hSignature, hExprs⟩

/-- A program has the same bodies under longer tables, if all its names are in the shorter ones. -/
theorem lowerFrom_longer {sofar : Symbols} (hLonger : sofar.functions <+: symbols.functions)
    {index : Nat} (h : ∀ stmt ∈ p, stmt.NamesAmong (sofar.signatures.entries.map Signature.name)) :
    p.lowerFrom symbols index = p.lowerFrom sofar index := by
  induction p generalizing index with
  | nil => simp only [lowerFrom]
  | cons stmt p ih =>
      obtain ⟨hStmt, hOthers⟩ := List.forall_mem_cons.1 h
      cases stmt with
      | function s type name params body =>
          obtain ⟨hName, hBody⟩ := hStmt
          have hIndex := Table.index?_of_prefix (Symbols.prefix_signatures hLonger) hName
          simp only [lowerFrom, hIndex, Function.lower_longer hLonger hName hBody s, ih hOthers]
      | var | branch | loop | ret | raw | eval => exact hStmt.elim

/-- The bodies of more functions go on from the bodies of the first. -/
theorem lowerFrom_append : ∀ {p : Program} {index : Nat} {code : List Body},
    (p ++ q).lowerFrom symbols index = .ok code →
      ∃ earlier later, p.lowerFrom symbols index = .ok earlier ∧ code = earlier ++ later
  | [], _, code, _ => ⟨[], code, rfl, rfl⟩
  | .function s type name params body :: p, index, code, h => by
      simp only [List.cons_append, lowerFrom] at h ⊢
      by_cases hIndex : symbols.signatures.index? name = some index
      · simp only [if_pos hIndex, bind_eq_ok, pure_eq_ok] at h
        obtain ⟨first, hFirst, others, hOthers, rfl⟩ := h
        obtain ⟨earlier, later, hEarlier, rfl⟩ := lowerFrom_append hOthers
        refine ⟨first :: earlier, later, ?_, rfl⟩
        simp only [if_pos hIndex, bind_eq_ok, pure_eq_ok]
        exact ⟨first, hFirst, earlier, hEarlier, rfl⟩
      · rw [if_neg hIndex] at h
        cases h
  | .var _ :: _, _, _, h | .branch _ _ _ :: _, _, _, h | .loop _ _ _ :: _, _, _, h
  | .ret _ _ :: _, _, _, h | .raw _ _ :: _, _, _, h | .eval _ _ :: _, _, _, h => by cases h

/-- Functions at the end of a program leave those before them as they are. What comes first passes
the checker on its own, with the same functions and the same variables; and if the whole has code,
so has the first part, with the same types, numbers, bodies and exports, the memory apart. -/
theorem append_keeps_earlier {p q : Program} {symbols : Symbols}
    (hCheck : (p ++ q).check = .ok symbols) :
    ∃ sofar, p.check = .ok sofar ∧ sofar.signatures.entries <+: symbols.signatures.entries ∧
      (∀ s ∈ sofar.signatures.entries, ∃ locals, sofar.locals? s.name = some locals ∧
        symbols.locals? s.name = some locals) ∧
      ∀ m, (p ++ q).lower symbols = .ok m → ∃ n, p.lower sofar = .ok n ∧
        n.types <+: m.types ∧ n.funcs <+: m.funcs ∧ n.code <+: m.code ∧
        ∃ functions, n.exports = functions ++ [⟨memoryExport, .memory, 0⟩] ∧
          functions <+: m.exports := by
  have hSplit := hCheck
  rw [check, checkFrom_append, bind_eq_ok] at hSplit
  obtain ⟨sofar, hFirst, hSecond⟩ := hSplit
  have hLonger := (checkFrom_getElem? hSecond).1
  have hPrefix := Symbols.prefix_signatures hLonger
  refine ⟨sofar, hFirst, hPrefix, fun s hS =>
    Symbols.locals?_longer hLonger (List.mem_map_of_mem hS), fun m hLower => ?_⟩
  obtain ⟨more, hSignatures⟩ := hPrefix
  simp only [Program.lower, bind_eq_ok] at hLower
  obtain ⟨types, hTypes, code, hCode, hDone⟩ := hLower
  by_cases hCount : code.length = symbols.signatures.entries.length
  case neg =>
    rw [if_pos hCount] at hDone
    cases hDone
  rw [if_neg (not_not.2 hCount)] at hDone
  cases hDone
  rw [← hSignatures] at hTypes
  obtain ⟨earlierTypes, laterTypes, hEarlierTypes, rfl⟩ := Function.lowerTypes_append hTypes
  obtain ⟨earlier, later, hEarlier, rfl⟩ := lowerFrom_append hCode
  rw [lowerFrom_longer hLonger fun stmt hMem => namesAmong_of_check hFirst hMem] at hEarlier
  have hLength : earlier.length = sofar.signatures.entries.length := by
    rw [← (lowerFrom_eq_ok hEarlier).length_eq, (check_eq_ok hFirst).length_eq,
      sofar.length_functions]
  refine ⟨⟨earlierTypes, List.range earlierTypes.length, compiledMemory,
    (sofar.signatures.entries.mapIdx fun i s => ⟨s.name, .func, i⟩) ++
      [⟨memoryExport, .memory, 0⟩], earlier⟩, ?_, List.prefix_append _ _, ?_,
    List.prefix_append _ _, _, rfl, ?_⟩
  · simp only [Program.lower, bind_eq_ok]
    refine ⟨earlierTypes, hEarlierTypes, earlier, hEarlier, ?_⟩
    rw [if_neg (not_not.2 hLength)]
    rfl
  · rw [List.length_append, List.range_add]
    exact List.prefix_append _ _
  · simp only [← hSignatures, List.mapIdx_append, List.append_assoc]
    exact List.prefix_append _ _

/-- The program `i32 f(i32 a) { i32 b = a; return f(b); }`. -/
def selfCalling : Program :=
  let at0 := Span.point 0
  [.function at0 "i32" "f" [⟨at0, "i32", "a", none⟩]
    [.var ⟨at0, "i32", "b", some (.ident at0 "a")⟩, .ret at0 (.call at0 "f" [.ident at0 "b"])]]

/-- The function `void g() { i32 a; a = f(a); g(); }`, which needs another one before it. -/
def calling : Program :=
  let at0 := Span.point 0
  [.function at0 "void" "g" []
    [.var ⟨at0, "i32", "a", none⟩,
      .eval at0 (.assign at0 "a" (.call at0 "f" [.ident at0 "a"])),
      .eval at0 (.call at0 "g" [])]]

/-- A function that calls itself keeps its number and its code when its caller is added. -/
theorem append_keeps_earlier_calling :
    ∃ symbols m sofar n, (selfCalling ++ calling).check = .ok symbols ∧
      (selfCalling ++ calling).lower symbols = .ok m ∧ m.code.length = 2 ∧
      selfCalling.check = .ok sofar ∧ sofar.signatures.entries <+: symbols.signatures.entries ∧
      selfCalling.lower sofar = .ok n ∧ n.types <+: m.types ∧ n.code <+: m.code := by
  let f : Function := ⟨⟨"f", .i32, [.i32], .point 0⟩,
    [⟨"a", .i32, true⟩, ⟨"b", .i32, false⟩].foldl Table.declared .empty⟩
  let g : Function := ⟨⟨"g", .void, [], .point 0⟩, Table.empty.declared ⟨"a", .i32, false⟩⟩
  let symbols := (Symbols.empty.declared f.signature f.locals).declared g.signature g.locals
  have hCheck : (selfCalling ++ calling).check = .ok symbols := by cbv
  have hLower : ∃ m, (selfCalling ++ calling).lower symbols = .ok m ∧ m.code.length = 2 :=
    ⟨_, by cbv, by cbv⟩
  obtain ⟨m, hLower, hLength⟩ := hLower
  obtain ⟨sofar, hFirst, hSignatures, -, hModule⟩ := append_keeps_earlier hCheck
  obtain ⟨n, hN, hTypes, -, hCode, -⟩ := hModule m hLower
  exact ⟨_, m, sofar, n, hCheck, hLower, hLength, hFirst, hSignatures, hN, hTypes, hCode⟩

end Program

end WasmCompiler
