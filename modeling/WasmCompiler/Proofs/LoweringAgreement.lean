import Mathlib
import WasmCompiler.Proofs.LoweringFailures
import WasmCompiler.Proofs.StatementReading

/-! The checker and lowering agree on a checked program: on the types of its expressions, and on the
programs that have code. -/

namespace WasmCompiler

open Wasm

/-- What lowering gives code to. -/
def Occurrence.HasCode (scope : Scope) : Occurrence → Prop
  | .expr e => ∃ result, e.lower scope = .ok result
  | .raw text => ∃ instr, RawInstr.read scope.locals text = .ok instr

namespace Expr

variable {scope : Scope}

/-- Arguments that have code have code one by one. -/
theorem lower_of_lowerArgs {es : List Expr} {is : List Instr}
    (h : lowerArgs scope es = .ok is) : ∀ e ∈ es, ∃ result, e.lower scope = .ok result := by
  induction es generalizing is with
  | nil => simp
  | cons e es ih =>
      simp only [lowerArgs, bind_eq_ok] at h
      obtain ⟨result, hHead, _, hTail, -⟩ := h
      exact List.forall_mem_cons.2 ⟨⟨result, hHead⟩, ih hTail⟩

/-- The parts of an expression that has code have code. -/
theorem Within.lower {part e : Expr} (h : part.Within e) {result : List Instr × Ty}
    (hLower : e.lower scope = .ok result) : ∃ found, part.lower scope = .ok found := by
  induction h generalizing result with
  | self => exact ⟨result, hLower⟩
  | assign _ ih =>
      simp only [Expr.lower, bind_eq_ok] at hLower
      obtain ⟨_, hValue, -⟩ := hLower
      exact ih hValue
  | left _ ih =>
      simp only [Expr.lower, bind_eq_ok] at hLower
      obtain ⟨_, hLeft, -⟩ := hLower
      exact ih hLeft
  | right _ ih =>
      simp only [Expr.lower, bind_eq_ok] at hLower
      obtain ⟨_, -, _, hRight, -⟩ := hLower
      exact ih hRight
  | unary _ ih =>
      simp only [Expr.lower, bind_eq_ok] at hLower
      obtain ⟨_, hOperand, -⟩ := hLower
      exact ih hOperand
  | cast _ ih =>
      simp only [Expr.lower, bind_eq_ok] at hLower
      obtain ⟨_, hOperand, -⟩ := hLower
      exact ih hOperand
  | arg hMem _ ih =>
      simp only [Expr.lower, bind_eq_ok] at hLower
      obtain ⟨_, hArgs, -⟩ := hLower
      obtain ⟨_, hArg⟩ := lower_of_lowerArgs hArgs _ hMem
      exact ih hArg

end Expr

namespace Stmt

variable {ctx : Context} {scope : Scope}

/-- Every condition of a branch has code, if each of them has a block. -/
theorem lower_of_lowerChain {conds : List Expr} {blocks : List (List Stmt)} {link : List Instr}
    {code : Code} (hLength : conds.length ≤ blocks.length)
    (h : lowerChain scope link conds blocks = .ok code) :
    ∀ cond ∈ conds, ∃ result, cond.lower scope = .ok result := by
  induction conds generalizing blocks link code with
  | nil => simp
  | cons cond conds ih =>
      cases blocks with
      | nil => simp at hLength
      | cons block blocks =>
          simp only [lowerChain, bind_eq_ok] at h
          obtain ⟨result, hHead, _, -, _, hTail, -⟩ := h
          exact List.forall_mem_cons.2
            ⟨⟨result, hHead⟩, ih (Nat.le_of_succ_le_succ hLength) hTail⟩

/-- A branch has a block for each condition and at most one block more. -/
theorem shape_of_isShaped_branch {s : Span} {conds : List Expr} {blocks : List (List Stmt)}
    (h : (branch s conds blocks).isShaped = true) : conds.length ≤ blocks.length ∧
      blocks.length ≤ conds.length + 1 ∧ isShapedBlocks blocks = true := by
  simp only [isShaped, Bool.and_eq_true, Bool.or_eq_true, beq_iff_eq] at h
  obtain ⟨⟨-, hLength⟩, hBlocks⟩ := h
  exact ⟨by omega, by omega, hBlocks⟩

mutual

/-- What the checker meets in a statement that has code has code. -/
theorem Meets.hasCode : ∀ {s : Stmt} {l m : Locals} {o : Occurrence} {code : Code},
    Meets ctx l s m o → s.isShaped = true → s.lower scope = .ok code → o.HasCode scope
  | .var decl, _, _, _, _, .init hInit h, hShape, hLower => by
      simp only [lower, hInit, bind_eq_ok] at hLower
      obtain ⟨_, hValue, -⟩ := hLower
      exact h.lower hValue
  | .branch s conds blocks, _, _, _, _, .cond hCond h, hShape, hLower => by
      obtain ⟨hLength, -, -⟩ := shape_of_isShaped_branch hShape
      simp only [lower, bind_eq_ok] at hLower
      obtain ⟨_, hChain, -⟩ := hLower
      obtain ⟨_, hValue⟩ := lower_of_lowerChain hLength hChain _ hCond
      exact h.lower hValue
  | .branch s conds blocks, _, _, _, _, .blocks h, hShape, hLower => by
      obtain ⟨-, hLength, hBlocks⟩ := shape_of_isShaped_branch hShape
      simp only [lower, bind_eq_ok] at hLower
      obtain ⟨_, hChain, -⟩ := hLower
      exact h.hasCode hLength hBlocks hChain
  | .loop s cond body, _, _, _, _, .test h, hShape, hLower => by
      simp only [lower, bind_eq_ok] at hLower
      obtain ⟨_, hTest, -⟩ := hLower
      exact h.lower hTest
  | .loop s cond body, _, _, _, _, .body h, hShape, hLower => by
      simp only [lower, bind_eq_ok] at hLower
      obtain ⟨_, -, _, hBody, -⟩ := hLower
      rw [isShaped] at hShape
      exact h.hasCode hShape hBody
  | .ret s e, _, _, _, _, .ret h, hShape, hLower => by
      simp only [lower, bind_eq_ok] at hLower
      obtain ⟨_, hValue, -⟩ := hLower
      exact h.lower hValue
  | .eval s e, _, _, _, _, .eval h, hShape, hLower => by
      simp only [lower, bind_eq_ok] at hLower
      obtain ⟨_, hValue, -⟩ := hLower
      exact h.lower hValue
  | .raw s text, _, _, _, _, .raw, hShape, hLower => by
      simp only [lower] at hLower
      cases hRead : RawInstr.read scope.locals text with
      | ok instr => exact ⟨instr, hRead⟩
      | error cause =>
          rw [hRead] at hLower
          cases hLower

/-- What is met in statements that have code has code. -/
theorem AllMeet.hasCode : ∀ {ss : List Stmt} {l m : Locals} {o : Occurrence} {code : Code},
    AllMeet ctx l ss m o → isShapedAll ss = true → lowerAll scope ss = .ok code →
      o.HasCode scope
  | s :: ss, _, _, _, _, .here h, hShape, hLower => by
      simp only [lowerAll, bind_eq_ok] at hLower
      obtain ⟨_, hHead, -⟩ := hLower
      rw [isShapedAll, Bool.and_eq_true] at hShape
      exact h.hasCode hShape.1 hHead
  | s :: ss, _, _, _, _, .later _ h, hShape, hLower => by
      simp only [lowerAll, bind_eq_ok] at hLower
      obtain ⟨_, -, _, hTail, -⟩ := hLower
      rw [isShapedAll, Bool.and_eq_true] at hShape
      exact h.hasCode hShape.2 hTail

-- At most one block has no condition, so that the chain does not leave a block out.
/-- What is met in the blocks of a chain that has code has code. -/
theorem BlocksMeet.hasCode : ∀ {bs : List (List Stmt)} {l m : Locals} {o : Occurrence}
    {conds : List Expr} {link : List Instr} {code : Code}, BlocksMeet ctx l bs m o →
      bs.length ≤ conds.length + 1 → isShapedBlocks bs = true →
      lowerChain scope link conds bs = .ok code → o.HasCode scope
  | b :: bs, _, _, _, [], _, _, .here h, hLength, hShape, hLower => by
      simp only [lowerChain, bind_eq_ok] at hLower
      obtain ⟨_, hBlock, -⟩ := hLower
      rw [isShapedBlocks, Bool.and_eq_true] at hShape
      exact h.hasCode hShape.1 hBlock
  | b :: bs, _, _, _, cond :: conds, _, _, .here h, hLength, hShape, hLower => by
      simp only [lowerChain, bind_eq_ok] at hLower
      obtain ⟨_, -, _, hBlock, -⟩ := hLower
      rw [isShapedBlocks, Bool.and_eq_true] at hShape
      exact h.hasCode hShape.1 hBlock
  | b :: bs, _, _, _, [], _, _, .later _ h, hLength, hShape, hLower => by
      cases bs with
      | nil => cases h
      | cons => simp at hLength
  | b :: bs, _, _, _, cond :: conds, _, _, .later _ h, hLength, hShape, hLower => by
      simp only [lowerChain, bind_eq_ok] at hLower
      obtain ⟨_, -, _, -, _, hOthers, -⟩ := hLower
      rw [isShapedBlocks, Bool.and_eq_true] at hShape
      exact h.hasCode (Nat.le_of_succ_le_succ hLength) hShape.2 hOthers

end

end Stmt

/-- What has no code has none under the tables that the checker leaves. -/
theorem Occurrence.NoCode.not_hasCode {sofar scope : Scope} {o : Occurrence}
    (h : o.NoCode sofar scope.locals) (hSofar : sofar.Precedes scope) : ¬ o.HasCode scope := by
  have hAgree {e : Expr} {t u : Ty} {is : List Instr}
      (hCheck : e.check sofar.signatures sofar.locals = .ok t)
      (hLower : e.lower scope = .ok (is, u)) : u = t :=
    Expr.type_of_lower hSofar ((Expr.check_eq_ok e).1 hCheck) hLower
  intro hHas
  cases h with
  | castStr =>
      obtain ⟨_, hLower⟩ := hHas
      simp only [Expr.lower, bind_eq_ok] at hLower
      obtain ⟨_, hStr, -⟩ := hLower
      cases hStr
  | castToVoid =>
      obtain ⟨_, hLower⟩ := hHas
      simp only [Expr.lower, bind_eq_ok, Prod.exists] at hLower
      obtain ⟨_, source, -, _, _, hCast, -⟩ := hLower
      cases source <;> cases hCast
  | @castOfVoid _ target _ hVoid =>
      obtain ⟨_, hLower⟩ := hHas
      simp only [Expr.lower, bind_eq_ok, Prod.exists] at hLower
      obtain ⟨_, source, hOperand, _, _, hCast, -⟩ := hLower
      cases hAgree hVoid hOperand
      unfold Ty.lowerCast at hCast
      cases hTarget : Ty.ofName? target with
      | none => simp [hTarget, EmitError.throw] at hCast
      | some type => simp [hTarget, Ty.storage?, EmitError.throw] at hCast
  | bits hOp hFloat hLeft =>
      obtain ⟨_, hLower⟩ := hHas
      simp only [Expr.lower, bind_eq_ok, Prod.exists] at hLower
      obtain ⟨_, type, hOperand, _, _, -, _, _, hCode, -⟩ := hLower
      cases hAgree hLeft hOperand
      rcases List.mem_pair.1 hOp with rfl | rfl <;>
        rcases List.mem_pair.1 hFloat with rfl | rfl <;> cases hCode
  | raw hError =>
      obtain ⟨_, hRead⟩ := hHas
      cases hRead.symm.trans hError

namespace Function

/-- Types other than `void` are stored. -/
theorem exists_storages {types : List Ty} (h : ∀ t ∈ types, t ≠ .void) (s : Span) :
    ∃ stored, storages s types = .ok stored := by
  induction types with
  | nil => exact ⟨[], rfl⟩
  | cons t types ih =>
      obtain ⟨hHead, hTail⟩ := List.forall_mem_cons.1 h
      obtain ⟨stored, hStored⟩ := Option.ne_none_iff_exists'.1 (mt Ty.eq_void_of_storage? hHead)
      obtain ⟨others, hOthers⟩ := ih hTail
      refine ⟨stored :: others, ?_⟩
      rw [storages, Ty.storage_eq_ok.2 hStored, hOthers]
      rfl

/-- Signatures without `void` parameters have types. -/
theorem exists_lowerTypes {signatures : List Signature}
    (h : ∀ s ∈ signatures, ∀ t ∈ s.params, t ≠ .void) :
    ∃ types, lowerTypes signatures = .ok types := by
  induction signatures with
  | nil => exact ⟨[], rfl⟩
  | cons s signatures ih =>
      obtain ⟨hHead, hTail⟩ := List.forall_mem_cons.1 h
      obtain ⟨params, hParams⟩ := exists_storages hHead s.span
      obtain ⟨others, hOthers⟩ := ih hTail
      refine ⟨⟨params, s.ret.storage?.toList⟩ :: others, ?_⟩
      rw [lowerTypes, hParams, hOthers]
      rfl

end Function

/-- No parameter and no other variable of a function that passes is of type `void`. -/
theorem Stmt.ChecksTo.ne_void {fs : List Callable} {s : Stmt} {f : Function}
    (h : s.ChecksTo fs f) : (∀ t ∈ f.signature.params, t ≠ .void) ∧
      ∀ t ∈ f.locals.locals.map Variable.type, t ≠ .void := by
  cases h with
  | function hMemory hParams hDeclared hVars hFuns hBody =>
      constructor
      · intro t hMem
        obtain ⟨v, hV, rfl⟩ := List.mem_map.1 hMem
        obtain ⟨i, hI⟩ := List.mem_iff_getElem?.1 hV
        obtain ⟨d, -, -, -, hVoid, -⟩ := forall₂_getElem? hParams hI
        exact hVoid
      · intro t hMem
        rw [hVars.locals] at hMem
        obtain ⟨v, hV, rfl⟩ := List.mem_map.1 hMem
        obtain ⟨i, hI⟩ := List.mem_iff_getElem?.1 hV
        obtain ⟨d, -, -, -, hVoid⟩ := forall₂_getElem? hDeclared hI
        exact hVoid

namespace Program

variable {p : Program} {symbols : Symbols}

/-- No variable of a program that passes its check is `void`. -/
theorem ne_void_of_check (hCheck : p.check = .ok symbols) {f : Function}
    (hMem : f ∈ symbols.functions) : (∀ t ∈ f.signature.params, t ≠ .void) ∧
      ∀ t ∈ f.locals.locals.map Variable.type, t ≠ .void := by
  obtain ⟨i, hI⟩ := List.mem_iff_getElem?.1 hMem
  obtain ⟨_, -, hS⟩ := forall₂_getElem? (check_eq_ok hCheck) hI
  exact hS.ne_void

/-- A program that consists of functions in the order of the table fails with one of its
functions. -/
theorem lowerFrom_eq_error {index : Nat} {err : Located EmitError}
    (hFunctions : ∀ i stmt, p[i]? = some stmt → ∃ s type name params body,
      stmt = .function s type name params body ∧
        symbols.signatures.index? name = some (index + i))
    (h : p.lowerFrom symbols index = .error err) : ∃ (i : Nat) (s : Span) (type name : String)
      (params : List Declaration) (body : List Stmt),
      p[i]? = some (.function s type name params body) ∧
        Function.lower symbols s name body = .error err := by
  induction p generalizing index with
  | nil => cases h
  | cons stmt p ih =>
      obtain ⟨s, type, name, params, body, rfl, hIndex⟩ := hFunctions 0 stmt rfl
      rw [Nat.add_zero] at hIndex
      rw [lowerFrom, if_pos hIndex] at h
      rcases bind_eq_error.1 h with hError | ⟨_, -, hRest⟩
      · exact ⟨0, s, type, name, params, body, rfl, hError⟩
      · rcases bind_eq_error.1 hRest with hError | ⟨_, -, hDone⟩
        · obtain ⟨i, hI⟩ := ih (fun i stmt hAt => by
            have := hFunctions (i + 1) stmt hAt
            rwa [← Nat.add_assoc, Nat.add_right_comm] at this) hError
          exact ⟨i + 1, hI⟩
        · cases hDone

/-- The statements of a program that passes its check are functions, and each has its index in the
table. -/
theorem index?_of_check (hCheck : p.check = .ok symbols) (i : Nat) (stmt : Stmt)
    (hAt : p[i]? = some stmt) : ∃ s type name params body,
      stmt = .function s type name params body ∧
        symbols.signatures.index? name = some (0 + i) := by
  obtain ⟨f, hF, hChecks⟩ := check_getElem? hCheck hAt
  have hAt := Symbols.getElem?_signatures hF
  cases hChecks with
  | function =>
      rw [Nat.zero_add]
      exact ⟨_, _, _, _, _, rfl, Table.index?_eq_some_iff.2 ⟨_, hAt, rfl⟩⟩

/-- If a checked program has no code, then something in it is the reason. -/
theorem noCode_of_lower (hCheck : p.check = .ok symbols) {err : Located EmitError}
    (h : p.lower symbols = .error err) : err.cause.category = .emission ∧
      ∃ sofar final o, p.Meets symbols sofar final o ∧ o.NoCode sofar final.locals := by
  have hParamTypes : ∀ s ∈ symbols.signatures.entries, ∀ t ∈ s.params, t ≠ .void := by
    intro s hS
    rw [← symbols.signatures_functions] at hS
    obtain ⟨f, hF, rfl⟩ := List.mem_map.1 hS
    exact (ne_void_of_check hCheck hF).1
  obtain ⟨types, hTypes⟩ := Function.exists_lowerTypes hParamTypes
  -- The types and the number of functions are right, so the code of some function is missing.
  simp only [Program.lower, bind_eq_error] at h
  rcases h with hError | ⟨_, -, hError | ⟨code, hCode, hLength⟩⟩
  · rw [hTypes] at hError
    cases hError
  · obtain ⟨i, s, type, name, params, body, hAt, hFails⟩ :=
      lowerFrom_eq_error (index?_of_check hCheck) hError
    obtain ⟨f, hF, hFunction⟩ := check_getElem? hCheck hAt
    have hMem := List.mem_of_getElem? hF
    have hGet := Symbols.get?_of_mem hMem
    have hLocals := Symbols.locals?_of_mem hMem
    obtain ⟨stored, hStored⟩ := Function.exists_storages (ne_void_of_check hCheck hMem).2 s
    cases hFunction with
    | @function _ _ r _ _ start locals hParams hBody =>
        simp only [Function.lower, hGet, hLocals, Function.lowerCode, bind_eq_error] at hFails
        rcases hFails with (hFails | ⟨_, -, hDone⟩) | ⟨_, -, hFails | ⟨_, -, hDone⟩⟩
        · have hPrecedes : (⟨symbols.signatures.take (i + 1), locals⟩ : Scope).Precedes
              ⟨symbols.signatures, locals⟩ := ⟨Table.take_prefix _ _, List.prefix_rfl⟩
          obtain ⟨hKind, m, o, hMeets, hNo⟩ := Stmt.noCode_of_lowerAll hBody hPrecedes hFails
          exact ⟨hKind, _, _, o, .intro hAt hF (.function hParams hMeets), hNo⟩
        · cases hDone
        · rw [hStored] at hFails
          cases hFails
        · cases hDone
  · have hSame : code.length = symbols.signatures.entries.length := by
      rw [← (lowerFrom_eq_ok hCode).length_eq, (check_eq_ok hCheck).length_eq,
        symbols.length_functions]
    rw [if_neg (not_not.2 hSame)] at hLength
    cases hLength

/-- What stands in a checked program that has code has code. -/
theorem Meets.hasCode {sofar final : Scope} {o : Occurrence}
    (h : p.Meets symbols sofar final o) (hCheck : p.check = .ok symbols)
    (hShape : Stmt.isShapedAll p = true) {m : Module} (hLower : p.lower symbols = .ok m) :
    o.HasCode final := by
  cases h with
  | intro hStmt hFunction hHolds =>
      obtain ⟨f, hF, hChecks⟩ := check_getElem? hCheck hStmt
      cases hFunction.symm.trans hF
      have hGet := Symbols.get?_of_mem (List.mem_of_getElem? hF)
      have hLocals := Symbols.locals?_of_mem (List.mem_of_getElem? hF)
      obtain ⟨_, hBodies, -⟩ := lower_eq_ok hLower
      obtain ⟨body, -, hLowers⟩ := forall₂_getElem? hBodies.flip hStmt
      have hShaped := Stmt.isShapedAll_iff.1 hShape _ (List.mem_of_getElem? hStmt)
      cases hChecks with
      | function hParams hBody =>
          cases hLowers with
          | function hCode =>
              simp only [Function.lower, hGet, hLocals, Function.lowerCode, bind_eq_ok] at hCode
              obtain ⟨_, ⟨_, hAll, -⟩, -⟩ := hCode
              cases hHolds with
              | function hStart hMeets =>
                  rw [Stmt.isShaped] at hShaped
                  exact hMeets.hasCode hShaped hAll

/-- Lowering gives an expression the type that it has where the checker meets it. -/
theorem Meets.check_of_lower {sofar final : Scope} {e : Expr}
    (h : p.Meets symbols sofar final (.expr e)) (hCheck : p.check = .ok symbols) {u : Ty}
    {is : List Instr} (hLower : e.lower final = .ok (is, u)) :
    e.check sofar.signatures sofar.locals = .ok u := by
  obtain ⟨hSofar, whole, t, hWithin, hWhole⟩ := h.passes hCheck
  rcases ((Expr.check_eq_ok whole).1 hWhole).of_within hWithin with hStr | ⟨t, hType⟩
  · cases e with
    | str => cases hLower
    | _ => cases hStr
  · cases Expr.type_of_lower hSofar hType hLower
    exact (Expr.check_eq_ok e).2 hType

/-- The checker and lowering agree on a program that passes. Lowering shows no error that stands for
a disagreement; it gives each expression the type that the checker gives it, with the functions and
variables that are declared where it stands; and it fails on a program that was read exactly where
something in it has no code. -/
theorem lower_agrees_with_check (hCheck : p.check = .ok symbols) :
    (∀ err, p.lower symbols = .error err → err.cause.category = .emission) ∧
    (∀ sofar final e, p.Meets symbols sofar final (.expr e) → ∀ is u,
      e.lower final = .ok (is, u) → e.check sofar.signatures sofar.locals = .ok u) ∧
    (∀ tokens, ofTokens tokens = .ok p → ((∃ err, p.lower symbols = .error err) ↔
      ∃ sofar final o, p.Meets symbols sofar final o ∧ o.NoCode sofar final.locals)) := by
  refine ⟨fun err h => (noCode_of_lower hCheck h).1, fun sofar final e hMeets is u hLower =>
    hMeets.check_of_lower hCheck hLower, fun tokens hRead => ⟨?_, ?_⟩⟩
  · rintro ⟨err, h⟩
    exact (noCode_of_lower hCheck h).2
  · rintro ⟨sofar, final, o, hMeets, hNo⟩
    cases hLower : p.lower symbols with
    | error err => exact ⟨err, rfl⟩
    | ok m =>
        have hCode := hMeets.hasCode hCheck (isShapedAll_of_ofTokens hRead) hLower
        exact absurd hCode (hNo.not_hasCode (hMeets.passes hCheck).1)

/-- The tokens of `f32 f(f32 x) { return x & x; }`. -/
def floatBitsTokens : List Token :=
  [(.type, "f32"), (.ident, "f"), (.lparen, "("), (.type, "f32"), (.ident, "x"), (.rparen, ")"),
    (.lbrace, "\x7b"), (.kwReturn, "return"), (.ident, "x"), (.amp, "&"), (.ident, "x"),
    (.semicolon, ";"), (.rbrace, "\x7d")].map fun word => ⟨word.1, word.2, .point 0⟩

/-- The operands have code and the operator has a type, but it has no instruction. -/
theorem lower_agrees_with_check_float_bits :
    ∃ p symbols, ofTokens floatBitsTokens = .ok p ∧ p.check = .ok symbols ∧
      (∃ err, p.lower symbols = .error err ∧ err.cause.category = .emission) ∧
      ∃ sofar final s, p.Meets symbols sofar final (.expr (.ident s "x")) ∧
        (Expr.ident s "x").check sofar.signatures sofar.locals = .ok .f32 := by
  let x := Expr.ident (.point 0) "x"
  let body := [Stmt.ret (.point 0) (.binary (.point 0) .bitAnd x x)]
  let p : Program := [.function (.point 0) "f32" "f" [⟨.point 0, "f32", "x", none⟩] body]
  let signature : Signature := ⟨"f", .f32, [.f32], .point 0⟩
  let locals : Locals := Table.empty.declared ⟨"x", .f32, true⟩
  let symbols := Symbols.empty.declared signature locals
  have hRead : ofTokens floatBitsTokens = .ok p := by cbv
  have hCheck : p.check = .ok symbols := by cbv
  obtain ⟨hKind, hTypes, hFails⟩ := lower_agrees_with_check hCheck
  have hMeets (e : Expr) (h : e.Within (.binary (.point 0) .bitAnd x x)) :
      p.Meets symbols ⟨symbols.signatures.take 1, locals⟩ ⟨symbols.signatures, locals⟩ (.expr e) :=
    @Meets.intro p symbols 0 _ ⟨signature, locals⟩ locals _ rfl rfl
      (.function (by cbv) (.here (.ret h)))
  have hNo : ∃ sofar final o, p.Meets symbols sofar final o ∧ o.NoCode sofar final.locals :=
    ⟨_, _, _, hMeets _ .self, @Occurrence.NoCode.bits _ _ _ _ x x .f32 (by decide) (by decide)
      rfl rfl⟩
  obtain ⟨err, hError⟩ := (hFails _ hRead).2 hNo
  exact ⟨p, symbols, hRead, hCheck, ⟨err, hError, hKind err hError⟩, _, _, _,
    hMeets x (.left .self), hTypes _ _ _ (hMeets x (.left .self)) _ _ rfl⟩

end Program

end WasmCompiler
