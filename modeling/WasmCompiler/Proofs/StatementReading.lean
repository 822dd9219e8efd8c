import Mathlib.Data.List.Permutation
import WasmCompiler.Proofs.StatementGrammar

/-! Statements are read as the grammar derives them. Reading looks ahead and takes each `else` as
early as it can; what is read is derived, and what is derived is read. -/

namespace WasmCompiler

namespace Stmt

open Grammar

/-- A condition that is parsed is one of the grammar. -/
theorem derives_of_parseCondition {c : Cursor} {r : Parsed Expr c.size}
    (h : parseCondition c = .ok r) :
    ∃ u, c.Moves u r.rest ∧ DerivesCondition u r.value.eraseSpans := by
  simp only [parseCondition, bind_eq_ok, pure_eq_ok] at h
  obtain ⟨opening, hOpening, cond, hCond, closing, hClosing, rfl⟩ := h
  obtain ⟨hFirst, hIsOpening⟩ := Cursor.moves_of_require hOpening
  obtain ⟨hLast, hIsClosing⟩ := Cursor.moves_of_require hClosing
  obtain ⟨u, hMoves, hExpr⟩ := Expr.isExpr_of_parse hCond
  exact ⟨_, hFirst.trans (hMoves.trans hLast), .parens hIsOpening hIsClosing hExpr⟩

/-- A condition of the grammar is parsed. -/
theorem exists_parseCondition_of_derives {u : List Token} {e : Expr} {c d : Cursor}
    (h : DerivesCondition u e) (hMoves : c.Moves u d) :
    ∃ r, parseCondition c = .ok r ∧ r.value.eraseSpans = e ∧ r.rest = d := by
  cases h with
  | parens hOpening hClosing hExpr =>
      obtain ⟨opening, hFirst, rfl, hAfter⟩ := hMoves.require hOpening (by decide)
      obtain ⟨mid, hInner, hMid⟩ := hAfter.split
      obtain ⟨cond, hCond, hErase, rfl⟩ :=
        Expr.exists_parse_of_isExpr hExpr hInner (hMid.closes (by simp [hClosing]))
      obtain ⟨closing, hLast, rfl, hRest⟩ := hMid.require hClosing (by decide)
      refine ⟨opening.before (cond.before (closing.give cond.value)), ?_, hErase, hRest.eq_nil⟩
      rw [parseCondition]
      exact bind_eq_ok.2 ⟨opening, hFirst, bind_eq_ok.2 ⟨cond, hCond,
        bind_eq_ok.2 ⟨closing, hLast, rfl⟩⟩⟩

/-- The statements that have no statements in them are read by their first word. -/
theorem derives_of_parseRaw {c d : Cursor} {word : Token} {start : Nat} {r : Parsed Stmt c.size}
    (hWord : word.kind = .kwWasm) (hMoves : d.Moves [word] c) (h : parseRaw start c = .ok r) :
    ∃ u, d.Moves u r.rest ∧ DerivesStmt false u r.value.eraseSpans := by
  simp only [parseRaw, bind_eq_ok, pure_eq_ok] at h
  obtain ⟨text, hText, closing, hClosing, rfl⟩ := h
  obtain ⟨hFirst, hIsText⟩ := Cursor.moves_of_require hText
  obtain ⟨hLast, hIsClosing⟩ := Cursor.moves_of_require hClosing
  exact ⟨_, hMoves.trans (hFirst.trans hLast), .raw hWord hIsText hIsClosing⟩

/-- A return statement that is parsed is one of the grammar. -/
theorem derives_of_parseRet {c d : Cursor} {word : Token} {start : Nat} {r : Parsed Stmt c.size}
    (hWord : word.kind = .kwReturn) (hMoves : d.Moves [word] c) (h : parseRet start c = .ok r) :
    ∃ u, d.Moves u r.rest ∧ DerivesStmt false u r.value.eraseSpans := by
  simp only [parseRet, bind_eq_ok, pure_eq_ok] at h
  obtain ⟨value, hValue, closing, hClosing, rfl⟩ := h
  obtain ⟨u, hInner, hExpr⟩ := Expr.isExpr_of_parse hValue
  obtain ⟨hLast, hIsClosing⟩ := Cursor.moves_of_require hClosing
  exact ⟨_, hMoves.trans (hInner.trans hLast), .ret hWord hExpr hIsClosing⟩

/-- An action is read before the semicolon that closes it. -/
theorem derives_of_parseAction {c d : Cursor} {name closing : Token} {r : Parsed Expr c.size}
    (hName : name.kind = .ident) (hMoves : d.Moves [name] c) (hClosing : closing.kind = .semicolon)
    (span : Span) : parseAction name c = .ok r → ∃ u, d.Moves u r.rest ∧
      DerivesStmt false (u ++ [closing]) (eval span r.value).eraseSpans := by
  fun_cases parseAction name c with
  | case1 equals hEquals =>
      obtain ⟨hFirst, hIsEquals⟩ := Cursor.moves_of_accept? hEquals
      simp only [bind_eq_ok, pure_eq_ok]
      rintro ⟨value, hValue, rfl⟩
      obtain ⟨u, hInner, hExpr⟩ := Expr.isExpr_of_parse hValue
      exact ⟨_, hMoves.trans (hFirst.trans hInner), .assign hName hIsEquals hExpr hClosing⟩
  | case2 =>
      simp only [bind_eq_ok, pure_eq_ok]
      rintro ⟨args, hArgs, rfl⟩
      obtain ⟨u, hInner, hDerives⟩ := Expr.derives_of_parseArgs hArgs
      exact ⟨_, hMoves.trans hInner,
        .call hName (parenthesized_isExpr_iff.2 hDerives) hClosing⟩
  | case3 => rintro ⟨⟩

/-- An assignment or a call that is parsed as a statement is one of the grammar. -/
theorem derives_of_parseEval {c d : Cursor} {name : Token} {r : Parsed Stmt c.size}
    (hName : name.kind = .ident) (hMoves : d.Moves [name] c) (h : parseEval name c = .ok r) :
    ∃ u, d.Moves u r.rest ∧ DerivesStmt false u r.value.eraseSpans := by
  simp only [parseEval, bind_eq_ok, pure_eq_ok] at h
  obtain ⟨action, hAction, closing, hClosing, rfl⟩ := h
  obtain ⟨hLast, hIsClosing⟩ := Cursor.moves_of_require hClosing
  obtain ⟨u, hInner, hDerives⟩ := derives_of_parseAction hName hMoves hIsClosing
    ⟨name.span.start, closing.rest.lastStop⟩ hAction
  exact ⟨_, hInner.trans hLast, hDerives⟩

/-- The declaration of a variable that is parsed is one of the grammar. -/
theorem derives_of_parseVar {c : Cursor} {r : Parsed Stmt c.size} (h : parseVar c = .ok r) :
    ∃ u, c.Moves u r.rest ∧ DerivesStmt false u r.value.eraseSpans := by
  simp only [parseVar, bind_eq_ok, pure_eq_ok] at h
  obtain ⟨decl, hDecl, closing, hClosing, rfl⟩ := h
  obtain ⟨u, hMoves, hDerives⟩ := Declaration.derives_of_parse hDecl
  obtain ⟨hLast, hIsClosing⟩ := Cursor.moves_of_require hClosing
  exact ⟨_, hMoves.trans hLast, .var hDerives hIsClosing⟩

/-- The heading of a function that is parsed has a type, a name and parameters of the grammar. -/
theorem derives_of_parseHead {c : Cursor} {r : Parsed Head c.size} (h : parseHead c = .ok r) :
    ∃ u, c.Moves (r.value.type :: r.value.name :: u) r.rest ∧ r.value.type.kind = .type ∧
      r.value.name.kind = .ident ∧
      Parenthesized DerivesDecl u (r.value.params.map Declaration.eraseSpans) := by
  simp only [parseHead, bind_eq_ok, pure_eq_ok] at h
  obtain ⟨type, hType, name, hName, params, hParams, rfl⟩ := h
  obtain ⟨hFirst, hIsType⟩ := Cursor.moves_of_require hType
  obtain ⟨hSecond, hIsName⟩ := Cursor.moves_of_require hName
  obtain ⟨u, hMoves, hDerives⟩ := Declaration.derives_of_parseParams hParams
  exact ⟨u, hFirst.trans (hSecond.trans hMoves), hIsType, hIsName, hDerives⟩

/-- An `else` ahead is no longer there, if a statement that was read could have taken it. -/
def LeftAlone (takes : Bool) (c : Cursor) : Prop := takes = true → Lexeme.Avoids .kwElse c.lexemes

theorem leftAlone_false (c : Cursor) : LeftAlone false c := nofun

mutual

/-- A statement that is parsed is one of the grammar. If an `else` could go on with it, none
follows. -/
theorem derives_of_parse? {c : Cursor} {r : Parsed Stmt c.size} : parse? c = .ok (some r) →
    ∃ takes u, c.Moves u r.rest ∧ DerivesStmt takes u r.value.eraseSpans ∧
      LeftAlone takes r.rest := by
  fun_cases parse? c with
  | case1 => rintro ⟨⟩
  | case2 next hNext _ hKind =>
      simp only [bind_eq_ok, pure_eq_ok, Option.some.injEq]
      rintro ⟨cond, hCond, body, hBody, rfl⟩
      have hLess := (next.before cond).size_lt
      obtain ⟨u, hTest, hDerives⟩ := derives_of_parseCondition hCond
      obtain ⟨takes, v, hInner, hBranch, hElse⟩ := derives_of_parseBranch hBody
      exact ⟨takes, next.value :: (u ++ v),
        (Cursor.moves_of_step? hNext).trans (hTest.trans hInner),
        .loop hKind hDerives hBranch, hElse⟩
  | case3 next hNext _ hKind =>
      simp only [bind_eq_ok, pure_eq_ok, Option.some.injEq]
      rintro ⟨cond, hCond, block, hBlock, others, hOthers, rfl⟩
      have hLess := (next.before cond).size_lt
      obtain ⟨u, hTest, hDerives⟩ := derives_of_parseCondition hCond
      obtain ⟨takes, v, hInner, hBranch, hElse⟩ := derives_of_parseBranch hBlock
      obtain ⟨takes', w, hMore, hChain, hElse'⟩ :=
        derives_of_parseElse hKind hDerives hBranch hElse hOthers
      exact ⟨takes', _, (Cursor.moves_of_step? hNext).trans (hTest.trans (hInner.trans hMore)),
        .branch hChain, hElse'⟩
  | case4 next hNext _ hKind =>
      simp only [bind_eq_ok, pure_eq_ok, Option.some.injEq]
      rintro ⟨stmt, hStmt, rfl⟩
      obtain ⟨u, hAll, hDerives⟩ := derives_of_parseRaw hKind (Cursor.moves_of_step? hNext) hStmt
      exact ⟨false, u, hAll, hDerives, leftAlone_false _⟩
  | case5 next hNext _ hKind =>
      simp only [bind_eq_ok, pure_eq_ok, Option.some.injEq]
      rintro ⟨stmt, hStmt, rfl⟩
      obtain ⟨u, hAll, hDerives⟩ := derives_of_parseRet hKind (Cursor.moves_of_step? hNext) hStmt
      exact ⟨false, u, hAll, hDerives, leftAlone_false _⟩
  | case6 next hNext hKind =>
      simp only [bind_eq_ok, pure_eq_ok, Option.some.injEq]
      rintro ⟨stmt, hStmt, rfl⟩
      obtain ⟨u, hAll, hDerives⟩ := derives_of_parseEval hKind (Cursor.moves_of_step? hNext) hStmt
      exact ⟨false, u, hAll, hDerives, leftAlone_false _⟩
  | case7 =>
      simp only [bind_eq_ok, pure_eq_ok, Option.some.injEq]
      rintro ⟨head, hHead, body, hBody, rfl⟩
      obtain ⟨u, hFirst, hIsType, hIsName, hParams⟩ := derives_of_parseHead hHead
      obtain ⟨opening, v, closing, hInner, hIsOpening, hDerives, hIsClosing⟩ :=
        derives_of_parseBraced hBody
      exact ⟨false, _, hFirst.trans hInner,
        .function hIsType hIsName hParams hIsOpening hDerives hIsClosing, leftAlone_false _⟩
  | case8 =>
      simp only [bind_eq_ok, pure_eq_ok, Option.some.injEq]
      rintro ⟨stmt, hStmt, rfl⟩
      obtain ⟨u, hAll, hDerives⟩ := derives_of_parseVar hStmt
      exact ⟨false, u, hAll, hDerives, leftAlone_false _⟩
  | case9 => rintro ⟨⟩
termination_by (c.size, 0)
decreasing_by
  · exact .left _ _ hLess
  · exact .left _ _ hLess
  · exact .left _ _ (Nat.lt_trans block.size_lt hLess)
  · exact .left _ _ head.size_lt

/-- What goes on with an `if`, after its first block. That block left an `else` alone, so the
`else` that is read here is not one that it could take. -/
theorem derives_of_parseElse {c : Cursor} {r : Parsed Alternatives (c.size + 1)} {word : Token}
    {u v : List Token} {takes : Bool} {cond : Expr} {block : List Stmt}
    (hWord : word.kind = .kwIf) (hCond : DerivesCondition u cond)
    (hBlock : DerivesBranch takes v block) (hLeft : LeftAlone takes c) :
    parseElse c = .ok r → ∃ takes' w, c.Moves w r.rest ∧
      DerivesChain takes' (word :: (u ++ (v ++ w))) (cond :: Expr.eraseAllSpans r.value.conds)
        (block :: eraseBlockSpans r.value.blocks) ∧ LeftAlone takes' r.rest := by
  -- an `else` that is read is not one that the block could take
  have hTakes {orElse : Parsed Token c.size} (hAccept : c.accept? .kwElse = some orElse) :
      takes = false := by
    obtain ⟨hFirst, hIsElse⟩ := Cursor.moves_of_accept? hAccept
    cases takes with
    | false => rfl
    | true => exact absurd hIsElse (hLeft rfl orElse.value.lexeme
        (by simp [Cursor.lexemes, hFirst.ahead]))
  fun_cases parseElse c with
  | case1 hNone =>
      rintro ⟨⟩
      refine ⟨true, [], .refl c, ?_, fun _ => Cursor.avoids_of_accept? hNone⟩
      rw [List.append_nil]
      exact .last hWord hCond hBlock
  | case2 orElse hAccept orIf hIf =>
      obtain rfl := hTakes hAccept
      obtain ⟨hFirst, hIsElse⟩ := Cursor.moves_of_accept? hAccept
      obtain ⟨hSecond, hIsIf⟩ := Cursor.moves_of_accept? hIf
      simp only [bind_eq_ok, pure_eq_ok]
      rintro ⟨next, hNext, body, hBody, others, hOthers, rfl⟩
      have hLess := (orElse.before (orIf.before next)).size_lt
      obtain ⟨u', hTest, hDerives⟩ := derives_of_parseCondition hNext
      obtain ⟨takes', v', hInner, hBranch, hElse⟩ := derives_of_parseBranch hBody
      obtain ⟨takes'', w, hMore, hChain, hElse'⟩ :=
        derives_of_parseElse hIsIf hDerives hBranch hElse hOthers
      exact ⟨takes'', _, hFirst.trans (hSecond.trans (hTest.trans (hInner.trans hMore))),
        .more hWord hCond hBlock hIsElse hChain, hElse'⟩
  | case3 orElse hAccept hNone =>
      obtain rfl := hTakes hAccept
      obtain ⟨hFirst, hIsElse⟩ := Cursor.moves_of_accept? hAccept
      simp only [bind_eq_ok, pure_eq_ok]
      rintro ⟨other, hOther, rfl⟩
      have hLess := orElse.size_lt
      obtain ⟨takes', w, hInner, hBranch, hElse⟩ := derives_of_parseBranch hOther
      refine ⟨takes', orElse.value :: w, hFirst.trans hInner,
        .orElse hWord hCond hBlock hIsElse (fun t hT => ?_) hBranch, hElse⟩
      refine Cursor.avoids_of_accept? hNone t.lexeme ?_
      rw [Cursor.lexemes, hInner.ahead, List.head?_map, List.head?_append, Option.mem_def.1 hT]
      rfl
termination_by (c.size, 0)
decreasing_by
  · exact .left _ _ hLess
  · exact .left _ _ (Nat.lt_trans body.size_lt hLess)
  · exact .left _ _ hLess

/-- A branch that is parsed is one of the grammar, and no `else` that it could take follows. -/
theorem derives_of_parseBranch {c : Cursor} {r : Parsed (List Stmt) c.size} :
    parseBranch c = .ok r →
      ∃ takes u, c.Moves u r.rest ∧ DerivesBranch takes u (eraseAllSpans r.value) ∧
        LeftAlone takes r.rest := by
  fun_cases parseBranch c with
  | case1 =>
      intro h
      obtain ⟨opening, u, closing, hMoves, hIsOpening, hDerives, hIsClosing⟩ :=
        derives_of_parseBraced h
      exact ⟨false, _, hMoves, .braces hIsOpening hDerives hIsClosing, leftAlone_false _⟩
  | case2 =>
      intro h
      obtain ⟨found, hFound, h⟩ := bind_eq_ok.1 h
      cases found with
      | none => simp [Cursor.fail] at h
      | some stmt =>
          cases h
          obtain ⟨takes, u, hMoves, hDerives, hElse⟩ := derives_of_parse? hFound
          exact ⟨takes, u, hMoves, .bare hDerives, hElse⟩
termination_by (c.size, 1)
decreasing_by
  · exact .right _ (by omega)
  · exact .right _ (by omega)

theorem derives_of_parseBraced {c : Cursor} {r : Parsed (List Stmt) c.size}
    (h : parseBraced c = .ok r) :
    ∃ opening u closing, c.Moves (opening :: (u ++ [closing])) r.rest ∧ opening.kind = .lbrace ∧
      DerivesAll u (eraseAllSpans r.value) ∧ closing.kind = .rbrace := by
  rw [parseBraced] at h
  simp only [bind_eq_ok, pure_eq_ok] at h
  obtain ⟨opening, hOpening, body, hBody, closing, hClosing, rfl⟩ := h
  obtain ⟨hFirst, hIsOpening⟩ := Cursor.moves_of_require hOpening
  obtain ⟨hLast, hIsClosing⟩ := Cursor.moves_of_require hClosing
  obtain ⟨u, hMoves, hDerives⟩ := derives_of_parseBody hBody
  exact ⟨_, u, _, hFirst.trans (hMoves.trans hLast), hIsOpening, hDerives, hIsClosing⟩
termination_by (c.size, 0)
decreasing_by exact .left _ _ opening.size_lt

/-- The statements of a body that are parsed are statements of the grammar. -/
theorem derives_of_parseBody {c : Cursor} {r : Parsed (List Stmt) (c.size + 1)}
    (h : parseBody c = .ok r) :
    ∃ u, c.Moves u r.rest ∧ DerivesAll u (eraseAllSpans r.value) := by
  rw [parseBody] at h
  obtain ⟨found, hFound, h⟩ := bind_eq_ok.1 h
  cases found with
  | none =>
      cases h
      exact ⟨[], .refl c, .nil⟩
  | some stmt =>
      simp only [bind_eq_ok, pure_eq_ok] at h
      obtain ⟨others, hOthers, rfl⟩ := h
      obtain ⟨takes, u, hMoves, hDerives, -⟩ := derives_of_parse? hFound
      obtain ⟨v, hMoves', hDerives'⟩ := derives_of_parseBody hOthers
      exact ⟨u ++ v, hMoves.trans hMoves', .cons hDerives hDerives'⟩
termination_by (c.size, 1)
decreasing_by
  · exact .right _ (by omega)
  · exact .left _ _ stmt.size_lt

end

/-- What is read from a place is a statement, and another place is left. -/
def Leads (s : Stmt) (d : Cursor) {limit : Nat} (r : Parsed Stmt limit) : Prop :=
  r.value.eraseSpans = s ∧ r.rest = d

/-- What is read from a place is a row of statements, and another place is left. -/
def LeadsAll (ss : List Stmt) (d : Cursor) {limit : Nat} (r : Parsed (List Stmt) limit) : Prop :=
  eraseAllSpans r.value = ss ∧ r.rest = d

section Simple

variable {c d : Cursor} {u : List Token} {e : Expr} {semicolon : Token}

/-- A raw statement of the grammar is parsed. -/
theorem exists_parseRaw_of_moves {text : Token} (start : Nat) (hText : text.kind = .str)
    (hEnd : semicolon.kind = .semicolon) (hMoves : c.Moves [text, semicolon] d) :
    ∃ r, parseRaw start c = .ok r ∧ Leads (.raw (.point 0) text.text) d r := by
  obtain ⟨word, hFirst, rfl, hAfter⟩ := hMoves.require hText (by decide)
  obtain ⟨closing, hLast, rfl, hRest⟩ := hAfter.require hEnd (by decide)
  refine ⟨word.before (closing.give (.raw ⟨start, closing.rest.lastStop⟩ word.value.text)), ?_,
    rfl, hRest.eq_nil⟩
  rw [parseRaw]
  exact bind_eq_ok.2 ⟨word, hFirst, bind_eq_ok.2 ⟨closing, hLast, rfl⟩⟩

/-- A return statement of the grammar is parsed. -/
theorem exists_parseRet_of_isExpr (start : Nat) (hExpr : IsExpr u e)
    (hEnd : semicolon.kind = .semicolon) (hMoves : c.Moves (u ++ [semicolon]) d) :
    ∃ r, parseRet start c = .ok r ∧ Leads (.ret (.point 0) e) d r := by
  obtain ⟨mid, hInner, hMid⟩ := hMoves.split
  obtain ⟨value, hValue, rfl, rfl⟩ :=
    Expr.exists_parse_of_isExpr hExpr hInner (hMid.closes (by simp [hEnd]))
  obtain ⟨closing, hLast, rfl, hRest⟩ := hMid.require hEnd (by decide)
  refine ⟨value.before (closing.give (.ret ⟨start, closing.rest.lastStop⟩ value.value)), ?_,
    rfl, hRest.eq_nil⟩
  rw [parseRet]
  exact bind_eq_ok.2 ⟨value, hValue, bind_eq_ok.2 ⟨closing, hLast, rfl⟩⟩

/-- An action is read up to the semicolon after it. -/
theorem exists_parseEval_of_parseAction {name : Token}
    (hEnd : semicolon.kind = .semicolon) {mid : Cursor} (hMid : mid.Moves [semicolon] d)
    (hAction : ∃ r, parseAction name c = .ok r ∧ Expr.Leads e mid r) :
    ∃ r, parseEval name c = .ok r ∧ Leads (.eval (.point 0) e) d r := by
  obtain ⟨action, hAction, rfl, rfl⟩ := hAction
  obtain ⟨closing, hLast, rfl, hRest⟩ := hMid.require hEnd (by decide)
  refine ⟨action.before (closing.give (.eval ⟨name.span.start, closing.rest.lastStop⟩
    action.value)), ?_, rfl, hRest.eq_nil⟩
  rw [parseEval]
  exact bind_eq_ok.2 ⟨action, hAction, bind_eq_ok.2 ⟨closing, hLast, rfl⟩⟩

/-- An assignment of the grammar is parsed as a statement. -/
theorem exists_parseEval_of_isExpr {name equals : Token} (hEquals : equals.kind = .assign)
    (hExpr : IsExpr u e) (hEnd : semicolon.kind = .semicolon)
    (hMoves : c.Moves (equals :: (u ++ [semicolon])) d) :
    ∃ r, parseEval name c = .ok r ∧
      Leads (.eval (.point 0) (.assign (.point 0) name.text e)) d r := by
  obtain ⟨mark, hFirst, rfl, hAfter⟩ := hMoves.accept? hEquals (by decide)
  obtain ⟨mid, hInner, hMid⟩ := hAfter.split
  obtain ⟨value, hValue, rfl, rfl⟩ :=
    Expr.exists_parse_of_isExpr hExpr hInner (hMid.closes (by simp [hEnd]))
  refine exists_parseEval_of_parseAction hEnd hMid ⟨mark.before (value.give
    (.assign ⟨name.span.start, value.rest.lastStop⟩ name.text value.value)), ?_, rfl, rfl⟩
  rw [parseAction, hFirst]
  exact bind_eq_ok.2 ⟨value, hValue, rfl⟩

/-- A call of the grammar is parsed as a statement. -/
theorem exists_parseEval_of_args {name : Token} {es : List Expr} (hArgs : Parenthesized IsExpr u es)
    (hEnd : semicolon.kind = .semicolon) (hMoves : c.Moves (u ++ [semicolon]) d) :
    ∃ r, parseEval name c = .ok r ∧
      Leads (.eval (.point 0) (.call (.point 0) name.text es)) d r := by
  obtain ⟨opening, v, rfl, hOpening⟩ := hArgs.head
  have hNone : c.accept? .assign (by decide) = none :=
    Cursor.accept?_eq_none (hMoves.avoids (by simp [hOpening]))
  have hPeek : c.peek.kind = .lparen := by rw [hMoves.peek, hOpening]
  obtain ⟨mid, hInner, hMid⟩ := hMoves.split
  obtain ⟨args, hParse, rfl, rfl⟩ :=
    Expr.exists_parseArgs_of_derives (parenthesized_isExpr_iff.1 hArgs) hInner
  refine exists_parseEval_of_parseAction hEnd hMid ⟨args.give
    (.call ⟨name.span.start, args.rest.lastStop⟩ name.text args.value), ?_, rfl, rfl⟩
  rw [parseAction, hNone]
  change (if c.peek.kind = .lparen then _ else _) = _
  rw [if_pos hPeek]
  exact bind_eq_ok.2 ⟨args, hParse, rfl⟩

/-- The declaration of a variable is parsed. -/
theorem exists_parseVar_of_derives {decl : Declaration} (hDecl : DerivesDecl u decl)
    (hEnd : semicolon.kind = .semicolon) (hMoves : c.Moves (u ++ [semicolon]) d) :
    ∃ r, parseVar c = .ok r ∧ Leads (.var decl) d r := by
  obtain ⟨mid, hInner, hMid⟩ := hMoves.split
  obtain ⟨value, hValue, rfl, rfl⟩ :=
    Declaration.exists_parse_of_derives hDecl hInner (hMid.closes (by simp [hEnd]))
  obtain ⟨closing, hLast, rfl, hRest⟩ := hMid.require hEnd (by decide)
  refine ⟨value.before (closing.give (.var
    { value.value with span := ⟨value.value.span.start, closing.rest.lastStop⟩ })), ?_,
    rfl, hRest.eq_nil⟩
  rw [parseVar]
  exact bind_eq_ok.2 ⟨value, hValue, bind_eq_ok.2 ⟨closing, hLast, rfl⟩⟩

/-- The third token of a variable does not open parameters. -/
theorem peekAt_of_derivesDecl {decl : Declaration} (hDecl : DerivesDecl u decl)
    (hEnd : semicolon.kind = .semicolon) (hMoves : c.Moves (u ++ [semicolon]) d) :
    (c.peekAt 3).kind ≠ .lparen := by
  obtain ⟨type, name, v, rfl, -, -, hThird⟩ := hDecl.head
  cases v with
  | nil => simp [Cursor.peekAt, hMoves.ahead, hEnd]
  | cons t v => simpa [Cursor.peekAt, hMoves.ahead] using hThird t rfl

/-- The heading of a function of the grammar is parsed. -/
theorem exists_parseHead_of_derives {type name : Token} {params : List Declaration}
    (hType : type.kind = .type) (hName : name.kind = .ident)
    (hParams : Parenthesized DerivesDecl u params) (hMoves : c.Moves (type :: name :: u) d) :
    ∃ r, parseHead c = .ok r ∧ r.value.type = type ∧ r.value.name = name ∧
      r.value.params.map Declaration.eraseSpans = params ∧ r.rest = d := by
  obtain ⟨first, hFirst, rfl, hAfter⟩ := hMoves.require hType (by decide)
  obtain ⟨second, hSecond, rfl, hInner⟩ := hAfter.require hName (by decide)
  obtain ⟨inner, hParse, rfl, rfl⟩ := Declaration.exists_parseParams_of_derives hParams hInner
  refine ⟨first.before (second.before (inner.give ⟨first.value, second.value, inner.value⟩)), ?_,
    rfl, rfl, rfl, rfl⟩
  rw [parseHead]
  exact bind_eq_ok.2 ⟨first, hFirst, bind_eq_ok.2 ⟨second, hSecond,
    bind_eq_ok.2 ⟨inner, hParse, rfl⟩⟩⟩

end Simple

/-- Nothing is read before a closing brace or the end. -/
theorem parse?_eq_none {c : Cursor} (h : ∀ l ∈ c.lexemes.head?, l.1 = .rbrace) :
    parse? c = .ok none := by
  rw [parse?]
  cases hStep : c.step? with
  | none => rfl
  | some next =>
      have hKind : next.value.kind = .rbrace := by
        refine h next.value.lexeme ?_
        simp [Cursor.lexemes, (Cursor.step?_eq_some.1 hStep).1]
      simp only [hKind]

/-- Statements are read from a place, if the place after them is an end of statements. -/
def BodyIsRead (u : List Token) (ss : List Stmt) : Prop :=
  ∀ c d : Cursor, c.Moves u d → (∀ l ∈ d.lexemes.head?, l.1 = .rbrace) →
    ∃ r, parseBody c = .ok r ∧ LeadsAll ss d r

/-- A body that is read is read in braces. -/
theorem exists_parseBraced_of_bodyIsRead {u : List Token} {ss : List Stmt}
    {opening closing : Token} {c d : Cursor} (h : BodyIsRead u ss)
    (hMoves : c.Moves (opening :: (u ++ [closing])) d) (hOpening : opening.kind = .lbrace)
    (hClosing : closing.kind = .rbrace) : ∃ r, parseBraced c = .ok r ∧ LeadsAll ss d r := by
  obtain ⟨first, hFirst, rfl, hAfter⟩ := hMoves.require hOpening (by decide)
  obtain ⟨mid, hInner, hMid⟩ := hAfter.split
  obtain ⟨body, hBody, rfl, rfl⟩ := h _ _ hInner (by
    simp [Cursor.lexemes, hMid.ahead, Token.lexeme, hClosing])
  obtain ⟨last, hLast, rfl, hRest⟩ := hMid.require hClosing (by decide)
  refine ⟨(last.give body.value).relax
    (Nat.le_trans (Nat.le_of_lt_succ body.size_lt) (Nat.le_of_lt first.size_lt)), ?_,
    rfl, hRest.eq_nil⟩
  rw [parseBraced]
  exact bind_eq_ok.2 ⟨first, hFirst, bind_eq_ok.2 ⟨body, hBody,
    bind_eq_ok.2 ⟨last, hLast, rfl⟩⟩⟩

/-- An `if` is read with all that goes on with it, and another place is left. -/
def ReadsChain (c : Cursor) (conds : List Expr) (blocks : List (List Stmt)) (d : Cursor) : Prop :=
  ∃ next : Parsed Token c.size, c.step? = some next ∧ next.value.kind = .kwIf ∧
    ∃ cond, parseCondition next.rest = .ok cond ∧ ∃ block, parseBranch cond.rest = .ok block ∧
      ∃ others, parseElse block.rest = .ok others ∧
        cond.value.eraseSpans :: Expr.eraseAllSpans others.value.conds = conds ∧
        eraseAllSpans block.value :: eraseBlockSpans others.value.blocks = blocks ∧
        others.rest = d

mutual

/-- A derived statement is read, if no `else` goes on with it. -/
theorem exists_parse?_of_derives {takes : Bool} {u : List Token} {s : Stmt} {c d : Cursor} :
    DerivesStmt takes u s → c.Moves u d → LeftAlone takes d →
      ∃ r, parse? c = .ok (some r) ∧ Leads s d r
  | .loop hWord hCond hBody, hMoves, hElse => by
      obtain ⟨next, hStep, rfl, hAfter⟩ := hMoves.cons
      obtain ⟨mid, hTest, hInner⟩ := hAfter.split
      obtain ⟨cond, hParse, rfl, rfl⟩ := exists_parseCondition_of_derives hCond hTest
      obtain ⟨body, hBranch, rfl, rfl⟩ := exists_parseBranch_of_derives hBody hInner hElse
      refine ⟨next.before (cond.before (body.give (.loop
        ⟨next.value.span.start, body.rest.lastStop⟩ cond.value body.value))), ?_, rfl, rfl⟩
      rw [parse?]
      simp only [hStep, hWord]
      exact bind_eq_ok.2 ⟨cond, hParse, bind_eq_ok.2 ⟨body, hBranch, rfl⟩⟩
  | .branch h, hMoves, hElse => by
      obtain ⟨next, hStep, hWord, cond, hCond, block, hBlock, others, hOthers, rfl, rfl, rfl⟩ :=
        readsChain_of_derives h hMoves hElse
      refine ⟨next.before (cond.before ((others.give (.branch
        ⟨next.value.span.start, others.rest.lastStop⟩ (cond.value :: others.value.conds)
        (block.value :: others.value.blocks))).relax block.size_lt)), ?_, rfl, rfl⟩
      rw [parse?]
      simp only [hStep, hWord]
      exact bind_eq_ok.2 ⟨cond, hCond, bind_eq_ok.2 ⟨block, hBlock,
        bind_eq_ok.2 ⟨others, hOthers, rfl⟩⟩⟩
  | .raw hWord hText hEnd, hMoves, _ => by
      obtain ⟨next, hStep, rfl, hAfter⟩ := hMoves.cons
      obtain ⟨stmt, hStmt, hLeads⟩ :=
        exists_parseRaw_of_moves next.value.span.start hText hEnd hAfter
      refine ⟨next.before stmt, ?_, hLeads⟩
      rw [parse?]
      simp only [hStep, hWord]
      exact bind_eq_ok.2 ⟨stmt, hStmt, rfl⟩
  | .ret hWord hExpr hEnd, hMoves, _ => by
      obtain ⟨next, hStep, rfl, hAfter⟩ := hMoves.cons
      obtain ⟨stmt, hStmt, hLeads⟩ :=
        exists_parseRet_of_isExpr next.value.span.start hExpr hEnd hAfter
      refine ⟨next.before stmt, ?_, hLeads⟩
      rw [parse?]
      simp only [hStep, hWord]
      exact bind_eq_ok.2 ⟨stmt, hStmt, rfl⟩
  | .assign hName hEquals hExpr hEnd, hMoves, _ => by
      obtain ⟨next, hStep, rfl, hAfter⟩ := hMoves.cons
      obtain ⟨stmt, hStmt, hLeads⟩ := exists_parseEval_of_isExpr hEquals hExpr hEnd hAfter
      refine ⟨next.before stmt, ?_, hLeads⟩
      rw [parse?]
      simp only [hStep, hName]
      exact bind_eq_ok.2 ⟨stmt, hStmt, rfl⟩
  | .call hName hArgs hEnd, hMoves, _ => by
      obtain ⟨next, hStep, rfl, hAfter⟩ := hMoves.cons
      obtain ⟨stmt, hStmt, hLeads⟩ := exists_parseEval_of_args hArgs hEnd hAfter
      refine ⟨next.before stmt, ?_, hLeads⟩
      rw [parse?]
      simp only [hStep, hName]
      exact bind_eq_ok.2 ⟨stmt, hStmt, rfl⟩
  | .var hDecl hEnd, hMoves, _ => by
      have hThird := peekAt_of_derivesDecl hDecl hEnd hMoves
      obtain ⟨stmt, hStmt, hLeads⟩ := exists_parseVar_of_derives hDecl hEnd hMoves
      obtain ⟨type, name, v, rfl, hType, -⟩ := hDecl.head
      obtain ⟨next, hStep, rfl, -⟩ := hMoves.cons
      refine ⟨stmt, ?_, hLeads⟩
      rw [parse?]
      simp only [hStep, hType]
      rw [if_neg hThird]
      exact bind_eq_ok.2 ⟨stmt, hStmt, rfl⟩
  | @DerivesStmt.function type name opening closing u v params body hType hName hParams hOpening
      hBody hClosing, hMoves, _ => by
      have hThird : (c.peekAt 3).kind = .lparen := by
        obtain ⟨paren, w, rfl, hParen⟩ := hParams.head
        simpa [Cursor.peekAt, hMoves.ahead] using hParen
      obtain ⟨next, hStep, hNext, -⟩ := hMoves.cons
      have hAll : c.Moves ((type :: name :: u) ++ (opening :: (v ++ [closing]))) d := hMoves
      obtain ⟨mid, hFirst, hInner⟩ := hAll.split
      obtain ⟨head, hHead, rfl, rfl, rfl, rfl⟩ :=
        exists_parseHead_of_derives hType hName hParams hFirst
      obtain ⟨block, hBlock, rfl, rfl⟩ :=
        exists_parseBraced_of_bodyIsRead (bodyIsRead_of_derives hBody) hInner hOpening hClosing
      refine ⟨head.before (block.give (.function
        ⟨head.value.type.span.start, block.rest.lastStop⟩ head.value.type.text
        head.value.name.text head.value.params block.value)), ?_, rfl, rfl⟩
      rw [parse?]
      simp only [hStep, hNext, hType]
      rw [if_pos hThird]
      exact bind_eq_ok.2 ⟨head, hHead, bind_eq_ok.2 ⟨block, hBlock, rfl⟩⟩

/-- A chain of branches of the grammar is parsed, if no `else` that it could take follows. -/
theorem readsChain_of_derives {takes : Bool} {u : List Token} {conds : List Expr}
    {blocks : List (List Stmt)} {c d : Cursor} :
    DerivesChain takes u conds blocks → c.Moves u d → LeftAlone takes d →
      ReadsChain c conds blocks d
  | .last hWord hCond hBlock, hMoves, hElse => by
      obtain ⟨next, hStep, rfl, hAfter⟩ := hMoves.cons
      obtain ⟨mid, hTest, hInner⟩ := hAfter.split
      obtain ⟨cond, hParse, rfl, rfl⟩ := exists_parseCondition_of_derives hCond hTest
      obtain ⟨block, hBranch, rfl, rfl⟩ :=
        exists_parseBranch_of_derives hBlock hInner fun _ => hElse rfl
      have hNone : block.rest.accept? .kwElse (by decide) = none :=
        Cursor.accept?_eq_none (hElse rfl)
      have hOthers : parseElse block.rest = .ok ⟨⟨[], []⟩, block.rest, Nat.lt_succ_self _⟩ := by
        rw [parseElse, hNone]
      exact ⟨next, hStep, hWord, cond, hParse, block, hBranch, _, hOthers, rfl, rfl, rfl⟩
  | @DerivesChain.orElse word orElse u v w takes cond yes no hWord hCond hYes hElse hIf hNo,
      hMoves, hLast => by
      obtain ⟨next, hStep, rfl, hAfter⟩ := hMoves.cons
      obtain ⟨mid, hTest, hInner⟩ := hAfter.split
      obtain ⟨cond, hParse, rfl, rfl⟩ := exists_parseCondition_of_derives hCond hTest
      obtain ⟨mid, hFirst, hSecond⟩ := hInner.split
      obtain ⟨block, hBranch, rfl, rfl⟩ :=
        exists_parseBranch_of_derives hYes hFirst (leftAlone_false _)
      obtain ⟨mark, hAccept, rfl, hRest⟩ := hSecond.accept? hElse (by decide)
      obtain ⟨other, hOther, rfl, rfl⟩ := exists_parseBranch_of_derives hNo hRest hLast
      have hNone : mark.rest.accept? .kwIf (by decide) = none := by
        obtain ⟨t, more, rfl⟩ := hNo.head
        exact Cursor.accept?_eq_none (hRest.avoids (hIf t rfl))
      let whole : Parsed Alternatives (block.rest.size + 1) :=
        (mark.before (other.give ⟨[], [other.value]⟩)).relax (Nat.le_succ _)
      have hOthers : parseElse block.rest = .ok whole := by
        rw [parseElse, hAccept]
        simp only [hNone]
        exact bind_eq_ok.2 ⟨other, hOther, rfl⟩
      exact ⟨next, hStep, hWord, cond, hParse, block, hBranch, whole, hOthers, rfl, rfl, rfl⟩
  | .more hWord hCond hBlock hElse hMore, hMoves, hLast => by
      obtain ⟨next, hStep, rfl, hAfter⟩ := hMoves.cons
      obtain ⟨mid, hTest, hInner⟩ := hAfter.split
      obtain ⟨cond, hParse, rfl, rfl⟩ := exists_parseCondition_of_derives hCond hTest
      obtain ⟨mid, hFirst, hSecond⟩ := hInner.split
      obtain ⟨block, hBranch, rfl, rfl⟩ :=
        exists_parseBranch_of_derives hBlock hFirst (leftAlone_false _)
      obtain ⟨mark, hAccept, rfl, hRest⟩ := hSecond.accept? hElse (by decide)
      obtain ⟨orIf, hIf, hIsIf, cond', hCond', block', hBlock', others, hOthers, rfl, rfl, rfl⟩ :=
        readsChain_of_derives hMore hRest hLast
      have hAcceptIf : mark.rest.accept? .kwIf (by decide) = some orIf :=
        Cursor.accept?_eq_some.2 ⟨hIf, hIsIf⟩
      let both : Alternatives :=
        ⟨cond'.value :: others.value.conds, block'.value :: others.value.blocks⟩
      let whole : Parsed Alternatives (block.rest.size + 1) :=
        (mark.before (orIf.before (cond'.before ((others.give both).relax block'.size_lt)))).relax
          (Nat.le_succ _)
      have hWhole : parseElse block.rest = .ok whole := by
        rw [parseElse, hAccept]
        simp only [hAcceptIf]
        exact bind_eq_ok.2 ⟨cond', hCond', bind_eq_ok.2 ⟨block', hBlock',
          bind_eq_ok.2 ⟨others, hOthers, rfl⟩⟩⟩
      exact ⟨next, hStep, hWord, cond, hParse, block, hBranch, whole, hWhole, rfl, rfl, rfl⟩

/-- A branch of the grammar is parsed, if no `else` that it could take follows. -/
theorem exists_parseBranch_of_derives {takes : Bool} {u : List Token} {ss : List Stmt}
    {c d : Cursor} : DerivesBranch takes u ss → c.Moves u d → LeftAlone takes d →
      ∃ r, parseBranch c = .ok r ∧ LeadsAll ss d r
  | .braces hOpening h hClosing, hMoves, _ => by
      obtain ⟨block, hBlock, hLeads⟩ :=
        exists_parseBraced_of_bodyIsRead (bodyIsRead_of_derives h) hMoves hOpening hClosing
      refine ⟨block, ?_, hLeads⟩
      rw [parseBranch, hMoves.peek, if_pos hOpening, hBlock]
  | .bare h, hMoves, hElse => by
      obtain ⟨stmt, hStmt, rfl, rfl⟩ := exists_parse?_of_derives h hMoves hElse
      have hBrace : ¬ c.peek.kind = .lbrace := by
        obtain ⟨t, v, rfl, hHead⟩ := h.head
        rw [hMoves.peek]
        intro hEq
        rw [hEq] at hHead
        exact absurd hHead (by decide)
      refine ⟨stmt.give [stmt.value], ?_, rfl, rfl⟩
      rw [parseBranch, if_neg hBrace]
      exact bind_eq_ok.2 ⟨some stmt, hStmt, rfl⟩

/-- The statements of a body of the grammar are parsed, up to where no statement starts. -/
theorem bodyIsRead_of_derives {u : List Token} {ss : List Stmt} : DerivesAll u ss → BodyIsRead u ss
  | .nil, _, _, hMoves, hEnd => by
      obtain rfl := hMoves.eq_nil
      rw [parseBody]
      exact ⟨_, bind_eq_ok.2 ⟨none, parse?_eq_none hEnd, rfl⟩, rfl, rfl⟩
  | @DerivesAll.cons u v takes s ss h hs, c, d, hMoves, hEnd => by
      obtain ⟨mid, hFirst, hMid⟩ := hMoves.split
      have hElse : Lexeme.Avoids .kwElse mid.lexemes := by
        cases hs with
        | nil =>
            obtain rfl := hMid.eq_nil
            exact fun l hL => by simp [hEnd l hL]
        | cons h' _ =>
            obtain ⟨t, w, rfl, hHead⟩ := h'.head
            refine hMid.avoids fun hEq => ?_
            rw [hEq] at hHead
            exact absurd hHead (by decide)
      obtain ⟨stmt, hStmt, rfl, rfl⟩ := exists_parse?_of_derives h hFirst fun _ => hElse
      obtain ⟨others, hOthers, rfl, rfl⟩ := bodyIsRead_of_derives hs _ _ hMid hEnd
      rw [parseBody]
      exact ⟨_, bind_eq_ok.2 ⟨some stmt, hStmt, bind_eq_ok.2 ⟨others, hOthers, rfl⟩⟩, rfl, rfl⟩

end

end Stmt

/-- Any words and numbers: what it says of a tree is its shape. -/
def Vocabulary.any : Vocabulary := ⟨fun _ _ => True, fun _ => True⟩

namespace Program

open Grammar

/-- Without an end among the tokens, only the last place is at the end. -/
theorem isAtEnd_iff {c : Cursor} (h : ∀ t ∈ c.ahead, t.kind ≠ .eof) :
    c.isAtEnd = true ↔ c.ahead = [] := by
  cases hAhead : c.ahead with
  | nil => simp [Cursor.isAtEnd, Cursor.peek, Cursor.peekAt, hAhead, Token.atEnd]
  | cons t rest =>
      have hKind : t.kind ≠ .eof := h t (by simp [hAhead])
      simp [Cursor.isAtEnd, Cursor.peek, Cursor.peekAt, hAhead, hKind]

/-- A program that is parsed is one of the grammar. -/
theorem derives_of_ofTokens {tokens : List Token} {p : Program}
    (hEof : ∀ t ∈ tokens, t.kind ≠ .eof) (h : ofTokens tokens = .ok p) :
    DerivesAll tokens p.eraseSpans := by
  obtain ⟨body, hBody, hEnd, rfl⟩ := ofTokens_eq_ok.1 h
  obtain ⟨u, hMoves, hDerives⟩ := Stmt.derives_of_parseBody hBody
  have hAhead : tokens = u ++ body.rest.ahead := hMoves.ahead
  have hRest : body.rest.ahead = [] :=
    (isAtEnd_iff fun t hT => hEof t (hAhead ▸ List.mem_append_right u hT)).1 hEnd
  rw [hRest, List.append_nil] at hAhead
  subst hAhead
  exact hDerives

/-- A program of the grammar is parsed. -/
theorem exists_ofTokens_of_derives {tokens : List Token} {q : Program}
    (h : DerivesAll tokens q) : ∃ p, ofTokens tokens = .ok p ∧ p.eraseSpans = q := by
  let last : Cursor := ⟨tokens.reverse, [], (Cursor.ofTokens tokens).finish⟩
  have hMoves : (Cursor.ofTokens tokens).Moves tokens last :=
    ⟨(List.append_nil tokens).symm, (List.append_nil _).symm, rfl⟩
  obtain ⟨body, hBody, hErase, hRest⟩ :=
    Stmt.bodyIsRead_of_derives h _ _ hMoves (by simp [last, Cursor.lexemes])
  have hEnd : body.rest.isAtEnd = true := by
    rw [hRest]
    exact (isAtEnd_iff (c := last) nofun).2 rfl
  exact ⟨body.value, ofTokens_eq_ok.2 ⟨body, hBody, hEnd, rfl⟩, hErase⟩

/-- A program that is read from tokens is written in their words. -/
theorem written_of_ofTokens {v : Vocabulary} {tokens : List Token} {p : Program}
    (hTokens : ∀ t ∈ tokens, v.Covers t) (h : ofTokens tokens = .ok p) : Stmt.AllWritten v p := by
  obtain ⟨body, hBody, -, rfl⟩ := ofTokens_eq_ok.1 h
  obtain ⟨u, hMoves, hDerives⟩ := Stmt.derives_of_parseBody hBody
  have hAhead : tokens = u ++ body.rest.ahead := hMoves.ahead
  rw [hAhead, List.forall_mem_append] at hTokens
  exact Stmt.allWritten_eraseAllSpans.1 (hDerives.written hTokens.1)

/-- In a program that is parsed, each block of a branch but the last has a condition. -/
theorem isShapedAll_of_ofTokens {tokens : List Token} {p : Program}
    (h : ofTokens tokens = .ok p) : Stmt.isShapedAll p = true := by
  have hTokens : ∀ t ∈ tokens, Vocabulary.any.Covers t := fun _ _ => ⟨trivial, fun _ _ _ => trivial⟩
  exact Stmt.isShapedAll_of_written (written_of_ofTokens hTokens h)

/-- The programs that are read are those of the statement grammar, where an `else` goes with the
nearest `if` that can take it. So a branch that is read has a condition, and a block for each of its
conditions or one more; an expression that is a statement is an assignment or a call, and no
assignment stands anywhere else. -/
theorem ofTokens_iff_derives (tokens : List Token) (hEof : ∀ t ∈ tokens, t.kind ≠ .eof) :
    (∀ q : Program, (∃ p, ofTokens tokens = .ok p ∧ p.eraseSpans = q) ↔ DerivesAll tokens q) ∧
    ∀ p, ofTokens tokens = .ok p → Stmt.AllWritten .any p := by
  constructor
  · intro q
    constructor
    · rintro ⟨p, hParse, rfl⟩
      exact derives_of_ofTokens hEof hParse
    · exact exists_ofTokens_of_derives
  · intro p hParse
    exact written_of_ofTokens (fun t _ => ⟨trivial, fun _ _ _ => trivial⟩) hParse

/-- The tokens of `if (a) if (b) x = true; else f();`. -/
def danglingTokens : List Token :=
  [(.kwIf, "if"), (.lparen, "("), (.ident, "a"), (.rparen, ")"), (.kwIf, "if"), (.lparen, "("),
    (.ident, "b"), (.rparen, ")"), (.ident, "x"), (.assign, "="), (.kwTrue, "true"),
    (.semicolon, ";"), (.kwElse, "else"), (.ident, "f"), (.lparen, "("), (.rparen, ")"),
    (.semicolon, ";")].map fun l => ⟨l.1, l.2, .point 0⟩

/-- The `else` goes with the inner `if`. -/
def dangling : Program :=
  [.branch (.point 0) [.ident (.point 0) "a"]
    [[.branch (.point 0) [.ident (.point 0) "b"]
      [[.eval (.point 0) (.assign (.point 0) "x" (.bool (.point 0) true))],
        [.eval (.point 0) (.call (.point 0) "f" [])]]]]]

/-- The `else` belongs to the inner of two branches. -/
theorem ofTokens_iff_derives_dangling :
    (∀ t ∈ danglingTokens, t.kind ≠ .eof) ∧
      (ofTokens danglingTokens).map eraseSpans = .ok dangling ∧
      DerivesAll danglingTokens dangling := by
  have hEof : ∀ t ∈ danglingTokens, t.kind ≠ .eof := by decide
  have hParse : (ofTokens danglingTokens).map eraseSpans = .ok dangling := by cbv
  refine ⟨hEof, hParse, ((ofTokens_iff_derives danglingTokens hEof).1 dangling).1 ?_⟩
  cases hRead : ofTokens danglingTokens with
  | error e => simp [hRead, Except.map] at hParse
  | ok p => exact ⟨p, rfl, by simpa [hRead, Except.map] using hParse⟩

end Program

end WasmCompiler
