import WasmCompiler.Proofs.StatementReading

/-! The grammar of printed trees. The parentheses that are printed leave no choice to the reader:
the lexemes of an expression are an operand, whatever the operators around it are, and those of a
block stand in braces. So the tokens of a printed program derive it, spans apart. -/

namespace WasmCompiler

open Grammar

namespace Token

variable {u : List Token} {k : Kind} {text : String} {ls : List Lexeme}

/-- Tokens with given lexemes start with a token of the first. -/
theorem exists_cons_of_lexemes (h : u.map lexeme = (k, text) :: ls) :
    ∃ t v, u = t :: v ∧ t.kind = k ∧ t.text = text ∧ v.map lexeme = ls := by
  obtain ⟨t, v, rfl, hT, hV⟩ := List.map_eq_cons_iff.1 h
  exact ⟨t, v, rfl, congrArg Prod.fst hT, congrArg Prod.snd hT, hV⟩

theorem exists_of_lexemes (h : u.map lexeme = [(k, text)]) :
    ∃ t, u = [t] ∧ t.kind = k ∧ t.text = text := by
  obtain ⟨t, v, rfl, hKind, hText, hV⟩ := exists_cons_of_lexemes h
  obtain rfl := List.map_eq_nil_iff.1 hV
  exact ⟨t, rfl, hKind, hText⟩

/-- A row and the token after it. -/
theorem exists_concat_of_lexemes (h : u.map lexeme = ls ++ [(k, text)]) :
    ∃ v t, u = v ++ [t] ∧ v.map lexeme = ls ∧ t.kind = k := by
  obtain ⟨v, w, rfl, hV, hW⟩ := List.map_eq_append_iff.1 h
  obtain ⟨t, rfl, hKind, -⟩ := exists_of_lexemes hW
  exact ⟨v, t, rfl, hV, hKind⟩

end Token

/-- Items in parentheses, if one or more of them are what they should be. -/
theorem Grammar.parenthesized_of_lexemes {α β : Type} {Item : List Token → α → Prop}
    {items : List β} {trees : List β → List α} {row : List β → List Lexeme} {u : List Token}
    (hTrees : trees [] = []) (hRow : row [] = [])
    (hItems : items ≠ [] → ∀ v : List Token, v.map Token.lexeme = row items →
      Separated Item v (trees items))
    (hU : u.map Token.lexeme = (.lparen, "(") :: (row items ++ [(.rparen, ")")])) :
    Parenthesized Item u (trees items) := by
  obtain ⟨opening, more, rfl, hOpening, -, hMore⟩ := Token.exists_cons_of_lexemes hU
  obtain ⟨inner, closing, rfl, hInner, hClosing⟩ := Token.exists_concat_of_lexemes hMore
  cases items with
  | nil =>
      rw [hRow] at hInner
      obtain rfl := List.map_eq_nil_iff.1 hInner
      rw [hTrees]
      exact .none hOpening hClosing
  | cons => exact .some hOpening hClosing (hItems (List.cons_ne_nil _ _) inner hInner)

namespace Expr

/-- An expression in parentheses is an atom. -/
theorem derives_of_parens {e : Expr} {u : List Token} {inner : List Lexeme}
    (hInner : ∀ v : List Token, v.map Token.lexeme = inner → Derives 1 v e)
    (hU : u.map Token.lexeme = (.lparen, "(") :: (inner ++ [(.rparen, ")")])) :
    Derives 7 u e := by
  obtain ⟨opening, more, rfl, hOpening, -, hMore⟩ := Token.exists_cons_of_lexemes hU
  obtain ⟨v, closing, rfl, hV, hClosing⟩ := Token.exists_concat_of_lexemes hMore
  exact .group hOpening hClosing (hInner v hV)

mutual

/-- A printed expression is an operand. -/
theorem derives_of_lexemes : ∀ {e : Expr} {u : List Token}, e.Written .printable →
    u.map Token.lexeme = e.lexemes → Derives 7 u e.eraseSpans
  | ident _ _, u, _, hU => by
      obtain ⟨t, rfl, hKind, rfl⟩ := Token.exists_of_lexemes hU
      exact .name hKind
  | number _ value, u, hE, hU => by
      obtain ⟨t, rfl, hKind, hText⟩ := Token.exists_of_lexemes hU
      exact .number hKind (hText ▸ Literal.read?_print hE)
  | bool _ value, u, _, hU => by
      obtain ⟨t, rfl, hKind, -⟩ := Token.exists_of_lexemes hU
      cases value with
      | true => exact .yes hKind
      | false => exact .no hKind
  | str _ _, u, _, hU => by
      obtain ⟨t, rfl, hKind, rfl⟩ := Token.exists_of_lexemes hU
      exact .str hKind
  | assign _ _ _, _, hE, _ => absurd hE id
  | binary _ op lhs rhs, u, hE, hU => by
      have hBounds := precedence_bounds op
      have hParens : u.map Token.lexeme = (.lparen, "(") ::
          ((lhs.lexemes ++ (op.kind, op.symbol) :: rhs.lexemes) ++ [(.rparen, ")")]) := by
        rw [List.append_assoc]
        exact hU
      refine derives_of_parens (fun v hV => ?_) hParens
      obtain ⟨left, more, rfl, hLeft, hMore⟩ := List.map_eq_append_iff.1 hV
      obtain ⟨mark, right, rfl, hMark, -, hRight⟩ := Token.exists_cons_of_lexemes hMore
      have hOp : (op.precedence, mark.kind, op) ∈ operators :=
        mem_operators.2 ⟨hMark ▸ op.ofKind?_kind, rfl⟩
      have hLhs := (derives_of_lexemes hE.1 hLeft).anti hBounds.1 (by omega) le_rfl
      have hRhs := (derives_of_lexemes hE.2 hRight).anti (Nat.succ_pos op.precedence) (by omega)
        le_rfl
      exact (Derives.chain hOp hLhs hRhs).anti le_rfl hBounds.1 (by omega)
  | unary _ op operand, u, hE, hU => by
      have hOperand : operand.Written .printable := hE
      rw [lexemes, ← List.cons_append] at hU
      refine derives_of_parens (fun v hV => ?_) hU
      obtain ⟨mark, inner, rfl, hMark, -, hInner⟩ := Token.exists_cons_of_lexemes hV
      have hSign : (mark.kind, op) ∈ signs := mem_signs.2 (hMark ▸ op.ofKind?_kind)
      have hDerives := (derives_of_lexemes hOperand hInner).anti (j := 6) (by decide) (by decide)
        le_rfl
      exact (Derives.sign hSign hDerives).anti le_rfl (by decide) (by decide)
  | cast _ type operand, u, hE, hU => by
      rw [lexemes, ← List.cons_append, ← List.cons_append, ← List.cons_append] at hU
      refine derives_of_parens (fun v hV => ?_) hU
      obtain ⟨opening, more, rfl, hOpening, -, hMore⟩ := Token.exists_cons_of_lexemes hV
      obtain ⟨word, others, rfl, hWord, rfl, hOthers⟩ := Token.exists_cons_of_lexemes hMore
      obtain ⟨closing, inner, rfl, hClosing, -, hInner⟩ := Token.exists_cons_of_lexemes hOthers
      have hDerives := (derives_of_lexemes hE.2 hInner).anti (j := 6) (by decide) (by decide)
        le_rfl
      exact (Derives.cast hOpening hWord hClosing hDerives).anti le_rfl (by decide) le_rfl
  | call _ callee args, u, hE, hU => by
      obtain ⟨name, more, rfl, hName, rfl, hMore⟩ := Token.exists_cons_of_lexemes hU
      have hItems : args ≠ [] → ∀ v : List Token, v.map Token.lexeme = argLexemes args →
          Separated IsExpr v (eraseAllSpans args) := fun hNe _ hV =>
        separated_isExpr_iff.2 (derivesList_of_lexemes hE.2 hNe hV)
      exact .call hName (parenthesized_isExpr_iff.1
        (parenthesized_of_lexemes rfl rfl hItems hMore))

/-- Tokens with the lexemes of arguments derive the arguments. -/
theorem derivesList_of_lexemes : ∀ {args : List Expr} {u : List Token},
    AllWritten .printable args → args ≠ [] → u.map Token.lexeme = argLexemes args →
      DerivesList u (eraseAllSpans args)
  | [], _, _, hNe, _ => absurd rfl hNe
  | [arg], u, hArgs, _, hU =>
      .one ((derives_of_lexemes hArgs.1 hU).anti le_rfl (by decide) le_rfl)
  | arg :: other :: others, u, hArgs, _, hU => by
      obtain ⟨first, more, rfl, hFirst, hMore⟩ := List.map_eq_append_iff.1 hU
      obtain ⟨comma, more, rfl, hComma, -, hMore⟩ := Token.exists_cons_of_lexemes hMore
      have hDerives := (derives_of_lexemes hArgs.1 hFirst).anti le_rfl (by decide) le_rfl
      exact .more hDerives hComma (derivesList_of_lexemes hArgs.2 (List.cons_ne_nil _ _) hMore)

end

/-- Tokens with the lexemes of an expression derive the expression. -/
theorem isExpr_of_lexemes {e : Expr} {u : List Token} (hE : e.Written .printable)
    (hU : u.map Token.lexeme = e.lexemes) : IsExpr u e.eraseSpans :=
  isExpr_iff.2 ((derives_of_lexemes hE hU).anti le_rfl (by decide) le_rfl)

theorem parenthesized_of_argLexemes {args : List Expr} {u : List Token}
    (hArgs : AllWritten .printable args)
    (hU : u.map Token.lexeme = (.lparen, "(") :: (argLexemes args ++ [(.rparen, ")")])) :
    Parenthesized IsExpr u (eraseAllSpans args) :=
  parenthesized_of_lexemes rfl rfl
    (fun hNe _ hV => separated_isExpr_iff.2 (derivesList_of_lexemes hArgs hNe hV)) hU

end Expr

namespace Declaration

/-- Tokens with the lexemes of a declaration derive the declaration. -/
theorem derives_of_lexemes {d : Declaration} {u : List Token} (hD : d.Written .printable)
    (hU : u.map Token.lexeme = d.lexemes) : DerivesDecl u d.eraseSpans := by
  obtain ⟨span, type, name, init⟩ := d
  cases init with
  | none =>
      obtain ⟨word, more, rfl, hType, rfl, hMore⟩ := Token.exists_cons_of_lexemes hU
      obtain ⟨ident, rfl, hName, rfl⟩ := Token.exists_of_lexemes hMore
      exact .bare hType hName
  | some e =>
      obtain ⟨word, more, rfl, hType, rfl, hMore⟩ := Token.exists_cons_of_lexemes hU
      obtain ⟨ident, others, rfl, hName, rfl, hOthers⟩ := Token.exists_cons_of_lexemes hMore
      obtain ⟨equals, value, rfl, hEquals, -, hValue⟩ := Token.exists_cons_of_lexemes hOthers
      exact .init hType hName hEquals (Expr.isExpr_of_lexemes (hD.init e rfl) hValue)

theorem separated_of_paramLexemes : ∀ {params : List Declaration} {u : List Token},
    (∀ d ∈ params, d.Written .printable) → params ≠ [] →
    u.map Token.lexeme = paramLexemes params → Separated DerivesDecl u (params.map eraseSpans)
  | [], _, _, hNe, _ => absurd rfl hNe
  | [param], u, hParams, _, hU => .one (derives_of_lexemes (hParams param (by simp)) hU)
  | param :: other :: others, u, hParams, _, hU => by
      obtain ⟨first, more, rfl, hFirst, hMore⟩ := List.map_eq_append_iff.1 hU
      obtain ⟨comma, more, rfl, hComma, -, hMore⟩ := Token.exists_cons_of_lexemes hMore
      rw [List.forall_mem_cons] at hParams
      exact .more (derives_of_lexemes hParams.1 hFirst) hComma
        (separated_of_paramLexemes hParams.2 (List.cons_ne_nil _ _) hMore)

/-- Tokens with the lexemes of parameters in parentheses derive the parameters. -/
theorem parenthesized_of_paramLexemes {params : List Declaration} {u : List Token}
    (hParams : ∀ d ∈ params, d.Written .printable)
    (hU : u.map Token.lexeme = (.lparen, "(") :: (paramLexemes params ++ [(.rparen, ")")])) :
    Parenthesized DerivesDecl u (params.map eraseSpans) :=
  parenthesized_of_lexemes List.map_nil rfl
    (fun hNe _ hV => separated_of_paramLexemes hParams hNe hV) hU

end Declaration

namespace Stmt

/-- Tokens with the lexemes of a condition derive the condition. -/
theorem derivesCondition_of_lexemes {cond : Expr} {u : List Token} (hCond : cond.Written .printable)
    (hU : u.map Token.lexeme = conditionLexemes cond) : DerivesCondition u cond.eraseSpans := by
  obtain ⟨opening, more, rfl, hOpening, -, hMore⟩ := Token.exists_cons_of_lexemes hU
  obtain ⟨inner, closing, rfl, hInner, hClosing⟩ := Token.exists_concat_of_lexemes hMore
  exact .parens hOpening hClosing (Expr.isExpr_of_lexemes hCond hInner)

/-- A block in braces, if without them it is what it should be. -/
theorem derivesBranch_of_braces {body : List Stmt} {u : List Token} {inner : List Lexeme}
    (hInner : ∀ v : List Token, v.map Token.lexeme = inner → DerivesAll v body)
    (hU : u.map Token.lexeme = braces inner) : DerivesBranch false u body := by
  obtain ⟨opening, more, rfl, hOpening, -, hMore⟩ := Token.exists_cons_of_lexemes hU
  obtain ⟨block, closing, rfl, hBlock, hClosing⟩ := Token.exists_concat_of_lexemes hMore
  exact .braces hOpening (hInner block hBlock) hClosing

/-- Tokens with the lexemes of an assignment or a call, and a semicolon, derive the statement. -/
theorem derives_of_actionLexemes {e : Expr} {u : List Token} (hE : e.ActionWritten .printable)
    (hU : u.map Token.lexeme = e.lexemes ++ [(.semicolon, ";")]) :
    DerivesStmt false u (.eval (.point 0) e.eraseSpans) := by
  obtain ⟨action, semicolon, rfl, hAction, hEnd⟩ := Token.exists_concat_of_lexemes hU
  cases e with
  | assign _ target value =>
      obtain ⟨name, more, rfl, hName, rfl, hMore⟩ := Token.exists_cons_of_lexemes hAction
      obtain ⟨equals, inner, rfl, hEquals, -, hInner⟩ := Token.exists_cons_of_lexemes hMore
      exact .assign hName hEquals (Expr.isExpr_of_lexemes hE.2 hInner) hEnd
  | call _ callee args =>
      obtain ⟨name, more, rfl, hName, rfl, hMore⟩ := Token.exists_cons_of_lexemes hAction
      exact .call hName (Expr.parenthesized_of_argLexemes hE.2 hMore) hEnd
  | _ => exact absurd hE id

mutual

/-- A printed statement is derived. Only a branch without a last block could take an `else`. -/
theorem exists_derives_of_lexemes : ∀ {s : Stmt} {u : List Token}, s.Written .printable →
    u.map Token.lexeme = s.lexemes → ∃ takes, DerivesStmt takes u s.eraseSpans
  | function _ type name params body, u, ⟨_, _, hParams, hBody⟩, hU => by
      obtain ⟨word, more, rfl, hType, rfl, hMore⟩ := Token.exists_cons_of_lexemes hU
      obtain ⟨ident, others, rfl, hName, rfl, hOthers⟩ := Token.exists_cons_of_lexemes hMore
      have hSplit : others.map Token.lexeme = ((.lparen, "(") ::
          (Declaration.paramLexemes params ++ [(.rparen, ")")])) ++ braces (allLexemes body) := by
        simpa using hOthers
      obtain ⟨head, block, rfl, hHead, hBlock⟩ := List.map_eq_append_iff.1 hSplit
      obtain ⟨opening, rest, rfl, hOpening, -, hRest⟩ := Token.exists_cons_of_lexemes hBlock
      obtain ⟨inner, closing, rfl, hInner, hClosing⟩ := Token.exists_concat_of_lexemes hRest
      exact ⟨false, .function hType hName (Declaration.parenthesized_of_paramLexemes hParams hHead)
        hOpening (derivesAll_of_lexemes hBody hInner) hClosing⟩
  | var decl, u, hS, hU => by
      obtain ⟨inner, semicolon, rfl, hInner, hEnd⟩ := Token.exists_concat_of_lexemes hU
      exact ⟨false, .var (Declaration.derives_of_lexemes hS hInner) hEnd⟩
  | branch _ conds blocks, u, ⟨hSome, hMatches, hConds, hBlocks⟩, hU => by
      obtain ⟨takes, hChain⟩ := exists_derivesChain_of_lexemes hSome hMatches hConds hBlocks hU
      exact ⟨takes, .branch hChain⟩
  | loop _ cond body, u, hS, hU => by
      obtain ⟨word, more, rfl, hWord, -, hMore⟩ := Token.exists_cons_of_lexemes hU
      obtain ⟨test, block, rfl, hTest, hBlock⟩ := List.map_eq_append_iff.1 hMore
      exact ⟨false, .loop hWord (derivesCondition_of_lexemes hS.1 hTest)
        (derivesBranch_of_braces (fun _ => derivesAll_of_lexemes hS.2) hBlock)⟩
  | ret _ value, u, hS, hU => by
      obtain ⟨word, more, rfl, hWord, -, hMore⟩ := Token.exists_cons_of_lexemes hU
      obtain ⟨inner, semicolon, rfl, hInner, hEnd⟩ := Token.exists_concat_of_lexemes hMore
      exact ⟨false, .ret hWord (Expr.isExpr_of_lexemes hS hInner) hEnd⟩
  | raw _ _, u, _, hU => by
      obtain ⟨word, more, rfl, hWord, -, hMore⟩ := Token.exists_cons_of_lexemes hU
      obtain ⟨text, others, rfl, hText, rfl, hOthers⟩ := Token.exists_cons_of_lexemes hMore
      obtain ⟨semicolon, rfl, hEnd, -⟩ := Token.exists_of_lexemes hOthers
      exact ⟨false, .raw hWord hText hEnd⟩
  | eval _ _, u, hS, hU => ⟨false, derives_of_actionLexemes hS hU⟩

/-- Tokens with the lexemes of statements derive the statements. -/
theorem derivesAll_of_lexemes : ∀ {ss : List Stmt} {u : List Token}, AllWritten .printable ss →
    u.map Token.lexeme = allLexemes ss → DerivesAll u (eraseAllSpans ss)
  | [], u, _, hU => by
      obtain rfl := List.map_eq_nil_iff.1 hU
      exact .nil
  | s :: ss, u, hSs, hU => by
      obtain ⟨first, more, rfl, hFirst, hMore⟩ := List.map_eq_append_iff.1 hU
      obtain ⟨takes, hDerives⟩ := exists_derives_of_lexemes hSs.1 hFirst
      exact .cons hDerives (derivesAll_of_lexemes hSs.2 hMore)

/-- Every block of a branch is in braces, and leaves an `else` to the branch. -/
theorem exists_derivesChain_of_lexemes : ∀ {conds : List Expr} {blocks : List (List Stmt)}
    {u : List Token}, conds ≠ [] → Matches conds blocks → Expr.AllWritten .printable conds →
    BlocksWritten .printable blocks → u.map Token.lexeme = chainLexemes [] conds blocks →
      ∃ takes, DerivesChain takes u (Expr.eraseAllSpans conds) (eraseBlockSpans blocks)
  | [], _, _, hSome, _, _, _, _ => absurd rfl hSome
  | cond :: conds, [], _, _, hMatches, _, _, _ => by simp [Matches] at hMatches
  | cond :: conds, block :: blocks, u, _, hMatches, hConds, hBlocks, hU => by
      obtain ⟨word, more, rfl, hWord, -, hMore⟩ := Token.exists_cons_of_lexemes hU
      obtain ⟨front, rest, rfl, hFront, hRest⟩ := List.map_eq_append_iff.1 hMore
      obtain ⟨test, first, rfl, hTest, hFirst⟩ := List.map_eq_append_iff.1 hFront
      have hCond := derivesCondition_of_lexemes hConds.1 hTest
      have hBlock := derivesBranch_of_braces (fun _ => derivesAll_of_lexemes hBlocks.1) hFirst
      rw [List.append_assoc]
      match conds, blocks with
      | [], [] =>
          obtain rfl := List.map_eq_nil_iff.1 hRest
          rw [List.append_nil]
          exact ⟨true, .last hWord hCond hBlock⟩
      | [], [last] =>
          obtain ⟨orElse, inner, rfl, hElse, -, hInner⟩ := Token.exists_cons_of_lexemes hRest
          have hLast :=
            derivesBranch_of_braces (fun _ => derivesAll_of_lexemes hBlocks.2.1) hInner
          obtain ⟨opening, others, rfl, hOpening, -⟩ := Token.exists_cons_of_lexemes hInner
          exact ⟨false, .orElse hWord hCond hBlock hElse (by simp [hOpening]) hLast⟩
      | [], _ :: _ :: _ => simp [Matches] at hMatches
      | _ :: _, [] => simp [Matches] at hMatches
      | next :: conds, other :: blocks =>
          obtain ⟨orElse, inner, rfl, hElse, -, hInner⟩ := Token.exists_cons_of_lexemes hRest
          obtain ⟨takes, hChain⟩ := exists_derivesChain_of_lexemes (List.cons_ne_nil _ _)
            (matches_cons.1 hMatches) hConds.2 hBlocks.2 hInner
          exact ⟨takes, .more hWord hCond hBlock hElse hChain⟩

end

end Stmt

end WasmCompiler
