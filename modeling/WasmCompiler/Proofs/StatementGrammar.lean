import WasmCompiler.Proofs.ExpressionGrammar

/-! The grammar of declarations and statements. A statement comes with a flag that says whether an
`else` after it would belong to an `if` in it; with the flag the grammar leaves no choice where an
`else` goes. Declarations are read as the grammar derives them. -/

namespace WasmCompiler

namespace Grammar

/-- Tokens that are read as an expression, all of them. -/
def IsExpr (u : List Token) (e : Expr) : Prop :=
  ∃ r, Expr.parse 0 (Cursor.ofTokens u) = .ok r ∧ r.rest.ahead = [] ∧ r.value.eraseSpans = e

/-- One or more items with commas between them. -/
inductive Separated {α : Type} (Item : List Token → α → Prop) : List Token → List α → Prop where
  | one {u : List Token} {a : α} (h : Item u a) : Separated Item u [a]
  | more {u v : List Token} {comma : Token} {a : α} {as : List α} (h : Item u a)
      (hComma : comma.kind = .comma) (hs : Separated Item v as) :
      Separated Item (u ++ comma :: v) (a :: as)

/-- Any number of items with commas between them, and the parentheses around them. -/
inductive Parenthesized {α : Type} (Item : List Token → α → Prop) :
    List Token → List α → Prop where
  | none {opening closing : Token} (hOpening : opening.kind = .lparen)
      (hClosing : closing.kind = .rparen) : Parenthesized Item [opening, closing] []
  | some {opening closing : Token} {u : List Token} {as : List α}
      (hOpening : opening.kind = .lparen) (hClosing : closing.kind = .rparen)
      (h : Separated Item u as) : Parenthesized Item (opening :: (u ++ [closing])) as

/-- A type, a name and, after `=`, an initial value. -/
inductive DerivesDecl : List Token → Declaration → Prop where
  | bare {type name : Token} (hType : type.kind = .type) (hName : name.kind = .ident) :
      DerivesDecl [type, name] ⟨.point 0, type.text, name.text, none⟩
  | init {type name equals : Token} {u : List Token} {e : Expr} (hType : type.kind = .type)
      (hName : name.kind = .ident) (hEquals : equals.kind = .assign) (h : IsExpr u e) :
      DerivesDecl (type :: name :: equals :: u) ⟨.point 0, type.text, name.text, some e⟩

/-- A condition with the parentheses around it. -/
inductive DerivesCondition : List Token → Expr → Prop where
  | parens {opening closing : Token} {u : List Token} {e : Expr}
      (hOpening : opening.kind = .lparen) (hClosing : closing.kind = .rparen) (h : IsExpr u e) :
      DerivesCondition (opening :: (u ++ [closing])) e

mutual

/-- Tokens that are a statement. The flag says whether an `else` after them would belong to an `if`
in them. -/
inductive DerivesStmt : Bool → List Token → Stmt → Prop where
  | loop {word : Token} {u v : List Token} {takes : Bool} {cond : Expr} {body : List Stmt}
      (hWord : word.kind = .kwWhile) (hCond : DerivesCondition u cond)
      (hBody : DerivesBranch takes v body) :
      DerivesStmt takes (word :: (u ++ v)) (.loop (.point 0) cond body)
  | branch {u : List Token} {takes : Bool} {conds : List Expr} {blocks : List (List Stmt)}
      (h : DerivesChain takes u conds blocks) :
      DerivesStmt takes u (.branch (.point 0) conds blocks)
  | raw {word text semicolon : Token} (hWord : word.kind = .kwWasm) (hText : text.kind = .str)
      (hEnd : semicolon.kind = .semicolon) :
      DerivesStmt false [word, text, semicolon] (.raw (.point 0) text.text)
  | ret {word semicolon : Token} {u : List Token} {e : Expr} (hWord : word.kind = .kwReturn)
      (h : IsExpr u e) (hEnd : semicolon.kind = .semicolon) :
      DerivesStmt false (word :: (u ++ [semicolon])) (.ret (.point 0) e)
  | assign {name equals semicolon : Token} {u : List Token} {e : Expr}
      (hName : name.kind = .ident) (hEquals : equals.kind = .assign) (h : IsExpr u e)
      (hEnd : semicolon.kind = .semicolon) :
      DerivesStmt false (name :: equals :: (u ++ [semicolon]))
        (.eval (.point 0) (.assign (.point 0) name.text e))
  | call {name semicolon : Token} {u : List Token} {es : List Expr} (hName : name.kind = .ident)
      (h : Parenthesized IsExpr u es) (hEnd : semicolon.kind = .semicolon) :
      DerivesStmt false (name :: (u ++ [semicolon]))
        (.eval (.point 0) (.call (.point 0) name.text es))
  | var {semicolon : Token} {u : List Token} {d : Declaration} (h : DerivesDecl u d)
      (hEnd : semicolon.kind = .semicolon) : DerivesStmt false (u ++ [semicolon]) (.var d)
  | function {type name opening closing : Token} {u v : List Token} {params : List Declaration}
      {body : List Stmt} (hType : type.kind = .type) (hName : name.kind = .ident)
      (hParams : Parenthesized DerivesDecl u params) (hOpening : opening.kind = .lbrace)
      (hBody : DerivesAll v body) (hClosing : closing.kind = .rbrace) :
      DerivesStmt false (type :: name :: (u ++ opening :: (v ++ [closing])))
        (.function (.point 0) type.text name.text params body)

/-- An `if` with all that goes on with it. An `else` never follows a block in which another `if`
could take it, and one with an `if` after it goes on with the same chain. -/
inductive DerivesChain : Bool → List Token → List Expr → List (List Stmt) → Prop where
  | last {word : Token} {u v : List Token} {takes : Bool} {cond : Expr} {block : List Stmt}
      (hWord : word.kind = .kwIf) (hCond : DerivesCondition u cond)
      (hBlock : DerivesBranch takes v block) :
      DerivesChain true (word :: (u ++ v)) [cond] [block]
  | orElse {word orElse : Token} {u v w : List Token} {takes : Bool} {cond : Expr}
      {yes no : List Stmt} (hWord : word.kind = .kwIf) (hCond : DerivesCondition u cond)
      (hYes : DerivesBranch false v yes) (hElse : orElse.kind = .kwElse)
      (hIf : ∀ t ∈ w.head?, t.kind ≠ .kwIf) (hNo : DerivesBranch takes w no) :
      DerivesChain takes (word :: (u ++ (v ++ orElse :: w))) [cond] [yes, no]
  | more {word orElse : Token} {u v w : List Token} {takes : Bool} {cond : Expr}
      {conds : List Expr} {block : List Stmt} {blocks : List (List Stmt)}
      (hWord : word.kind = .kwIf) (hCond : DerivesCondition u cond)
      (hBlock : DerivesBranch false v block) (hElse : orElse.kind = .kwElse)
      (hMore : DerivesChain takes w conds blocks) :
      DerivesChain takes (word :: (u ++ (v ++ orElse :: w))) (cond :: conds) (block :: blocks)

/-- Statements in braces, or one statement. -/
inductive DerivesBranch : Bool → List Token → List Stmt → Prop where
  | braces {opening closing : Token} {u : List Token} {ss : List Stmt}
      (hOpening : opening.kind = .lbrace) (h : DerivesAll u ss)
      (hClosing : closing.kind = .rbrace) :
      DerivesBranch false (opening :: (u ++ [closing])) ss
  | bare {u : List Token} {takes : Bool} {s : Stmt} (h : DerivesStmt takes u s) :
      DerivesBranch takes u [s]

/-- Statements one after the other. -/
inductive DerivesAll : List Token → List Stmt → Prop where
  | nil : DerivesAll [] []
  | cons {u v : List Token} {takes : Bool} {s : Stmt} {ss : List Stmt}
      (h : DerivesStmt takes u s) (hs : DerivesAll v ss) : DerivesAll (u ++ v) (s :: ss)

end

/-- What is read as an expression is what the grammar in layers derives. -/
theorem isExpr_iff {u : List Token} {e : Expr} : IsExpr u e ↔ Derives 1 u e := by
  constructor
  · rintro ⟨r, hParse, hEnd, rfl⟩
    obtain ⟨v, hMoves, hDerives, -⟩ := Expr.derives_of_parse hParse
    have hAhead : u = v := by
      have h := hMoves.ahead
      rwa [hEnd, List.append_nil] at h
    subst hAhead
    exact hDerives
  · intro h
    have hMoves : (Cursor.ofTokens u).Moves u ⟨u.reverse, [], (Cursor.ofTokens u).finish⟩ :=
      ⟨(List.append_nil u).symm, (List.append_nil _).symm, rfl⟩
    have hStops : (Cursor.mk u.reverse [] (Cursor.ofTokens u).finish).Stops 0 :=
      fun t hT => nomatch hT
    obtain ⟨r, hParse, hErase, hEnd⟩ := (Expr.isRead_of_derives h hMoves
      (fun l hL => nomatch hL)).exists_parse (.inl one_pos) hStops
    exact ⟨r, hParse, by rw [hEnd], hErase⟩

/-- Expressions with commas between them are a row of arguments. -/
theorem separated_isExpr_iff {u : List Token} {es : List Expr} :
    Separated IsExpr u es ↔ DerivesList u es := by
  constructor
  · intro h
    induction h with
    | one h => exact .one (isExpr_iff.1 h)
    | more h hComma _ ih => exact .more (isExpr_iff.1 h) hComma ih
  · intro h
    induction es generalizing u with
    | nil => cases h
    | cons e es ih =>
        cases h with
        | one h => exact .one (isExpr_iff.2 h)
        | more h hComma hs => exact .more (isExpr_iff.2 h) hComma (ih hs)

theorem parenthesized_isExpr_iff {u : List Token} {es : List Expr} :
    Parenthesized IsExpr u es ↔ DerivesArgs u es := by
  constructor
  · rintro (⟨hOpening, hClosing⟩ | ⟨hOpening, hClosing, h⟩)
    · exact .none hOpening hClosing
    · exact .some hOpening hClosing (separated_isExpr_iff.1 h)
  · rintro (⟨hOpening, hClosing⟩ | ⟨hOpening, hClosing, h⟩)
    · exact .none hOpening hClosing
    · exact .some hOpening hClosing (separated_isExpr_iff.2 h)

/-- A declaration starts with a type and a name, and no parenthesis follows as for a function. -/
theorem DerivesDecl.head {u : List Token} {d : Declaration} (h : DerivesDecl u d) :
    ∃ type name v, u = type :: name :: v ∧ type.kind = .type ∧ name.kind = .ident ∧
      ∀ t ∈ v.head?, t.kind ≠ .lparen := by
  cases h with
  | bare hType hName => exact ⟨_, _, _, rfl, hType, hName, nofun⟩
  | init hType hName hEquals _ => exact ⟨_, _, _, rfl, hType, hName, by simp [hEquals]⟩

theorem Separated.head {u : List Token} {ds : List Declaration} (h : Separated DerivesDecl u ds) :
    ∃ t v, u = t :: v ∧ t.kind = .type := by
  cases h with
  | one h | more h _ _ =>
      obtain ⟨type, name, v, rfl, hType, -⟩ := h.head
      exact ⟨type, _, rfl, hType⟩

theorem Parenthesized.head {α : Type} {Item : List Token → α → Prop} {u : List Token}
    {as : List α} (h : Parenthesized Item u as) : ∃ t v, u = t :: v ∧ t.kind = .lparen := by
  cases h with
  | none hOpening _ => exact ⟨_, _, rfl, hOpening⟩
  | some hOpening _ _ => exact ⟨_, _, rfl, hOpening⟩

/-- The kinds of token that a statement starts with. -/
def stmtHeads : List Token.Kind := [.kwWhile, .kwIf, .kwWasm, .kwReturn, .ident, .type]

/-- A chain of branches starts with its keyword. -/
theorem DerivesChain.head {takes : Bool} {u : List Token} {conds : List Expr}
    {blocks : List (List Stmt)} (h : DerivesChain takes u conds blocks) :
    ∃ t v, u = t :: v ∧ t.kind = .kwIf := by
  cases h with
  | last hWord _ _ => exact ⟨_, _, rfl, hWord⟩
  | orElse hWord _ _ _ _ _ => exact ⟨_, _, rfl, hWord⟩
  | more hWord _ _ _ _ => exact ⟨_, _, rfl, hWord⟩

/-- A statement starts with one of the tokens that a statement can start with. -/
theorem DerivesStmt.head {takes : Bool} {u : List Token} {s : Stmt} (h : DerivesStmt takes u s) :
    ∃ t v, u = t :: v ∧ t.kind ∈ stmtHeads := by
  cases h with
  | loop hWord _ _ => exact ⟨_, _, rfl, by simp [hWord, stmtHeads]⟩
  | branch h =>
      obtain ⟨t, v, rfl, hWord⟩ := h.head
      exact ⟨t, v, rfl, by simp [hWord, stmtHeads]⟩
  | raw hWord _ _ => exact ⟨_, _, rfl, by simp [hWord, stmtHeads]⟩
  | ret hWord _ _ => exact ⟨_, _, rfl, by simp [hWord, stmtHeads]⟩
  | assign hName _ _ _ => exact ⟨_, _, rfl, by simp [hName, stmtHeads]⟩
  | call hName _ _ => exact ⟨_, _, rfl, by simp [hName, stmtHeads]⟩
  | var h _ =>
      obtain ⟨type, name, v, rfl, hType, -⟩ := h.head
      exact ⟨type, _, rfl, by simp [hType, stmtHeads]⟩
  | function hType _ _ _ _ _ => exact ⟨_, _, rfl, by simp [hType, stmtHeads]⟩

theorem DerivesBranch.head {takes : Bool} {u : List Token} {ss : List Stmt}
    (h : DerivesBranch takes u ss) : ∃ t v, u = t :: v := by
  cases h with
  | braces _ _ _ => exact ⟨_, _, rfl⟩
  | bare h =>
      obtain ⟨t, v, rfl, -⟩ := h.head
      exact ⟨t, v, rfl⟩

section Written

variable {voc : Vocabulary} {u : List Token}

theorem IsExpr.written {e : Expr} (h : IsExpr u e) (hU : ∀ t ∈ u, voc.Covers t) :
    e.Written voc := (isExpr_iff.1 h).written hU

/-- A declaration is written in the words of its tokens. -/
theorem DerivesDecl.written {d : Declaration} (h : DerivesDecl u d)
    (hU : ∀ t ∈ u, voc.Covers t) : d.Written voc := by
  cases h with
  | bare hType hName =>
      rw [List.forall_mem_cons, List.forall_mem_singleton] at hU
      exact ⟨hU.1.spells hType, hU.2.spells hName, nofun⟩
  | init hType hName _ h =>
      rw [List.forall_mem_cons, List.forall_mem_cons, List.forall_mem_cons] at hU
      refine ⟨hU.1.spells hType, hU.2.1.spells hName, fun e hE => ?_⟩
      cases hE
      exact h.written hU.2.2.2

/-- So are parameters. -/
theorem Parenthesized.written {ds : List Declaration} (h : Parenthesized DerivesDecl u ds)
    (hU : ∀ t ∈ u, voc.Covers t) : ∀ d ∈ ds, d.Written voc := by
  cases h with
  | none => exact nofun
  | some _ _ h =>
      rw [List.forall_mem_cons, List.forall_mem_append] at hU
      replace hU := hU.2.1
      induction h with
      | one h => exact List.forall_mem_singleton.2 (h.written hU)
      | more h _ _ ih =>
          rw [List.forall_mem_append, List.forall_mem_cons] at hU
          exact List.forall_mem_cons.2 ⟨h.written hU.1, ih hU.2.2⟩

theorem DerivesCondition.written {e : Expr} (h : DerivesCondition u e)
    (hU : ∀ t ∈ u, voc.Covers t) : e.Written voc := by
  cases h with
  | parens _ _ h =>
      rw [List.forall_mem_cons, List.forall_mem_append] at hU
      exact h.written hU.2.1

mutual

/-- What is derived is written in the words of its tokens. -/
theorem DerivesStmt.written {takes : Bool} {u : List Token} {s : Stmt} :
    DerivesStmt takes u s → (∀ t ∈ u, voc.Covers t) → s.Written voc
  | .loop _ hCond hBody, hU => by
      rw [List.forall_mem_cons, List.forall_mem_append] at hU
      exact ⟨hCond.written hU.2.1, hBody.written hU.2.2⟩
  | .branch h, hU => h.written hU
  | .raw _ hText _, hU => by
      rw [List.forall_mem_cons, List.forall_mem_cons] at hU
      exact hU.2.1.spells hText
  | .ret _ h _, hU => by
      rw [List.forall_mem_cons, List.forall_mem_append] at hU
      exact h.written hU.2.1
  | .assign hName _ h _, hU => by
      rw [List.forall_mem_cons, List.forall_mem_cons, List.forall_mem_append] at hU
      exact ⟨hU.1.spells hName, h.written hU.2.2.1⟩
  | .call hName h _, hU => by
      rw [List.forall_mem_cons, List.forall_mem_append] at hU
      exact ⟨hU.1.spells hName, (parenthesized_isExpr_iff.1 h).written hU.2.1⟩
  | .var h _, hU => h.written (List.forall_mem_append.1 hU).1
  | .function hType hName hParams _ hBody _, hU => by
      rw [List.forall_mem_cons, List.forall_mem_cons, List.forall_mem_append,
        List.forall_mem_cons, List.forall_mem_append] at hU
      exact ⟨hU.1.spells hType, hU.2.1.spells hName, hParams.written hU.2.2.1,
        hBody.written hU.2.2.2.2.1⟩

/-- A branch has a condition, and a block for each of its conditions or one more. -/
theorem DerivesChain.written {takes : Bool} {u : List Token} {conds : List Expr}
    {blocks : List (List Stmt)} :
    DerivesChain takes u conds blocks → (∀ t ∈ u, voc.Covers t) →
      conds ≠ [] ∧ Stmt.Matches conds blocks ∧ Expr.AllWritten voc conds ∧
        Stmt.BlocksWritten voc blocks
  | .last _ hCond hBlock, hU => by
      rw [List.forall_mem_cons, List.forall_mem_append] at hU
      exact ⟨List.cons_ne_nil _ _, .inl rfl, ⟨hCond.written hU.2.1, trivial⟩,
        ⟨hBlock.written hU.2.2, trivial⟩⟩
  | .orElse _ hCond hYes _ _ hNo, hU => by
      rw [List.forall_mem_cons, List.forall_mem_append, List.forall_mem_append,
        List.forall_mem_cons] at hU
      exact ⟨List.cons_ne_nil _ _, .inr rfl, ⟨hCond.written hU.2.1, trivial⟩,
        ⟨hYes.written hU.2.2.1, hNo.written hU.2.2.2.2, trivial⟩⟩
  | .more _ hCond hBlock _ hMore, hU => by
      rw [List.forall_mem_cons, List.forall_mem_append, List.forall_mem_append,
        List.forall_mem_cons] at hU
      obtain ⟨-, hCount, hConds, hBlocks⟩ := hMore.written hU.2.2.2.2
      exact ⟨List.cons_ne_nil _ _, Stmt.matches_cons.2 hCount, ⟨hCond.written hU.2.1, hConds⟩,
        ⟨hBlock.written hU.2.2.1, hBlocks⟩⟩

/-- So are the statements of a branch. -/
theorem DerivesBranch.written {takes : Bool} {u : List Token} {ss : List Stmt} :
    DerivesBranch takes u ss → (∀ t ∈ u, voc.Covers t) → Stmt.AllWritten voc ss
  | .braces _ h _, hU => by
      rw [List.forall_mem_cons, List.forall_mem_append] at hU
      exact h.written hU.2.1
  | .bare h, hU => ⟨h.written hU, trivial⟩

theorem DerivesAll.written {u : List Token} {ss : List Stmt} :
    DerivesAll u ss → (∀ t ∈ u, voc.Covers t) → Stmt.AllWritten voc ss
  | .nil, _ => trivial
  | .cons h hs, hU => by
      rw [List.forall_mem_append] at hU
      exact ⟨h.written hU.1, hs.written hU.2⟩

end

end Written

end Grammar

namespace Cursor

variable {c d : Cursor} {k : Token.Kind} {hK : k ≠ .eof} {t : Token} {u v : List Token}

/-- A token that is required is read, and it is of its kind. -/
theorem moves_of_require {r : Parsed Token c.size} (h : c.require k hK = .ok r) :
    c.Moves [r.value] r.rest ∧ r.value.kind = k :=
  ⟨moves_of_step? (require_eq_ok.1 h).1, (require_eq_ok.1 h).2⟩

theorem moves_of_accept? {r : Parsed Token c.size} (h : c.accept? k hK = some r) :
    c.Moves [r.value] r.rest ∧ r.value.kind = k :=
  ⟨moves_of_step? (accept?_eq_some.1 h).1, (accept?_eq_some.1 h).2⟩

/-- Where a token is not accepted, its kind is not next. -/
theorem avoids_of_accept? (h : c.accept? k hK = none) : Lexeme.Avoids k c.lexemes := by
  intro l hL hKind
  cases hAhead : c.ahead with
  | nil => simp [lexemes, hAhead] at hL
  | cons t rest =>
      have hLexeme : t.lexeme = l := by simpa [lexemes, hAhead] using hL
      have hPeek : c.peek.kind = k := by
        rw [← hKind, ← hLexeme]
        simp [peek, peekAt, hAhead, Token.lexeme]
      simp [accept?, hPeek] at h

/-- A token that is next is read where its kind is required. -/
theorem Moves.require (h : c.Moves (t :: u) d) (hKind : t.kind = k) (hK : k ≠ .eof) :
    ∃ r, c.require k hK = .ok r ∧ r.value = t ∧ r.rest.Moves u d := by
  obtain ⟨r, hStep, rfl, hRest⟩ := h.cons
  exact ⟨r, require_eq_ok.2 ⟨hStep, hKind⟩, rfl, hRest⟩

/-- A token that is next is accepted as its kind. -/
theorem Moves.accept? (h : c.Moves (t :: u) d) (hKind : t.kind = k) (hK : k ≠ .eof) :
    ∃ r, c.accept? k hK = some r ∧ r.value = t ∧ r.rest.Moves u d := by
  obtain ⟨r, hStep, rfl, hRest⟩ := h.cons
  exact ⟨r, accept?_eq_some.2 ⟨hStep, hKind⟩, rfl, hRest⟩

theorem Moves.eq_nil (h : c.Moves [] d) : c = d := (Moves.refl c).eq h

/-- There is one row of tokens between two places. -/
theorem Moves.tokens_eq (h : c.Moves u d) (h' : c.Moves v d) : u = v :=
  List.append_cancel_right (h.ahead.symm.trans h'.ahead)

theorem Moves.peek (h : c.Moves (t :: u) d) : c.peek = t := by
  simp [Cursor.peek, peekAt, h.ahead]

/-- At a token that closes an expression, an expression can end. -/
theorem Moves.closes (h : c.Moves (t :: u) d) (hT : t.kind ∈ [.rparen, .comma, .semicolon]) :
    Lexeme.Closes c.lexemes :=
  ⟨t.lexeme, by simp [lexemes, h.ahead], hT⟩

/-- Where an expression can end, no operator goes on. -/
theorem stops_of_closes (h : Lexeme.Closes c.lexemes) : c.Stops 0 := by
  have hKinds : ∀ kind ∈ [Token.Kind.rparen, .comma, .semicolon], BinaryOp.ofKind? kind = none := by
    decide
  obtain ⟨l, hL, hMem⟩ := h
  intro t hT op hOp
  have hKind : t.lexeme = l := by
    rw [lexemes, List.head?_map, hT] at hL
    exact Option.some.inj hL
  rw [← hKind] at hMem
  cases (hKinds t.kind hMem).symm.trans hOp

end Cursor

namespace Expr

open Grammar

/-- An expression that is parsed is one of the grammar. -/
theorem isExpr_of_parse {c : Cursor} {r : Parsed Expr c.size} (h : parse 0 c = .ok r) :
    ∃ u, c.Moves u r.rest ∧ IsExpr u r.value.eraseSpans := by
  obtain ⟨u, hMoves, hDerives, -⟩ := derives_of_parse h
  exact ⟨u, hMoves, isExpr_iff.2 hDerives⟩

/-- An expression is read up to the mark after it. -/
theorem exists_parse_of_isExpr {c d : Cursor} {u : List Token} {e : Expr} (h : IsExpr u e)
    (hMoves : c.Moves u d) (hClose : Lexeme.Closes d.lexemes) :
    ∃ r, parse 0 c = .ok r ∧ Leads e d r :=
  (isRead_of_derives (isExpr_iff.1 h) hMoves (hClose.avoids (by decide))).exists_parse
    (.inl one_pos) (Cursor.stops_of_closes hClose)

end Expr

namespace Declaration

open Grammar

/-- A declaration that is parsed is one of the grammar. -/
theorem derives_of_parse {c : Cursor} {r : Parsed Declaration c.size} (h : parse c = .ok r) :
    ∃ u, c.Moves u r.rest ∧ DerivesDecl u r.value.eraseSpans := by
  simp only [parse, bind_eq_ok] at h
  obtain ⟨type, hType, h⟩ := h
  obtain ⟨hFirst, hIsType⟩ := Cursor.moves_of_require hType
  by_cases hBracket : type.rest.peek.kind = .lbracket
  · rw [if_pos hBracket] at h
    cases h
  · rw [if_neg hBracket] at h
    obtain ⟨name, hName, h⟩ := bind_eq_ok.1 h
    obtain ⟨hSecond, hIsName⟩ := Cursor.moves_of_require hName
    cases hEquals : name.rest.accept? .assign with
    | some equals =>
        obtain ⟨hThird, hIsEquals⟩ := Cursor.moves_of_accept? hEquals
        simp only [hEquals, bind_eq_ok, pure_eq_ok] at h
        obtain ⟨init, hInit, rfl⟩ := h
        obtain ⟨u, hMoves, hExpr⟩ := Expr.isExpr_of_parse hInit
        exact ⟨_, hFirst.trans (hSecond.trans (hThird.trans hMoves)),
          .init hIsType hIsName hIsEquals hExpr⟩
    | none =>
        rw [hEquals] at h
        cases h
        exact ⟨_, hFirst.trans hSecond, .bare hIsType hIsName⟩

/-- Parameters that are parsed, up to the parenthesis that closes them, are a row of declarations.
-/
theorem derives_of_parseList {c : Cursor} {r : Parsed (List Declaration) c.size}
    (h : parseList c = .ok r) :
    ∃ u closing, c.Moves (u ++ [closing]) r.rest ∧ closing.kind = .rparen ∧
      Separated DerivesDecl u (r.value.map eraseSpans) := by
  rw [parseList] at h
  obtain ⟨first, hFirst, h⟩ := bind_eq_ok.1 h
  obtain ⟨u, hMoves, hDerives⟩ := derives_of_parse hFirst
  cases hComma : first.rest.accept? .comma with
  | some comma =>
      obtain ⟨hNext, hIsComma⟩ := Cursor.moves_of_accept? hComma
      simp only [hComma, bind_eq_ok, pure_eq_ok] at h
      obtain ⟨others, hOthers, rfl⟩ := h
      have hLess := (first.before comma).size_lt
      obtain ⟨v, closing, hMoves', hIsClosing, hDerives'⟩ := derives_of_parseList hOthers
      refine ⟨u ++ comma.value :: v, closing, ?_, hIsClosing, .more hDerives hIsComma hDerives'⟩
      rw [List.append_assoc]
      exact hMoves.trans (hNext.trans hMoves')
  | none =>
      simp only [hComma, bind_eq_ok, pure_eq_ok] at h
      obtain ⟨closing, hClosing, rfl⟩ := h
      obtain ⟨hNext, hIsClosing⟩ := Cursor.moves_of_require hClosing
      exact ⟨u, closing.value, hMoves.trans hNext, hIsClosing, .one hDerives⟩
termination_by c.size
decreasing_by exact hLess

/-- Parameters that are parsed are parameters of the grammar. -/
theorem derives_of_parseParams {c : Cursor} {r : Parsed (List Declaration) c.size}
    (h : parseParams c = .ok r) :
    ∃ u, c.Moves u r.rest ∧ Parenthesized DerivesDecl u (r.value.map eraseSpans) := by
  rw [parseParams] at h
  obtain ⟨opening, hOpening, h⟩ := bind_eq_ok.1 h
  obtain ⟨hFirst, hIsOpening⟩ := Cursor.moves_of_require hOpening
  cases hAccept : opening.rest.accept? .rparen with
  | some closing =>
      obtain ⟨hNext, hIsClosing⟩ := Cursor.moves_of_accept? hAccept
      rw [hAccept] at h
      cases h
      exact ⟨_, hFirst.trans hNext, .none hIsOpening hIsClosing⟩
  | none =>
      simp only [hAccept, bind_eq_ok, pure_eq_ok] at h
      obtain ⟨params, hParams, rfl⟩ := h
      obtain ⟨u, closing, hMoves, hIsClosing, hDerives⟩ := derives_of_parseList hParams
      exact ⟨_, hFirst.trans hMoves, .some hIsOpening hIsClosing hDerives⟩

/-- A declaration is read up to the mark after it. -/
theorem exists_parse_of_derives {c e : Cursor} {u : List Token} {d : Declaration}
    (h : DerivesDecl u d) (hMoves : c.Moves u e) (hClose : Lexeme.Closes e.lexemes) :
    ∃ r, parse c = .ok r ∧ r.value.eraseSpans = d ∧ r.rest = e := by
  obtain ⟨typeWord, nameWord, v, rfl, hType, hName, -⟩ := h.head
  obtain ⟨type, hFirst, rfl, hAfterType⟩ := hMoves.require hType (by decide)
  obtain ⟨name, hSecond, rfl, hAfterName⟩ := hAfterType.require hName (by decide)
  have hArray : ¬ type.rest.peek.kind = .lbracket := by
    rw [hAfterType.peek, hName]
    decide
  cases h with
  | bare _ _ =>
      have hRest := hAfterName.eq_nil
      have hNone : name.rest.accept? .assign (by decide) = none :=
        Cursor.accept?_eq_none (hRest ▸ hClose.avoids (by decide))
      refine ⟨type.before (name.give ⟨⟨type.value.span.start, name.rest.lastStop⟩,
        type.value.text, name.value.text, none⟩), ?_, rfl, hRest⟩
      rw [parse]
      refine bind_eq_ok.2 ⟨type, hFirst, ?_⟩
      rw [if_neg hArray]
      refine bind_eq_ok.2 ⟨name, hSecond, ?_⟩
      rw [hNone]
      rfl
  | init _ _ hEquals hExpr =>
      obtain ⟨equals, hThird, rfl, hValue⟩ := hAfterName.accept? hEquals (by decide)
      obtain ⟨init, hInit, hErase, hRest⟩ := Expr.exists_parse_of_isExpr hExpr hValue hClose
      refine ⟨type.before (name.before (equals.before (init.give
        ⟨⟨type.value.span.start, init.rest.lastStop⟩, type.value.text, name.value.text,
          some init.value⟩))), ?_, ?_, hRest⟩
      · rw [parse]
        refine bind_eq_ok.2 ⟨type, hFirst, ?_⟩
        rw [if_neg hArray]
        refine bind_eq_ok.2 ⟨name, hSecond, ?_⟩
        rw [hThird]
        exact bind_eq_ok.2 ⟨init, hInit, rfl⟩
      · simp only [Parsed.before, Parsed.give, eraseSpans, Option.map_some, hErase]

/-- A row of declarations is parsed as parameters, up to the parenthesis that closes them. -/
theorem exists_parseList_of_derives {u : List Token} {ds : List Declaration} {closing : Token}
    {c d : Cursor} (h : Separated DerivesDecl u ds) (hMoves : c.Moves (u ++ [closing]) d)
    (hClosing : closing.kind = .rparen) :
    ∃ r, parseList c = .ok r ∧ r.value.map eraseSpans = ds ∧ r.rest = d := by
  induction h generalizing c with
  | one h =>
      obtain ⟨mid, hFirst, hMid⟩ := hMoves.split
      obtain ⟨first, hParse, hErase, rfl⟩ :=
        exists_parse_of_derives h hFirst (hMid.closes (by simp [hClosing]))
      have hNone : first.rest.accept? .comma (by decide) = none :=
        Cursor.accept?_eq_none (hMid.avoids (by simp [hClosing]))
      obtain ⟨last, hLast, rfl, hRest⟩ := hMid.require hClosing (by decide)
      refine ⟨first.before (last.give [first.value]), ?_, ?_, hRest.eq_nil⟩
      · rw [parseList]
        refine bind_eq_ok.2 ⟨first, hParse, ?_⟩
        rw [hNone]
        exact bind_eq_ok.2 ⟨last, hLast, rfl⟩
      · simp only [Parsed.before, Parsed.give, List.map_cons, List.map_nil, hErase]
  | more h hComma _ ih =>
      rw [List.append_assoc] at hMoves
      obtain ⟨mid, hFirst, hMid⟩ := hMoves.split
      obtain ⟨first, hParse, hErase, rfl⟩ :=
        exists_parse_of_derives h hFirst (hMid.closes (by simp [hComma]))
      obtain ⟨comma, hAccept, rfl, hOthers⟩ := hMid.accept? hComma (by decide)
      obtain ⟨others, hList, hErase', hRest⟩ := ih hOthers
      refine ⟨first.before (comma.before (others.give (first.value :: others.value))), ?_, ?_,
        hRest⟩
      · rw [parseList]
        refine bind_eq_ok.2 ⟨first, hParse, ?_⟩
        rw [hAccept]
        exact bind_eq_ok.2 ⟨others, hList, rfl⟩
      · simp only [Parsed.before, Parsed.give, List.map_cons, hErase, hErase']

/-- Parameters of the grammar are parsed. -/
theorem exists_parseParams_of_derives {u : List Token} {ds : List Declaration} {c d : Cursor}
    (h : Parenthesized DerivesDecl u ds) (hMoves : c.Moves u d) :
    ∃ r, parseParams c = .ok r ∧ r.value.map eraseSpans = ds ∧ r.rest = d := by
  cases h with
  | none hOpening hClosing =>
      obtain ⟨opening, hFirst, rfl, hAfter⟩ := hMoves.require hOpening (by decide)
      obtain ⟨closing, hSecond, rfl, hRest⟩ := hAfter.accept? hClosing (by decide)
      refine ⟨opening.before (closing.give []), ?_, rfl, hRest.eq_nil⟩
      rw [parseParams]
      refine bind_eq_ok.2 ⟨opening, hFirst, ?_⟩
      rw [hSecond]
      rfl
  | some hOpening hClosing h =>
      obtain ⟨opening, hFirst, rfl, hAfter⟩ := hMoves.require hOpening (by decide)
      obtain ⟨params, hParams, hErase, hRest⟩ := exists_parseList_of_derives h hAfter hClosing
      have hNone : opening.rest.accept? .rparen (by decide) = none := by
        obtain ⟨type, more, rfl, hType⟩ := h.head
        exact Cursor.accept?_eq_none (hAfter.avoids (by simp [hType]))
      refine ⟨opening.before params, ?_, hErase, hRest⟩
      rw [parseParams]
      refine bind_eq_ok.2 ⟨opening, hFirst, ?_⟩
      rw [hNone]
      exact bind_eq_ok.2 ⟨params, hParams, rfl⟩

end Declaration

end WasmCompiler
