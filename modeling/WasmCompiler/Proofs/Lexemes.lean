import WasmCompiler.Proofs.Lexing
import WasmCompiler.Tree.Printer

/-! The lexemes of a printed tree and those ahead of a reader, and trees without the places they
were read from. -/

namespace WasmCompiler

open Number

/-- What is printed so that it can be read again. -/
def Vocabulary.printable : Vocabulary := ⟨Token.Kind.Spells, Literal.IsPlain⟩

def BinaryOp.kind : BinaryOp → Token.Kind
  | add => .plus | sub => .minus | mul => .star | div => .slash
  | lt => .lt | le => .le | gt => .gt | ge => .ge
  | eq => .eqEq | ne => .bangEq
  | bitAnd => .amp | bitOr => .pipe
  | and => .ampAmp | or => .pipePipe

def UnaryOp.kind : UnaryOp → Token.Kind
  | plus => .plus | neg => .minus | not => .bang

/-- An operator is parsed from the kind of the token that it is printed as. -/
theorem BinaryOp.ofKind?_kind (op : BinaryOp) : ofKind? op.kind = some op := by
  cases op <;> rfl

theorem UnaryOp.ofKind?_kind (op : UnaryOp) : ofKind? op.kind = some op := by
  cases op <;> rfl

namespace Expr

mutual

/-- The lexemes of a printed expression. -/
def lexemes : Expr → List Lexeme
  | ident _ name => [(.ident, name)]
  | number _ value => [(.number, value.print)]
  | bool _ value =>
    [(if value then .kwTrue else .kwFalse, if value then "true" else "false")]
  | str _ value => [(.str, value)]
  | assign _ target value => (.ident, target) :: (.assign, "=") :: lexemes value
  | binary _ op lhs rhs =>
    (.lparen, "(") :: (lexemes lhs ++ (op.kind, op.symbol) :: (lexemes rhs ++ [(.rparen, ")")]))
  | unary _ op operand =>
    (.lparen, "(") :: (op.kind, op.symbol) :: (lexemes operand ++ [(.rparen, ")")])
  | cast _ type operand =>
    (.lparen, "(") :: (.lparen, "(") :: (.type, type) :: (.rparen, ")") ::
      (lexemes operand ++ [(.rparen, ")")])
  | call _ callee args =>
    (.ident, callee) :: (.lparen, "(") :: (argLexemes args ++ [(.rparen, ")")])

def argLexemes : List Expr → List Lexeme
  | [] => []
  | [arg] => lexemes arg
  | arg :: args => lexemes arg ++ (.comma, ",") :: argLexemes args

end

mutual

/-- The expression without the places it was read from. -/
def eraseSpans : Expr → Expr
  | ident _ name => ident (.point 0) name
  | number _ value => number (.point 0) value
  | bool _ value => bool (.point 0) value
  | str _ value => str (.point 0) value
  | assign _ target value => assign (.point 0) target (eraseSpans value)
  | binary _ op lhs rhs => binary (.point 0) op (eraseSpans lhs) (eraseSpans rhs)
  | unary _ op operand => unary (.point 0) op (eraseSpans operand)
  | cast _ type operand => cast (.point 0) type (eraseSpans operand)
  | call _ callee args => call (.point 0) callee (eraseAllSpans args)

def eraseAllSpans : List Expr → List Expr
  | [] => []
  | e :: es => eraseSpans e :: eraseAllSpans es

end

theorem eraseSpans_withSpan (s : Span) (e : Expr) : (e.withSpan s).eraseSpans = e.eraseSpans := by
  cases e <;> simp only [withSpan, eraseSpans]

@[simp] theorem length_eraseAllSpans (es : List Expr) : (eraseAllSpans es).length = es.length := by
  induction es with
  | nil => rfl
  | cons e es ih => simp [eraseAllSpans, ih]

variable {v : Vocabulary}

mutual

/-- Which words an expression is written in does not depend on its spans. -/
theorem written_eraseSpans : ∀ {e : Expr}, e.eraseSpans.Written v ↔ e.Written v
  | ident _ _ | number _ _ | bool _ _ | str _ _ | assign _ _ _ => Iff.rfl
  | binary _ _ _ _ => and_congr written_eraseSpans written_eraseSpans
  | unary _ _ operand => @written_eraseSpans operand
  | cast _ _ _ => and_congr Iff.rfl written_eraseSpans
  | call _ _ _ => and_congr Iff.rfl allWritten_eraseAllSpans

theorem allWritten_eraseAllSpans : ∀ {es : List Expr},
    AllWritten v (eraseAllSpans es) ↔ AllWritten v es
  | [] => Iff.rfl
  | _ :: _ => and_congr written_eraseSpans allWritten_eraseAllSpans

end

/-- Nor does it where the expression stands as a statement. -/
theorem actionWritten_eraseSpans {e : Expr} :
    e.eraseSpans.ActionWritten v ↔ e.ActionWritten v := by
  cases e with
  | assign => exact and_congr Iff.rfl written_eraseSpans
  | call => exact and_congr Iff.rfl allWritten_eraseAllSpans
  | _ => exact Iff.rfl

end Expr

/-- The row does not start with a lexeme of the kind. -/
def Lexeme.Avoids (kind : Token.Kind) (ls : List Lexeme) : Prop := ∀ l ∈ ls.head?, l.1 ≠ kind

/-- The row starts with what ends an expression. -/
def Lexeme.Closes (ls : List Lexeme) : Prop :=
  ∃ l ∈ ls.head?, l.1 ∈ [.rparen, .comma, .semicolon]

/-- Where an expression can end, only the tokens that can end it are next. -/
theorem Lexeme.Closes.avoids {ls : List Lexeme} (h : Closes ls) {kind : Token.Kind}
    (hKind : kind ∉ [.rparen, .comma, .semicolon]) : Avoids kind ls := by
  obtain ⟨first, hFirst, hMem⟩ := h
  intro l hL hEq
  cases hL.symm.trans hFirst
  exact hKind (hEq ▸ hMem)

open Lexeme

namespace Cursor

variable {c : Cursor} {k : Token.Kind} {hK : k ≠ .eof} {text : String} {ls : List Lexeme}

/-- What the tokens ahead say. -/
def lexemes (c : Cursor) : List Lexeme := c.ahead.map Token.lexeme

/-- A step reads the first lexeme and leaves the others. -/
theorem exists_step? (h : c.lexemes = (k, text) :: ls) :
    ∃ r, c.step? = some r ∧ r.value.kind = k ∧ r.value.text = text ∧ r.rest.lexemes = ls := by
  obtain ⟨t, ts, hAhead, hT, hTs⟩ := List.map_eq_cons_iff.1 h
  refine ⟨⟨t, ⟨t :: c.behind, ts, c.finish⟩, by simp [size, hAhead]⟩, ?_, ?_, ?_, hTs⟩
  · exact step?_eq_some.2 ⟨hAhead, rfl⟩
  · exact congrArg Prod.fst hT
  · exact congrArg Prod.snd hT

/-- A token is not accepted where its kind is not next. -/
theorem accept?_eq_none (h : Avoids k c.lexemes) : c.accept? k hK = none := by
  cases hAccept : c.accept? k hK with
  | none => rfl
  | some r =>
      obtain ⟨hStep, hKind⟩ := accept?_eq_some.1 hAccept
      refine absurd hKind (h r.value.lexeme ?_)
      simp [lexemes, (step?_eq_some.1 hStep).1]

theorem peek_kind_ne (hK : k ≠ .eof) (h : Avoids k c.lexemes) : c.peek.kind ≠ k :=
  accept?_eq_none_iff.1 (@accept?_eq_none c k hK h)

end Cursor

namespace Declaration

/-- The lexemes of a printed declaration. -/
def lexemes (d : Declaration) : List Lexeme :=
  match d.init with
  | some init => (.type, d.type) :: (.ident, d.name) :: (.assign, "=") :: init.lexemes
  | none => [(.type, d.type), (.ident, d.name)]

def paramLexemes : List Declaration → List Lexeme
  | [] => []
  | [param] => param.lexemes
  | param :: params => param.lexemes ++ (.comma, ",") :: paramLexemes params

/-- The declaration without the places it was read from. -/
def eraseSpans (d : Declaration) : Declaration :=
  ⟨.point 0, d.type, d.name, d.init.map Expr.eraseSpans⟩

/-- Which words a declaration is written in does not depend on its spans. -/
theorem written_eraseSpans {v : Vocabulary} {d : Declaration} :
    d.eraseSpans.Written v ↔ d.Written v := by
  obtain ⟨span, type, name, init⟩ := d
  constructor
  · rintro ⟨hType, hName, hInit⟩
    refine ⟨hType, hName, fun e hE => Expr.written_eraseSpans.1 (hInit e.eraseSpans ?_)⟩
    exact congrArg (Option.map Expr.eraseSpans) hE
  · rintro ⟨hType, hName, hInit⟩
    refine ⟨hType, hName, fun e hE => ?_⟩
    obtain ⟨value, hValue, rfl⟩ := Option.map_eq_some_iff.1 hE
    exact Expr.written_eraseSpans.2 (hInit value hValue)

end Declaration

namespace Stmt

/-- A block in braces. -/
def braces (block : List Lexeme) : List Lexeme :=
  (.lbrace, "\x7b") :: (block ++ [(.rbrace, "\x7d")])

/-- A condition in parentheses. -/
def conditionLexemes (cond : Expr) : List Lexeme :=
  (.lparen, "(") :: (cond.lexemes ++ [(.rparen, ")")])

mutual

/-- The lexemes of a printed statement. -/
def lexemes : Stmt → List Lexeme
  | function _ type name params body =>
    (.type, type) :: (.ident, name) :: (.lparen, "(") ::
      (Declaration.paramLexemes params ++ (.rparen, ")") :: braces (allLexemes body))
  | var decl => decl.lexemes ++ [(.semicolon, ";")]
  | branch _ conds blocks => chainLexemes [] conds blocks
  | loop _ cond body => (.kwWhile, "while") :: (conditionLexemes cond ++ braces (allLexemes body))
  | ret _ value => (.kwReturn, "return") :: (value.lexemes ++ [(.semicolon, ";")])
  | raw _ text => [(.kwWasm, "_wasm"), (.str, text), (.semicolon, ";")]
  | eval _ expr => expr.lexemes ++ [(.semicolon, ";")]

def allLexemes : List Stmt → List Lexeme
  | [] => []
  | stmt :: stmts => lexemes stmt ++ allLexemes stmts

/-- The rest of a branch, joined to what is before it by `link`. -/
def chainLexemes (link : List Lexeme) : List Expr → List (List Stmt) → List Lexeme
  | cond :: conds, block :: blocks =>
    link ++ (.kwIf, "if") :: (conditionLexemes cond ++ braces (allLexemes block) ++
      chainLexemes [(.kwElse, "else")] conds blocks)
  | [], block :: _ => (.kwElse, "else") :: braces (allLexemes block)
  | _, [] => []

end

mutual

/-- The statement without the places it was read from. -/
def eraseSpans : Stmt → Stmt
  | function _ type name params body =>
    function (.point 0) type name (params.map Declaration.eraseSpans) (eraseAllSpans body)
  | var decl => var decl.eraseSpans
  | branch _ conds blocks =>
    branch (.point 0) (Expr.eraseAllSpans conds) (eraseBlockSpans blocks)
  | loop _ cond body => loop (.point 0) cond.eraseSpans (eraseAllSpans body)
  | ret _ value => ret (.point 0) value.eraseSpans
  | raw _ text => raw (.point 0) text
  | eval _ expr => eval (.point 0) expr.eraseSpans

def eraseAllSpans : List Stmt → List Stmt
  | [] => []
  | s :: ss => eraseSpans s :: eraseAllSpans ss

def eraseBlockSpans : List (List Stmt) → List (List Stmt)
  | [] => []
  | b :: bs => eraseAllSpans b :: eraseBlockSpans bs

end

theorem length_eraseBlockSpans (bs : List (List Stmt)) :
    (eraseBlockSpans bs).length = bs.length := by
  induction bs with
  | nil => rfl
  | cons b bs ih => rw [eraseBlockSpans, List.length_cons, List.length_cons, ih]

variable {v : Vocabulary}

mutual

/-- Which words a statement is written in does not depend on its spans. -/
theorem written_eraseSpans : ∀ {s : Stmt}, s.eraseSpans.Written v ↔ s.Written v
  | function _ _ _ params _ => by
      have hParams : (∀ d ∈ params.map Declaration.eraseSpans, d.Written v) ↔
          ∀ d ∈ params, d.Written v := by
        simp only [List.forall_mem_map, Declaration.written_eraseSpans]
      exact and_congr Iff.rfl (and_congr Iff.rfl (and_congr hParams allWritten_eraseAllSpans))
  | var _ => Declaration.written_eraseSpans
  | branch _ conds blocks => by
      have hSome : Expr.eraseAllSpans conds ≠ [] ↔ conds ≠ [] := by
        cases conds <;> simp [Expr.eraseAllSpans]
      have hCount : Matches (Expr.eraseAllSpans conds) (eraseBlockSpans blocks) ↔
          Matches conds blocks := by
        rw [Matches, Matches, Expr.length_eraseAllSpans, length_eraseBlockSpans]
      exact and_congr hSome (and_congr hCount
        (and_congr Expr.allWritten_eraseAllSpans blocksWritten_eraseBlockSpans))
  | loop _ _ _ => and_congr Expr.written_eraseSpans allWritten_eraseAllSpans
  | ret _ value => @Expr.written_eraseSpans v value
  | raw _ _ => Iff.rfl
  | eval _ expr => @Expr.actionWritten_eraseSpans v expr

theorem allWritten_eraseAllSpans : ∀ {ss : List Stmt},
    AllWritten v (eraseAllSpans ss) ↔ AllWritten v ss
  | [] => Iff.rfl
  | _ :: _ => and_congr written_eraseSpans allWritten_eraseAllSpans

theorem blocksWritten_eraseBlockSpans : ∀ {bs : List (List Stmt)},
    BlocksWritten v (eraseBlockSpans bs) ↔ BlocksWritten v bs
  | [] => Iff.rfl
  | _ :: _ => and_congr allWritten_eraseAllSpans blocksWritten_eraseBlockSpans

end

end Stmt

namespace Program

/-- The program without the places it was read from. -/
def eraseSpans (p : Program) : Program := Stmt.eraseAllSpans p

end Program

end WasmCompiler
