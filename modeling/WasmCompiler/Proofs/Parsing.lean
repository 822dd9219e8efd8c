import WasmCompiler.Proofs.Basic
import WasmCompiler.Proofs.Fragment
import WasmCompiler.Tree.Parser

/-! Trees as they are written in the words of a vocabulary, where every branch has a block for each
of its conditions, and the steps of a reader through its tokens. -/

namespace WasmCompiler

/-- What the words and numbers of a tree may be. -/
structure Vocabulary where
  spells : Token.Kind → String → Prop
  number : Literal → Prop

/-- A token whose text is a word, and whose number is one of the numbers. -/
structure Vocabulary.Covers (v : Vocabulary) (t : Token) : Prop where
  word : v.spells t.kind t.text
  literal : t.kind = .number → ∀ value, Literal.read? t.text.toList = some value → v.number value

/-- The word that a token of a kind is. -/
theorem Vocabulary.Covers.spells {v : Vocabulary} {t : Token} (h : v.Covers t) {k : Token.Kind}
    (hKind : t.kind = k) : v.spells k t.text := hKind ▸ h.word

namespace Expr

mutual

/-- An expression as it is written between others. An assignment is not. -/
def Written (v : Vocabulary) : Expr → Prop
  | ident _ name => v.spells .ident name
  | number _ value => v.number value
  | bool _ _ => True
  | str _ text => v.spells .str text
  | assign _ _ _ => False
  | binary _ _ lhs rhs => Written v lhs ∧ Written v rhs
  | unary _ _ operand => Written v operand
  | cast _ type operand => v.spells .type type ∧ Written v operand
  | call _ callee args => v.spells .ident callee ∧ AllWritten v args

def AllWritten (v : Vocabulary) : List Expr → Prop
  | [] => True
  | e :: es => Written v e ∧ AllWritten v es

end

/-- An expression as it is written as a statement. -/
def ActionWritten (v : Vocabulary) : Expr → Prop
  | assign _ target value => v.spells .ident target ∧ value.Written v
  | call span callee args => (call span callee args).Written v
  | _ => False

end Expr

structure Declaration.Written (v : Vocabulary) (d : Declaration) : Prop where
  type : v.spells .type d.type
  name : v.spells .ident d.name
  init : ∀ e, d.init = some e → e.Written v

namespace Stmt

/-- The number of blocks that go with some conditions. -/
def Matches (conds : List Expr) (blocks : List (List Stmt)) : Prop :=
  blocks.length = conds.length ∨ blocks.length = conds.length + 1

theorem matches_cons {cond : Expr} {conds : List Expr} {block : List Stmt}
    {blocks : List (List Stmt)} :
    Matches (cond :: conds) (block :: blocks) ↔ Matches conds blocks := by
  simp [Matches]

mutual

/-- A statement as it is written. -/
def Written (v : Vocabulary) : Stmt → Prop
  | function _ type name params body =>
    v.spells .type type ∧ v.spells .ident name ∧ (∀ d ∈ params, d.Written v) ∧ AllWritten v body
  | var decl => decl.Written v
  | branch _ conds blocks =>
    conds ≠ [] ∧ Matches conds blocks ∧ Expr.AllWritten v conds ∧ BlocksWritten v blocks
  | loop _ cond body => cond.Written v ∧ AllWritten v body
  | ret _ value => value.Written v
  | raw _ text => v.spells .str text
  | eval _ expr => expr.ActionWritten v

def AllWritten (v : Vocabulary) : List Stmt → Prop
  | [] => True
  | s :: ss => Written v s ∧ AllWritten v ss

def BlocksWritten (v : Vocabulary) : List (List Stmt) → Prop
  | [] => True
  | b :: bs => AllWritten v b ∧ BlocksWritten v bs

end

end Stmt

namespace Cursor

variable {c : Cursor} {k : Token.Kind} {hK : k ≠ .eof}

/-- A step moves the next token behind the cursor. -/
theorem step?_eq_some {r : Parsed Token c.size} :
    c.step? = some r ↔ c.ahead = r.value :: r.rest.ahead ∧
      r.rest = ⟨r.value :: c.behind, r.rest.ahead, c.finish⟩ := by
  obtain ⟨value, ⟨behind, ahead, finish⟩, hSize⟩ := r
  fun_cases step? c with
  | case1 hAhead => simp [hAhead]
  | case2 t rest hAhead =>
      simp only [hAhead, Option.some.injEq, Cursor.mk.injEq, List.cons.injEq]
      constructor
      · intro h
        cases h
        simp
      · rintro ⟨⟨rfl, rfl⟩, rfl, -, rfl⟩
        rfl

theorem step?_eq_none : c.step? = none ↔ c.ahead = [] := by
  fun_cases step? c with
  | case1 hAhead => simp [hAhead]
  | case2 t rest hAhead => simp [hAhead]

theorem peek_of_step? {r : Parsed Token c.size} (h : c.step? = some r) : c.peek = r.value := by
  simp [peek, peekAt, (step?_eq_some.1 h).1]

/-- A token is accepted exactly if a step reads it and it is of the kind. -/
theorem accept?_eq_some {r : Parsed Token c.size} :
    c.accept? k hK = some r ↔ c.step? = some r ∧ r.value.kind = k := by
  obtain ⟨behind, ahead, finish⟩ := c
  cases ahead with
  | nil =>
      have hEnd : ¬ (⟨behind, [], finish⟩ : Cursor).peek.kind = k := Ne.symm hK
      rw [accept?, dif_neg hEnd]
      exact ⟨nofun, fun h => nomatch h.1⟩
  | cons t rest =>
      rw [accept?]
      by_cases hKind : (⟨behind, t :: rest, finish⟩ : Cursor).peek.kind = k
      · rw [dif_pos hKind]
        exact ⟨fun h => ⟨h, by cases h; exact hKind⟩, And.left⟩
      · rw [dif_neg hKind]
        exact ⟨nofun, fun h => absurd h.2 (by cases h.1; exact hKind)⟩

/-- No token is accepted exactly if the next one is of another kind. -/
theorem accept?_eq_none_iff : c.accept? k hK = none ↔ c.peek.kind ≠ k := by
  rw [accept?]
  by_cases hKind : c.peek.kind = k
  · simp [hKind]
  · simp [hKind]

/-- A token is required exactly if a step reads it and it is of the kind. -/
theorem require_eq_ok {r : Parsed Token c.size} :
    c.require k hK = .ok r ↔ c.step? = some r ∧ r.value.kind = k := by
  rw [← @accept?_eq_some c k hK, require, accept?]
  by_cases hKind : c.peek.kind = k
  · simp [hKind]
  · simp [hKind, fail]

end Cursor

namespace Expr

/-- The value of a number token is what its text is read as. -/
theorem ofNumber_eq_ok {t : Token} {value : Literal} :
    ofNumber t = .ok value → Literal.read? t.text.toList = some value := by
  fun_cases ofNumber t with
  | case1 value hRead =>
      rintro ⟨⟩
      exact hRead
  | case2 => rintro ⟨⟩

end Expr

namespace Stmt

variable {v : Vocabulary}

mutual

/-- The branches of a statement that is written are complete. -/
theorem Written.isShaped : ∀ {s : Stmt}, s.Written v → s.isShaped = true
  | function _ _ _ _ _, h => by
      rw [Stmt.isShaped]
      exact isShapedAll_of_written h.2.2.2
  | loop _ _ _, h => by
      rw [Stmt.isShaped]
      exact isShapedAll_of_written h.2
  | branch _ conds blocks, ⟨hSome, hCount, _, hBlocks⟩ => by
      rw [Stmt.isShaped, isShapedBlocks_of_written hBlocks, Bool.and_true, Bool.and_eq_true,
        Bool.or_eq_true, beq_iff_eq, beq_iff_eq, Bool.not_eq_true', List.isEmpty_eq_false_iff]
      exact ⟨hSome, hCount⟩
  | var _, _ | ret _ _, _ | raw _ _, _ | eval _ _, _ => by rw [Stmt.isShaped]

theorem isShapedAll_of_written : ∀ {ss : List Stmt}, AllWritten v ss → isShapedAll ss = true
  | [], _ => by rw [isShapedAll]
  | _ :: _, ⟨hHead, hTail⟩ => by
      rw [isShapedAll, hHead.isShaped, isShapedAll_of_written hTail, Bool.and_true]

theorem isShapedBlocks_of_written :
    ∀ {bs : List (List Stmt)}, BlocksWritten v bs → isShapedBlocks bs = true
  | [], _ => by rw [isShapedBlocks]
  | _ :: _, ⟨hHead, hTail⟩ => by
      rw [isShapedBlocks, isShapedAll_of_written hHead, isShapedBlocks_of_written hTail,
        Bool.and_true]

end

end Stmt

/-- All tokens of a program are read. -/
theorem Program.ofTokens_eq_ok {tokens : List Token} {p : Program} : ofTokens tokens = .ok p ↔
    ∃ body, Stmt.parseBody (.ofTokens tokens) = .ok body ∧ body.rest.isAtEnd = true ∧
      body.value = p := by
  rw [ofTokens, bind_eq_ok]
  refine exists_congr fun body => and_congr_right fun _ => ?_
  cases hEnd : body.rest.isAtEnd with
  | true => simp [pure_eq_ok]
  | false => simp [Cursor.fail]

end WasmCompiler
