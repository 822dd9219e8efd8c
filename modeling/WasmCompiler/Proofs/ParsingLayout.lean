import WasmCompiler.Proofs.Lexemes

/-! Reading looks at the kinds and texts of tokens, never at their places. Two rows of tokens that
say the same are read as the same tree, places apart, or fail with the same wording. -/

namespace WasmCompiler

section Observe

variable {ε δ κ α β γ η α' β' : Type}

/-- What is seen of an outcome: `f` of a value, and `k` of an error. -/
def observe (k : ε → κ) (f : α → γ) (x : Except ε α) : Except κ γ := (x.map f).mapError k

/-- What is seen of a mapped error is seen of the error. -/
theorem observe_mapError (k : δ → κ) (r : ε → δ) (f : α → γ) (x : Except ε α) :
    observe k f (x.mapError r) = observe (fun e => k (r e)) f x := by
  cases x <;> rfl

/-- Outcomes that look alike still do if less is seen of their errors. -/
theorem observe_coarsen {k : ε → κ} {k' : δ → κ} {f : α → γ} {f' : β → γ} {x : Except ε α}
    {y : Except δ β} (j : κ → η) (h : observe k f x = observe k' f' y) :
    observe (fun e => j (k e)) f x = observe (fun e => j (k' e)) f' y := by
  have hComp {ι ζ : Type} (i : ι → κ) (g : ζ → γ) (z : Except ι ζ) :
      observe (fun e => j (i e)) g z = (observe i g z).mapError j := by cases z <;> rfl
  rw [hComp, hComp, h]

/-- Computations in two parts look alike if both parts do. -/
theorem observe_bind {k : ε → κ} {k' : δ → κ} {f : α → γ} {f' : β → γ} {g : α' → η} {g' : β' → η}
    {x : Except ε α} {y : Except δ β} {next : α → Except ε α'} {next' : β → Except δ β'}
    (hFirst : observe k f x = observe k' f' y)
    (hNext : ∀ a b, f a = f' b → observe k g (next a) = observe k' g' (next' b)) :
    observe k g (x >>= next) = observe k' g' (y >>= next') := by
  cases x with
  | error e =>
      cases y with
      | error e' => exact congrArg Except.error (Except.error.inj hFirst)
      | ok b => cases hFirst
  | ok a =>
      cases y with
      | error e' => cases hFirst
      | ok b => exact hNext a b (Except.ok.inj hFirst)

/-- An outcome that looks like a success is one. -/
theorem exists_ok_of_observe {k : ε → κ} {k' : δ → κ} {f : α → γ} {f' : β → γ} {x : Except ε α}
    {y : Except δ β} {a : α} (h : observe k f x = observe k' f' y) (hX : x = .ok a) :
    ∃ b, y = .ok b ∧ f a = f' b := by
  subst hX
  cases y with
  | error e' => cases h
  | ok b => exact ⟨b, rfl, Except.ok.inj h⟩

end Observe

section Seen

variable {α β γ η : Type} {n m n' m' : Nat}

/-- A value that was read, and what is left. -/
def Parsed.view (f : α → γ) (r : Parsed α n) : γ × List Lexeme := (f r.value, r.rest.lexemes)

/-- What is seen of reading: the value, places apart, and what is left, or the wording of an
error. -/
def Reading.seen (f : α → γ) (x : Reading α n) : Except String (γ × List Lexeme) :=
  observe (fun e => e.cause.message) (Parsed.view f) x

/-- Parses that look alike and go on alike look alike. -/
theorem Reading.seen_bind {f : α → γ} {g : β → η} {x : Reading α n} {y : Reading α m}
    {next : Parsed α n → Reading β n'} {next' : Parsed α m → Reading β m'}
    (hFirst : seen f x = seen f y)
    (hNext : ∀ r r', f r.value = f r'.value → r.rest.lexemes = r'.rest.lexemes →
      seen g (next r) = seen g (next' r')) :
    seen g (x >>= next) = seen g (y >>= next') :=
  observe_bind hFirst fun r r' h => hNext r r' (congrArg Prod.fst h) (congrArg Prod.snd h)

theorem Reading.seen_ok {f : α → γ} {r : Parsed α n} {r' : Parsed α m}
    (hValue : f r.value = f r'.value) (hRest : r.rest.lexemes = r'.rest.lexemes) :
    seen f (.ok r) = seen f (.ok r') :=
  congrArg Except.ok (Prod.ext hValue hRest)

end Seen

theorem Token.kind_eq_of_lexeme {t t' : Token} (h : t.lexeme = t'.lexeme) : t.kind = t'.kind :=
  congrArg Prod.fst h

theorem Token.text_eq_of_lexeme {t t' : Token} (h : t.lexeme = t'.lexeme) : t.text = t'.text :=
  congrArg Prod.snd h

/-- How a token is named in an error depends on its lexeme. -/
theorem Token.found_eq_of_lexeme {t t' : Token} (h : t.lexeme = t'.lexeme) :
    t.found = t'.found := by
  rw [found, found, kind_eq_of_lexeme h, text_eq_of_lexeme h]

namespace GrammarError

/-- The wording of an error depends on what a token says only. -/
def Words (cause : Token → GrammarError) : Prop :=
  ∀ t t' : Token, t.lexeme = t'.lexeme → (cause t).message = (cause t').message

theorem words_expected (want : Token.Kind) : Words (.expected want) := fun _ _ h =>
  congrArg ("expected " ++ want.describe ++ ", found " ++ ·) (Token.found_eq_of_lexeme h)

theorem words_unexpected : Words .unexpected := fun _ _ h =>
  congrArg ("unexpected " ++ ·) (Token.found_eq_of_lexeme h)

theorem words_noStatement : Words .noStatement := fun _ _ h =>
  congrArg ("expected statement, found " ++ ·) (Token.found_eq_of_lexeme h)

theorem words_noExpression : Words .noExpression := fun _ _ h =>
  congrArg ("expected expression, found " ++ ·) (Token.found_eq_of_lexeme h)

theorem words_noAssignmentOrCall (name : String) : Words (.noAssignmentOrCall name) := fun _ _ h =>
  congrArg ("expected '=' or '(' after '" ++ name ++ "', found " ++ ·) (Token.found_eq_of_lexeme h)

theorem words_arrayType : Words fun _ => .arrayType := fun _ _ _ => rfl

end GrammarError

namespace Cursor

open Reading

variable {α γ : Type} {n m : Nat} {c c' : Cursor} {k : Token.Kind} {hK : k ≠ .eof}

/-- A token ahead is known by its lexeme; past the last there is the end. -/
theorem lexeme_peekAt (c : Cursor) (n : Nat) :
    (c.peekAt n).lexeme = (c.lexemes[n - 1]?).getD (.eof, "") := by
  rw [peekAt, lexemes, List.getElem?_map]
  cases c.ahead[n - 1]? <;> rfl

theorem kind_peekAt (h : c.lexemes = c'.lexemes) (n : Nat) :
    (c.peekAt n).kind = (c'.peekAt n).kind :=
  Token.kind_eq_of_lexeme (by rw [lexeme_peekAt, lexeme_peekAt, h])

/-- Where the lexemes ahead are the same, a step reads the same one, or none is left. -/
theorem step?_cases (h : c.lexemes = c'.lexemes) :
    (c.step? = none ∧ c'.step? = none) ∨ ∃ r r', c.step? = some r ∧ c'.step? = some r' ∧
      r.value.lexeme = r'.value.lexeme ∧ r.rest.lexemes = r'.rest.lexemes := by
  cases hLexemes : c'.lexemes with
  | nil =>
      have hNone (d : Cursor) (hD : d.lexemes = []) : d.step? = none := by
        have hAhead : d.ahead = [] := List.map_eq_nil_iff.1 hD
        exact step?_eq_none.2 hAhead
      exact .inl ⟨hNone c (h.trans hLexemes), hNone c' hLexemes⟩
  | cons l ls =>
      obtain ⟨r, hStep, hKind, hText, hRest⟩ := exists_step? (h.trans hLexemes)
      obtain ⟨r', hStep', hKind', hText', hRest'⟩ := exists_step? hLexemes
      exact .inr ⟨r, r', hStep, hStep', Prod.ext (hKind.trans hKind'.symm)
        (hText.trans hText'.symm), hRest.trans hRest'.symm⟩

/-- Where the lexemes ahead are the same, the same one is accepted, or none is. -/
theorem accept?_cases (k : Token.Kind) (hK : k ≠ .eof) (h : c.lexemes = c'.lexemes) :
    (c.accept? k hK = none ∧ c'.accept? k hK = none) ∨
      ∃ r r', c.accept? k hK = some r ∧ c'.accept? k hK = some r' ∧
        r.value.lexeme = r'.value.lexeme ∧ r.rest.lexemes = r'.rest.lexemes := by
  by_cases hAvoids : Lexeme.Avoids k c.lexemes
  · exact .inl ⟨accept?_eq_none hAvoids, accept?_eq_none (h ▸ hAvoids)⟩
  · cases hLexemes : c'.lexemes with
    | nil => exact absurd (fun l hL => by simp [h, hLexemes] at hL) hAvoids
    | cons l ls =>
        have hKind : l.1 = k := by
          by_contra hNe
          refine hAvoids fun l' hL' => ?_
          rw [h, hLexemes, List.head?_cons, Option.mem_some] at hL'
          exact hL' ▸ hNe
        have hCons : c'.lexemes = (k, l.2) :: ls := by rw [hLexemes, ← hKind]
        obtain ⟨r, hStep, hKind, hText, hRest⟩ := exists_step? (h.trans hCons)
        obtain ⟨r', hStep', hKind', hText', hRest'⟩ := exists_step? hCons
        exact .inr ⟨r, r', accept?_eq_some.2 ⟨hStep, hKind⟩, accept?_eq_some.2 ⟨hStep', hKind'⟩,
          Prod.ext (hKind.trans hKind'.symm) (hText.trans hText'.symm), hRest.trans hRest'.symm⟩

/-- Failing at the same token gives the same wording. -/
theorem fail_alike {f : α → γ} {cause : Token → GrammarError} (hCause : GrammarError.Words cause)
    (h : c.lexemes = c'.lexemes) :
    seen f (c.fail cause : Reading α n) = seen f (c'.fail cause : Reading α m) := by
  have hPeek : c.peek.lexeme = c'.peek.lexeme := by rw [peek, peek, lexeme_peekAt, lexeme_peekAt, h]
  exact congrArg Except.error (hCause _ _ hPeek)

/-- Where the lexemes ahead are the same, the same one is required, or both fail alike. -/
theorem require_alike (h : c.lexemes = c'.lexemes) :
    seen Token.lexeme (c.require k hK) = seen Token.lexeme (c'.require k hK) := by
  rcases accept?_cases k hK h with ⟨hNone, hNone'⟩ | ⟨r, r', hSome, hSome', hToken, hRest⟩
  · have hFail (d : Cursor) (hD : d.accept? k hK = none) :
        d.require k hK = d.fail (.expected k) := by
      rw [require, dif_neg (accept?_eq_none_iff.1 hD)]
    rw [hFail c hNone, hFail c' hNone']
    exact fail_alike (GrammarError.words_expected k) h
  · rw [require_eq_ok.2 (accept?_eq_some.1 hSome), require_eq_ok.2 (accept?_eq_some.1 hSome')]
    exact seen_ok hToken hRest

end Cursor

namespace Expr

open Reading

/-- A number is read alike from tokens with the same text. -/
theorem ofNumber_alike {t t' : Token} (h : t.text = t'.text) :
    observe (fun e => e.cause.message) id (ofNumber t) =
      observe (fun e => e.cause.message) id (ofNumber t') := by
  rw [ofNumber, ofNumber, h]
  cases Literal.read? t'.text.toList <;> rfl

mutual

/-- The same lexemes are parsed as the same expression, spans apart, or fail alike. -/
theorem parse_alike {floor : Nat} {c c' : Cursor} (h : c.lexemes = c'.lexemes) :
    seen eraseSpans (parse floor c) = seen eraseSpans (parse floor c') := by
  rw [parse, parse]
  refine seen_bind (parseUnary_alike h) fun first first' hFirst hRest => ?_
  have hLess := first.size_lt
  exact seen_bind (parseChain_alike hFirst hRest) fun whole whole' hWhole hLeft =>
    seen_ok hWhole hLeft
termination_by (c.size, 2)
decreasing_by
  · exact .right _ (by omega)
  · exact .left _ _ hLess

/-- So is a chain after the same expression. -/
theorem parseChain_alike {floor : Nat} {lhs lhs' : Expr} {c c' : Cursor}
    (hLhs : lhs.eraseSpans = lhs'.eraseSpans) (h : c.lexemes = c'.lexemes) :
    seen eraseSpans (parseChain floor lhs c) = seen eraseSpans (parseChain floor lhs' c') := by
  rw [parseChain, parseChain]
  rcases Cursor.step?_cases h with
    ⟨hNone, hNone'⟩ | ⟨next, next', hNext, hNext', hToken, hRest⟩
  · simp only [hNone, hNone']
    exact seen_ok hLhs h
  · simp only [hNext, hNext']
    rw [← Token.kind_eq_of_lexeme hToken]
    have hLess := next.size_lt
    cases BinaryOp.ofKind? next.value.kind with
    | none => exact seen_ok hLhs h
    | some op =>
      dsimp only
      split
      · exact seen_ok hLhs h
      · refine seen_bind (parse_alike hRest) fun rhs rhs' hRhs hAfter => ?_
        have hLess' := (next.before rhs).size_lt
        refine seen_bind (parseChain_alike ?_ hAfter) fun whole whole' hWhole hLeft =>
          seen_ok hWhole hLeft
        simp only [eraseSpans, hLhs, hRhs]
termination_by (c.size, 0)
decreasing_by
  · exact .left _ _ hLess
  · exact .left _ _ hLess'

theorem parseUnary_alike {c c' : Cursor} (h : c.lexemes = c'.lexemes) :
    seen eraseSpans (parseUnary c) = seen eraseSpans (parseUnary c') := by
  rw [parseUnary, parseUnary]
  rcases Cursor.step?_cases h with
    ⟨hNone, hNone'⟩ | ⟨next, next', hNext, hNext', hToken, hRest⟩
  · simp only [hNone, hNone']
    exact Cursor.fail_alike GrammarError.words_noExpression h
  · simp only [hNext, hNext']
    rw [← Token.kind_eq_of_lexeme hToken]
    have hLess := next.size_lt
    split
    · exact parsePrimary_alike h hToken hRest
    · refine seen_bind (parse_alike hRest) fun operand operand' hOperand hLeft => ?_
      refine seen_ok ?_ hLeft
      simp only [Parsed.before, Parsed.give, eraseSpans, hOperand]
termination_by (c.size, 1)
decreasing_by
  · exact .right _ (by omega)
  · exact .left _ _ hLess

/-- So is an atom, of which the first token decides. -/
theorem parsePrimary_alike {c c' : Cursor} {next : Parsed Token c.size}
    {next' : Parsed Token c'.size} (h : c.lexemes = c'.lexemes)
    (hToken : next.value.lexeme = next'.value.lexeme)
    (hRest : next.rest.lexemes = next'.rest.lexemes) :
    seen eraseSpans (parsePrimary c next) = seen eraseSpans (parsePrimary c' next') := by
  have hText := Token.text_eq_of_lexeme hToken
  rw [parsePrimary, parsePrimary]
  simp only [← Token.kind_eq_of_lexeme hToken, ← hText]
  have hLess := next.size_lt
  split
  · refine observe_bind (ofNumber_alike hText) fun value value' hValue => seen_ok ?_ hRest
    exact congrArg (number (.point 0)) hValue
  · exact seen_ok rfl hRest
  · exact seen_ok rfl hRest
  · exact seen_ok rfl hRest
  · rw [← show next.rest.peek.kind = next'.rest.peek.kind from Cursor.kind_peekAt hRest 1]
    split
    · refine seen_bind (parseArgs_alike hRest) fun args args' hArgs hLeft => seen_ok ?_ hLeft
      simp only [Parsed.before, Parsed.give, eraseSpans, hArgs]
    · exact seen_ok rfl hRest
  · rcases Cursor.accept?_cases .type (by decide) hRest with
      ⟨hNone, hNone'⟩ | ⟨type, type', hType, hType', hWord, hAfter⟩
    · simp only [hNone, hNone']
      refine seen_bind (parse_alike hRest) fun inner inner' hInner hLeft => ?_
      refine seen_bind (Cursor.require_alike hLeft) fun closing closing' _ hEnd => seen_ok ?_ hEnd
      simp only [Parsed.before, Parsed.give, eraseSpans_withSpan, hInner]
    · simp only [hType, hType']
      have hName := Token.text_eq_of_lexeme hWord
      refine seen_bind (Cursor.require_alike hAfter) fun closing closing' _ hEnd => ?_
      have hLess' := (next.before (type.before closing)).size_lt
      refine seen_bind (parse_alike hEnd) fun operand operand' hOperand hLeft => seen_ok ?_ hLeft
      simp only [Parsed.before, Parsed.give, eraseSpans, hName, hOperand]
  · exact Cursor.fail_alike GrammarError.words_noExpression h
termination_by (c.size, 0)
decreasing_by
  · exact .left _ _ hLess
  · exact .left _ _ hLess
  · exact .left _ _ hLess'

theorem parseArgs_alike {c c' : Cursor} (h : c.lexemes = c'.lexemes) :
    seen eraseAllSpans (parseArgs c) = seen eraseAllSpans (parseArgs c') := by
  rw [parseArgs, parseArgs]
  refine seen_bind (Cursor.require_alike h) fun opening opening' _ hRest => ?_
  rcases Cursor.accept?_cases .rparen (by decide) hRest with
    ⟨hNone, hNone'⟩ | ⟨closing, closing', hClosing, hClosing', -, hLeft⟩
  · simp only [hNone, hNone']
    have hLess := opening.size_lt
    exact seen_bind (parseList_alike hRest) fun args args' hArgs hLeft => seen_ok hArgs hLeft
  · simp only [hClosing, hClosing']
    exact seen_ok rfl hLeft
termination_by (c.size, 0)
decreasing_by exact .left _ _ hLess

theorem parseList_alike {c c' : Cursor} (h : c.lexemes = c'.lexemes) :
    seen eraseAllSpans (parseList c) = seen eraseAllSpans (parseList c') := by
  rw [parseList, parseList]
  refine seen_bind (parse_alike h) fun first first' hFirst hRest => ?_
  rcases Cursor.accept?_cases .comma (by decide) hRest with
    ⟨hNone, hNone'⟩ | ⟨comma, comma', hComma, hComma', -, hAfter⟩
  · simp only [hNone, hNone']
    refine seen_bind (Cursor.require_alike hRest) fun closing closing' _ hLeft => seen_ok ?_ hLeft
    simp only [Parsed.before, Parsed.give, eraseAllSpans, hFirst]
  · simp only [hComma, hComma']
    have hLess := (first.before comma).size_lt
    refine seen_bind (parseList_alike hAfter) fun others others' hOthers hLeft =>
      seen_ok ?_ hLeft
    simp only [Parsed.before, Parsed.give, eraseAllSpans, hFirst, hOthers]
termination_by (c.size, 3)
decreasing_by
  · exact .right _ (by omega)
  · exact .left _ _ hLess

end

end Expr

namespace Declaration

open Reading

/-- The same lexemes are parsed as the same declaration, spans apart, or fail alike. -/
theorem parse_alike {c c' : Cursor} (h : c.lexemes = c'.lexemes) :
    seen eraseSpans (parse c) = seen eraseSpans (parse c') := by
  rw [parse, parse]
  refine seen_bind (Cursor.require_alike h) fun type type' hType hAfter => ?_
  rw [← show type.rest.peek.kind = type'.rest.peek.kind from Cursor.kind_peekAt hAfter 1]
  have hTypeText := Token.text_eq_of_lexeme hType
  split
  · exact Cursor.fail_alike GrammarError.words_arrayType hAfter
  · refine seen_bind (Cursor.require_alike hAfter) fun name name' hName hRest => ?_
    have hNameText := Token.text_eq_of_lexeme hName
    rcases Cursor.accept?_cases .assign (by decide) hRest with
      ⟨hNone, hNone'⟩ | ⟨equals, equals', hEquals, hEquals', -, hLeft⟩
    · simp only [hNone, hNone']
      refine seen_ok ?_ hRest
      simp only [Parsed.before, Parsed.give, eraseSpans, hTypeText, hNameText, Option.map_none]
    · simp only [hEquals, hEquals']
      refine seen_bind (Expr.parse_alike hLeft) fun init init' hInit hEnd => seen_ok ?_ hEnd
      simp only [Parsed.before, Parsed.give, eraseSpans, hTypeText, hNameText, Option.map_some,
        hInit]

theorem parseList_alike {c c' : Cursor} (h : c.lexemes = c'.lexemes) :
    seen (List.map eraseSpans) (parseList c) = seen (List.map eraseSpans) (parseList c') := by
  rw [parseList, parseList]
  refine seen_bind (parse_alike h) fun first first' hFirst hRest => ?_
  rcases Cursor.accept?_cases .comma (by decide) hRest with
    ⟨hNone, hNone'⟩ | ⟨comma, comma', hComma, hComma', -, hAfter⟩
  · simp only [hNone, hNone']
    refine seen_bind (Cursor.require_alike hRest) fun closing closing' _ hLeft => seen_ok ?_ hLeft
    simp only [Parsed.before, Parsed.give, List.map_cons, List.map_nil, hFirst]
  · simp only [hComma, hComma']
    have hLess := (first.before comma).size_lt
    refine seen_bind (parseList_alike hAfter) fun others others' hOthers hLeft =>
      seen_ok ?_ hLeft
    simp only [Parsed.before, Parsed.give, List.map_cons, hFirst, hOthers]
termination_by c.size
decreasing_by exact hLess

/-- So are parameters. -/
theorem parseParams_alike {c c' : Cursor} (h : c.lexemes = c'.lexemes) :
    seen (List.map eraseSpans) (parseParams c) = seen (List.map eraseSpans) (parseParams c') := by
  rw [parseParams, parseParams]
  refine seen_bind (Cursor.require_alike h) fun opening opening' _ hRest => ?_
  rcases Cursor.accept?_cases .rparen (by decide) hRest with
    ⟨hNone, hNone'⟩ | ⟨closing, closing', hClosing, hClosing', -, hLeft⟩
  · simp only [hNone, hNone']
    exact seen_bind (parseList_alike hRest) fun params params' hParams hLeft =>
      seen_ok hParams hLeft
  · simp only [hClosing, hClosing']
    exact seen_ok rfl hLeft

end Declaration

namespace Stmt

open Reading

/-- So is a condition. -/
theorem parseCondition_alike {c c' : Cursor} (h : c.lexemes = c'.lexemes) :
    seen Expr.eraseSpans (parseCondition c) = seen Expr.eraseSpans (parseCondition c') := by
  rw [parseCondition, parseCondition]
  refine seen_bind (Cursor.require_alike h) fun opening opening' _ hRest => ?_
  refine seen_bind (Expr.parse_alike hRest) fun cond cond' hCond hAfter => ?_
  exact seen_bind (Cursor.require_alike hAfter) fun closing closing' _ hLeft => seen_ok hCond hLeft

/-- So is a raw statement, wherever its keyword stands. -/
theorem parseRaw_alike {c c' : Cursor} (h : c.lexemes = c'.lexemes) (start start' : Nat) :
    seen eraseSpans (parseRaw start c) = seen eraseSpans (parseRaw start' c') := by
  rw [parseRaw, parseRaw]
  refine seen_bind (Cursor.require_alike h) fun text text' hText hRest => ?_
  refine seen_bind (Cursor.require_alike hRest) fun closing closing' _ hLeft => seen_ok ?_ hLeft
  simp only [Parsed.before, Parsed.give, eraseSpans, Token.text_eq_of_lexeme hText]

/-- So is a return statement, wherever its keyword stands. -/
theorem parseRet_alike {c c' : Cursor} (h : c.lexemes = c'.lexemes) (start start' : Nat) :
    seen eraseSpans (parseRet start c) = seen eraseSpans (parseRet start' c') := by
  rw [parseRet, parseRet]
  refine seen_bind (Expr.parse_alike h) fun value value' hValue hRest => ?_
  refine seen_bind (Cursor.require_alike hRest) fun closing closing' _ hLeft => seen_ok ?_ hLeft
  simp only [Parsed.before, Parsed.give, eraseSpans, hValue]

/-- So is an assignment or a call, after the same name. -/
theorem parseAction_alike {c c' : Cursor} {name name' : Token} (h : c.lexemes = c'.lexemes)
    (hName : name.text = name'.text) :
    seen Expr.eraseSpans (parseAction name c) = seen Expr.eraseSpans (parseAction name' c') := by
  rw [parseAction, parseAction]
  rcases Cursor.accept?_cases .assign (by decide) h with
    ⟨hNone, hNone'⟩ | ⟨equals, equals', hEquals, hEquals', -, hRest⟩
  · simp only [hNone, hNone']
    rw [← show c.peek.kind = c'.peek.kind from Cursor.kind_peekAt h 1, ← hName]
    split
    · refine seen_bind (Expr.parseArgs_alike h) fun args args' hArgs hLeft => seen_ok ?_ hLeft
      simp only [Parsed.give, Expr.eraseSpans, hArgs]
    · exact Cursor.fail_alike (GrammarError.words_noAssignmentOrCall _) h
  · simp only [hEquals, hEquals']
    refine seen_bind (Expr.parse_alike hRest) fun value value' hValue hLeft => seen_ok ?_ hLeft
    simp only [Parsed.before, Parsed.give, Expr.eraseSpans, hName, hValue]

theorem parseEval_alike {c c' : Cursor} {name name' : Token} (h : c.lexemes = c'.lexemes)
    (hName : name.text = name'.text) :
    seen eraseSpans (parseEval name c) = seen eraseSpans (parseEval name' c') := by
  rw [parseEval, parseEval]
  refine seen_bind (parseAction_alike h hName) fun action action' hAction hRest => ?_
  refine seen_bind (Cursor.require_alike hRest) fun closing closing' _ hLeft => seen_ok ?_ hLeft
  simp only [Parsed.before, Parsed.give, eraseSpans, hAction]

/-- So is the declaration of a variable. -/
theorem parseVar_alike {c c' : Cursor} (h : c.lexemes = c'.lexemes) :
    seen eraseSpans (parseVar c) = seen eraseSpans (parseVar c') := by
  rw [parseVar, parseVar]
  refine seen_bind (Declaration.parse_alike h) fun decl decl' hDecl hRest => ?_
  refine seen_bind (Cursor.require_alike hRest) fun closing closing' _ hLeft => seen_ok ?_ hLeft
  exact congrArg var hDecl

/-- The head of a function without its places. -/
def Head.view (head : Head) : Lexeme × Lexeme × List Declaration :=
  (head.type.lexeme, head.name.lexeme, head.params.map Declaration.eraseSpans)

/-- So is the heading of a function. -/
theorem parseHead_alike {c c' : Cursor} (h : c.lexemes = c'.lexemes) :
    seen Head.view (parseHead c) = seen Head.view (parseHead c') := by
  rw [parseHead, parseHead]
  refine seen_bind (Cursor.require_alike h) fun type type' hType hAfter => ?_
  refine seen_bind (Cursor.require_alike hAfter) fun name name' hName hRest => ?_
  refine seen_bind (Declaration.parseParams_alike hRest) fun params params' hParams hLeft =>
    seen_ok ?_ hLeft
  simp only [Parsed.before, Parsed.give, Head.view, hType, hName, hParams]

/-- The conditions and blocks of a branch without their places. -/
def Alternatives.view (a : Alternatives) : List Expr × List (List Stmt) :=
  (Expr.eraseAllSpans a.conds, eraseBlockSpans a.blocks)

/-- What is seen of reading a statement that may not be there. -/
def found {n : Nat} (x : Except (Located GrammarError) (Option (Parsed Stmt n))) :
    Except String (Option (Stmt × List Lexeme)) :=
  observe (fun e => e.cause.message) (Option.map (Parsed.view eraseSpans)) x

/-- Parses that look alike, and after which a statement is found alike, find it alike. -/
theorem found_bind {α γ : Type} {n m n' m' : Nat} {f : α → γ} {x : Reading α n} {y : Reading α m}
    {next : Parsed α n → Except (Located GrammarError) (Option (Parsed Stmt n'))}
    {next' : Parsed α m → Except (Located GrammarError) (Option (Parsed Stmt m'))}
    (hFirst : seen f x = seen f y)
    (hNext : ∀ r r', f r.value = f r'.value → r.rest.lexemes = r'.rest.lexemes →
      found (next r) = found (next' r')) :
    found (x >>= next) = found (y >>= next') :=
  observe_bind hFirst fun r r' h => hNext r r' (congrArg Prod.fst h) (congrArg Prod.snd h)

theorem found_some {n m : Nat} {r : Parsed Stmt n} {r' : Parsed Stmt m}
    (hValue : r.value.eraseSpans = r'.value.eraseSpans) (hRest : r.rest.lexemes = r'.rest.lexemes) :
    found (.ok (some r)) = found (.ok (some r')) :=
  congrArg (fun view => Except.ok (some view)) (Prod.ext hValue hRest)

/-- What follows a statement that may not be there. -/
theorem seen_bind_found {β η : Type} {n m n' m' : Nat} {g : β → η}
    {x : Except (Located GrammarError) (Option (Parsed Stmt n))}
    {y : Except (Located GrammarError) (Option (Parsed Stmt m))}
    {next : Option (Parsed Stmt n) → Reading β n'} {next' : Option (Parsed Stmt m) → Reading β m'}
    (hFirst : found x = found y) (hNone : seen g (next none) = seen g (next' none))
    (hSome : ∀ r r', r.value.eraseSpans = r'.value.eraseSpans →
      r.rest.lexemes = r'.rest.lexemes → seen g (next (some r)) = seen g (next' (some r'))) :
    seen g (x >>= next) = seen g (y >>= next') := by
  refine observe_bind hFirst fun a b h => ?_
  cases a with
  | none =>
      cases b with
      | none => exact hNone
      | some r' => cases h
  | some r =>
      cases b with
      | none => cases h
      | some r' =>
          have hView := Option.some.inj h
          exact hSome r r' (congrArg Prod.fst hView) (congrArg Prod.snd hView)

mutual

/-- The same lexemes are parsed as the same statement, spans apart, or fail alike. -/
theorem parse?_alike {c c' : Cursor} (h : c.lexemes = c'.lexemes) :
    found (parse? c) = found (parse? c') := by
  rw [parse?, parse?]
  rcases Cursor.step?_cases h with
    ⟨hNone, hNone'⟩ | ⟨next, next', hNext, hNext', hToken, hRest⟩
  · simp only [hNone, hNone']
    rfl
  · simp only [hNext, hNext', ← Token.kind_eq_of_lexeme hToken]
    have hLess := next.size_lt
    split
    · refine found_bind (parseCondition_alike hRest) fun cond cond' hCond hAfter => ?_
      have hLess' := (next.before cond).size_lt
      refine found_bind (parseBranch_alike hAfter) fun body body' hBody hLeft =>
        found_some ?_ hLeft
      simp only [Parsed.before, Parsed.give, eraseSpans, hCond, hBody]
    · refine found_bind (parseCondition_alike hRest) fun cond cond' hCond hAfter => ?_
      have hLess' := (next.before cond).size_lt
      refine found_bind (parseBranch_alike hAfter) fun block block' hBlock hMore => ?_
      have hLess'' := (next.before (cond.before block)).size_lt
      refine found_bind (parseElse_alike hMore) fun others others' hOthers hLeft =>
        found_some ?_ hLeft
      obtain ⟨hConds, hBlocks⟩ := Prod.mk.inj hOthers
      simp only [Parsed.before, Parsed.give, Parsed.relax, eraseSpans, Expr.eraseAllSpans,
        eraseBlockSpans, hCond, hBlock, hConds, hBlocks]
    · exact found_bind (parseRaw_alike hRest _ _) fun stmt stmt' hStmt hLeft =>
        found_some hStmt hLeft
    · exact found_bind (parseRet_alike hRest _ _) fun stmt stmt' hStmt hLeft =>
        found_some hStmt hLeft
    · exact found_bind (parseEval_alike hRest (Token.text_eq_of_lexeme hToken))
        fun stmt stmt' hStmt hLeft => found_some hStmt hLeft
    · rw [← Cursor.kind_peekAt h 3]
      split
      · refine found_bind (parseHead_alike h) fun head head' hHead hAfter => ?_
        have hLess' := head.size_lt
        refine found_bind (parseBraced_alike hAfter) fun body body' hBody hLeft =>
          found_some ?_ hLeft
        obtain ⟨hType, hName, hParams⟩ : head.value.type.lexeme = head'.value.type.lexeme ∧
            head.value.name.lexeme = head'.value.name.lexeme ∧ _ = _ := by
          simpa only [Head.view, Prod.mk.injEq] using hHead
        simp only [Parsed.before, Parsed.give, eraseSpans, Token.text_eq_of_lexeme hType,
          Token.text_eq_of_lexeme hName, hParams, hBody]
      · exact found_bind (parseVar_alike h) fun stmt stmt' hStmt hLeft => found_some hStmt hLeft
    · rfl
termination_by (c.size, 0)
decreasing_by
  · exact .left _ _ hLess'
  · exact .left _ _ hLess'
  · exact .left _ _ hLess''
  · exact .left _ _ hLess'

/-- So are the other branches, after a first one. -/
theorem parseElse_alike {c c' : Cursor} (h : c.lexemes = c'.lexemes) :
    seen Alternatives.view (parseElse c) = seen Alternatives.view (parseElse c') := by
  rw [parseElse, parseElse]
  rcases Cursor.accept?_cases .kwElse (by decide) h with
    ⟨hNone, hNone'⟩ | ⟨orElse, orElse', hElse, hElse', -, hRest⟩
  · simp only [hNone, hNone']
    exact seen_ok rfl h
  · simp only [hElse, hElse']
    have hLess := orElse.size_lt
    rcases Cursor.accept?_cases .kwIf (by decide) hRest with
      ⟨hNone, hNone'⟩ | ⟨orIf, orIf', hIf, hIf', -, hAfter⟩
    · simp only [hNone, hNone']
      refine seen_bind (parseBranch_alike hRest) fun block block' hBlock hLeft => seen_ok ?_ hLeft
      simp only [Parsed.before, Parsed.give, Parsed.relax, Alternatives.view, eraseBlockSpans,
        hBlock]
    · simp only [hIf, hIf']
      refine seen_bind (parseCondition_alike hAfter) fun cond cond' hCond hInner => ?_
      have hLess' := (orElse.before (orIf.before cond)).size_lt
      refine seen_bind (parseBranch_alike hInner) fun block block' hBlock hMore => ?_
      have hLess'' := (orElse.before (orIf.before (cond.before block))).size_lt
      refine seen_bind (parseElse_alike hMore) fun others others' hOthers hLeft => seen_ok ?_ hLeft
      obtain ⟨hConds, hBlocks⟩ := Prod.mk.inj hOthers
      simp only [Parsed.before, Parsed.give, Parsed.relax, Alternatives.view, Expr.eraseAllSpans,
        eraseBlockSpans, hCond, hBlock, hConds, hBlocks]
termination_by (c.size, 0)
decreasing_by
  · exact .left _ _ hLess
  · exact .left _ _ hLess'
  · exact .left _ _ hLess''

/-- So is a branch, in braces or not. -/
theorem parseBranch_alike {c c' : Cursor} (h : c.lexemes = c'.lexemes) :
    seen eraseAllSpans (parseBranch c) = seen eraseAllSpans (parseBranch c') := by
  rw [parseBranch, parseBranch, ← show c.peek.kind = c'.peek.kind from Cursor.kind_peekAt h 1]
  split
  · exact parseBraced_alike h
  · refine seen_bind_found (parse?_alike h) (Cursor.fail_alike GrammarError.words_noStatement h)
      fun stmt stmt' hStmt hLeft => seen_ok ?_ hLeft
    simp only [Parsed.give, eraseAllSpans, hStmt]
termination_by (c.size, 1)
decreasing_by
  · exact .right _ (by omega)
  · exact .right _ (by omega)

theorem parseBraced_alike {c c' : Cursor} (h : c.lexemes = c'.lexemes) :
    seen eraseAllSpans (parseBraced c) = seen eraseAllSpans (parseBraced c') := by
  rw [parseBraced, parseBraced]
  refine seen_bind (Cursor.require_alike h) fun opening opening' _ hRest => ?_
  have hLess := opening.size_lt
  refine seen_bind (parseBody_alike hRest) fun body body' hBody hAfter => ?_
  exact seen_bind (Cursor.require_alike hAfter) fun closing closing' _ hLeft => seen_ok hBody hLeft
termination_by (c.size, 0)
decreasing_by exact .left _ _ hLess

/-- So is a body. -/
theorem parseBody_alike {c c' : Cursor} (h : c.lexemes = c'.lexemes) :
    seen eraseAllSpans (parseBody c) = seen eraseAllSpans (parseBody c') := by
  rw [parseBody, parseBody]
  refine seen_bind_found (parse?_alike h) (seen_ok rfl h) fun stmt stmt' hStmt hRest => ?_
  have hLess := stmt.size_lt
  refine seen_bind (parseBody_alike hRest) fun others others' hOthers hLeft => seen_ok ?_ hLeft
  simp only [Parsed.give, Parsed.relax, eraseAllSpans, hStmt, hOthers]
termination_by (c.size, 1)
decreasing_by
  · exact .right _ (by omega)
  · exact .left _ _ hLess

end

end Stmt

/-- Rows of tokens that say the same are read as the same program, places apart, or fail with the
same wording. -/
theorem Program.ofTokens_alike {tokens tokens' : List Token}
    (h : tokens.map Token.lexeme = tokens'.map Token.lexeme) :
    observe (fun e => e.cause.message) eraseSpans (ofTokens tokens) =
      observe (fun e => e.cause.message) eraseSpans (ofTokens tokens') := by
  have hStart : (Cursor.ofTokens tokens).lexemes = (Cursor.ofTokens tokens').lexemes := h
  refine observe_bind (Stmt.parseBody_alike hStart) fun body body' hView => ?_
  have hBody : Stmt.eraseAllSpans body.value = Stmt.eraseAllSpans body'.value :=
    congrArg Prod.fst hView
  have hRest : body.rest.lexemes = body'.rest.lexemes := congrArg Prod.snd hView
  have hEnd : body.rest.isAtEnd = body'.rest.isAtEnd := by
    rw [Cursor.isAtEnd, Cursor.isAtEnd, Cursor.peek, Cursor.peek, Cursor.kind_peekAt hRest 1]
  rw [← hEnd]
  split
  · exact congrArg Except.ok hBody
  · have hPeek : body.rest.peek.lexeme = body'.rest.peek.lexeme := by
      rw [Cursor.peek, Cursor.peek, Cursor.lexeme_peekAt, Cursor.lexeme_peekAt, hRest]
    exact congrArg Except.error (GrammarError.words_unexpected _ _ hPeek)

end WasmCompiler
