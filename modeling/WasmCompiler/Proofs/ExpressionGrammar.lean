import WasmCompiler.Proofs.Lexemes

/-! The grammar of expressions in layers, and what is read by precedence. A layer has chains of the
layer above it, which group to the left; above the five layers of binary operators are the signs,
and above them the operands. -/

namespace WasmCompiler

namespace Grammar

/-- The binary operators, with the layer whose chains they join. -/
def operators : List (Nat × Token.Kind × BinaryOp) :=
  [(1, .ampAmp, .and), (1, .pipePipe, .or),
    (2, .amp, .bitAnd), (2, .pipe, .bitOr),
    (3, .lt, .lt), (3, .le, .le), (3, .gt, .gt), (3, .ge, .ge), (3, .eqEq, .eq), (3, .bangEq, .ne),
    (4, .plus, .add), (4, .minus, .sub),
    (5, .star, .mul), (5, .slash, .div)]

/-- The operators that stand before an operand. -/
def signs : List (Token.Kind × UnaryOp) := [(.plus, .plus), (.minus, .neg), (.bang, .not)]

mutual

/-- Tokens that are an expression of a layer. A tree of the grammar has no places: all its spans are
at zero. -/
inductive Derives : Nat → List Token → Expr → Prop where
  | tighter {k : Nat} {u : List Token} {e : Expr} (hLayer : 1 ≤ k ∧ k ≤ 6)
      (h : Derives (k + 1) u e) : Derives k u e
  | chain {k : Nat} {u v : List Token} {t : Token} {op : BinaryOp} {lhs rhs : Expr}
      (hOp : (k, t.kind, op) ∈ operators) (hLhs : Derives k u lhs) (hRhs : Derives (k + 1) v rhs) :
      Derives k (u ++ t :: v) (.binary (.point 0) op lhs rhs)
  | sign {u : List Token} {t : Token} {op : UnaryOp} {e : Expr} (hSign : (t.kind, op) ∈ signs)
      (h : Derives 6 u e) : Derives 6 (t :: u) (.unary (.point 0) op e)
  | number {t : Token} {value : Literal} (hKind : t.kind = .number)
      (hValue : Literal.read? t.text.toList = some value) :
      Derives 7 [t] (.number (.point 0) value)
  | yes {t : Token} (hKind : t.kind = .kwTrue) : Derives 7 [t] (.bool (.point 0) true)
  | no {t : Token} (hKind : t.kind = .kwFalse) : Derives 7 [t] (.bool (.point 0) false)
  | str {t : Token} (hKind : t.kind = .str) : Derives 7 [t] (.str (.point 0) t.text)
  | name {t : Token} (hKind : t.kind = .ident) : Derives 7 [t] (.ident (.point 0) t.text)
  | call {t : Token} {u : List Token} {es : List Expr} (hKind : t.kind = .ident)
      (hArgs : DerivesArgs u es) : Derives 7 (t :: u) (.call (.point 0) t.text es)
  | cast {opening type closing : Token} {u : List Token} {e : Expr}
      (hOpening : opening.kind = .lparen) (hType : type.kind = .type)
      (hClosing : closing.kind = .rparen) (h : Derives 6 u e) :
      Derives 7 (opening :: type :: closing :: u) (.cast (.point 0) type.text e)
  | group {opening closing : Token} {u : List Token} {e : Expr} (hOpening : opening.kind = .lparen)
      (hClosing : closing.kind = .rparen) (h : Derives 1 u e) :
      Derives 7 (opening :: (u ++ [closing])) e

/-- Arguments with the parentheses around them. -/
inductive DerivesArgs : List Token → List Expr → Prop where
  | none {opening closing : Token} (hOpening : opening.kind = .lparen)
      (hClosing : closing.kind = .rparen) : DerivesArgs [opening, closing] []
  | some {opening closing : Token} {u : List Token} {es : List Expr}
      (hOpening : opening.kind = .lparen) (hClosing : closing.kind = .rparen)
      (h : DerivesList u es) : DerivesArgs (opening :: (u ++ [closing])) es

/-- One or more expressions with commas between them. -/
inductive DerivesList : List Token → List Expr → Prop where
  | one {u : List Token} {e : Expr} (h : Derives 1 u e) : DerivesList u [e]
  | more {u v : List Token} {comma : Token} {e : Expr} {es : List Expr} (h : Derives 1 u e)
      (hComma : comma.kind = .comma) (hs : DerivesList v es) :
      DerivesList (u ++ comma :: v) (e :: es)

end

/-- The layers of the grammar have the operators that the parser knows, each at its precedence. -/
theorem mem_operators {k : Nat} {kind : Token.Kind} {op : BinaryOp} :
    (k, kind, op) ∈ operators ↔ BinaryOp.ofKind? kind = some op ∧ op.precedence = k := by
  constructor
  · have hTable : ∀ entry ∈ operators, BinaryOp.ofKind? entry.2.1 = some entry.2.2 ∧
        entry.2.2.precedence = entry.1 := by decide
    exact hTable (k, kind, op)
  · rintro ⟨hKind, rfl⟩
    cases kind <;> cases hKind <;> decide

/-- The signs of the grammar are the unary operators that the parser knows. -/
theorem mem_signs {kind : Token.Kind} {op : UnaryOp} :
    (kind, op) ∈ signs ↔ UnaryOp.ofKind? kind = some op := by
  constructor
  · have hTable : ∀ entry ∈ signs, UnaryOp.ofKind? entry.1 = some entry.2 := by decide
    exact hTable (kind, op)
  · intro hKind
    cases kind <;> cases hKind <;> decide

/-- The precedences of the operators are those of the layers between the loosest and the operands.
-/
theorem precedence_bounds (op : BinaryOp) : 1 ≤ op.precedence ∧ op.precedence ≤ 5 := by
  cases op <;> decide

/-- What is in a layer is in every layer below it. -/
theorem Derives.anti {j k : Nat} {u : List Token} {e : Expr} (hJ : 1 ≤ j) (hJK : j ≤ k)
    (hK : k ≤ 7) (h : Derives k u e) : Derives j u e := by
  induction k, hJK using Nat.le_induction with
  | base => exact h
  | succ k hJK ih => exact ih (by omega) (.tighter ⟨by omega, by omega⟩ h)

/-- How an expression starts. -/
theorem Derives.head {k : Nat} {u : List Token} {e : Expr} :
    Derives k u e → ∃ t v, u = t :: v ∧ t.kind ∉ [.type, .rparen]
  | .tighter _ h => h.head
  | .chain _ hLhs _ => by
      obtain ⟨first, more, rfl, hFirst⟩ := hLhs.head
      exact ⟨first, _, rfl, hFirst⟩
  | .sign hSign _ => by
      have hTable : ∀ entry ∈ signs, entry.1 ∉ [.type, .rparen] := by decide
      exact ⟨_, _, rfl, hTable _ hSign⟩
  | .number hKind _ | .yes hKind | .no hKind | .str hKind | .name hKind | .call hKind _ => by
      exact ⟨_, _, rfl, by simp [hKind]⟩
  | .cast hOpening _ _ _ | .group hOpening _ _ => by
      exact ⟨_, _, rfl, by simp [hOpening]⟩

/-- A row of arguments starts as an expression does, so not with a type or a closing parenthesis. -/
theorem DerivesList.head {u : List Token} {es : List Expr} :
    DerivesList u es → ∃ t v, u = t :: v ∧ t.kind ∉ [.type, .rparen]
  | .one h => h.head
  | .more h _ _ => by
      obtain ⟨first, more, rfl, hFirst⟩ := h.head
      exact ⟨first, _, rfl, hFirst⟩

theorem DerivesArgs.head {u : List Token} {es : List Expr} :
    DerivesArgs u es → ∃ t v, u = t :: v ∧ t.kind = .lparen
  | .none hOpening _ | .some hOpening _ _ => ⟨_, _, rfl, hOpening⟩

section Written

variable {voc : Vocabulary} {u : List Token}

-- What is derived is written in the words of its tokens.
mutual

/-- An expression is written in the words of its tokens. -/
theorem Derives.written {k : Nat} {u : List Token} {e : Expr} :
    Derives k u e → (∀ t ∈ u, voc.Covers t) → e.Written voc
  | .tighter _ h, hU => h.written hU
  | .chain _ hLhs hRhs, hU => by
      rw [List.forall_mem_append, List.forall_mem_cons] at hU
      exact ⟨hLhs.written hU.1, hRhs.written hU.2.2⟩
  | .sign _ h, hU => h.written (List.forall_mem_cons.1 hU).2
  | .number hKind hValue, hU => (List.forall_mem_cons.1 hU).1.literal hKind _ hValue
  | .yes _, _ | .no _, _ => trivial
  | .str hKind, hU | .name hKind, hU => (List.forall_mem_cons.1 hU).1.spells hKind
  | .call hKind hArgs, hU => by
      rw [List.forall_mem_cons] at hU
      exact ⟨hU.1.spells hKind, hArgs.written hU.2⟩
  | .cast _ hType _ h, hU => by
      rw [List.forall_mem_cons, List.forall_mem_cons, List.forall_mem_cons] at hU
      exact ⟨hU.2.1.spells hType, h.written hU.2.2.2⟩
  | .group _ _ h, hU => by
      rw [List.forall_mem_cons, List.forall_mem_append] at hU
      exact h.written hU.2.1

theorem DerivesArgs.written {u : List Token} {es : List Expr} :
    DerivesArgs u es → (∀ t ∈ u, voc.Covers t) → Expr.AllWritten voc es
  | .none _ _, _ => trivial
  | .some _ _ h, hU => by
      rw [List.forall_mem_cons, List.forall_mem_append] at hU
      exact h.written hU.2.1

theorem DerivesList.written {u : List Token} {es : List Expr} :
    DerivesList u es → (∀ t ∈ u, voc.Covers t) → Expr.AllWritten voc es
  | .one h, hU => ⟨h.written hU, trivial⟩
  | .more h _ hs, hU => by
      rw [List.forall_mem_append, List.forall_mem_cons] at hU
      exact ⟨h.written hU.1, hs.written hU.2.2⟩

end

end Written

end Grammar

/-- The tokens that were read between two places. -/
structure Cursor.Moves (c : Cursor) (u : List Token) (d : Cursor) : Prop where
  ahead : c.ahead = u ++ d.ahead
  behind : d.behind = u.reverse ++ c.behind
  finish : d.finish = c.finish

/-- No operator stands ahead that binds tighter than the floor. -/
def Cursor.Stops (floor : Nat) (c : Cursor) : Prop :=
  ∀ t ∈ c.ahead.head?, ∀ op, BinaryOp.ofKind? t.kind = some op → op.precedence ≤ floor

namespace Cursor

variable {c d d' : Cursor} {u v : List Token}

theorem Moves.refl (c : Cursor) : c.Moves [] c := ⟨rfl, rfl, rfl⟩

/-- Moves in turn read the tokens of both. -/
theorem Moves.trans {e : Cursor} (h : c.Moves u d) (h' : d.Moves v e) : c.Moves (u ++ v) e where
  ahead := by rw [h.ahead, h'.ahead, List.append_assoc]
  behind := by rw [h'.behind, h.behind, List.reverse_append, List.append_assoc]
  finish := h'.finish.trans h.finish

/-- The tokens that are read decide the place that is left. -/
theorem Moves.eq (h : c.Moves u d) (h' : c.Moves u d') : d = d' := by
  have hAhead := List.append_cancel_left (h.ahead.symm.trans h'.ahead)
  have hBehind := h.behind.trans h'.behind.symm
  have hFinish := h.finish.trans h'.finish.symm
  cases d
  cases d'
  exact Cursor.mk.injEq .. |>.mpr ⟨hBehind, hAhead, hFinish⟩

/-- A step reads one token. -/
theorem moves_of_step? {r : Parsed Token c.size} (h : c.step? = some r) :
    c.Moves [r.value] r.rest := by
  obtain ⟨hAhead, hRest⟩ := step?_eq_some.1 h
  exact ⟨hAhead, by rw [hRest]; rfl, by rw [hRest]⟩

/-- Between the tokens of two rows there is a place. -/
theorem Moves.split (h : c.Moves (u ++ v) d) : ∃ mid, c.Moves u mid ∧ mid.Moves v d := by
  refine ⟨⟨u.reverse ++ c.behind, v ++ d.ahead, c.finish⟩, ⟨?_, rfl, rfl⟩, ⟨rfl, ?_, h.finish⟩⟩
  · rw [h.ahead, List.append_assoc]
  · rw [h.behind, List.reverse_append, List.append_assoc]

/-- A move past a row starts with a step past its first token. -/
theorem Moves.cons {t : Token} (h : c.Moves (t :: u) d) :
    ∃ r, c.step? = some r ∧ r.value = t ∧ r.rest.Moves u d := by
  have hSize : (⟨t :: c.behind, u ++ d.ahead, c.finish⟩ : Cursor).size < c.size := by
    simp [size, h.ahead]
  refine ⟨⟨t, ⟨t :: c.behind, u ++ d.ahead, c.finish⟩, hSize⟩, ?_, rfl, rfl, ?_, h.finish⟩
  · exact step?_eq_some.2 ⟨h.ahead, rfl⟩
  · rw [h.behind, List.reverse_cons, List.append_assoc]
    rfl

theorem Moves.avoids {t : Token} {kind : Token.Kind} (h : c.Moves (t :: u) d)
    (hKind : t.kind ≠ kind) : Lexeme.Avoids kind c.lexemes := by
  simpa [Lexeme.Avoids, lexemes, h.ahead, Token.lexeme] using hKind

/-- A row that starts with none of some kinds leaves none of them to be accepted. -/
theorem Moves.avoids_append {kind : Token.Kind} {kinds : List Token.Kind}
    (h : c.Moves (u ++ v) d) (hHead : ∃ t more, u = t :: more ∧ t.kind ∉ kinds)
    (hKind : kind ∈ kinds) : Lexeme.Avoids kind c.lexemes := by
  obtain ⟨t, more, rfl, hT⟩ := hHead
  exact h.avoids fun hEq => hT (hEq ▸ hKind)

theorem Stops.mono {floor floor' : Nat} (h : c.Stops floor) (hLe : floor ≤ floor') :
    c.Stops floor' := fun t hT op hOp => (h t hT op hOp).trans hLe

/-- No operator binds tighter than all the operators do. -/
theorem stops_of_five_le {floor : Nat} (hFloor : 5 ≤ floor) (c : Cursor) : c.Stops floor :=
  fun _ _ op _ => (Grammar.precedence_bounds op).2.trans hFloor

theorem stops_of_step?_eq_none {floor : Nat} (h : c.step? = none) : c.Stops floor := by
  intro t hT
  rw [step?_eq_none.1 h] at hT
  cases hT

/-- Whether a chain stops depends only on the next token. -/
theorem stops_iff_of_step? {floor : Nat} {r : Parsed Token c.size} (h : c.step? = some r) :
    c.Stops floor ↔ ∀ op, BinaryOp.ofKind? r.value.kind = some op → op.precedence ≤ floor := by
  simp [Stops, (step?_eq_some.1 h).1]

theorem Moves.stops {t : Token} (h : c.Moves (t :: u) d)
    (hKind : BinaryOp.ofKind? t.kind = none) : c.Stops 0 := by
  simp [Stops, h.ahead, hKind]

end Cursor

namespace Expr

open Grammar

-- The readers call each other as they do in their definitions, and end for the same reason.
mutual

/-- What is parsed above a floor is an expression of the next layer, and no operator above the floor
follows. -/
theorem derives_of_parse {floor : Nat} {c : Cursor} {r : Parsed Expr c.size}
    (h : parse floor c = .ok r) :
    ∃ u, c.Moves u r.rest ∧ Derives (min (floor + 1) 6) u r.value.eraseSpans ∧
      r.rest.Stops floor := by
  rw [parse] at h
  simp only [bind_eq_ok, pure_eq_ok] at h
  obtain ⟨first, hFirst, whole, hWhole, rfl⟩ := h
  obtain ⟨u, hMoves, hDerives⟩ := derives_of_parseUnary hFirst
  obtain ⟨v, hMoves', hDerives', hStops⟩ := derives_of_parseChain hDerives (Nat.min_le_right _ _)
    le_rfl (Cursor.stops_of_five_le (by omega) _) hWhole
  exact ⟨u ++ v, hMoves.trans hMoves', hDerives', hStops⟩
termination_by (c.size, 2)
decreasing_by
  · exact .right _ (by omega)
  · exact .left _ _ first.size_lt

/-- The expression so far is in a layer in which the operator ahead, if there is one, goes on. -/
theorem derives_of_parseChain {floor : Nat} {lhs : Expr} {c : Cursor}
    {r : Parsed Expr (c.size + 1)} {k : Nat} {u : List Token} (hLhs : Derives k u lhs.eraseSpans)
    (hFloor : min (floor + 1) 6 ≤ k) (hK : k ≤ 6) (hNext : c.Stops k) :
    parseChain floor lhs c = .ok r →
      ∃ v, c.Moves v r.rest ∧ Derives (min (floor + 1) 6) (u ++ v) r.value.eraseSpans ∧
        r.rest.Stops floor := by
  have hStay (hStops : c.Stops floor) : ∃ v, c.Moves v c ∧
      Derives (min (floor + 1) 6) (u ++ v) lhs.eraseSpans ∧ c.Stops floor := by
    refine ⟨[], .refl c, ?_, hStops⟩
    rw [List.append_nil]
    exact hLhs.anti (by omega) hFloor (by omega)
  fun_cases parseChain floor lhs c with
  | case1 hEnd =>
      rintro ⟨⟩
      exact hStay (Cursor.stops_of_step?_eq_none hEnd)
  | case2 next hStep hNone =>
      rintro ⟨⟩
      exact hStay ((Cursor.stops_iff_of_step? hStep).2 (by simp [hNone]))
  | case3 next hStep op hOp hLow =>
      rintro ⟨⟩
      exact hStay ((Cursor.stops_iff_of_step? hStep).2 (by simpa [hOp] using hLow))
  | case4 next hStep op hOp hHigh =>
      simp only [bind_eq_ok, pure_eq_ok]
      rintro ⟨rhs, hRhs, whole, hWhole, rfl⟩
      have hLess := next.size_lt
      have hBounds := precedence_bounds op
      obtain ⟨v, hMoves', hDerives, hStops⟩ := derives_of_parse hRhs
      have hLayer : op.precedence ≤ k := (Cursor.stops_iff_of_step? hStep).1 hNext op hOp
      rw [show min (op.precedence + 1) 6 = op.precedence + 1 by omega] at hDerives
      have hJoined : Derives op.precedence (u ++ next.value :: v)
          (binary ⟨lhs.span.start, rhs.value.span.stop⟩ op lhs rhs.value).eraseSpans := by
        rw [eraseSpans]
        exact .chain (mem_operators.2 ⟨hOp, rfl⟩) (hLhs.anti hBounds.1 hLayer (by omega)) hDerives
      obtain ⟨w, hMoves'', hDerives', hStops'⟩ := derives_of_parseChain hJoined (by omega)
        (by omega) hStops hWhole
      have hMoves := (Cursor.moves_of_step? hStep).trans hMoves'
      refine ⟨next.value :: (v ++ w), hMoves.trans hMoves'', ?_, hStops'⟩
      rw [List.append_assoc, List.cons_append] at hDerives'
      exact hDerives'
termination_by (c.size, 0)
decreasing_by
  · exact .left _ _ hLess
  · exact .left _ _ (Nat.lt_trans rhs.size_lt hLess)

/-- An operand that is parsed is one of the grammar. -/
theorem derives_of_parseUnary {c : Cursor} {r : Parsed Expr c.size} :
    parseUnary c = .ok r → ∃ u, c.Moves u r.rest ∧ Derives 6 u r.value.eraseSpans := by
  fun_cases parseUnary c with
  | case1 => rintro ⟨⟩
  | case2 next hNext =>
      intro h
      obtain ⟨u, hMoves, hDerives⟩ := derives_of_parsePrimary hNext h
      exact ⟨u, hMoves, .tighter (by omega) hDerives⟩
  | case3 next hNext op hOp =>
      simp only [bind_eq_ok, pure_eq_ok]
      rintro ⟨operand, hOperand, rfl⟩
      have hLess := next.size_lt
      obtain ⟨u, hMoves, hDerives, -⟩ := derives_of_parse hOperand
      refine ⟨next.value :: u, (Cursor.moves_of_step? hNext).trans hMoves, ?_⟩
      exact .sign (mem_signs.2 hOp) hDerives
termination_by (c.size, 1)
decreasing_by
  · exact .right _ (by omega)
  · exact .left _ _ hLess

/-- An atom that is parsed is one of the grammar. -/
theorem derives_of_parsePrimary {c : Cursor} {next : Parsed Token c.size} {r : Parsed Expr c.size}
    (hNext : c.step? = some next) :
    parsePrimary c next = .ok r → ∃ u, c.Moves u r.rest ∧ Derives 7 u r.value.eraseSpans := by
  have hMoves := Cursor.moves_of_step? hNext
  fun_cases parsePrimary c next with
  | case1 _ hKind =>
      simp only [bind_eq_ok, pure_eq_ok]
      rintro ⟨value, hValue, rfl⟩
      exact ⟨_, hMoves, .number hKind (ofNumber_eq_ok hValue)⟩
  | case2 _ hKind =>
      rintro ⟨⟩
      exact ⟨_, hMoves, .yes hKind⟩
  | case3 _ hKind =>
      rintro ⟨⟩
      exact ⟨_, hMoves, .no hKind⟩
  | case4 _ hKind =>
      rintro ⟨⟩
      exact ⟨_, hMoves, .str hKind⟩
  | case5 _ hKind hOpens =>
      simp only [bind_eq_ok, pure_eq_ok]
      rintro ⟨args, hArgs, rfl⟩
      have hLess := next.size_lt
      obtain ⟨u, hMoves', hDerives⟩ := derives_of_parseArgs hArgs
      exact ⟨next.value :: u, hMoves.trans hMoves', .call hKind hDerives⟩
  | case6 _ hKind hOther =>
      rintro ⟨⟩
      exact ⟨_, hMoves, .name hKind⟩
  | case7 _ hKind type hType =>
      obtain ⟨hStep, hIsType⟩ := Cursor.accept?_eq_some.1 hType
      simp only [bind_eq_ok, pure_eq_ok]
      rintro ⟨closing, hClosing, operand, hOperand, rfl⟩
      obtain ⟨hClose, hIsClosing⟩ := Cursor.require_eq_ok.1 hClosing
      have hLess := (next.before (type.before closing)).size_lt
      obtain ⟨u, hMoves', hDerives, -⟩ := derives_of_parse hOperand
      refine ⟨next.value :: type.value :: closing.value :: u, ?_, ?_⟩
      · exact ((hMoves.trans (Cursor.moves_of_step? hStep)).trans
          (Cursor.moves_of_step? hClose)).trans hMoves'
      · exact .cast hKind hIsType hIsClosing hDerives
  | case8 _ hKind hNone =>
      simp only [bind_eq_ok, pure_eq_ok]
      rintro ⟨inner, hInner, closing, hClosing, rfl⟩
      obtain ⟨hClose, hIsClosing⟩ := Cursor.require_eq_ok.1 hClosing
      have hLess := next.size_lt
      obtain ⟨u, hMoves', hDerives, -⟩ := derives_of_parse hInner
      refine ⟨next.value :: (u ++ [closing.value]), ?_, ?_⟩
      · exact hMoves.trans (hMoves'.trans (Cursor.moves_of_step? hClose))
      · simp only [Parsed.before, Parsed.give, eraseSpans_withSpan]
        exact .group hKind hIsClosing hDerives
  | case9 => rintro ⟨⟩
termination_by (c.size, 0)
decreasing_by
  · exact .left _ _ hLess
  · exact .left _ _ hLess
  · exact .left _ _ hLess

/-- The arguments that are parsed are arguments of the grammar. -/
theorem derives_of_parseArgs {c : Cursor} {r : Parsed (List Expr) c.size}
    (h : parseArgs c = .ok r) :
    ∃ u, c.Moves u r.rest ∧ DerivesArgs u (eraseAllSpans r.value) := by
  rw [parseArgs] at h
  obtain ⟨opening, hOpening, h⟩ := bind_eq_ok.1 h
  obtain ⟨hOpen, hIsOpening⟩ := Cursor.require_eq_ok.1 hOpening
  have hMoves := Cursor.moves_of_step? hOpen
  cases hAccept : opening.rest.accept? .rparen with
  | some closing =>
      obtain ⟨hClose, hIsClosing⟩ := Cursor.accept?_eq_some.1 hAccept
      rw [hAccept] at h
      cases h
      exact ⟨_, hMoves.trans (Cursor.moves_of_step? hClose), .none hIsOpening hIsClosing⟩
  | none =>
      simp only [hAccept, bind_eq_ok, pure_eq_ok] at h
      obtain ⟨args, hArgs, rfl⟩ := h
      have hLess := opening.size_lt
      obtain ⟨u, closing, hMoves', hIsClosing, hDerives⟩ := derives_of_parseList hArgs
      exact ⟨_, hMoves.trans hMoves', .some hIsOpening hIsClosing hDerives⟩
termination_by (c.size, 0)
decreasing_by exact .left _ _ hLess

theorem derives_of_parseList {c : Cursor} {r : Parsed (List Expr) c.size}
    (h : parseList c = .ok r) :
    ∃ u closing, c.Moves (u ++ [closing]) r.rest ∧ closing.kind = .rparen ∧
      DerivesList u (eraseAllSpans r.value) := by
  rw [parseList] at h
  obtain ⟨first, hFirst, h⟩ := bind_eq_ok.1 h
  obtain ⟨u, hMoves, hDerives, -⟩ := derives_of_parse hFirst
  cases hComma : first.rest.accept? .comma with
  | some comma =>
      obtain ⟨hStep, hIsComma⟩ := Cursor.accept?_eq_some.1 hComma
      simp only [hComma, bind_eq_ok, pure_eq_ok] at h
      obtain ⟨others, hOthers, rfl⟩ := h
      have hLess := (first.before comma).size_lt
      obtain ⟨v, closing, hMoves', hIsClosing, hDerives'⟩ := derives_of_parseList hOthers
      refine ⟨u ++ comma.value :: v, closing, ?_, hIsClosing, .more hDerives hIsComma hDerives'⟩
      have hAll := hMoves.trans ((Cursor.moves_of_step? hStep).trans hMoves')
      rw [List.append_assoc]
      exact hAll
  | none =>
      simp only [hComma, bind_eq_ok, pure_eq_ok] at h
      obtain ⟨closing, hClosing, rfl⟩ := h
      obtain ⟨hClose, hIsClosing⟩ := Cursor.require_eq_ok.1 hClosing
      exact ⟨u, closing.value, hMoves.trans (Cursor.moves_of_step? hClose), hIsClosing,
        .one hDerives⟩
termination_by (c.size, 3)
decreasing_by
  · exact .right _ (by omega)
  · exact .left _ _ hLess

end

/-- What is read from a place is a tree, and another place is left. -/
def Leads (e : Expr) (d : Cursor) {limit : Nat} (r : Parsed Expr limit) : Prop :=
  r.value.eraseSpans = e ∧ r.rest = d

/-- A tree is read first, and the chain is read on from where it ends. -/
def Continues (floor : Nat) (c : Cursor) (e : Expr) (d : Cursor) : Prop :=
  ∃ lhs : Expr, lhs.eraseSpans = e ∧ ∀ w, parseChain floor lhs d = .ok w →
    ∃ r, parse floor c = .ok r ∧ r.value = w.value ∧ r.rest = w.rest

/-- A tree of a layer is read: as an operand, or as the start of a chain. -/
structure IsRead (k : Nat) (c : Cursor) (e : Expr) (d : Cursor) : Prop where
  operand : 6 ≤ k → ∃ r, parseUnary c = .ok r ∧ Leads e d r
  chain : k ≤ 5 → d.Stops k → ∀ floor < k, Continues floor c e d

/-- A chain is read on from an operand, at any floor. -/
theorem continues_of_parseUnary {c d : Cursor} {e : Expr}
    (h : ∃ r, parseUnary c = .ok r ∧ Leads e d r) (floor : Nat) : Continues floor c e d := by
  obtain ⟨first, hFirst, hErase, rfl⟩ := h
  refine ⟨first.value, hErase, fun w hW => ⟨w.relax first.size_lt, ?_, rfl, rfl⟩⟩
  rw [parse]
  exact bind_eq_ok.2 ⟨first, hFirst, bind_eq_ok.2 ⟨w, hW, rfl⟩⟩

/-- A chain ends where it stops. -/
theorem parseChain_of_stops {floor : Nat} {lhs : Expr} {c : Cursor} (h : c.Stops floor) :
    parseChain floor lhs c = .ok ⟨lhs, c, Nat.lt_succ_self _⟩ := by
  fun_cases parseChain floor lhs c with
  | case1 => rfl
  | case2 => rfl
  | case3 => rfl
  | case4 next hStep op hOp hHigh =>
      exact absurd ((Cursor.stops_iff_of_step? hStep).1 h op hOp) hHigh

/-- A chain goes on past an operator that is above its floor, with the operand after that. -/
theorem parseChain_of_operator {floor : Nat} {lhs : Expr} {c : Cursor}
    {next : Parsed Token c.size} {op : BinaryOp} (hStep : c.step? = some next)
    (hOp : BinaryOp.ofKind? next.value.kind = some op) (hFloor : floor < op.precedence)
    {rhs : Parsed Expr next.rest.size} (hRhs : parse op.precedence next.rest = .ok rhs)
    {w : Parsed Expr (rhs.rest.size + 1)}
    (hW : parseChain floor (binary ⟨lhs.span.start, rhs.value.span.stop⟩ op lhs rhs.value)
      rhs.rest = .ok w) :
    ∃ r, parseChain floor lhs c = .ok r ∧ r.value = w.value ∧ r.rest = w.rest := by
  refine ⟨w.relax (Nat.le_succ_of_le (next.before rhs).size_lt), ?_, rfl, rfl⟩
  rw [parseChain]
  simp only [hStep, hOp, if_neg (Nat.not_le.2 hFloor)]
  exact bind_eq_ok.2 ⟨rhs, hRhs, bind_eq_ok.2 ⟨w, hW, rfl⟩⟩

/-- Above its own layer, an expression is read as the start of a chain. -/
theorem IsRead.continues {k floor : Nat} {c d : Cursor} {e : Expr} (h : IsRead k c e d)
    (hFloor : floor < k ∨ 6 ≤ k) (hStops : d.Stops k) : Continues floor c e d := by
  by_cases hK : 6 ≤ k
  · exact continues_of_parseUnary (h.operand hK) floor
  · exact h.chain (by omega) hStops floor (by omega)

/-- A tree that no operator goes on with is the whole of what is read. -/
theorem IsRead.exists_parse {k floor : Nat} {c d : Cursor} {e : Expr} (h : IsRead k c e d)
    (hFloor : floor < k ∨ 6 ≤ k) (hStops : d.Stops floor) :
    ∃ r, parse floor c = .ok r ∧ Leads e d r := by
  have hLayer : d.Stops k := by
    rcases hFloor with hLt | hLe
    · exact hStops.mono hLt.le
    · exact Cursor.stops_of_five_le (by omega) d
  obtain ⟨lhs, hErase, hOn⟩ := h.continues hFloor hLayer
  obtain ⟨r, hParse, hValue, hRest⟩ := hOn _ (parseChain_of_stops hStops)
  exact ⟨r, hParse, by rw [hValue]; exact hErase, hRest⟩

/-- An operand is read in the layers of operands. -/
theorem isRead_of_parseUnary {k : Nat} {c d : Cursor} {e : Expr} (hK : 6 ≤ k)
    (h : ∃ r, parseUnary c = .ok r ∧ Leads e d r) : IsRead k c e d :=
  ⟨fun _ => h, fun hLe => absurd hK (by omega)⟩

/-- What is read in a layer is read in the looser one below it. -/
theorem IsRead.looser {k : Nat} {c d : Cursor} {e : Expr} (h : IsRead (k + 1) c e d)
    (hLe : k ≤ 6) : IsRead k c e d where
  operand hK := h.operand (by omega)
  chain hK hStops floor hFloor := h.continues (by omega) (hStops.mono (Nat.le_succ k))

/-- A chain goes on with an operator of its layer: the operator ahead stops the right operand, and
is read after the left one. -/
theorem IsRead.join {k : Nat} {c mid d : Cursor} {lhs rhs : Expr} {op : BinaryOp}
    {next : Parsed Token mid.size} (hStep : mid.step? = some next)
    (hOp : BinaryOp.ofKind? next.value.kind = some op) (hK : op.precedence = k)
    (hLhs : IsRead k c lhs mid) (hRhs : IsRead (k + 1) next.rest rhs d) :
    IsRead k c (binary (.point 0) op lhs rhs) d := by
  have hBounds := precedence_bounds op
  refine ⟨fun hLe => absurd hLe (by omega), fun _ hStops floor hFloor => ?_⟩
  have hMid : mid.Stops k := (Cursor.stops_iff_of_step? hStep).2 fun op' hOp' => by
    cases hOp.symm.trans hOp'
    exact hK.le
  obtain ⟨left, hLeft, hOn⟩ := hLhs.continues (.inl hFloor) hMid
  obtain ⟨right, hRight, hErase, hRest⟩ := hRhs.exists_parse (.inl (Nat.lt_succ_self k)) hStops
  rw [← hK] at hRight
  refine ⟨binary ⟨left.span.start, right.value.span.stop⟩ op left right.value, ?_, fun w hW => ?_⟩
  · rw [eraseSpans, hLeft, hErase]
  · subst hRest
    obtain ⟨whole, hWhole, hValue, hAfter⟩ :=
      parseChain_of_operator hStep hOp (hK ▸ hFloor) hRight hW
    obtain ⟨r, hParse, hValue', hAfter'⟩ := hOn whole hWhole
    exact ⟨r, hParse, hValue'.trans hValue, hAfter'.trans hAfter⟩

/-- Without a sign in front, an operand is an atom. -/
theorem parseUnary_eq_parsePrimary {c : Cursor} {next : Parsed Token c.size}
    (hStep : c.step? = some next) (hKind : UnaryOp.ofKind? next.value.kind = none) :
    parseUnary c = parsePrimary c next := by
  rw [parseUnary]
  simp only [hStep, hKind]

/-- An operand of one token. -/
theorem isRead_atom {c d : Cursor} {next : Parsed Token c.size} {e : Expr}
    (hStep : c.step? = some next) (hSign : UnaryOp.ofKind? next.value.kind = none)
    (hRest : next.rest.Moves [] d) (h : parsePrimary c next = .ok (next.give e)) :
    IsRead 7 c e.eraseSpans d := by
  refine isRead_of_parseUnary (by decide) ⟨next.give e, ?_, rfl, (Cursor.Moves.refl _).eq hRest⟩
  rw [parseUnary_eq_parsePrimary hStep hSign, h]

mutual

/-- A derived tree is read, if no call goes on with it. -/
theorem isRead_of_derives {k : Nat} {u : List Token} {e : Expr} {c d : Cursor} :
    Derives k u e → c.Moves u d → Lexeme.Avoids .lparen d.lexemes → IsRead k c e d
  | .tighter hLayer h, hMoves, hCall => (isRead_of_derives h hMoves hCall).looser hLayer.2
  | .chain hOp hLhs hRhs, hMoves, hCall => by
      obtain ⟨hKind, hK⟩ := mem_operators.1 hOp
      obtain ⟨mid, hLeft, hMoves⟩ := hMoves.split
      obtain ⟨next, hStep, rfl, hRight⟩ := hMoves.cons
      have hMid : Lexeme.Avoids .lparen mid.lexemes := hMoves.avoids (by
        intro hEq
        rw [hEq] at hKind
        cases hKind)
      exact .join hStep hKind hK (isRead_of_derives hLhs hLeft hMid)
        (isRead_of_derives hRhs hRight hCall)
  | @Derives.sign _ t op e hSign h, hMoves, hCall => by
      obtain ⟨next, hStep, rfl, hOperand⟩ := hMoves.cons
      obtain ⟨r, hParse, hErase, hRest⟩ : ∃ r, parse UnaryOp.precedence next.rest = .ok r ∧
          Leads _ d r :=
        (isRead_of_derives h hOperand hCall).exists_parse (.inr le_rfl)
          (Cursor.stops_of_five_le (by decide) d)
      let span : Span := ⟨next.value.span.start, r.value.span.stop⟩
      refine isRead_of_parseUnary le_rfl
        ⟨next.before (r.give (unary span op r.value)), ?_, ?_, hRest⟩
      · rw [parseUnary]
        simp only [hStep, mem_signs.1 hSign]
        exact bind_eq_ok.2 ⟨r, hParse, rfl⟩
      · simp only [Parsed.before, Parsed.give, eraseSpans, hErase]
  | @Derives.number t value hKind hValue, hMoves, _ => by
      obtain ⟨next, hStep, rfl, hRest⟩ := hMoves.cons
      have hNumber : ofNumber next.value = .ok value := by rw [ofNumber, hValue]
      refine @isRead_atom c d next (number next.value.span value) hStep (by rw [hKind]; rfl)
        hRest ?_
      rw [parsePrimary]
      simp only [hKind]
      exact bind_eq_ok.2 ⟨value, hNumber, rfl⟩
  | .yes hKind, hMoves, _ => by
      obtain ⟨next, hStep, rfl, hRest⟩ := hMoves.cons
      refine @isRead_atom c d next (bool next.value.span true) hStep (by rw [hKind]; rfl) hRest ?_
      rw [parsePrimary]
      simp only [hKind]
  | .no hKind, hMoves, _ => by
      obtain ⟨next, hStep, rfl, hRest⟩ := hMoves.cons
      refine @isRead_atom c d next (bool next.value.span false) hStep (by rw [hKind]; rfl) hRest ?_
      rw [parsePrimary]
      simp only [hKind]
  | .str hKind, hMoves, _ => by
      obtain ⟨next, hStep, rfl, hRest⟩ := hMoves.cons
      refine @isRead_atom c d next (str next.value.span next.value.text) hStep (by rw [hKind]; rfl)
        hRest ?_
      rw [parsePrimary]
      simp only [hKind]
  | .name hKind, hMoves, hCall => by
      obtain ⟨next, hStep, rfl, hRest⟩ := hMoves.cons
      have hPeek : ¬ next.rest.peek.kind = .lparen := by
        rw [(Cursor.Moves.refl _).eq hRest]
        exact Cursor.peek_kind_ne (by decide) hCall
      refine @isRead_atom c d next (ident next.value.span next.value.text) hStep
        (by rw [hKind]; rfl) hRest ?_
      rw [parsePrimary]
      simp only [hKind, if_neg hPeek]
  | .call hKind hArgs, hMoves, _ => by
      obtain ⟨next, hStep, rfl, hAfter⟩ := hMoves.cons
      obtain ⟨r, hParse, hErase, hRest⟩ := exists_parseArgs_of_derives hArgs hAfter
      obtain ⟨opening, more, rfl, hOpening⟩ := hArgs.head
      have hPeek : next.rest.peek.kind = .lparen := by
        simp [Cursor.peek, Cursor.peekAt, hAfter.ahead, hOpening]
      let span : Span := ⟨next.value.span.start, r.rest.lastStop⟩
      refine isRead_of_parseUnary (by decide)
        ⟨next.before (r.give (call span next.value.text r.value)), ?_, ?_, hRest⟩
      · rw [parseUnary_eq_parsePrimary hStep (by rw [hKind]; rfl), parsePrimary]
        simp only [hKind, if_pos hPeek]
        exact bind_eq_ok.2 ⟨r, hParse, rfl⟩
      · simp only [Parsed.before, Parsed.give, eraseSpans, hErase]
  | .cast hOpening hType hClosing h, hMoves, hCall => by
      obtain ⟨next, hStep, rfl, hInside⟩ := hMoves.cons
      obtain ⟨type, hTypeStep, rfl, hAfter⟩ := hInside.cons
      obtain ⟨closing, hClosingStep, rfl, hOperand⟩ := hAfter.cons
      have hAccept : next.rest.accept? .type = some type :=
        Cursor.accept?_eq_some.2 ⟨hTypeStep, hType⟩
      have hRequire : type.rest.require .rparen = .ok closing :=
        Cursor.require_eq_ok.2 ⟨hClosingStep, hClosing⟩
      obtain ⟨r, hParse, hErase, hRest⟩ : ∃ r, parse castPrecedence closing.rest = .ok r ∧
          Leads _ d r :=
        (isRead_of_derives h hOperand hCall).exists_parse (.inr le_rfl)
          (Cursor.stops_of_five_le (by decide) d)
      let span : Span := ⟨next.value.span.start, r.value.span.stop⟩
      refine isRead_of_parseUnary (by decide) ⟨next.before (type.before (closing.before
        (r.give (cast span type.value.text r.value)))), ?_, ?_, hRest⟩
      · rw [parseUnary_eq_parsePrimary hStep (by rw [hOpening]; rfl), parsePrimary]
        simp only [hOpening, hAccept]
        exact bind_eq_ok.2 ⟨closing, hRequire, bind_eq_ok.2 ⟨r, hParse, rfl⟩⟩
      · simp only [Parsed.before, Parsed.give, eraseSpans, hErase]
  | .group hOpening hClosing h, hMoves, _ => by
      obtain ⟨next, hStep, rfl, hAfter⟩ := hMoves.cons
      have hNone : next.rest.accept? .type = none :=
        Cursor.accept?_eq_none (hAfter.avoids_append h.head (by simp))
      obtain ⟨mid, hInner, hMid⟩ := hAfter.split
      obtain ⟨r, hParse, hErase, rfl⟩ := (isRead_of_derives h hInner (hMid.avoids
        (by simp [hClosing]))).exists_parse (.inl one_pos) (hMid.stops (by rw [hClosing]; rfl))
      obtain ⟨closing, hClosingStep, rfl, hRest⟩ := hMid.cons
      have hRequire : r.rest.require .rparen = .ok closing :=
        Cursor.require_eq_ok.2 ⟨hClosingStep, hClosing⟩
      let span : Span := ⟨next.value.span.start, closing.rest.lastStop⟩
      refine isRead_of_parseUnary (by decide) ⟨next.before (r.before (closing.give
        (r.value.withSpan span))), ?_, ?_, (Cursor.Moves.refl _).eq hRest⟩
      · rw [parseUnary_eq_parsePrimary hStep (by rw [hOpening]; rfl), parsePrimary]
        simp only [hOpening, hNone]
        exact bind_eq_ok.2 ⟨r, hParse, bind_eq_ok.2 ⟨closing, hRequire, rfl⟩⟩
      · simp only [Parsed.before, Parsed.give, eraseSpans_withSpan, hErase]

/-- Arguments of the grammar are parsed. -/
theorem exists_parseArgs_of_derives {u : List Token} {es : List Expr} {c d : Cursor} :
    DerivesArgs u es → c.Moves u d →
      ∃ r, parseArgs c = .ok r ∧ eraseAllSpans r.value = es ∧ r.rest = d
  | .none hOpening hClosing, hMoves => by
      obtain ⟨opening, hStep, rfl, hAfter⟩ := hMoves.cons
      obtain ⟨closing, hStep', rfl, hRest⟩ := hAfter.cons
      have hRequire : c.require .lparen = .ok opening := Cursor.require_eq_ok.2 ⟨hStep, hOpening⟩
      have hAccept : opening.rest.accept? .rparen = some closing :=
        Cursor.accept?_eq_some.2 ⟨hStep', hClosing⟩
      refine ⟨opening.before (closing.give []), ?_, rfl, (Cursor.Moves.refl _).eq hRest⟩
      rw [parseArgs]
      refine bind_eq_ok.2 ⟨opening, hRequire, ?_⟩
      rw [hAccept]
      rfl
  | .some hOpening hClosing h, hMoves => by
      obtain ⟨opening, hStep, rfl, hAfter⟩ := hMoves.cons
      obtain ⟨r, hParse, hErase, hRest⟩ := exists_parseList_of_derives h hAfter hClosing
      have hRequire : c.require .lparen = .ok opening := Cursor.require_eq_ok.2 ⟨hStep, hOpening⟩
      have hNone : opening.rest.accept? .rparen = none :=
        Cursor.accept?_eq_none (hAfter.avoids_append h.head (by simp))
      refine ⟨opening.before r, ?_, hErase, hRest⟩
      rw [parseArgs]
      refine bind_eq_ok.2 ⟨opening, hRequire, ?_⟩
      rw [hNone]
      exact bind_eq_ok.2 ⟨r, hParse, rfl⟩

theorem exists_parseList_of_derives {u : List Token} {es : List Expr} {closing : Token}
    {c d : Cursor} : DerivesList u es → c.Moves (u ++ [closing]) d → closing.kind = .rparen →
      ∃ r, parseList c = .ok r ∧ eraseAllSpans r.value = es ∧ r.rest = d
  | .one h, hMoves, hClosing => by
      obtain ⟨mid, hFirst, hMid⟩ := hMoves.split
      obtain ⟨r, hParse, hErase, rfl⟩ := (isRead_of_derives h hFirst (hMid.avoids
        (by simp [hClosing]))).exists_parse (.inl one_pos) (hMid.stops (by rw [hClosing]; rfl))
      have hNone : r.rest.accept? .comma = none :=
        Cursor.accept?_eq_none (hMid.avoids (by simp [hClosing]))
      obtain ⟨last, hStep, rfl, hRest⟩ := hMid.cons
      have hRequire : r.rest.require .rparen = .ok last :=
        Cursor.require_eq_ok.2 ⟨hStep, hClosing⟩
      refine ⟨r.before (last.give [r.value]), ?_, ?_, (Cursor.Moves.refl _).eq hRest⟩
      · rw [parseList]
        refine bind_eq_ok.2 ⟨r, hParse, ?_⟩
        rw [hNone]
        exact bind_eq_ok.2 ⟨last, hRequire, rfl⟩
      · simp only [Parsed.before, Parsed.give, eraseAllSpans, hErase]
  | .more h hComma hs, hMoves, hClosing => by
      rw [List.append_assoc] at hMoves
      obtain ⟨mid, hFirst, hMid⟩ := hMoves.split
      obtain ⟨r, hParse, hErase, rfl⟩ := (isRead_of_derives h hFirst (hMid.avoids
        (by simp [hComma]))).exists_parse (.inl one_pos) (hMid.stops (by rw [hComma]; rfl))
      obtain ⟨comma, hStep, rfl, hOthers⟩ := hMid.cons
      obtain ⟨others, hList, hErase', hRest⟩ := exists_parseList_of_derives hs hOthers hClosing
      have hAccept : r.rest.accept? .comma = some comma :=
        Cursor.accept?_eq_some.2 ⟨hStep, hComma⟩
      refine ⟨r.before (comma.before (others.give (r.value :: others.value))), ?_, ?_, hRest⟩
      · rw [parseList]
        refine bind_eq_ok.2 ⟨r, hParse, ?_⟩
        rw [hAccept]
        exact bind_eq_ok.2 ⟨others, hList, rfl⟩
      · simp only [Parsed.before, Parsed.give, eraseAllSpans, hErase, hErase']

end

/-- Tokens after which an expression is at its end. -/
def Ends (rest : List Token) : Prop :=
  ∀ t ∈ rest.head?, t.kind ≠ .lparen ∧ ∀ k op, (k, t.kind, op) ∉ operators

/-- An expression of the grammar is parsed up to a token that ends it. -/
theorem exists_parse_of_derives {u rest behind : List Token} {finish : Nat} {e : Expr}
    (hRest : Ends rest) (h : Derives 1 u e) :
    ∃ r, parse 0 ⟨behind, u ++ rest, finish⟩ = .ok r ∧
      Leads e ⟨u.reverse ++ behind, rest, finish⟩ r := by
  have hCall : Lexeme.Avoids .lparen (Cursor.mk (u.reverse ++ behind) rest finish).lexemes := by
    intro l hL
    simp only [Cursor.lexemes, List.head?_map, Option.mem_def, Option.map_eq_some_iff] at hL
    obtain ⟨t, hT, rfl⟩ := hL
    exact (hRest t hT).1
  have hStops : (Cursor.mk (u.reverse ++ behind) rest finish).Stops 0 := by
    intro t hT op hOp
    exact absurd (mem_operators.2 ⟨hOp, rfl⟩) ((hRest t hT).2 _ op)
  have hMoves : (Cursor.mk behind (u ++ rest) finish).Moves u
      ⟨u.reverse ++ behind, rest, finish⟩ := ⟨rfl, rfl, rfl⟩
  exact (isRead_of_derives h hMoves hCall).exists_parse (.inl one_pos) hStops

/-- Reading by precedence is the grammar in layers: an expression is read from tokens and no others
if and only if they derive it, and they derive one expression. -/
theorem parse_iff_derives (u rest behind : List Token) (finish : Nat) (hRest : Ends rest) :
    (∀ e, (∃ r, parse 0 ⟨behind, u ++ rest, finish⟩ = .ok r ∧
        r.rest = ⟨u.reverse ++ behind, rest, finish⟩ ∧ r.value.eraseSpans = e) ↔
      Derives 1 u e) ∧
    ∀ e e', Derives 1 u e → Derives 1 u e' → e = e' := by
  refine ⟨fun e => ⟨?_, fun h => ?_⟩, fun e e' h h' => ?_⟩
  · rintro ⟨r, hParse, hEnd, rfl⟩
    obtain ⟨v, hMoves, hDerives, -⟩ := derives_of_parse hParse
    obtain rfl : u = v := by
      have hAhead := hMoves.ahead
      rw [hEnd] at hAhead
      exact List.append_cancel_right hAhead
    exact hDerives
  · obtain ⟨r, hParse, hErase, hEnd⟩ := exists_parse_of_derives hRest h
    exact ⟨r, hParse, hEnd, hErase⟩
  · obtain ⟨r, hParse, hErase, -⟩ := @exists_parse_of_derives u rest behind finish e hRest h
    obtain ⟨r', hParse', hErase', -⟩ := @exists_parse_of_derives u rest behind finish e' hRest h'
    cases hParse.symm.trans hParse'
    rw [← hErase, ← hErase']

/-- The tokens of `a - b - c * d`. -/
def differenceTokens : List Token :=
  [(.ident, "a"), (.minus, "-"), (.ident, "b"), (.minus, "-"), (.ident, "c"), (.star, "*"),
    (.ident, "d")].map fun l => ⟨l.1, l.2, .point 0⟩

/-- The tree of `(a - b) - (c * d)`. -/
def difference : Expr :=
  binary (.point 0) .sub
    (binary (.point 0) .sub (ident (.point 0) "a") (ident (.point 0) "b"))
    (binary (.point 0) .mul (ident (.point 0) "c") (ident (.point 0) "d"))

/-- The tokens derive a difference that is nested to the left. -/
theorem derives_difference : Derives 1 differenceTokens difference := by
  have hName (text : String) {k : Nat} (hK : 1 ≤ k) (hLe : k ≤ 7) :
      Derives k [⟨.ident, text, .point 0⟩] (ident (.point 0) text) :=
    Derives.anti hK hLe le_rfl (.name rfl)
  have hMinus : (4, Token.Kind.minus, BinaryOp.sub) ∈ operators := by decide
  have hStar : (5, Token.Kind.star, BinaryOp.mul) ∈ operators := by decide
  have hLeft := Derives.chain (t := ⟨.minus, "-", .point 0⟩) hMinus
    (hName "a" (by decide) (by decide)) (hName "b" (by decide) (by decide))
  have hRight := Derives.chain (t := ⟨.star, "*", .point 0⟩) hStar
    (hName "c" (by decide) (by decide)) (hName "d" (by decide) (by decide))
  have hAll := Derives.chain (t := ⟨.minus, "-", .point 0⟩) hMinus hLeft hRight
  exact hAll.anti (by decide) (by decide) (by decide)

theorem parse_iff_derives_difference :
    Ends [⟨.semicolon, ";", .point 0⟩] ∧ Derives 1 differenceTokens difference ∧
      ∃ r, parse 0 ⟨[], differenceTokens ++ [⟨.semicolon, ";", .point 0⟩], 0⟩ = .ok r ∧
        r.rest = ⟨differenceTokens.reverse ++ [], [⟨.semicolon, ";", .point 0⟩], 0⟩ ∧
        r.value.eraseSpans = difference := by
  have hEnds : Ends [⟨.semicolon, ";", .point 0⟩] := by
    intro t hT
    cases hT
    refine ⟨by decide, fun k op hMem => ?_⟩
    cases (mem_operators.1 hMem).1
  exact ⟨hEnds, derives_difference,
    ((parse_iff_derives differenceTokens _ [] 0 hEnds).1 difference).2 derives_difference⟩

end Expr

end WasmCompiler
