import WasmCompiler.Proofs.StatementReading

/-! The tokens of every node. A node of a tree that was read has a row of tokens of its own: its
range goes from the first of them to the last, they are derived to the node, and the rows of its
children lie in its own row, one after the other. -/

namespace WasmCompiler

/-- What carries a range in a program: a statement, a parameter or an expression. -/
inductive Node where
  | stmt (s : Stmt)
  | param (d : Declaration)
  | expr (e : Expr)

namespace Node

def span : Node → Span
  | stmt s => s.span
  | param d => d.span
  | expr e => e.span

/-- The value that a declaration starts with. -/
def init (d : Declaration) : List Node := d.init.toList.map expr

/-- The conditions and statements of a branch, as they are written. -/
def chain : List Expr → List (List Stmt) → List Node
  | cond :: conds, block :: blocks => expr cond :: (block.map stmt ++ chain conds blocks)
  | conds, blocks => conds.map expr ++ blocks.flatten.map stmt

/-- The nodes that stand right below a node, as they are written. -/
def children : Node → List Node
  | stmt (.function _ _ _ params body) => params.map param ++ body.map stmt
  | stmt (.var d) | param d => init d
  | stmt (.branch _ conds blocks) => chain conds blocks
  | stmt (.loop _ cond body) => expr cond :: body.map stmt
  | stmt (.raw _ _) => []
  | stmt (.ret _ e) | stmt (.eval _ e) => [expr e]
  | expr (.assign _ _ e) | expr (.unary _ _ e) | expr (.cast _ _ e) => [expr e]
  | expr (.binary _ _ lhs rhs) => [expr lhs, expr rhs]
  | expr (.call _ _ args) => args.map expr
  | expr (.ident _ _) | expr (.number _ _) | expr (.bool _ _) | expr (.str _ _) => []

theorem span_withSpan (s : Span) (e : Expr) : (expr (e.withSpan s)).span = s := by
  cases e <;> rfl

theorem children_withSpan (s : Span) (e : Expr) :
    (expr (e.withSpan s)).children = (expr e).children := by
  cases e <;> rfl

open Grammar in
/-- The tokens are derived to the node. An assignment is no expression of the grammar. -/
def Derived (u : List Token) : Node → Prop
  | stmt s => ∃ takes, DerivesStmt takes u s.eraseSpans
  | param d => DerivesDecl u d.eraseSpans
  | expr (.assign _ _ _) => True
  | expr e => Derives 1 u e.eraseSpans

open Grammar in
/-- An expression of any layer is derived by its tokens. -/
theorem derived_expr {k : Nat} {u : List Token} {e : Expr} (h : Derives k u e.eraseSpans)
    (hK : 1 ≤ k ∧ k ≤ 7) : Derived u (expr e) := by
  have hLowest := h.anti le_rfl hK.1 hK.2
  cases e with
  | assign => trivial
  | _ => exact hLowest

end Node

/-- The range from the first token of a row to the last. -/
structure Covers (u : List Token) (s : Span) : Prop where
  start : u.head?.map (fun t => t.span.start) = some s.start
  stop : u.getLast?.map (fun t => t.span.stop) = some s.stop

section Covers

variable {u v : List Token} {s s' : Span}

theorem Covers.single (t : Token) : Covers [t] t.span := ⟨rfl, rfl⟩

/-- Two rows that are covered, with a row between them, are covered from the start of the first to
the end of the last. -/
theorem Covers.join (h : Covers u s) (w : List Token) (h' : Covers v s') :
    Covers (u ++ (w ++ v)) ⟨s.start, s'.stop⟩ := by
  obtain ⟨first, hFirst, hStart⟩ := Option.map_eq_some_iff.1 h.start
  obtain ⟨last, hLast, hStop⟩ := Option.map_eq_some_iff.1 h'.stop
  constructor
  · simp [List.head?_append, hFirst, hStart]
  · simp [List.getLast?_append, hLast, hStop]

/-- What was read since a token is covered from there to the last token that was read. -/
theorem Cursor.Moves.covers {c d : Cursor} {t : Token} (h : c.Moves (t :: u) d) :
    Covers (t :: u) ⟨t.span.start, d.lastStop⟩ := by
  refine ⟨rfl, ?_⟩
  obtain ⟨last, hLast⟩ := Option.ne_none_iff_exists'.1
    (mt List.getLast?_eq_none_iff.1 (List.cons_ne_nil t u))
  have hBehind : d.behind.head? = some last := by
    rw [h.behind, List.head?_append, List.head?_reverse, hLast]
    rfl
  obtain ⟨more, hMore⟩ := List.head?_eq_some_iff.1 hBehind
  rw [hLast, lastStop, hMore]
  rfl

end Covers

mutual

/-- A row of tokens is that of a node. -/
inductive Placed : List Token → Node → Prop where
  | intro {u : List Token} {n : Node} (hCovers : Covers u n.span) (hDerived : n.Derived u)
      (hChildren : PlacedRow u n.children) : Placed u n

/-- The rows of nodes lie in a row, one after the other. -/
inductive PlacedRow : List Token → List Node → Prop where
  | nil {u : List Token} : PlacedRow u []
  | cons {gap u rest : List Token} {n : Node} {ns : List Node} (h : Placed u n)
      (hs : PlacedRow rest ns) : PlacedRow (gap ++ (u ++ rest)) (n :: ns)

end

section Placed

variable {u v : List Token} {n : Node} {ns ms : List Node}

/-- The span of a node that is placed covers the tokens of the node. -/
theorem Placed.covers (h : Placed u n) : Covers u n.span := by
  cases h with
  | intro hCovers _ _ => exact hCovers

theorem Placed.derived (h : Placed u n) : n.Derived u := by
  cases h with
  | intro _ hDerived _ => exact hDerived

/-- The children of a node that is placed are placed in its row. -/
theorem Placed.children (h : Placed u n) : PlacedRow u n.children := by
  cases h with
  | intro _ _ hChildren => exact hChildren

/-- A row of nodes is placed also after other tokens. -/
theorem PlacedRow.before (gap : List Token) (h : PlacedRow u ns) : PlacedRow (gap ++ u) ns := by
  cases h with
  | nil => exact .nil
  | cons h hs =>
      rw [← List.append_assoc]
      exact .cons h hs

/-- Rows of nodes that are placed are placed one after the other. -/
theorem PlacedRow.append (h : PlacedRow u ns) (h' : PlacedRow v ms) :
    PlacedRow (u ++ v) (ns ++ ms) := by
  induction ns generalizing u with
  | nil => exact h'.before u
  | cons n ns ih =>
      cases h with
      | cons h hs =>
          rw [List.append_assoc, List.append_assoc]
          exact .cons h (ih hs)

/-- A row of nodes is placed also before other tokens. -/
theorem PlacedRow.after (h : PlacedRow u ns) (gap : List Token) : PlacedRow (u ++ gap) ns := by
  have hAppend : PlacedRow (u ++ gap) (ns ++ []) := h.append .nil
  rwa [List.append_nil] at hAppend

theorem Placed.row (h : Placed u n) : PlacedRow u [n] := by
  have hCons : PlacedRow ([] ++ (u ++ [])) [n] := .cons h .nil
  rwa [List.nil_append, List.append_nil] at hCons

/-- A node of a row has a part of the row. -/
theorem PlacedRow.exists_of_mem (h : PlacedRow u ns) (hMem : n ∈ ns) :
    ∃ front v back, u = front ++ (v ++ back) ∧ Placed v n := by
  induction ns generalizing u with
  | nil => cases hMem
  | cons m ns ih =>
      cases h with
      | @cons gap w rest _ _ h hs =>
          rcases List.mem_cons.1 hMem with rfl | hMem
          · exact ⟨gap, w, rest, rfl, h⟩
          · obtain ⟨front, v, back, rfl, hPlaced⟩ := ih hs hMem
            exact ⟨gap ++ (w ++ front), v, back, by simp, hPlaced⟩

end Placed

/-- The tokens between two places are those of a node, its derivation left aside. -/
def Laid (c : Cursor) (n : Node) (d : Cursor) : Prop :=
  ∃ u, c.Moves u d ∧ Covers u n.span ∧ PlacedRow u n.children

/-- What is laid between two places and derived by the tokens there is placed. -/
theorem Laid.placed {c d : Cursor} {n : Node} (h : Laid c n d)
    (hDerived : ∃ u, c.Moves u d ∧ n.Derived u) : ∃ u, c.Moves u d ∧ Placed u n := by
  obtain ⟨u, hMoves, hCovers, hChildren⟩ := h
  obtain ⟨v, hMoves', hDerived⟩ := hDerived
  obtain rfl := hMoves.tokens_eq hMoves'
  exact ⟨u, hMoves, .intro hCovers hDerived hChildren⟩

namespace Expr

open Grammar

mutual

/-- An expression that is parsed is placed, with all its parts. -/
theorem placed_of_parse {floor : Nat} {c : Cursor} {r : Parsed Expr c.size}
    (h : parse floor c = .ok r) : ∃ u, c.Moves u r.rest ∧ Placed u (.expr r.value) := by
  rw [parse] at h
  simp only [bind_eq_ok, pure_eq_ok] at h
  obtain ⟨first, hFirst, whole, hWhole, rfl⟩ := h
  obtain ⟨u, hMoves, hPlaced⟩ := placed_of_parseUnary hFirst
  obtain ⟨u', hMoves', hDerives⟩ := derives_of_parseUnary hFirst
  obtain rfl := hMoves.tokens_eq hMoves'
  obtain ⟨v, hMore, hWholePlaced⟩ := placed_of_parseChain hPlaced hDerives le_rfl
    (Cursor.stops_of_five_le (by omega) _) hWhole
  exact ⟨u ++ v, hMoves.trans hMore, hWholePlaced⟩
termination_by (c.size, 2)
decreasing_by
  · exact .right _ (by omega)
  · exact .left _ _ first.size_lt

/-- The expression so far is in a layer in which the operator ahead goes on, so that what they are
joined to is derived as well. -/
theorem placed_of_parseChain {floor : Nat} {lhs : Expr} {c : Cursor}
    {r : Parsed Expr (c.size + 1)} {k : Nat} {u : List Token} (hPlaced : Placed u (.expr lhs))
    (hLhs : Derives k u lhs.eraseSpans) (hK : k ≤ 6) (hNext : c.Stops k) :
    parseChain floor lhs c = .ok r →
      ∃ v, c.Moves v r.rest ∧ Placed (u ++ v) (.expr r.value) := by
  have hStay : ∃ v, c.Moves v c ∧ Placed (u ++ v) (.expr lhs) :=
    ⟨[], .refl c, by rwa [List.append_nil]⟩
  fun_cases parseChain floor lhs c with
  | case1 | case2 | case3 =>
      rintro ⟨⟩
      exact hStay
  | case4 next hStep op hOp hHigh =>
      simp only [bind_eq_ok, pure_eq_ok]
      rintro ⟨rhs, hRhs, whole, hWhole, rfl⟩
      have hLess := next.size_lt
      have hBounds := precedence_bounds op
      have hLayer : op.precedence ≤ k := (Cursor.stops_iff_of_step? hStep).1 hNext op hOp
      obtain ⟨v, hMoves, hRhsPlaced⟩ := placed_of_parse hRhs
      obtain ⟨v', hMoves', hDerives, hStops⟩ := derives_of_parse hRhs
      obtain rfl := hMoves.tokens_eq hMoves'
      rw [show min (op.precedence + 1) 6 = op.precedence + 1 by omega] at hDerives
      have hJoined : Derives op.precedence (u ++ next.value :: v)
          (binary ⟨lhs.span.start, rhs.value.span.stop⟩ op lhs rhs.value).eraseSpans := by
        rw [eraseSpans]
        exact .chain (mem_operators.2 ⟨hOp, rfl⟩) (hLhs.anti hBounds.1 hLayer (by omega)) hDerives
      have hJoinedPlaced : Placed (u ++ next.value :: v)
          (.expr (binary ⟨lhs.span.start, rhs.value.span.stop⟩ op lhs rhs.value)) :=
        .intro (hPlaced.covers.join [next.value] hRhsPlaced.covers)
          (Node.derived_expr hJoined (by omega))
          (hPlaced.row.append (hRhsPlaced.row.before [next.value]))
      obtain ⟨w, hMore, hWholePlaced⟩ := placed_of_parseChain hJoinedPlaced hJoined (by omega)
        hStops hWhole
      have hAll := ((Cursor.moves_of_step? hStep).trans hMoves).trans hMore
      refine ⟨next.value :: (v ++ w), hAll, ?_⟩
      rw [List.append_assoc, List.cons_append] at hWholePlaced
      exact hWholePlaced
termination_by (c.size, 0)
decreasing_by
  · exact .left _ _ hLess
  · exact .left _ _ (Nat.lt_trans rhs.size_lt hLess)

/-- So is an operand. -/
theorem placed_of_parseUnary {c : Cursor} {r : Parsed Expr c.size} (h : parseUnary c = .ok r) :
    ∃ u, c.Moves u r.rest ∧ Placed u (.expr r.value) := by
  obtain ⟨u, hMoves, hDerives⟩ := derives_of_parseUnary h
  refine Laid.placed ?_ ⟨u, hMoves, Node.derived_expr hDerives (by omega)⟩
  revert h
  fun_cases parseUnary c with
  | case1 => rintro ⟨⟩
  | case2 next hNext =>
      intro h
      obtain ⟨v, hMoves', hPlaced⟩ := placed_of_parsePrimary hNext h
      exact ⟨v, hMoves', hPlaced.covers, hPlaced.children⟩
  | case3 next hNext =>
      simp only [bind_eq_ok, pure_eq_ok]
      rintro ⟨operand, hOperand, rfl⟩
      have hLess := next.size_lt
      obtain ⟨v, hMoves', hPlaced⟩ := placed_of_parse hOperand
      exact ⟨_, (Cursor.moves_of_step? hNext).trans hMoves',
        (Covers.single next.value).join [] hPlaced.covers, hPlaced.row.before [next.value]⟩
termination_by (c.size, 1)
decreasing_by
  · exact .right _ (by omega)
  · exact .left _ _ hLess

/-- So is an atom. One in parentheses has the span of the parentheses too. -/
theorem placed_of_parsePrimary {c : Cursor} {next : Parsed Token c.size} {r : Parsed Expr c.size}
    (hNext : c.step? = some next) (h : parsePrimary c next = .ok r) :
    ∃ u, c.Moves u r.rest ∧ Placed u (.expr r.value) := by
  obtain ⟨u, hWhole, hDerives⟩ := derives_of_parsePrimary hNext h
  refine Laid.placed ?_ ⟨u, hWhole, Node.derived_expr hDerives (by omega)⟩
  have hMoves := Cursor.moves_of_step? hNext
  revert h
  fun_cases parsePrimary c next with
  | case1 =>
      simp only [bind_eq_ok, pure_eq_ok]
      rintro ⟨value, hValue, rfl⟩
      exact ⟨_, hMoves, .single _, .nil⟩
  | case2 | case3 | case4 | case6 =>
      rintro ⟨⟩
      exact ⟨_, hMoves, .single _, .nil⟩
  | case5 =>
      simp only [bind_eq_ok, pure_eq_ok]
      rintro ⟨args, hArgs, rfl⟩
      have hLess := next.size_lt
      obtain ⟨v, hMoves', hRow⟩ := placed_of_parseArgs hArgs
      have hAll := hMoves.trans hMoves'
      exact ⟨_, hAll, hAll.covers, hRow.before [next.value]⟩
  | case7 _ _ type hType =>
      simp only [bind_eq_ok, pure_eq_ok]
      rintro ⟨closing, hClosing, operand, hOperand, rfl⟩
      have hLess := (next.before (type.before closing)).size_lt
      obtain ⟨v, hMoves', hPlaced⟩ := placed_of_parse hOperand
      have hFront := (Cursor.moves_of_accept? hType).1.trans (Cursor.moves_of_require hClosing).1
      exact ⟨_, hMoves.trans (hFront.trans hMoves'),
        (Covers.single next.value).join [type.value, closing.value] hPlaced.covers,
        hPlaced.row.before [next.value, type.value, closing.value]⟩
  | case8 =>
      simp only [bind_eq_ok, pure_eq_ok]
      rintro ⟨inner, hInner, closing, hClosing, rfl⟩
      have hLess := next.size_lt
      obtain ⟨v, hMoves', hPlaced⟩ := placed_of_parse hInner
      have hAll := hMoves.trans (hMoves'.trans (Cursor.moves_of_require hClosing).1)
      refine ⟨_, hAll, ?_, ?_⟩
      · have hCovers := hAll.covers
        simp only [Parsed.before, Parsed.give, Node.span_withSpan]
        exact hCovers
      · simp only [Parsed.before, Parsed.give, Node.children_withSpan]
        exact (hPlaced.children.after [closing.value]).before [next.value]
  | case9 => rintro ⟨⟩
termination_by (c.size, 0)
decreasing_by
  · exact .left _ _ hLess
  · exact .left _ _ hLess
  · exact .left _ _ hLess

/-- Arguments that are parsed are placed in their row. -/
theorem placed_of_parseArgs {c : Cursor} {r : Parsed (List Expr) c.size}
    (h : parseArgs c = .ok r) : ∃ u, c.Moves u r.rest ∧ PlacedRow u (r.value.map .expr) := by
  rw [parseArgs] at h
  obtain ⟨opening, hOpening, h⟩ := bind_eq_ok.1 h
  have hFirst := (Cursor.moves_of_require hOpening).1
  cases hAccept : opening.rest.accept? .rparen with
  | some closing =>
      rw [hAccept] at h
      cases h
      exact ⟨_, hFirst.trans (Cursor.moves_of_accept? hAccept).1, .nil⟩
  | none =>
      simp only [hAccept, bind_eq_ok, pure_eq_ok] at h
      obtain ⟨args, hArgs, rfl⟩ := h
      have hLess := opening.size_lt
      obtain ⟨u, hMoves, hRow⟩ := placed_of_parseList hArgs
      exact ⟨_, hFirst.trans hMoves, hRow.before [opening.value]⟩
termination_by (c.size, 0)
decreasing_by exact .left _ _ hLess

theorem placed_of_parseList {c : Cursor} {r : Parsed (List Expr) c.size}
    (h : parseList c = .ok r) : ∃ u, c.Moves u r.rest ∧ PlacedRow u (r.value.map .expr) := by
  rw [parseList] at h
  obtain ⟨first, hFirst, h⟩ := bind_eq_ok.1 h
  obtain ⟨u, hMoves, hPlaced⟩ := placed_of_parse hFirst
  cases hComma : first.rest.accept? .comma with
  | some comma =>
      simp only [hComma, bind_eq_ok, pure_eq_ok] at h
      obtain ⟨others, hOthers, rfl⟩ := h
      have hLess := (first.before comma).size_lt
      obtain ⟨v, hMoves', hRow⟩ := placed_of_parseList hOthers
      exact ⟨_, hMoves.trans ((Cursor.moves_of_accept? hComma).1.trans hMoves'),
        hPlaced.row.append (hRow.before [comma.value])⟩
  | none =>
      simp only [hComma, bind_eq_ok, pure_eq_ok] at h
      obtain ⟨closing, hClosing, rfl⟩ := h
      exact ⟨_, hMoves.trans (Cursor.moves_of_require hClosing).1, hPlaced.row.after _⟩
termination_by (c.size, 3)
decreasing_by
  · exact .right _ (by omega)
  · exact .left _ _ hLess

end

end Expr

namespace Declaration

/-- A declaration that is parsed is placed, with its first value. -/
theorem placed_of_parse {c : Cursor} {r : Parsed Declaration c.size} (h : parse c = .ok r) :
    ∃ u, c.Moves u r.rest ∧ Placed u (.param r.value) := by
  refine Laid.placed ?_ (derives_of_parse h)
  simp only [parse, bind_eq_ok] at h
  obtain ⟨type, hType, h⟩ := h
  by_cases hBracket : type.rest.peek.kind = .lbracket
  · rw [if_pos hBracket] at h
    cases h
  · rw [if_neg hBracket] at h
    obtain ⟨name, hName, h⟩ := bind_eq_ok.1 h
    have hFront := (Cursor.moves_of_require hType).1.trans (Cursor.moves_of_require hName).1
    cases hEquals : name.rest.accept? .assign with
    | some equals =>
        simp only [hEquals, bind_eq_ok, pure_eq_ok] at h
        obtain ⟨init, hInit, rfl⟩ := h
        obtain ⟨u, hMoves, hPlaced⟩ := Expr.placed_of_parse hInit
        have hAll := hFront.trans ((Cursor.moves_of_accept? hEquals).1.trans hMoves)
        exact ⟨_, hAll, hAll.covers, hPlaced.row.before [type.value, name.value, equals.value]⟩
    | none =>
        rw [hEquals] at h
        cases h
        exact ⟨_, hFront, hFront.covers, .nil⟩

theorem placed_of_parseList {c : Cursor} {r : Parsed (List Declaration) c.size}
    (h : parseList c = .ok r) : ∃ u, c.Moves u r.rest ∧ PlacedRow u (r.value.map .param) := by
  rw [parseList] at h
  obtain ⟨first, hFirst, h⟩ := bind_eq_ok.1 h
  obtain ⟨u, hMoves, hPlaced⟩ := placed_of_parse hFirst
  cases hComma : first.rest.accept? .comma with
  | some comma =>
      simp only [hComma, bind_eq_ok, pure_eq_ok] at h
      obtain ⟨others, hOthers, rfl⟩ := h
      have hLess := (first.before comma).size_lt
      obtain ⟨v, hMoves', hRow⟩ := placed_of_parseList hOthers
      exact ⟨_, hMoves.trans ((Cursor.moves_of_accept? hComma).1.trans hMoves'),
        hPlaced.row.append (hRow.before [comma.value])⟩
  | none =>
      simp only [hComma, bind_eq_ok, pure_eq_ok] at h
      obtain ⟨closing, hClosing, rfl⟩ := h
      exact ⟨_, hMoves.trans (Cursor.moves_of_require hClosing).1, hPlaced.row.after _⟩
termination_by c.size
decreasing_by exact hLess

/-- Parameters that are parsed are placed in their row. -/
theorem placed_of_parseParams {c : Cursor} {r : Parsed (List Declaration) c.size}
    (h : parseParams c = .ok r) : ∃ u, c.Moves u r.rest ∧ PlacedRow u (r.value.map .param) := by
  rw [parseParams] at h
  obtain ⟨opening, hOpening, h⟩ := bind_eq_ok.1 h
  have hFirst := (Cursor.moves_of_require hOpening).1
  cases hAccept : opening.rest.accept? .rparen with
  | some closing =>
      rw [hAccept] at h
      cases h
      exact ⟨_, hFirst.trans (Cursor.moves_of_accept? hAccept).1, .nil⟩
  | none =>
      simp only [hAccept, bind_eq_ok, pure_eq_ok] at h
      obtain ⟨params, hParams, rfl⟩ := h
      obtain ⟨u, hMoves, hRow⟩ := placed_of_parseList hParams
      exact ⟨_, hFirst.trans hMoves, hRow.before [opening.value]⟩

end Declaration

namespace Stmt

open Grammar

/-- A condition is placed in the row with its parentheses. -/
theorem placed_of_parseCondition {c : Cursor} {r : Parsed Expr c.size}
    (h : parseCondition c = .ok r) : ∃ u, c.Moves u r.rest ∧ PlacedRow u [.expr r.value] := by
  simp only [parseCondition, bind_eq_ok, pure_eq_ok] at h
  obtain ⟨opening, hOpening, cond, hCond, closing, hClosing, rfl⟩ := h
  obtain ⟨u, hMoves, hPlaced⟩ := Expr.placed_of_parse hCond
  exact ⟨_, (Cursor.moves_of_require hOpening).1.trans
    (hMoves.trans (Cursor.moves_of_require hClosing).1),
    (hPlaced.row.after [closing.value]).before [opening.value]⟩

section Simple

variable {c d : Cursor} {word : Token} {r : Parsed Stmt c.size}

/-- A raw statement is laid from its keyword to its semicolon. -/
theorem laid_of_parseRaw (hMoves : d.Moves [word] c) (h : parseRaw word.span.start c = .ok r) :
    Laid d (.stmt r.value) r.rest := by
  simp only [parseRaw, bind_eq_ok, pure_eq_ok] at h
  obtain ⟨text, hText, closing, hClosing, rfl⟩ := h
  have hAll := hMoves.trans
    ((Cursor.moves_of_require hText).1.trans (Cursor.moves_of_require hClosing).1)
  exact ⟨_, hAll, hAll.covers, .nil⟩

/-- A return statement is laid from its keyword to its semicolon. -/
theorem laid_of_parseRet (hMoves : d.Moves [word] c) (h : parseRet word.span.start c = .ok r) :
    Laid d (.stmt r.value) r.rest := by
  simp only [parseRet, bind_eq_ok, pure_eq_ok] at h
  obtain ⟨value, hValue, closing, hClosing, rfl⟩ := h
  obtain ⟨u, hInner, hPlaced⟩ := Expr.placed_of_parse hValue
  have hAll := hMoves.trans (hInner.trans (Cursor.moves_of_require hClosing).1)
  exact ⟨_, hAll, hAll.covers, (hPlaced.row.after [closing.value]).before [word]⟩

/-- The name belongs to what is done with it. -/
theorem placed_of_parseAction {r : Parsed Expr c.size} (hName : word.kind = .ident)
    (hMoves : d.Moves [word] c) : parseAction word c = .ok r →
      ∃ u, d.Moves (word :: u) r.rest ∧ Placed (word :: u) (.expr r.value) := by
  fun_cases parseAction word c with
  | case1 equals hEquals =>
      simp only [bind_eq_ok, pure_eq_ok]
      rintro ⟨value, hValue, rfl⟩
      obtain ⟨u, hInner, hPlaced⟩ := Expr.placed_of_parse hValue
      have hAll := hMoves.trans ((Cursor.moves_of_accept? hEquals).1.trans hInner)
      exact ⟨_, hAll, .intro hAll.covers trivial (hPlaced.row.before [word, equals.value])⟩
  | case2 =>
      simp only [bind_eq_ok, pure_eq_ok]
      rintro ⟨args, hArgs, rfl⟩
      obtain ⟨u, hInner, hRow⟩ := Expr.placed_of_parseArgs hArgs
      obtain ⟨u', hInner', hDerives⟩ := Expr.derives_of_parseArgs hArgs
      obtain rfl := hInner.tokens_eq hInner'
      have hAll := hMoves.trans hInner
      have hCall : Derives 7 (word :: u)
          (Expr.call (.point 0) word.text args.value).eraseSpans := by
        rw [Expr.eraseSpans]
        exact .call hName hDerives
      refine ⟨u, hAll, .intro hAll.covers ?_ (hRow.before [word])⟩
      exact hCall.anti le_rfl (by omega) le_rfl
  | case3 => rintro ⟨⟩

/-- An expression that stands as a statement is laid from its name to its semicolon. -/
theorem laid_of_parseEval (hName : word.kind = .ident) (hMoves : d.Moves [word] c)
    (h : parseEval word c = .ok r) : Laid d (.stmt r.value) r.rest := by
  simp only [parseEval, bind_eq_ok, pure_eq_ok] at h
  obtain ⟨action, hAction, closing, hClosing, rfl⟩ := h
  obtain ⟨u, hInner, hPlaced⟩ := placed_of_parseAction hName hMoves hAction
  have hAll := hInner.trans (Cursor.moves_of_require hClosing).1
  exact ⟨_, hAll, hAll.covers, hPlaced.row.after _⟩

/-- The declaration of a variable is laid from its type to its semicolon. -/
theorem laid_of_parseVar (h : parseVar c = .ok r) : Laid c (.stmt r.value) r.rest := by
  simp only [parseVar, bind_eq_ok, pure_eq_ok] at h
  obtain ⟨decl, hDecl, closing, hClosing, rfl⟩ := h
  obtain ⟨u, hMoves, hPlaced⟩ := Declaration.placed_of_parse hDecl
  have hLast := (Cursor.moves_of_require hClosing).1
  exact ⟨_, hMoves.trans hLast, hPlaced.covers.join [] hLast.covers, hPlaced.children.after _⟩

end Simple

/-- The parameters of a function are placed in the row of its heading. -/
theorem placed_of_parseHead {c : Cursor} {r : Parsed Head c.size} (h : parseHead c = .ok r) :
    ∃ u, c.Moves (r.value.type :: u) r.rest ∧
      PlacedRow (r.value.type :: u) (r.value.params.map .param) := by
  simp only [parseHead, bind_eq_ok, pure_eq_ok] at h
  obtain ⟨type, hType, name, hName, params, hParams, rfl⟩ := h
  obtain ⟨u, hMoves, hRow⟩ := Declaration.placed_of_parseParams hParams
  have hFront := (Cursor.moves_of_require hType).1.trans (Cursor.moves_of_require hName).1
  exact ⟨_, hFront.trans hMoves, hRow.before [type.value, name.value]⟩

mutual

/-- A statement that is parsed is placed, with all its parts. -/
theorem placed_of_parse? {c : Cursor} {r : Parsed Stmt c.size} (h : parse? c = .ok (some r)) :
    ∃ u, c.Moves u r.rest ∧ Placed u (.stmt r.value) := by
  obtain ⟨takes, whole, hWhole, hDerives, -⟩ := derives_of_parse? h
  refine Laid.placed ?_ ⟨whole, hWhole, takes, hDerives⟩
  revert h
  fun_cases parse? c with
  | case1 => rintro ⟨⟩
  | case2 next hNext =>
      simp only [bind_eq_ok, pure_eq_ok, Option.some.injEq]
      rintro ⟨cond, hCond, body, hBody, rfl⟩
      have hLess := (next.before cond).size_lt
      obtain ⟨u, hTest, hCondRow⟩ := placed_of_parseCondition hCond
      obtain ⟨v, hInner, hBodyRow⟩ := placed_of_parseBranch hBody
      have hAll := (Cursor.moves_of_step? hNext).trans (hTest.trans hInner)
      exact ⟨_, hAll, hAll.covers, (hCondRow.append hBodyRow).before [next.value]⟩
  | case3 next hNext =>
      simp only [bind_eq_ok, pure_eq_ok, Option.some.injEq]
      rintro ⟨cond, hCond, block, hBlock, others, hOthers, rfl⟩
      have hLess := (next.before cond).size_lt
      obtain ⟨u, hTest, hCondRow⟩ := placed_of_parseCondition hCond
      obtain ⟨v, hInner, hBlockRow⟩ := placed_of_parseBranch hBlock
      obtain ⟨w, hMore, hOthersRow⟩ := placed_of_parseElse hOthers
      have hAll := (Cursor.moves_of_step? hNext).trans (hTest.trans (hInner.trans hMore))
      exact ⟨_, hAll, hAll.covers,
        (hCondRow.append (hBlockRow.append hOthersRow)).before [next.value]⟩
  | case4 next hNext =>
      simp only [bind_eq_ok, pure_eq_ok, Option.some.injEq]
      rintro ⟨stmt, hStmt, rfl⟩
      have hLaid := laid_of_parseRaw (Cursor.moves_of_step? hNext) hStmt
      exact hLaid
  | case5 next hNext =>
      simp only [bind_eq_ok, pure_eq_ok, Option.some.injEq]
      rintro ⟨stmt, hStmt, rfl⟩
      have hLaid := laid_of_parseRet (Cursor.moves_of_step? hNext) hStmt
      exact hLaid
  | case6 next hNext hKind =>
      simp only [bind_eq_ok, pure_eq_ok, Option.some.injEq]
      rintro ⟨stmt, hStmt, rfl⟩
      have hLaid := laid_of_parseEval hKind (Cursor.moves_of_step? hNext) hStmt
      exact hLaid
  | case7 =>
      simp only [bind_eq_ok, pure_eq_ok, Option.some.injEq]
      rintro ⟨head, hHead, body, hBody, rfl⟩
      obtain ⟨u, hFirst, hParamsRow⟩ := placed_of_parseHead hHead
      obtain ⟨v, hInner, hBodyRow⟩ := placed_of_parseBraced hBody
      have hAll := hFirst.trans hInner
      exact ⟨_, hAll, hAll.covers, hParamsRow.append hBodyRow⟩
  | case8 =>
      simp only [bind_eq_ok, pure_eq_ok, Option.some.injEq]
      rintro ⟨stmt, hStmt, rfl⟩
      exact laid_of_parseVar hStmt
  | case9 => rintro ⟨⟩
termination_by (c.size, 0)
decreasing_by
  · exact .left _ _ hLess
  · exact .left _ _ hLess
  · exact .left _ _ (Nat.lt_trans block.size_lt hLess)
  · exact .left _ _ head.size_lt

/-- The conditions and statements of the other branches are placed in their row. -/
theorem placed_of_parseElse {c : Cursor} {r : Parsed Alternatives (c.size + 1)} :
    parseElse c = .ok r →
      ∃ u, c.Moves u r.rest ∧ PlacedRow u (Node.chain r.value.conds r.value.blocks) := by
  fun_cases parseElse c with
  | case1 =>
      rintro ⟨⟩
      exact ⟨[], .refl c, .nil⟩
  | case2 orElse hElse orIf hIf =>
      simp only [bind_eq_ok, pure_eq_ok]
      rintro ⟨cond, hCond, block, hBlock, others, hOthers, rfl⟩
      have hLess := (orElse.before (orIf.before cond)).size_lt
      obtain ⟨u, hTest, hCondRow⟩ := placed_of_parseCondition hCond
      obtain ⟨v, hInner, hBlockRow⟩ := placed_of_parseBranch hBlock
      obtain ⟨w, hMore, hOthersRow⟩ := placed_of_parseElse hOthers
      have hFront := (Cursor.moves_of_accept? hElse).1.trans (Cursor.moves_of_accept? hIf).1
      exact ⟨_, hFront.trans (hTest.trans (hInner.trans hMore)),
        (hCondRow.append (hBlockRow.append hOthersRow)).before _⟩
  | case3 orElse hElse hNone =>
      simp only [bind_eq_ok, pure_eq_ok]
      rintro ⟨block, hBlock, rfl⟩
      have hLess := orElse.size_lt
      obtain ⟨u, hInner, hBlockRow⟩ := placed_of_parseBranch hBlock
      refine ⟨_, (Cursor.moves_of_accept? hElse).1.trans hInner, ?_⟩
      simp only [Parsed.before, Parsed.give, Parsed.relax, Node.chain, List.map_nil,
        List.nil_append, List.flatten_cons, List.flatten_nil, List.append_nil]
      exact hBlockRow.before [orElse.value]
termination_by (c.size, 0)
decreasing_by
  · exact .left _ _ hLess
  · exact .left _ _ (Nat.lt_trans block.size_lt hLess)
  · exact .left _ _ hLess

/-- The statements of a branch are placed in its row, in braces or not. -/
theorem placed_of_parseBranch {c : Cursor} {r : Parsed (List Stmt) c.size} :
    parseBranch c = .ok r → ∃ u, c.Moves u r.rest ∧ PlacedRow u (r.value.map .stmt) := by
  fun_cases parseBranch c with
  | case1 => exact placed_of_parseBraced
  | case2 =>
      intro h
      obtain ⟨found, hFound, h⟩ := bind_eq_ok.1 h
      cases found with
      | none => simp [Cursor.fail] at h
      | some stmt =>
          cases h
          obtain ⟨u, hMoves, hPlaced⟩ := placed_of_parse? hFound
          exact ⟨u, hMoves, hPlaced.row⟩
termination_by (c.size, 1)
decreasing_by
  · exact .right _ (by omega)
  · exact .right _ (by omega)

theorem placed_of_parseBraced {c : Cursor} {r : Parsed (List Stmt) c.size}
    (h : parseBraced c = .ok r) : ∃ u, c.Moves u r.rest ∧ PlacedRow u (r.value.map .stmt) := by
  rw [parseBraced] at h
  simp only [bind_eq_ok, pure_eq_ok] at h
  obtain ⟨opening, hOpening, body, hBody, closing, hClosing, rfl⟩ := h
  obtain ⟨u, hMoves, hRow⟩ := placed_of_parseBody hBody
  exact ⟨_, (Cursor.moves_of_require hOpening).1.trans
    (hMoves.trans (Cursor.moves_of_require hClosing).1),
    (hRow.after [closing.value]).before [opening.value]⟩
termination_by (c.size, 0)
decreasing_by exact .left _ _ opening.size_lt

/-- The statements of a body are placed in its row. -/
theorem placed_of_parseBody {c : Cursor} {r : Parsed (List Stmt) (c.size + 1)}
    (h : parseBody c = .ok r) : ∃ u, c.Moves u r.rest ∧ PlacedRow u (r.value.map .stmt) := by
  rw [parseBody] at h
  obtain ⟨found, hFound, h⟩ := bind_eq_ok.1 h
  cases found with
  | none =>
      cases h
      exact ⟨[], .refl c, .nil⟩
  | some stmt =>
      simp only [bind_eq_ok, pure_eq_ok] at h
      obtain ⟨others, hOthers, rfl⟩ := h
      obtain ⟨u, hMoves, hPlaced⟩ := placed_of_parse? hFound
      obtain ⟨v, hMoves', hRow⟩ := placed_of_parseBody hOthers
      exact ⟨u ++ v, hMoves.trans hMoves', hPlaced.row.append hRow⟩
termination_by (c.size, 1)
decreasing_by
  · exact .right _ (by omega)
  · exact .left _ _ stmt.size_lt

end

end Stmt

/-- The statements of a program lie in its tokens, one after the other. -/
theorem Program.placed_of_ofTokens {tokens : List Token} {p : Program}
    (h : ofTokens tokens = .ok p) : PlacedRow tokens (p.map .stmt) := by
  obtain ⟨body, hBody, -, rfl⟩ := ofTokens_eq_ok.1 h
  obtain ⟨u, hMoves, hRow⟩ := Stmt.placed_of_parseBody hBody
  have hAll := hRow.after body.rest.ahead
  rw [← hMoves.ahead] at hAll
  exact hAll

end WasmCompiler
