import WasmCompiler.Proofs.StatementReading

/-! Errors of grammar point at the first token that cannot be right. What was read before it can
still go on to a whole, and no row that starts with these tokens and the one at fault is read. Both
are said at once of a walk, which is what a reader does to its place: a walk is faithful to a
language if what it passes is in the language, and it goes alike wherever the tokens are alike. -/

namespace WasmCompiler

/-- A token of a kind, where the text does not matter. -/
def Token.ofKind (kind : Token.Kind) : Token := ⟨kind, "x", .point 0⟩

/-- What a reader does to its place: it moves it, or fails and shows a range of the text. -/
abbrev Walk := Cursor → Except Span Cursor

/-- How reading ends, without what was read. -/
def outcome {α : Type} {limit : Nat} : Reading α limit → Except Span Cursor
  | .ok r => .ok r.rest
  | .error e => .error e.span

namespace Walk

/-- One walk and then another. -/
def andThen (f g : Walk) : Walk := fun c => f c >>= g

/-- A walk that depends on the next token. -/
def choose (pick : Option Token → Walk) : Walk := fun c => pick c.ahead.head? c

def stay : Walk := .ok

def fail : Walk := fun c => .error c.peek.span

/-- Past the next token. -/
def take : Walk := fun c =>
  match c.ahead with
  | [] => .error c.peek.span
  | t :: rest => .ok ⟨t :: c.behind, rest, c.finish⟩

/-- A walk that depends on the kind of the next token. -/
def ifNext (kind : Token.Kind) (f g : Walk) : Walk :=
  choose fun t => if t.map Token.kind = some kind then f else g

/-- Past the next token, if it is of a kind. -/
def need (kind : Token.Kind) : Walk := ifNext kind take fail

end Walk

namespace Cursor

variable {c c' d d' : Cursor} {u v : List Token} {t : Token}

/-- At both places the same token is next, or both are at the end. -/
def SameNext (c d : Cursor) : Prop := c.ahead.head? = d.ahead.head?

/-- Where the same token is next, one of the same kind is seen. -/
theorem SameNext.peek_kind (h : c.SameNext d) : c.peek.kind = d.peek.kind := by
  have hKind (c : Cursor) : c.peek.kind = (c.ahead.head?.map Token.kind).getD .eof := by
    cases hAhead : c.ahead <;> simp [peek, peekAt, hAhead, Token.atEnd]
  rw [hKind, hKind, h]

/-- Two rows that lead to places alike start alike. -/
theorem Moves.sameNext (h : c.Moves u d) (h' : c'.Moves u d') (hNext : d'.SameNext d) :
    c'.SameNext c := by
  unfold SameNext at *
  rw [h.ahead, h'.ahead, List.head?_append, List.head?_append, hNext]

theorem Moves.size_lt (h : c.Moves u d) (hU : u ≠ []) : d.size < c.size := by
  have hPos := List.length_pos_iff.2 hU
  simp only [size, h.ahead, List.length_append]
  omega

/-- A move past one token is what taking it does. -/
theorem Moves.take_eq (h : c.Moves [t] d) : Walk.take c = .ok d := by
  obtain ⟨behind, ahead, finish⟩ := d
  have hAhead : c.ahead = t :: ahead := h.ahead
  have hBehind : behind = t :: c.behind := h.behind
  have hFinish : finish = c.finish := h.finish
  rw [Walk.take, hAhead, hBehind, hFinish]

end Cursor

/-- A walk passes only rows of a language, and it goes alike from every place where the same tokens
lead to where it ended and the same one is next there. If it fails, it is at the token that is
shown; the tokens before it can go on to a row of the language, with tokens of some kinds. -/
structure Faithful (walk : Walk) (Whole : List Token → Prop) (c : Cursor) : Prop where
  passes : ∀ d, walk c = .ok d → ∃ u, c.Moves u d ∧ Whole u ∧
    ∀ c' d' : Cursor, c'.Moves u d' → d'.SameNext d → walk c' = .ok d'
  fails : ∀ span, walk c = .error span → ∃ (u : List Token) (d : Cursor) (kinds : List Token.Kind),
    c.Moves u d ∧ span = d.peek.span ∧ .eof ∉ kinds ∧ Whole (u ++ kinds.map .ofKind) ∧
    ∀ c' d' : Cursor, c'.Moves u d' → d'.SameNext d → ∃ span', walk c' = .error span'

namespace Faithful

variable {f g : Walk} {First Whole Whole' : List Token → Prop} {c : Cursor} {t : Token}

/-- A faithful walk is faithful to a larger language. -/
theorem mono (h : Faithful f Whole c) (hWhole : ∀ u, Whole u → Whole' u) :
    Faithful f Whole' c where
  passes d hD := by
    obtain ⟨u, hMoves, hU, hAlike⟩ := h.passes d hD
    exact ⟨u, hMoves, hWhole u hU, hAlike⟩
  fails span hSpan := by
    obtain ⟨u, d, kinds, hMoves, hShown, hKinds, hU, hAlike⟩ := h.fails span hSpan
    exact ⟨u, d, kinds, hMoves, hShown, hKinds, hWhole _ hU, hAlike⟩

/-- A walk that reads nothing is faithful where nothing has to be read. -/
theorem stay (hWhole : Whole []) : Faithful Walk.stay Whole c where
  passes d hD := by
    cases hD
    exact ⟨[], .refl c, hWhole, fun c' d' hMoves _ => by rw [hMoves.eq_nil]; rfl⟩
  fails span hSpan := nomatch hSpan

/-- A walk that fails is faithful if tokens of some kinds could have stood there. -/
theorem fail (kinds : List Token.Kind) (hKinds : .eof ∉ kinds)
    (hWhole : Whole (kinds.map .ofKind)) : Faithful Walk.fail Whole c where
  passes d hD := nomatch hD
  fails span hSpan := by
    cases hSpan
    exact ⟨[], c, kinds, .refl c, rfl, hKinds, hWhole, fun c' _ _ _ => ⟨_, rfl⟩⟩

/-- Taking the next token passes that token alone. -/
theorem take (hNext : c.ahead.head? = some t) : Faithful Walk.take (· = [t]) c := by
  obtain ⟨rest, hAhead⟩ := List.head?_eq_some_iff.1 hNext
  have hMoves : c.Moves [t] ⟨t :: c.behind, rest, c.finish⟩ := ⟨hAhead, rfl, rfl⟩
  constructor
  · intro d hD
    cases hMoves.take_eq.symm.trans hD
    exact ⟨[t], hMoves, rfl, fun c' d' hMoves' _ => hMoves'.take_eq⟩
  · intro span hSpan
    cases hMoves.take_eq.symm.trans hSpan

/-- The next token decides, and it is the same wherever the tokens are alike. -/
theorem choose {pick : Option Token → Walk} (h : Faithful (pick c.ahead.head?) Whole c) :
    Faithful (Walk.choose pick) Whole c where
  passes d hD := by
    obtain ⟨u, hMoves, hU, hAlike⟩ := h.passes d hD
    refine ⟨u, hMoves, hU, fun c' d' hMoves' hNext => ?_⟩
    rw [Walk.choose, hMoves.sameNext hMoves' hNext]
    exact hAlike c' d' hMoves' hNext
  fails span hSpan := by
    obtain ⟨u, d, kinds, hMoves, hShown, hKinds, hU, hAlike⟩ := h.fails span hSpan
    refine ⟨u, d, kinds, hMoves, hShown, hKinds, hU, fun c' d' hMoves' hNext => ?_⟩
    rw [Walk.choose, hMoves.sameNext hMoves' hNext]
    exact hAlike c' d' hMoves' hNext

/-- Of two walks the second is faithful to what remains after the first. Where the first fails, what
it can go on to is completed with tokens of given kinds. -/
theorem andThen (kinds : List Token.Kind) (hKinds : .eof ∉ kinds) (hF : Faithful f First c)
    (hWhole : ∀ u, First u → Whole (u ++ kinds.map .ofKind))
    (hG : ∀ u d, c.Moves u d → First u → f c = .ok d → Faithful g (fun v => Whole (u ++ v)) d) :
    Faithful (f.andThen g) Whole c where
  passes e hE := by
    obtain ⟨d, hD, hE⟩ := bind_eq_ok.1 hE
    obtain ⟨u, hMoves, hU, hAlike⟩ := hF.passes d hD
    obtain ⟨v, hMoves', hV, hAlike'⟩ := (hG u d hMoves hU hD).passes e hE
    refine ⟨u ++ v, hMoves.trans hMoves', hV, fun c' e' hBoth hNext => ?_⟩
    obtain ⟨d', hFirst, hSecond⟩ := hBoth.split
    exact bind_eq_ok.2 ⟨d', hAlike c' d' hFirst (hMoves'.sameNext hSecond hNext),
      hAlike' d' e' hSecond hNext⟩
  fails span hSpan := by
    rcases bind_eq_error.1 hSpan with hSpan | ⟨d, hD, hSpan⟩
    · obtain ⟨u, d, more, hMoves, hShown, hMore, hU, hAlike⟩ := hF.fails span hSpan
      refine ⟨u, d, more ++ kinds, hMoves, hShown, by simp [hMore, hKinds], ?_, ?_⟩
      · rw [List.map_append, ← List.append_assoc]
        exact hWhole _ hU
      · intro c' d' hMoves' hNext
        obtain ⟨span', hSpan'⟩ := hAlike c' d' hMoves' hNext
        exact ⟨span', bind_eq_error.2 (.inl hSpan')⟩
    · obtain ⟨u, hMoves, hU, hAlike⟩ := hF.passes d hD
      obtain ⟨v, e, more, hMoves', hShown, hMore, hV, hAlike'⟩ :=
        (hG u d hMoves hU hD).fails span hSpan
      refine ⟨u ++ v, e, more, hMoves.trans hMoves', hShown, hMore, ?_, ?_⟩
      · rwa [List.append_assoc]
      · intro c' e' hBoth hNext
        obtain ⟨d', hFirst, hSecond⟩ := hBoth.split
        obtain ⟨span', hSpan'⟩ := hAlike' d' e' hSecond hNext
        exact ⟨span', bind_eq_error.2 (.inr
          ⟨d', hAlike c' d' hFirst (hMoves'.sameNext hSecond hNext), hSpan'⟩)⟩

/-- The kind of the next token decides between two faithful walks. -/
theorem ifNext {kind : Token.Kind}
    (hF : ∀ t, c.ahead.head? = some t → t.kind = kind → Faithful f Whole c)
    (hG : (∀ t ∈ c.ahead.head?, t.kind ≠ kind) → Faithful g Whole c) :
    Faithful (Walk.ifNext kind f g) Whole c := by
  refine .choose ?_
  by_cases hNext : c.ahead.head?.map Token.kind = some kind
  · obtain ⟨t, hT, hKind⟩ := Option.map_eq_some_iff.1 hNext
    rw [if_pos hNext]
    exact hF t hT hKind
  · rw [if_neg hNext]
    exact hG fun t hT hKind => hNext (Option.map_eq_some_iff.2 ⟨t, hT, hKind⟩)

/-- A token of a kind is passed, and where there is none, one could have stood. -/
theorem need (kind : Token.Kind) (hKind : kind ≠ .eof) :
    Faithful (Walk.need kind) (fun v => ∃ t, v = [t] ∧ t.kind = kind) c := by
  refine .ifNext (fun t hT hIs => ?_) fun _ => ?_
  · exact (take hT).mono fun u hU => ⟨t, hU, hIs⟩
  · exact .fail [kind] (by simpa using hKind.symm) ⟨_, rfl, rfl⟩

section Rows

open Grammar

variable {α : Type} {Item : List Token → α → Prop} {item list : Walk}

/-- Items with commas between them, and the parenthesis after them. -/
theorem separated (kinds : List Token.Kind) (c : Cursor)
    (hList : list = .andThen item (.ifNext .comma (.andThen .take list) (.need .rparen)))
    (hKinds : .eof ∉ kinds) (hSome : ∃ a, Item (kinds.map .ofKind) a)
    (hNe : ∀ u a, Item u a → u ≠ [])
    (hItem : ∀ d : Cursor, d.size ≤ c.size → Faithful item (fun u => ∃ a, Item u a) d) :
    Faithful list (fun v => ∃ u closing as, v = u ++ [closing] ∧ closing.kind = .rparen ∧
      Separated Item u as) c := by
  rw [hList]
  refine .andThen [.rparen] (by decide) (hItem c le_rfl) (fun u hU => ?_) fun u d hMoves hU _ => ?_
  · obtain ⟨a, hA⟩ := hU
    exact ⟨u, _, _, rfl, rfl, .one hA⟩
  · obtain ⟨a, hA⟩ := hU
    have hLess := hMoves.size_lt (hNe u a hA)
    refine .ifNext (fun comma hNext hComma => ?_) fun _ => ?_
    · refine .andThen (kinds ++ [.rparen]) (by simp [hKinds]) (.take hNext) (fun v hV => ?_)
        fun v e hMoves' hV _ => ?_
      · subst hV
        obtain ⟨b, hB⟩ := hSome
        exact ⟨u ++ comma :: kinds.map .ofKind, .ofKind .rparen, _, by simp, rfl,
          .more hA hComma (.one hB)⟩
      · subst hV
        have hLess' := hMoves'.size_lt (List.cons_ne_nil _ _)
        refine (separated kinds e hList hKinds hSome hNe fun d' hD' => hItem d' (by omega)).mono
          fun v hV => ?_
        obtain ⟨w, closing, as, rfl, hClosing, hAs⟩ := hV
        exact ⟨u ++ comma :: w, closing, _, by simp, hClosing, .more hA hComma hAs⟩
    · refine (Faithful.need .rparen (by decide)).mono fun v hV => ?_
      obtain ⟨closing, rfl, hClosing⟩ := hV
      exact ⟨u, closing, _, rfl, hClosing, .one hA⟩
termination_by c.size
decreasing_by exact Nat.lt_trans hLess' hLess

/-- Items with commas between them, in parentheses. -/
theorem parenthesized (c : Cursor)
    (hList : ∀ d : Cursor, d.size < c.size → Faithful list (fun v => ∃ u closing as,
      v = u ++ [closing] ∧ closing.kind = .rparen ∧ Separated Item u as) d) :
    Faithful (.andThen (.need .lparen) (.ifNext .rparen .take list))
      (fun v => ∃ as, Parenthesized Item v as) c := by
  refine .andThen [.rparen] (by decide) (.need .lparen (by decide)) (fun u hU => ?_)
    fun u d hMoves hU _ => ?_
  · obtain ⟨opening, rfl, hOpening⟩ := hU
    exact ⟨_, .none hOpening rfl⟩
  · obtain ⟨opening, rfl, hOpening⟩ := hU
    refine .ifNext (fun closing hNext hClosing => ?_) fun _ => ?_
    · exact (Faithful.take hNext).mono fun v hV => hV ▸ ⟨_, .none hOpening hClosing⟩
    · refine (hList d (hMoves.size_lt (List.cons_ne_nil _ _))).mono fun v hV => ?_
      obtain ⟨w, closing, as, rfl, hClosing, hAs⟩ := hV
      exact ⟨as, .some hOpening hClosing hAs⟩

end Rows

end Faithful

section Outcome

variable {α β : Type} {c : Cursor} {m n : Nat} {x : Reading α m} {kind : Token.Kind}
  {hKind : kind ≠ .eof} {r : Parsed Token c.size} {f g : Walk}

/-- Where a parse goes on after another one, its walk does. -/
theorem outcome_bind {next : Parsed α m → Reading β n}
    (h : ∀ r, x = .ok r → outcome (next r) = g r.rest) :
    outcome (x >>= next) = outcome x >>= g := by
  cases x with
  | ok r => exact h r rfl
  | error e => rfl

/-- What is built from what was read does not change the place that is left. -/
theorem outcome_give {give : Parsed α m → Parsed β n}
    (h : ∀ r, (give r).rest = r.rest) :
    outcome (x >>= fun r => pure (give r)) = outcome x := by
  cases x with
  | ok r => exact congrArg Except.ok (h r)
  | error e => rfl

/-- A parse succeeds exactly if its walk does, and both leave the same place. -/
theorem outcome_eq_ok {d : Cursor} : outcome x = .ok d ↔ ∃ r, x = .ok r ∧ r.rest = d := by
  cases x <;> simp [outcome]

namespace Walk

theorem take_of_step? (h : c.step? = some r) : take c = .ok r.rest :=
  (Cursor.moves_of_step? h).take_eq

theorem choose_of_step? {pick : Option Token → Walk} (h : c.step? = some r) :
    choose pick c = pick (some r.value) c := by
  rw [choose, (Cursor.step?_eq_some.1 h).1, List.head?_cons]

theorem choose_of_step?_eq_none {pick : Option Token → Walk} (h : c.step? = none) :
    choose pick c = pick none c := by
  rw [choose, Cursor.step?_eq_none.1 h, List.head?_nil]

theorem ifNext_eq (h : kind ≠ .eof) :
    ifNext kind f g c = if c.peek.kind = kind then f c else g c := by
  cases hAhead : c.ahead with
  | nil => simp [ifNext, choose, Cursor.peek, Cursor.peekAt, hAhead, Token.atEnd, h.symm]
  | cons t rest =>
      simp only [ifNext, choose, Cursor.peek, Cursor.peekAt, hAhead]
      by_cases hT : t.kind = kind <;> simp [hT]

/-- Where a token of the kind is accepted, the first walk is taken. -/
theorem ifNext_of_accept? (h : c.accept? kind hKind = some r) :
    ifNext kind f g c = f c ∧ take c = .ok r.rest := by
  obtain ⟨hStep, hIs⟩ := Cursor.accept?_eq_some.1 h
  rw [ifNext_eq hKind, if_pos (by rw [Cursor.peek_of_step? hStep, hIs])]
  exact ⟨rfl, take_of_step? hStep⟩

theorem ifNext_of_accept?_eq_none (h : c.accept? kind hKind = none) :
    ifNext kind f g c = g c := by
  rw [ifNext_eq hKind, if_neg (Cursor.accept?_eq_none_iff.1 h)]

end Walk

/-- Requiring a token walks past one of its kind. -/
theorem outcome_require : outcome (c.require kind hKind) = Walk.need kind c := by
  cases hAccept : c.accept? kind hKind with
  | some r =>
      obtain ⟨hNext, hTake⟩ := Walk.ifNext_of_accept? (f := Walk.take) (g := Walk.fail) hAccept
      rw [Walk.need, hNext, hTake, Cursor.require_eq_ok.2 (Cursor.accept?_eq_some.1 hAccept)]
      rfl
  | none =>
      rw [Walk.need, Walk.ifNext_of_accept?_eq_none hAccept, Cursor.require,
        dif_neg (Cursor.accept?_eq_none_iff.1 hAccept)]
      rfl

end Outcome

/-- An expression has at least one token. -/
theorem Grammar.Derives.ne_nil {k : Nat} {u : List Token} {x : Expr} (h : Derives k u x) :
    u ≠ [] := by
  obtain ⟨t, v, rfl, -⟩ := h.head
  exact List.cons_ne_nil t v

/-- A name is an expression of every layer. -/
theorem Grammar.derives_name {k : Nat} (hK : 1 ≤ k ∧ k ≤ 7) :
    Derives k [.ofKind .ident] (.ident (.point 0) "x") :=
  Derives.anti hK.1 hK.2 le_rfl (.name rfl)

theorem Grammar.isExpr_name : IsExpr [.ofKind .ident] (.ident (.point 0) "x") :=
  isExpr_iff.2 (derives_name (by decide))

namespace Expr

open Grammar

def walk (floor : Nat) : Walk := fun c => outcome (parse floor c)

def walkUnary : Walk := fun c => outcome (parseUnary c)

def walkArgs : Walk := fun c => outcome (parseArgs c)

def walkList : Walk := fun c => outcome (parseList c)

/-- What was read before an operator does not decide how the reading goes on. -/
def walkChain (floor : Nat) : Walk := fun c => outcome (parseChain floor (.str (.point 0) "") c)

/-- A number has a value. -/
def walkNumber (t : Token) : Walk :=
  if (Literal.read? t.text.toList).isSome then .take else .fail

/-- An operand without a sign, by the token it starts with. -/
def walkPrimary (t : Token) : Walk :=
  match t.kind with
  | .number => walkNumber t
  | .kwTrue | .kwFalse | .str => .take
  | .ident => .andThen .take (.ifNext .lparen walkArgs .stay)
  | .lparen => .andThen .take (.ifNext .type
      (.andThen .take (.andThen (.need .rparen) (walk castPrecedence)))
      (.andThen (walk 0) (.need .rparen)))
  | _ => .fail

/-- An operand by the next token. -/
def walkOperand : Option Token → Walk
  | none => .fail
  | some t => if (UnaryOp.ofKind? t.kind).isSome then .andThen .take (walk UnaryOp.precedence)
    else walkPrimary t

/-- What follows an operand, by the next token. -/
def walkOperator (floor : Nat) (t : Option Token) : Walk :=
  match t.bind fun t => BinaryOp.ofKind? t.kind with
  | none => .stay
  | some op =>
    if op.precedence ≤ floor then .stay
    else .andThen .take (.andThen (walk op.precedence) (walkChain floor))

/-- The walk of a chain looks at the next operator. The tree that was read so far does not matter to
it. -/
theorem outcome_parseChain {floor : Nat} (lhs : Expr) (c : Cursor) :
    outcome (parseChain floor lhs c) = Walk.choose (walkOperator floor) c := by
  rw [parseChain]
  cases hStep : c.step? with
  | none =>
      rw [Walk.choose_of_step?_eq_none hStep]
      rfl
  | some next =>
      rw [Walk.choose_of_step? hStep, walkOperator]
      simp only [Option.bind_some]
      cases BinaryOp.ofKind? next.value.kind with
      | none => rfl
      | some op =>
          by_cases hFloor : op.precedence ≤ floor
          · simp only [if_pos hFloor]
            rfl
          · simp only [if_neg hFloor]
            rw [Walk.andThen, Walk.take_of_step? hStep]
            refine outcome_bind fun rhs _ => Eq.trans (outcome_give (by intros; rfl)) ?_
            have hLess := (next.before rhs).size_lt
            rw [walkChain, outcome_parseChain, outcome_parseChain]
termination_by c.size
decreasing_by
  · exact hLess
  · exact hLess

theorem walkChain_eq (floor : Nat) : walkChain floor = .choose (walkOperator floor) :=
  funext fun c => outcome_parseChain _ c

/-- An expression is an operand and a chain of operators after it. -/
theorem walk_eq (floor : Nat) : walk floor = .andThen walkUnary (walkChain floor) := by
  funext c
  rw [walk, parse]
  refine outcome_bind fun first _ => Eq.trans (outcome_give (by intros; rfl)) ?_
  rw [outcome_parseChain, walkChain_eq]

/-- Arguments stand in parentheses, and there may be none. -/
theorem walkArgs_eq :
    walkArgs = .andThen (.need .lparen) (.ifNext .rparen .take walkList) := by
  funext c
  rw [walkArgs, parseArgs, Walk.andThen, ← outcome_require]
  refine outcome_bind fun opening _ => ?_
  cases hClosing : opening.rest.accept? .rparen with
  | some closing =>
      obtain ⟨hNext, hTake⟩ := Walk.ifNext_of_accept? hClosing
      rw [hNext, hTake]
      rfl
  | none =>
      rw [Walk.ifNext_of_accept?_eq_none hClosing]
      exact outcome_give (by intros; rfl)

/-- After an argument there is a comma and another one, or a parenthesis. -/
theorem walkList_eq :
    walkList = .andThen (walk 0) (.ifNext .comma (.andThen .take walkList) (.need .rparen)) := by
  funext c
  rw [walkList, parseList, Walk.andThen]
  refine outcome_bind fun first _ => ?_
  cases hComma : first.rest.accept? .comma with
  | some comma =>
      obtain ⟨hNext, hTake⟩ := Walk.ifNext_of_accept? hComma
      rw [hNext, Walk.andThen, hTake]
      exact outcome_give (by intros; rfl)
  | none =>
      rw [Walk.ifNext_of_accept?_eq_none hComma, ← outcome_require]
      exact outcome_give (by intros; rfl)

/-- The walk of an atom is decided by its first token. -/
theorem outcome_parsePrimary {c : Cursor} {next : Parsed Token c.size}
    (hStep : c.step? = some next) :
    outcome (parsePrimary c next) = walkPrimary next.value c := by
  have hTake := Walk.take_of_step? hStep
  fun_cases parsePrimary c next with
  | case1 _ hKind =>
      change next.value.kind = _ at hKind
      simp only [walkPrimary, hKind, walkNumber, ofNumber]
      cases hValue : Literal.read? next.value.text.toList with
      | some value => exact hTake.symm
      | none => exact congrArg (Except.error ·.span) (Cursor.peek_of_step? hStep).symm
  | case2 _ hKind | case3 t hKind | case4 t hKind =>
      change next.value.kind = _ at hKind
      simp only [walkPrimary, hKind]
      exact hTake.symm
  | case5 _ hKind hOpens =>
      change next.value.kind = _ at hKind
      simp only [walkPrimary, hKind, Walk.andThen, hTake]
      change _ = Walk.ifNext .lparen walkArgs .stay next.rest
      rw [Walk.ifNext_eq (by decide), if_pos hOpens]
      exact outcome_give (by intros; rfl)
  | case6 _ hKind hOther =>
      change next.value.kind = _ at hKind
      simp only [walkPrimary, hKind, Walk.andThen, hTake]
      change _ = Walk.ifNext .lparen walkArgs .stay next.rest
      rw [Walk.ifNext_eq (by decide), if_neg hOther]
      rfl
  | case7 _ hKind type hType =>
      change next.value.kind = _ at hKind
      obtain ⟨hNext, hTake'⟩ := Walk.ifNext_of_accept? hType
      simp only [walkPrimary, hKind, Walk.andThen, hTake]
      change _ = Walk.ifNext _ _ _ next.rest
      rw [hNext, Walk.andThen, hTake']
      change _ = (Walk.need .rparen type.rest >>= walk castPrecedence)
      rw [← outcome_require]
      exact outcome_bind fun closing _ => outcome_give (by intros; rfl)
  | case8 _ hKind hNone =>
      change next.value.kind = _ at hKind
      simp only [walkPrimary, hKind, Walk.andThen, hTake]
      change _ = Walk.ifNext _ _ _ next.rest
      rw [Walk.ifNext_of_accept?_eq_none hNone]
      exact outcome_bind fun inner _ => Eq.trans (outcome_give (by intros; rfl)) outcome_require
  | case9 =>
      refine congrFun (?_ : Walk.fail = _) c
      fun_cases walkPrimary next.value with
      | case7 => rfl
      | _ => contradiction

/-- The walk of an operand is decided by its first token. -/
theorem walkUnary_eq : walkUnary = .choose walkOperand := by
  funext c
  rw [walkUnary]
  fun_cases parseUnary c with
  | case1 hStep =>
      rw [Walk.choose_of_step?_eq_none hStep]
      rfl
  | case2 next hStep hNone =>
      rw [Walk.choose_of_step? hStep, walkOperand, if_neg (by simp [hNone]),
        outcome_parsePrimary hStep]
  | case3 next hStep op hOp =>
      rw [Walk.choose_of_step? hStep, walkOperand, if_pos (by simp [hOp]), Walk.andThen,
        Walk.take_of_step? hStep]
      exact outcome_give (by intros; rfl)

-- Each walk is taken apart as the readers call each other, and ends for the same reason.
mutual

/-- The walk of an expression is faithful to the layer above its floor. -/
theorem faithful_walk (floor : Nat) (c : Cursor) :
    Faithful (walk floor) (fun v => ∃ x, Derives (min (floor + 1) 6) v x) c := by
  rw [walk_eq]
  refine .andThen [] (by decide) (faithful_walkUnary c) (fun u hU => ?_) fun u d hMoves hU _ => ?_
  · obtain ⟨x, hX⟩ := hU
    rw [List.map_nil, List.append_nil]
    exact ⟨x, hX.anti (by omega) (by omega) (by omega)⟩
  · obtain ⟨x, hX⟩ := hU
    have hLess := hMoves.size_lt hX.ne_nil
    exact faithful_walkChain d hX (Nat.min_le_right _ _) le_rfl
      (Cursor.stops_of_five_le (by omega) d)
termination_by (c.size, 2)
decreasing_by
  · exact .right _ (by omega)
  · exact .left _ _ hLess

/-- The tokens before a chain are in a layer in which the operator ahead, if there is one, goes
on. -/
theorem faithful_walkChain {floor k : Nat} {u : List Token} {x : Expr} (c : Cursor)
    (hLhs : Derives k u x) (hFloor : min (floor + 1) 6 ≤ k) (hK : k ≤ 6) (hNext : c.Stops k) :
    Faithful (walkChain floor) (fun v => ∃ y, Derives (min (floor + 1) 6) (u ++ v) y) c := by
  have hStay : ∃ y, Derives (min (floor + 1) 6) (u ++ []) y := by
    rw [List.append_nil]
    exact ⟨x, hLhs.anti (by omega) hFloor (by omega)⟩
  rw [walkChain_eq]
  refine .choose ?_
  fun_cases walkOperator floor c.ahead.head? with
  | case1 => exact .stay hStay
  | case2 => exact .stay hStay
  | case3 op hOp hHigh =>
      obtain ⟨t, hT, hOp⟩ := Option.bind_eq_some_iff.1 hOp
      have hBounds := precedence_bounds op
      have hLayer : op.precedence ≤ k := hNext t hT op hOp
      have hJoin {v : List Token} {y : Expr} (hY : Derives (min (op.precedence + 1) 6) v y) :
          Derives op.precedence (u ++ t :: v) (binary (.point 0) op x y) := by
        rw [show min (op.precedence + 1) 6 = op.precedence + 1 by omega] at hY
        exact .chain (mem_operators.2 ⟨hOp, rfl⟩) (hLhs.anti hBounds.1 hLayer (by omega)) hY
      have hWhole {v : List Token} (hV : ∃ y, Derives (min (op.precedence + 1) 6) v y) :
          ∃ y, Derives (min (floor + 1) 6) (u ++ t :: v) y := by
        obtain ⟨y, hY⟩ := hV
        exact ⟨_, (hJoin hY).anti (by omega) (by omega) (by omega)⟩
      refine .andThen [.ident] (by decide) (.take hT) (fun w hW => ?_) fun w d hMoves hW _ => ?_
      · subst hW
        exact hWhole ⟨_, derives_name (by omega)⟩
      · subst hW
        have hLess := hMoves.size_lt (List.cons_ne_nil _ _)
        refine .andThen [] (by decide) (faithful_walk op.precedence d) (fun v hV => ?_)
          fun v e hMoves' hV hWalk => ?_
        · rw [List.map_nil, List.append_nil]
          exact hWhole hV
        · obtain ⟨r, hParse, rfl⟩ := outcome_eq_ok.1 hWalk
          obtain ⟨-, -, -, hStops⟩ := derives_of_parse hParse
          obtain ⟨y, hY⟩ := hV
          have hLess' := hMoves'.size_lt hY.ne_nil
          refine (faithful_walkChain r.rest (hJoin hY) (by omega) (by omega) hStops).mono
            fun w hW => ?_
          rw [List.append_assoc] at hW
          exact hW
termination_by (c.size, 0)
decreasing_by
  · exact .left _ _ hLess
  · exact .left _ _ (Nat.lt_trans hLess' hLess)

/-- The walk of an operand is faithful to the layer of operands. -/
theorem faithful_walkUnary (c : Cursor) : Faithful walkUnary (fun v => ∃ x, Derives 6 v x) c := by
  rw [walkUnary_eq]
  refine .choose ?_
  cases hNext : c.ahead.head? with
  | none => exact .fail [.ident] (by decide) ⟨_, derives_name (by omega)⟩
  | some t =>
      rw [walkOperand]
      by_cases hSign : (UnaryOp.ofKind? t.kind).isSome = true
      · rw [if_pos hSign]
        obtain ⟨op, hOp⟩ := Option.isSome_iff_exists.1 hSign
        refine .andThen [.ident] (by decide) (.take hNext) (fun u hU => ?_)
          fun u d hMoves hU _ => ?_
        · subst hU
          exact ⟨_, .sign (mem_signs.2 hOp) (derives_name (by omega))⟩
        · subst hU
          have hLess := hMoves.size_lt (List.cons_ne_nil _ _)
          refine (faithful_walk UnaryOp.precedence d).mono fun v hV => ?_
          obtain ⟨x, hX⟩ := hV
          exact ⟨_, .sign (mem_signs.2 hOp) hX⟩
      · rw [if_neg hSign]
        refine (faithful_walkPrimary c hNext).mono fun v hV => ?_
        obtain ⟨x, hX⟩ := hV
        exact ⟨x, .tighter (by omega) hX⟩
termination_by (c.size, 1)
decreasing_by
  · exact .left _ _ hLess
  · exact .right _ (by omega)

/-- The walk of an atom is faithful to the layer of atoms. -/
theorem faithful_walkPrimary {t : Token} (c : Cursor) (hNext : c.ahead.head? = some t) :
    Faithful (walkPrimary t) (fun v => ∃ x, Derives 7 v x) c := by
  fun_cases walkPrimary t with
  | case1 hKind =>
      rw [walkNumber]
      by_cases hRead : (Literal.read? t.text.toList).isSome = true
      · obtain ⟨value, hValue⟩ := Option.isSome_iff_exists.1 hRead
        rw [if_pos hRead]
        exact (Faithful.take hNext).mono fun v hV => hV ▸ ⟨_, .number hKind hValue⟩
      · rw [if_neg hRead]
        exact .fail [.ident] (by decide) ⟨_, derives_name (by omega)⟩
  | case2 hKind =>
      exact (Faithful.take hNext).mono fun v hV => hV ▸ ⟨_, .yes hKind⟩
  | case3 hKind =>
      exact (Faithful.take hNext).mono fun v hV => hV ▸ ⟨_, .no hKind⟩
  | case4 hKind =>
      exact (Faithful.take hNext).mono fun v hV => hV ▸ ⟨_, .str hKind⟩
  | case5 hKind =>
      refine .andThen [] (by decide) (.take hNext) (fun u hU => ?_) fun u d hMoves hU _ => ?_
      · subst hU
        exact ⟨_, .name hKind⟩
      · subst hU
        have hLess := hMoves.size_lt (List.cons_ne_nil _ _)
        refine .ifNext (fun _ _ _ => ?_) fun _ => .stay ⟨_, .name hKind⟩
        refine (faithful_walkArgs d).mono fun v hV => ?_
        obtain ⟨xs, hXs⟩ := hV
        exact ⟨_, .call hKind hXs⟩
  | case6 hKind =>
      refine .andThen [.ident, .rparen] (by decide) (.take hNext) (fun u hU => ?_)
        fun u d hMoves hU _ => ?_
      · subst hU
        exact ⟨_, .group hKind rfl (derives_name (by omega))⟩
      · subst hU
        have hLess := hMoves.size_lt (List.cons_ne_nil _ _)
        refine .ifNext (fun type hType hIsType => ?_) fun _ => ?_
        · refine .andThen [.rparen, .ident] (by decide) (.take hType) (fun u hU => ?_)
            fun u e hMoves' hU _ => ?_
          · subst hU
            exact ⟨_, .cast hKind hIsType rfl (derives_name (by omega))⟩
          · subst hU
            have hLess' := hMoves'.size_lt (List.cons_ne_nil _ _)
            refine .andThen [.ident] (by decide) (.need .rparen (by decide)) (fun u hU => ?_)
              fun u e' hMoves'' hU _ => ?_
            · obtain ⟨closing, rfl, hClosing⟩ := hU
              exact ⟨_, .cast hKind hIsType hClosing (derives_name (by omega))⟩
            · obtain ⟨closing, rfl, hClosing⟩ := hU
              have hLess'' := hMoves''.size_lt (List.cons_ne_nil _ _)
              refine (faithful_walk castPrecedence e').mono fun v hV => ?_
              obtain ⟨x, hX⟩ := hV
              exact ⟨_, .cast hKind hIsType hClosing hX⟩
        · refine .andThen [.rparen] (by decide) (faithful_walk 0 d) (fun u hU => ?_)
            fun u e _ hU _ => ?_
          · obtain ⟨x, hX⟩ := hU
            exact ⟨_, .group hKind rfl hX⟩
          · refine (Faithful.need .rparen (by decide)).mono fun v hV => ?_
            obtain ⟨x, hX⟩ := hU
            obtain ⟨closing, rfl, hClosing⟩ := hV
            exact ⟨_, .group hKind hClosing hX⟩
  | case7 =>
      exact .fail [.ident] (by decide) ⟨_, derives_name (by omega)⟩
termination_by (c.size, 0)
decreasing_by
  · exact .left _ _ hLess
  · exact .left _ _ (by omega)
  · exact .left _ _ hLess

/-- The walk of arguments is faithful to rows of expressions in parentheses. -/
theorem faithful_walkArgs (c : Cursor) :
    Faithful walkArgs (fun v => ∃ xs, DerivesArgs v xs) c := by
  rw [walkArgs_eq]
  refine (Faithful.parenthesized c fun d hLess => faithful_walkList d).mono fun v hV => ?_
  obtain ⟨xs, hXs⟩ := hV
  exact ⟨xs, parenthesized_isExpr_iff.1 hXs⟩
termination_by (c.size, 0)
decreasing_by exact .left _ _ hLess

/-- So is the rest of that walk, after the opening parenthesis. -/
theorem faithful_walkList (c : Cursor) :
    Faithful walkList (fun v => ∃ u closing xs, v = u ++ [closing] ∧ closing.kind = .rparen ∧
      Separated IsExpr u xs) c := by
  refine .separated [.ident] c walkList_eq (by decide)
    ⟨_, isExpr_name⟩ (fun u x hX => (isExpr_iff.1 hX).ne_nil) fun d hLe => ?_
  refine (faithful_walk 0 d).mono fun u hU => ?_
  obtain ⟨x, hX⟩ := hU
  exact ⟨x, isExpr_iff.2 hX⟩
termination_by (c.size, 3)
decreasing_by
  rcases Nat.lt_or_eq_of_le hLe with hLess | hEq
  · exact .left _ _ hLess
  · rw [hEq]
    exact .right _ (by omega)

end

theorem faithful_walk_isExpr (c : Cursor) : Faithful (walk 0) (fun v => ∃ x, IsExpr v x) c := by
  refine (faithful_walk 0 c).mono fun v hV => ?_
  obtain ⟨x, hX⟩ := hV
  exact ⟨x, isExpr_iff.2 hX⟩

end Expr

namespace Declaration

open Grammar

def walk : Walk := fun c => outcome (parse c)

def walkList : Walk := fun c => outcome (parseList c)

def walkParams : Walk := fun c => outcome (parseParams c)

/-- What follows the name of a declaration. -/
def walkInit : Walk := .ifNext .assign (.andThen .take (Expr.walk 0)) .stay

/-- A bracket after the type fails where the name is missing. -/
theorem walk_eq : walk = .andThen (.need .type) (.andThen (.need .ident) walkInit) := by
  funext c
  rw [walk, parse, Walk.andThen, ← outcome_require]
  refine outcome_bind fun type _ => ?_
  rw [Walk.andThen]
  by_cases hBracket : type.rest.peek.kind = .lbracket
  · rw [if_pos hBracket, Walk.need, Walk.ifNext_eq (by decide), if_neg (by simp [hBracket])]
    rfl
  · rw [if_neg hBracket, ← outcome_require]
    refine outcome_bind fun name _ => ?_
    rw [walkInit]
    cases hEquals : name.rest.accept? .assign with
    | some equals =>
        obtain ⟨hNext, hTake⟩ := Walk.ifNext_of_accept? hEquals
        rw [hNext, Walk.andThen, hTake]
        exact outcome_give (by intros; rfl)
    | none =>
        rw [Walk.ifNext_of_accept?_eq_none hEquals]
        rfl

theorem walkList_eq :
    walkList = .andThen walk (.ifNext .comma (.andThen .take walkList) (.need .rparen)) := by
  funext c
  rw [walkList, parseList, Walk.andThen]
  refine outcome_bind fun first _ => ?_
  cases hComma : first.rest.accept? .comma with
  | some comma =>
      obtain ⟨hNext, hTake⟩ := Walk.ifNext_of_accept? hComma
      rw [hNext, Walk.andThen, hTake]
      exact outcome_give (by intros; rfl)
  | none =>
      rw [Walk.ifNext_of_accept?_eq_none hComma, ← outcome_require]
      exact outcome_give (by intros; rfl)

/-- Parameters stand in parentheses, and there may be none. -/
theorem walkParams_eq :
    walkParams = .andThen (.need .lparen) (.ifNext .rparen .take walkList) := by
  funext c
  rw [walkParams, parseParams, Walk.andThen, ← outcome_require]
  refine outcome_bind fun opening _ => ?_
  cases hClosing : opening.rest.accept? .rparen with
  | some closing =>
      obtain ⟨hNext, hTake⟩ := Walk.ifNext_of_accept? hClosing
      rw [hNext, hTake]
      rfl
  | none =>
      rw [Walk.ifNext_of_accept?_eq_none hClosing]
      exact outcome_give (by intros; rfl)

/-- After its type and its name, a declaration may have a first value. -/
theorem faithful_walkInit {type name : Token} (c : Cursor) (hType : type.kind = .type)
    (hName : name.kind = .ident) :
    Faithful walkInit (fun v => ∃ d, DerivesDecl (type :: name :: v) d) c := by
  refine .ifNext (fun equals hNext hEquals => ?_) fun _ => .stay ⟨_, .bare hType hName⟩
  refine .andThen [.ident] (by decide) (.take hNext) (fun u hU => ?_) fun u d _ hU _ => ?_
  · subst hU
    exact ⟨_, .init hType hName hEquals isExpr_name⟩
  · subst hU
    refine (Expr.faithful_walk_isExpr d).mono fun v hV => ?_
    obtain ⟨x, hX⟩ := hV
    exact ⟨_, .init hType hName hEquals hX⟩

/-- The walk of a declaration is faithful to declarations. -/
theorem faithful_walk (c : Cursor) : Faithful walk (fun v => ∃ d, DerivesDecl v d) c := by
  rw [walk_eq]
  refine .andThen [.ident] (by decide) (.need .type (by decide)) (fun u hU => ?_)
    fun u d _ hU _ => ?_
  · obtain ⟨type, rfl, hType⟩ := hU
    exact ⟨_, .bare hType rfl⟩
  · obtain ⟨type, rfl, hType⟩ := hU
    refine .andThen [] (by decide) (.need .ident (by decide)) (fun v hV => ?_) fun v e _ hV _ => ?_
    · obtain ⟨name, rfl, hName⟩ := hV
      exact ⟨_, .bare hType hName⟩
    · obtain ⟨name, rfl, hName⟩ := hV
      exact faithful_walkInit e hType hName

/-- The walk of parameters is faithful to rows of declarations in parentheses. -/
theorem faithful_walkParams (c : Cursor) :
    Faithful walkParams (fun v => ∃ ds, Parenthesized DerivesDecl v ds) c := by
  rw [walkParams_eq]
  refine .parenthesized c fun d _ => .separated [.type, .ident] d walkList_eq (by decide)
    ⟨_, .bare rfl rfl⟩ (fun u decl hDecl => ?_) fun e _ => faithful_walk e
  obtain ⟨type, name, v, rfl, -⟩ := hDecl.head
  exact List.cons_ne_nil _ _

end Declaration

end WasmCompiler
