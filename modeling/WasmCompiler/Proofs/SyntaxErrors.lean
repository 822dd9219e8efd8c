import Mathlib
import WasmCompiler.Proofs.ErrorPlaces

/-! Where the reading of statements and programs fails. A type starts a function or a variable, and
three tokens decide which; but both start alike, so that looking ahead moves no error. -/

namespace WasmCompiler

namespace Grammar

variable {u : List Token} {takes : Bool}

theorem DerivesCondition.ne_nil {x : Expr} (h : DerivesCondition u x) : u ≠ [] := by
  cases h
  exact List.cons_ne_nil _ _

theorem Parenthesized.ne_nil {α : Type} {Item : List Token → α → Prop} {as : List α}
    (h : Parenthesized Item u as) : u ≠ [] := by
  obtain ⟨t, v, rfl, -⟩ := h.head
  exact List.cons_ne_nil t v

/-- A statement has at least one token. -/
theorem DerivesStmt.ne_nil {s : Stmt} (h : DerivesStmt takes u s) : u ≠ [] := by
  obtain ⟨t, v, rfl, -⟩ := h.head
  exact List.cons_ne_nil t v

theorem DerivesBranch.ne_nil {ss : List Stmt} (h : DerivesBranch takes u ss) : u ≠ [] := by
  obtain ⟨t, v, rfl⟩ := h.head
  exact List.cons_ne_nil t v

end Grammar

namespace Stmt

open Grammar

/-- How the reading of a statement ends, if there must be one. -/
def outcome? (c : Cursor) :
    Except (Located GrammarError) (Option (Parsed Stmt c.size)) → Except Span Cursor
  | .ok (some r) => .ok r.rest
  | .ok none => .error c.peek.span
  | .error e => .error e.span

def walk : Walk := fun c => outcome? c (parse? c)

def walkCondition : Walk := fun c => outcome (parseCondition c)

def walkElse : Walk := fun c => outcome (parseElse c)

def walkBranch : Walk := fun c => outcome (parseBranch c)

def walkBraced : Walk := fun c => outcome (parseBraced c)

def walkBody : Walk := fun c => outcome (parseBody c)

/-- What follows a name at the start of a statement. -/
def walkAction : Walk :=
  .ifNext .assign (.andThen .take (Expr.walk 0)) (.ifNext .lparen Expr.walkArgs .fail)

/-- An `if` with all that goes on with it. -/
def walkChain : Walk := .andThen .take (.andThen walkCondition (.andThen walkBranch walkElse))

/-- What follows a type at the start of a statement. -/
def walkTyped : Walk :=
  .andThen (.need .ident) (.ifNext .lparen (.andThen Declaration.walkParams walkBraced)
    (.andThen Declaration.walkInit (.need .semicolon)))

/-- A statement by the kind of the token it starts with. -/
def walkStart (kind : Token.Kind) : Walk :=
  match kind with
  | .kwWhile => .andThen .take (.andThen walkCondition walkBranch)
  | .kwIf => walkChain
  | .kwWasm => .andThen .take (.andThen (.need .str) (.need .semicolon))
  | .kwReturn => .andThen .take (.andThen (Expr.walk 0) (.need .semicolon))
  | .ident => .andThen .take (.andThen walkAction (.need .semicolon))
  | .type => .andThen .take walkTyped
  | _ => .fail

/-- A condition is an expression in parentheses. -/
theorem walkCondition_eq :
    walkCondition = .andThen (.need .lparen) (.andThen (Expr.walk 0) (.need .rparen)) := by
  funext c
  rw [walkCondition, parseCondition, Walk.andThen, ← outcome_require]
  refine outcome_bind fun opening _ => ?_
  exact outcome_bind fun cond _ => Eq.trans (outcome_give (by intros; rfl)) outcome_require

/-- A raw statement goes on with a text and a semicolon after its keyword. -/
theorem outcome_parseRaw (start : Nat) (c : Cursor) :
    outcome (parseRaw start c) = Walk.andThen (.need .str) (.need .semicolon) c := by
  rw [parseRaw, Walk.andThen, ← outcome_require]
  exact outcome_bind fun text _ => Eq.trans (outcome_give (by intros; rfl)) outcome_require

/-- A return statement goes on with an expression and a semicolon after its keyword. -/
theorem outcome_parseRet (start : Nat) (c : Cursor) :
    outcome (parseRet start c) = Walk.andThen (Expr.walk 0) (.need .semicolon) c := by
  rw [parseRet]
  exact outcome_bind fun value _ => Eq.trans (outcome_give (by intros; rfl)) outcome_require

/-- An assignment or a call goes on after its name, whatever the name is. -/
theorem outcome_parseAction (name : Token) (c : Cursor) :
    outcome (parseAction name c) = walkAction c := by
  rw [walkAction]
  fun_cases parseAction name c with
  | case1 equals hEquals =>
      obtain ⟨hNext, hTake⟩ := Walk.ifNext_of_accept? hEquals
      rw [hNext, Walk.andThen, hTake]
      exact outcome_give (by intros; rfl)
  | case2 hNone hOpens =>
      rw [Walk.ifNext_of_accept?_eq_none hNone, Walk.ifNext_eq (by decide), if_pos hOpens]
      exact outcome_give (by intros; rfl)
  | case3 hNone hOther =>
      rw [Walk.ifNext_of_accept?_eq_none hNone, Walk.ifNext_eq (by decide), if_neg hOther]
      rfl

/-- As a statement it goes on to a semicolon. -/
theorem outcome_parseEval (name : Token) (c : Cursor) :
    outcome (parseEval name c) = Walk.andThen walkAction (.need .semicolon) c := by
  rw [parseEval, Walk.andThen, ← outcome_parseAction name]
  exact outcome_bind fun action _ => Eq.trans (outcome_give (by intros; rfl)) outcome_require

/-- After a branch there may be an `else`, with more branches or the last one. -/
theorem walkElse_eq :
    walkElse = .ifNext .kwElse (.andThen .take (.ifNext .kwIf walkChain walkBranch)) .stay := by
  funext c
  rw [walkElse]
  fun_cases parseElse c with
  | case1 hNone =>
      rw [Walk.ifNext_of_accept?_eq_none hNone]
      rfl
  | case2 orElse hElse orIf hIf =>
      obtain ⟨hNext, hTake⟩ := Walk.ifNext_of_accept? hElse
      obtain ⟨hNext', hTake'⟩ := Walk.ifNext_of_accept? hIf
      rw [hNext, Walk.andThen, hTake]
      change _ = Walk.ifNext .kwIf walkChain walkBranch orElse.rest
      rw [hNext', walkChain, Walk.andThen, hTake']
      refine outcome_bind fun cond _ => ?_
      exact outcome_bind fun block _ => outcome_give (by intros; rfl)
  | case3 orElse hElse hNone =>
      obtain ⟨hNext, hTake⟩ := Walk.ifNext_of_accept? hElse
      rw [hNext, Walk.andThen, hTake]
      change _ = Walk.ifNext .kwIf walkChain walkBranch orElse.rest
      rw [Walk.ifNext_of_accept?_eq_none hNone]
      exact outcome_give (by intros; rfl)

/-- A branch is a block in braces or one statement. -/
theorem walkBranch_eq : walkBranch = .ifNext .lbrace walkBraced walk := by
  funext c
  rw [walkBranch, Walk.ifNext_eq (by decide)]
  fun_cases parseBranch c with
  | case1 hBrace =>
      rw [if_pos hBrace]
      rfl
  | case2 hOther =>
      rw [if_neg hOther, walk]
      cases parse? c with
      | error e => rfl
      | ok found => cases found <;> rfl

theorem walkBraced_eq :
    walkBraced = .andThen (.need .lbrace) (.andThen walkBody (.need .rbrace)) := by
  funext c
  rw [walkBraced, parseBraced, Walk.andThen, ← outcome_require]
  refine outcome_bind fun opening _ => ?_
  exact outcome_bind fun body _ => Eq.trans (outcome_give (by intros; rfl)) outcome_require

/-- Nothing is read exactly if no statement starts with the next token. -/
theorem parse?_eq_ok_none_iff {c : Cursor} :
    parse? c = .ok none ↔ ∀ t ∈ c.ahead.head?, t.kind ∉ stmtHeads := by
  have hHead {next : Parsed Token c.size} (hStep : c.step? = some next) :
      (∀ t ∈ c.ahead.head?, t.kind ∉ stmtHeads) ↔ next.value.kind ∉ stmtHeads := by
    simp [(Cursor.step?_eq_some.1 hStep).1]
  fun_cases parse? c with
  | case1 hStep => simp [Cursor.step?_eq_none.1 hStep]
  | case2 next hStep _ hKind | case3 next hStep _ hKind | case4 next hStep _ hKind
  | case5 next hStep _ hKind | case6 next hStep hKind | case7 next hStep hKind
  | case8 next hStep hKind =>
      refine Iff.trans ?_ (hHead hStep).symm
      simp only [hKind, stmtHeads, bind_eq_ok, pure_eq_ok, reduceCtorEq, and_false, exists_false,
        false_iff]
      decide
  | case9 next hStep hWhile hIf hWasm hReturn hName hType =>
      refine Iff.trans ?_ (hHead hStep).symm
      simpa [stmtHeads] using ⟨hWhile, hIf, hWasm, hReturn, hName, hType⟩

/-- A body goes on as long as a statement can start. -/
theorem walkBody_eq : walkBody = .choose fun t =>
    if ∃ head ∈ t, head.kind ∈ stmtHeads then .andThen walk walkBody else .stay := by
  funext c
  rw [walkBody, parseBody, Walk.choose]
  by_cases hHead : ∃ head ∈ c.ahead.head?, head.kind ∈ stmtHeads
  · rw [if_pos hHead, Walk.andThen, walk]
    cases hFound : parse? c with
    | error e => rfl
    | ok found =>
        cases found with
        | none =>
            obtain ⟨head, hNext, hMem⟩ := hHead
            exact absurd hMem (parse?_eq_ok_none_iff.1 hFound head hNext)
        | some stmt => exact outcome_give (by intros; rfl)
  · rw [if_neg hHead, parse?_eq_ok_none_iff.2 fun t hT hMem => hHead ⟨t, hT, hMem⟩]
    rfl

section Start

variable {α : Type} {m : Nat} {x : Reading α m} {c : Cursor}

/-- Where a statement is looked for after a parse, its walk goes on after that one. -/
theorem outcome?_bind
    {next : Parsed α m → Except (Located GrammarError) (Option (Parsed Stmt c.size))}
    {g : Walk} (h : ∀ r, x = .ok r → outcome? c (next r) = g r.rest) :
    outcome? c (x >>= next) = outcome x >>= g := by
  cases x with
  | ok r => exact h r rfl
  | error e => rfl

theorem outcome?_give {give : Parsed α m → Parsed Stmt c.size}
    (h : ∀ r, (give r).rest = r.rest) :
    outcome? c (x >>= fun r => pure (some (give r))) = outcome x := by
  cases x with
  | ok r => exact congrArg Except.ok (h r)
  | error e => rfl

theorem outcome_parseVar (c : Cursor) :
    outcome (parseVar c) = Walk.andThen Declaration.walk (.need .semicolon) c := by
  rw [parseVar]
  exact outcome_bind fun decl _ => Eq.trans (outcome_give (by intros; rfl)) outcome_require

/-- The heading of a function is a type, a name and parameters. -/
theorem outcome_parseHead (c : Cursor) : outcome (parseHead c) =
    Walk.andThen (.need .type) (.andThen (.need .ident) Declaration.walkParams) c := by
  rw [parseHead, Walk.andThen, ← outcome_require]
  refine outcome_bind fun type _ => ?_
  rw [Walk.andThen, ← outcome_require]
  exact outcome_bind fun name _ => outcome_give (by intros; rfl)

/-- Three tokens ahead tell a function from a variable; the walk takes two and looks at the next. -/
theorem outcome_typed {c : Cursor} {next : Parsed Token c.size} (hStep : c.step? = some next)
    (hKind : next.value.kind = .type) :
    (if (c.peekAt 3).kind = .lparen then outcome (parseHead c) >>= walkBraced
      else outcome (parseVar c)) = walkTyped next.rest := by
  have hNeed : Walk.need .type c = .ok next.rest := by
    rw [Walk.need, Walk.ifNext_eq (by decide), if_pos (by rw [Cursor.peek_of_step? hStep, hKind]),
      Walk.take_of_step? hStep]
  rw [outcome_parseHead, outcome_parseVar, Declaration.walk_eq, walkTyped]
  simp only [Walk.andThen, hNeed]
  cases hName : Walk.need .ident next.rest with
  | error span =>
      change (if _ then (Walk.need .ident next.rest >>= _) >>= _
        else (Walk.need .ident next.rest >>= _) >>= _) = _
      rw [hName]
      exact ite_self _
  | ok d =>
      obtain ⟨u, hMoves, ⟨name, rfl, -⟩, -⟩ := (Faithful.need .ident (by decide)).passes d hName
      have hThird : c.peekAt 3 = d.peek := by
        have hBoth := (Cursor.moves_of_step? hStep).trans hMoves
        simp [Cursor.peekAt, Cursor.peek, hBoth.ahead, hBoth.finish]
      change (if _ then (Walk.need .ident next.rest >>= _) >>= _
        else (Walk.need .ident next.rest >>= _) >>= _) = Walk.ifNext _ _ _ d
      rw [hName, hThird, Walk.ifNext_eq (by decide)]
      rfl

/-- The walk of a statement is decided by the kind of its first token. -/
theorem walk_eq : walk = .choose fun t => t.elim .fail fun t => walkStart t.kind := by
  funext c
  rw [walk]
  fun_cases parse? c with
  | case1 hStep =>
      rw [Walk.choose_of_step?_eq_none hStep]
      rfl
  | case2 next hStep _ hKind =>
      rw [Walk.choose_of_step? hStep, Option.elim_some, hKind, walkStart, Walk.andThen,
        Walk.take_of_step? hStep]
      refine outcome?_bind fun cond _ => ?_
      exact outcome?_give (by intros; rfl)
  | case3 next hStep _ hKind =>
      rw [Walk.choose_of_step? hStep, Option.elim_some, hKind, walkStart, walkChain, Walk.andThen,
        Walk.take_of_step? hStep]
      refine outcome?_bind fun cond _ => ?_
      exact outcome?_bind fun block _ => outcome?_give (by intros; rfl)
  | case4 next hStep _ hKind =>
      rw [Walk.choose_of_step? hStep, Option.elim_some, hKind, walkStart, Walk.andThen,
        Walk.take_of_step? hStep]
      exact Eq.trans (outcome?_give (by intros; rfl)) (outcome_parseRaw _ _)
  | case5 next hStep _ hKind =>
      rw [Walk.choose_of_step? hStep, Option.elim_some, hKind, walkStart, Walk.andThen,
        Walk.take_of_step? hStep]
      exact Eq.trans (outcome?_give (by intros; rfl)) (outcome_parseRet _ _)
  | case6 next hStep hKind =>
      rw [Walk.choose_of_step? hStep, Option.elim_some, hKind, walkStart, Walk.andThen,
        Walk.take_of_step? hStep]
      exact Eq.trans (outcome?_give (by intros; rfl)) (outcome_parseEval _ _)
  | case7 next hStep hKind hOpens =>
      have hTyped := outcome_typed hStep hKind
      rw [if_pos hOpens] at hTyped
      rw [Walk.choose_of_step? hStep, Option.elim_some, hKind, walkStart, Walk.andThen,
        Walk.take_of_step? hStep]
      refine Eq.trans ?_ hTyped
      exact outcome?_bind fun head _ => outcome?_give (by intros; rfl)
  | case8 next hStep hKind hOther =>
      have hTyped := outcome_typed hStep hKind
      rw [if_neg hOther] at hTyped
      rw [Walk.choose_of_step? hStep, Option.elim_some, hKind, walkStart, Walk.andThen,
        Walk.take_of_step? hStep]
      refine Eq.trans ?_ hTyped
      exact outcome?_give (by intros; rfl)
  | case9 next hStep hWhile hIf hWasm hReturn hName hType =>
      rw [Walk.choose_of_step? hStep, Option.elim_some,
        walkStart.eq_7 _ hWhile hIf hWasm hReturn hName hType]
      rfl

end Start

/-- A name in parentheses is a condition, and so what can be added where one is missing. -/
theorem derivesCondition_name (opening : Token) (hOpening : opening.kind = .lparen) :
    DerivesCondition (opening :: [.ident, .rparen].map .ofKind) (.ident (.point 0) "x") :=
  .parens hOpening rfl isExpr_name

/-- Empty braces are a branch, and so what can be added where one is missing. -/
theorem derivesBranch_braces : DerivesBranch false ([.lbrace, .rbrace].map .ofKind) [] :=
  .braces rfl .nil rfl

/-- The walk of a condition is faithful to conditions. -/
theorem faithful_walkCondition (c : Cursor) :
    Faithful walkCondition (fun v => ∃ x, DerivesCondition v x) c := by
  rw [walkCondition_eq]
  refine .andThen [.ident, .rparen] (by decide) (.need .lparen (by decide)) (fun u hU => ?_)
    fun u d _ hU _ => ?_
  · obtain ⟨opening, rfl, hOpening⟩ := hU
    exact ⟨_, derivesCondition_name opening hOpening⟩
  · obtain ⟨opening, rfl, hOpening⟩ := hU
    refine .andThen [.rparen] (by decide) (Expr.faithful_walk_isExpr d) (fun v hV => ?_)
      fun v e _ hV _ => ?_
    · obtain ⟨x, hX⟩ := hV
      exact ⟨x, .parens hOpening rfl hX⟩
    · obtain ⟨x, hX⟩ := hV
      refine (Faithful.need .rparen (by decide)).mono fun w hW => ?_
      obtain ⟨closing, rfl, hClosing⟩ := hW
      exact ⟨x, .parens hOpening hClosing hX⟩

/-- Assignments and calls, up to the semicolon after them. -/
theorem faithful_walkAction {name : Token} (c : Cursor) (hName : name.kind = .ident) :
    Faithful walkAction (fun v => ∀ semicolon : Token, semicolon.kind = .semicolon →
      ∃ s, DerivesStmt false (name :: (v ++ [semicolon])) s) c := by
  refine .ifNext (fun equals hNext hEquals => ?_) fun _ => .ifNext (fun _ _ _ => ?_) fun _ => ?_
  · refine .andThen [.ident] (by decide) (.take hNext) (fun u hU => ?_) fun u d _ hU _ => ?_
    · subst hU
      exact fun semicolon hEnd => ⟨_, .assign hName hEquals isExpr_name hEnd⟩
    · subst hU
      refine (Expr.faithful_walk_isExpr d).mono fun v hV semicolon hEnd => ?_
      obtain ⟨x, hX⟩ := hV
      exact ⟨_, .assign hName hEquals hX hEnd⟩
  · refine (Expr.faithful_walkArgs c).mono fun v hV semicolon hEnd => ?_
    obtain ⟨xs, hXs⟩ := hV
    exact ⟨_, .call hName (parenthesized_isExpr_iff.2 hXs) hEnd⟩
  · refine .fail [.assign, .ident] (by decide) fun semicolon hEnd => ?_
    exact ⟨_, .assign hName rfl isExpr_name hEnd⟩

/-- An `else` before any block goes on with an `if` whose block leaves it alone. -/
theorem exists_derivesChain_of_else {word orElse : Token} {u v w : List Token} {takes : Bool}
    {cond : Expr} {yes no : List Stmt} (hWord : word.kind = .kwIf) (hCond : DerivesCondition u cond)
    (hYes : DerivesBranch false v yes) (hElse : orElse.kind = .kwElse)
    (hNo : DerivesBranch takes w no) :
    ∃ takes' conds blocks,
      DerivesChain takes' (word :: (u ++ (v ++ orElse :: w))) conds blocks := by
  by_cases hIf : ∀ t ∈ w.head?, t.kind ≠ .kwIf
  · exact ⟨_, _, _, .orElse hWord hCond hYes hElse hIf hNo⟩
  · cases hNo with
    | braces hOpening _ _ => simp [hOpening] at hIf
    | bare h =>
        cases h with
        | branch h => exact ⟨_, _, _, .more hWord hCond hYes hElse h⟩
        | loop hLoop _ _ => simp [hLoop] at hIf
        | raw hRaw _ _ => simp [hRaw] at hIf
        | ret hRet _ _ => simp [hRet] at hIf
        | assign hName _ _ _ => simp [hName] at hIf
        | call hName _ _ => simp [hName] at hIf
        | function hType _ _ _ _ _ => simp [hType] at hIf
        | var h _ =>
            obtain ⟨type, name, more, rfl, hType, -⟩ := h.head
            simp [hType] at hIf

mutual

/-- The walk of a statement is faithful to statements. -/
theorem faithful_walk (c : Cursor) :
    Faithful walk (fun v => ∃ takes s, DerivesStmt takes v s) c := by
  rw [walk_eq]
  refine .choose ?_
  cases hNext : c.ahead.head? with
  | none => exact .fail [.kwWasm, .str, .semicolon] (by decide) ⟨_, _, .raw rfl rfl rfl⟩
  | some word =>
      rw [Option.elim_some]
      generalize hKind : word.kind = kind
      fun_cases walkStart kind with
      | case1 =>
          refine .andThen [.lparen, .ident, .rparen, .lbrace, .rbrace] (by decide) (.take hNext)
            (fun u hU => ?_) fun u d hMoves hU _ => ?_
          · subst hU
            have hLoop := DerivesStmt.loop hKind (derivesCondition_name (.ofKind .lparen) rfl)
              derivesBranch_braces
            exact ⟨_, _, hLoop⟩
          · subst hU
            have hLess := hMoves.size_lt (List.cons_ne_nil _ _)
            refine .andThen [.lbrace, .rbrace] (by decide) (faithful_walkCondition d)
              (fun v hV => ?_) fun v e hMoves' hV _ => ?_
            · obtain ⟨x, hX⟩ := hV
              have hLoop := DerivesStmt.loop hKind hX derivesBranch_braces
              exact ⟨_, _, hLoop⟩
            · obtain ⟨x, hX⟩ := hV
              have hLess' := hMoves'.size_lt hX.ne_nil
              refine (faithful_walkBranch e).mono fun w hW => ?_
              obtain ⟨takes, ss, hBody⟩ := hW
              have hLoop := DerivesStmt.loop hKind hX hBody
              exact ⟨takes, _, hLoop⟩
      | case2 =>
          refine (faithful_walkChain c hNext hKind).mono fun v hV => ?_
          obtain ⟨takes, conds, blocks, hChain⟩ := hV
          exact ⟨takes, _, .branch hChain⟩
      | case3 =>
          refine .andThen [.str, .semicolon] (by decide) (.take hNext) (fun u hU => ?_)
            fun u d _ hU _ => ?_
          · subst hU
            exact ⟨_, _, .raw hKind rfl rfl⟩
          · subst hU
            refine .andThen [.semicolon] (by decide) (.need .str (by decide)) (fun v hV => ?_)
              fun v e _ hV _ => ?_
            · obtain ⟨text, rfl, hText⟩ := hV
              exact ⟨_, _, .raw hKind hText rfl⟩
            · obtain ⟨text, rfl, hText⟩ := hV
              refine (Faithful.need .semicolon (by decide)).mono fun w hW => ?_
              obtain ⟨semicolon, rfl, hEnd⟩ := hW
              exact ⟨_, _, .raw hKind hText hEnd⟩
      | case4 =>
          refine .andThen [.ident, .semicolon] (by decide) (.take hNext) (fun u hU => ?_)
            fun u d _ hU _ => ?_
          · subst hU
            exact ⟨_, _, .ret hKind isExpr_name rfl⟩
          · subst hU
            refine .andThen [.semicolon] (by decide) (Expr.faithful_walk_isExpr d) (fun v hV => ?_)
              fun v e _ hV _ => ?_
            · obtain ⟨x, hX⟩ := hV
              exact ⟨_, _, .ret hKind hX rfl⟩
            · obtain ⟨x, hX⟩ := hV
              refine (Faithful.need .semicolon (by decide)).mono fun w hW => ?_
              obtain ⟨semicolon, rfl, hEnd⟩ := hW
              exact ⟨_, _, .ret hKind hX hEnd⟩
      | case5 =>
          refine .andThen [.assign, .ident, .semicolon] (by decide) (.take hNext) (fun u hU => ?_)
            fun u d _ hU _ => ?_
          · subst hU
            exact ⟨_, _, .assign hKind rfl isExpr_name rfl⟩
          · subst hU
            refine .andThen [.semicolon] (by decide) (faithful_walkAction d hKind) (fun v hV => ?_)
              fun v e _ hV _ => ?_
            · exact ⟨_, hV _ rfl⟩
            · refine (Faithful.need .semicolon (by decide)).mono fun w hW => ?_
              obtain ⟨semicolon, rfl, hEnd⟩ := hW
              exact ⟨_, hV semicolon hEnd⟩
      | case6 =>
          refine .andThen [.ident, .semicolon] (by decide) (.take hNext) (fun u hU => ?_)
            fun u d hMoves hU _ => ?_
          · subst hU
            exact ⟨_, _, .var (.bare hKind rfl) rfl⟩
          · subst hU
            have hLess := hMoves.size_lt (List.cons_ne_nil _ _)
            exact faithful_walkTyped d hKind
      | case7 => exact .fail [.kwWasm, .str, .semicolon] (by decide) ⟨_, _, .raw rfl rfl rfl⟩
termination_by (c.size, 1)
decreasing_by
  · exact .left _ _ (Nat.lt_trans hLess' hLess)
  · exact .right _ (by omega)
  · exact .left _ _ hLess

/-- After a type, the walk is faithful to declarations and functions that start with it. -/
theorem faithful_walkTyped {type : Token} (c : Cursor) (hType : type.kind = .type) :
    Faithful walkTyped (fun v => ∃ takes s, DerivesStmt takes ([type] ++ v) s) c := by
  refine .andThen [.semicolon] (by decide) (.need .ident (by decide)) (fun u hU => ?_)
    fun u d hMoves hU _ => ?_
  · obtain ⟨name, rfl, hName⟩ := hU
    exact ⟨_, _, .var (.bare hType hName) rfl⟩
  · obtain ⟨name, rfl, hName⟩ := hU
    have hLess := hMoves.size_lt (List.cons_ne_nil _ _)
    refine .ifNext (fun _ _ _ => ?_) fun _ => ?_
    · refine .andThen [.lbrace, .rbrace] (by decide) (Declaration.faithful_walkParams d)
        (fun v hV => ?_) fun v e hMoves' hV _ => ?_
      · obtain ⟨ds, hDs⟩ := hV
        exact ⟨_, _, .function hType hName hDs rfl .nil rfl⟩
      · obtain ⟨ds, hDs⟩ := hV
        have hLess' := hMoves'.size_lt hDs.ne_nil
        refine (faithful_walkBraced e).mono fun w hW => ?_
        obtain ⟨opening, body, closing, ss, rfl, hOpening, hBody, hClosing⟩ := hW
        exact ⟨_, _, .function hType hName hDs hOpening hBody hClosing⟩
    · refine .andThen [.semicolon] (by decide) (Declaration.faithful_walkInit d hType hName)
        (fun v hV => ?_) fun v e _ hV _ => ?_
      · obtain ⟨decl, hDecl⟩ := hV
        exact ⟨_, _, .var hDecl rfl⟩
      · obtain ⟨decl, hDecl⟩ := hV
        refine (Faithful.need .semicolon (by decide)).mono fun w hW => ?_
        obtain ⟨semicolon, rfl, hEnd⟩ := hW
        exact ⟨_, _, .var hDecl hEnd⟩
termination_by (c.size, 0)
decreasing_by exact .left _ _ (Nat.lt_trans hLess' hLess)

/-- The walk of a chain of branches is faithful to chains. -/
theorem faithful_walkChain {word : Token} (c : Cursor) (hNext : c.ahead.head? = some word)
    (hWord : word.kind = .kwIf) :
    Faithful walkChain (fun v => ∃ takes conds blocks, DerivesChain takes v conds blocks) c := by
  refine .andThen [.lparen, .ident, .rparen, .lbrace, .rbrace] (by decide) (.take hNext)
    (fun u hU => ?_) fun u d hMoves hU _ => ?_
  · subst hU
    have hLast := DerivesChain.last hWord (derivesCondition_name (.ofKind .lparen) rfl)
      derivesBranch_braces
    exact ⟨_, _, _, hLast⟩
  · subst hU
    have hLess := hMoves.size_lt (List.cons_ne_nil _ _)
    refine .andThen [.lbrace, .rbrace] (by decide) (faithful_walkCondition d) (fun v hV => ?_)
      fun v e hMoves' hV _ => ?_
    · obtain ⟨x, hX⟩ := hV
      have hLast := DerivesChain.last hWord hX derivesBranch_braces
      exact ⟨_, _, _, hLast⟩
    · obtain ⟨x, hX⟩ := hV
      have hLess' := hMoves'.size_lt hX.ne_nil
      refine .andThen [] (by decide) (faithful_walkBranch e) (fun w hW => ?_)
        fun w f hMoves'' hW hWalk => ?_
      · obtain ⟨takes, ss, hBlock⟩ := hW
        rw [List.map_nil, List.append_nil]
        have hLast := DerivesChain.last hWord hX hBlock
        exact ⟨_, _, _, hLast⟩
      · obtain ⟨r, hParse, rfl⟩ := outcome_eq_ok.1 hWalk
        obtain ⟨takes, w', hSame, hBlock, hLeft⟩ := derives_of_parseBranch hParse
        obtain rfl := hSame.tokens_eq hMoves''
        have hLess'' := hMoves''.size_lt hBlock.ne_nil
        exact faithful_walkElse r.rest hWord hX hBlock hLeft
termination_by (c.size, 0)
decreasing_by
  · exact .left _ _ (Nat.lt_trans hLess' hLess)
  · exact .left _ _ (Nat.lt_trans hLess'' (Nat.lt_trans hLess' hLess))

/-- The block before it left an `else` alone, so that the next one belongs here. -/
theorem faithful_walkElse {word : Token} {u v : List Token} {takes : Bool} {cond : Expr}
    {block : List Stmt} (c : Cursor) (hWord : word.kind = .kwIf) (hCond : DerivesCondition u cond)
    (hBlock : DerivesBranch takes v block) (hLeft : LeftAlone takes c) :
    Faithful walkElse (fun w => ∃ takes' conds blocks,
      DerivesChain takes' ([word] ++ (u ++ (v ++ w))) conds blocks) c := by
  rw [walkElse_eq]
  refine .ifNext (fun orElse hNext hElse => ?_) fun _ => .stay ?_
  · obtain rfl : takes = false := by
      cases takes with
      | false => rfl
      | true => exact absurd hElse (hLeft rfl orElse.lexeme (by simp [Cursor.lexemes, hNext]))
    refine .andThen [.lbrace, .rbrace] (by decide) (.take hNext) (fun w hW => ?_)
      fun w d hMoves hW _ => ?_
    · subst hW
      exact exists_derivesChain_of_else hWord hCond hBlock hElse derivesBranch_braces
    · subst hW
      have hLess := hMoves.size_lt (List.cons_ne_nil _ _)
      refine .ifNext (fun orIf hNext' hIf => ?_) fun _ => ?_
      · refine (faithful_walkChain d hNext' hIf).mono fun w hW => ?_
        obtain ⟨takes', conds, blocks, hMore⟩ := hW
        exact ⟨_, _, _, .more hWord hCond hBlock hElse hMore⟩
      · refine (faithful_walkBranch d).mono fun w hW => ?_
        obtain ⟨takes', ss, hNo⟩ := hW
        exact exists_derivesChain_of_else hWord hCond hBlock hElse hNo
  · rw [List.append_nil]
    have hLast := DerivesChain.last hWord hCond hBlock
    exact ⟨_, _, _, hLast⟩
termination_by (c.size, 0)
decreasing_by
  · exact .left _ _ hLess
  · exact .left _ _ hLess

/-- The walk of a branch is faithful to branches. -/
theorem faithful_walkBranch (c : Cursor) :
    Faithful walkBranch (fun v => ∃ takes ss, DerivesBranch takes v ss) c := by
  rw [walkBranch_eq]
  refine .ifNext (fun _ _ _ => ?_) fun _ => ?_
  · refine (faithful_walkBraced c).mono fun v hV => ?_
    obtain ⟨opening, u, closing, ss, rfl, hOpening, hSs, hClosing⟩ := hV
    exact ⟨_, _, .braces hOpening hSs hClosing⟩
  · refine (faithful_walk c).mono fun v hV => ?_
    obtain ⟨takes, s, hS⟩ := hV
    exact ⟨_, _, .bare hS⟩
termination_by (c.size, 2)
decreasing_by
  · exact .right _ (by omega)
  · exact .right _ (by omega)

/-- The walk of a block is faithful to statements in braces. -/
theorem faithful_walkBraced (c : Cursor) :
    Faithful walkBraced (fun v => ∃ opening u closing ss, v = opening :: (u ++ [closing]) ∧
      opening.kind = .lbrace ∧ DerivesAll u ss ∧ closing.kind = .rbrace) c := by
  rw [walkBraced_eq]
  refine .andThen [.rbrace] (by decide) (.need .lbrace (by decide)) (fun u hU => ?_)
    fun u d hMoves hU _ => ?_
  · obtain ⟨opening, rfl, hOpening⟩ := hU
    exact ⟨opening, [], _, _, rfl, hOpening, .nil, rfl⟩
  · obtain ⟨opening, rfl, hOpening⟩ := hU
    have hLess := hMoves.size_lt (List.cons_ne_nil _ _)
    refine .andThen [.rbrace] (by decide) (faithful_walkBody d) (fun v hV => ?_)
      fun v e _ hV _ => ?_
    · obtain ⟨ss, hSs⟩ := hV
      exact ⟨opening, v, _, ss, rfl, hOpening, hSs, rfl⟩
    · obtain ⟨ss, hSs⟩ := hV
      refine (Faithful.need .rbrace (by decide)).mono fun w hW => ?_
      obtain ⟨closing, rfl, hClosing⟩ := hW
      exact ⟨opening, v, closing, ss, rfl, hOpening, hSs, hClosing⟩
termination_by (c.size, 0)
decreasing_by exact .left _ _ hLess

/-- The walk of a body is faithful to statements in turn. -/
theorem faithful_walkBody (c : Cursor) : Faithful walkBody (fun v => ∃ ss, DerivesAll v ss) c := by
  rw [walkBody_eq]
  refine .choose ?_
  by_cases hHead : ∃ head ∈ c.ahead.head?, head.kind ∈ stmtHeads
  · rw [if_pos hHead]
    refine .andThen [] (by decide) (faithful_walk c) (fun u hU => ?_) fun u d hMoves hU _ => ?_
    · obtain ⟨takes, s, hS⟩ := hU
      exact ⟨_, .cons hS .nil⟩
    · obtain ⟨takes, s, hS⟩ := hU
      have hLess := hMoves.size_lt hS.ne_nil
      refine (faithful_walkBody d).mono fun v hV => ?_
      obtain ⟨ss, hSs⟩ := hV
      exact ⟨_, .cons hS hSs⟩
  · rw [if_neg hHead]
    exact .stay ⟨_, .nil⟩
termination_by (c.size, 2)
decreasing_by
  · exact .right _ (by omega)
  · exact .left _ _ hLess

end

end Stmt

namespace Program

open Grammar

/-- Tokens that are read as a program. -/
def IsAccepted (tokens : List Token) : Prop := ∃ p, ofTokens tokens = .ok p

/-- A program is what the walk over statements passes up to the end. -/
theorem isAccepted_iff {tokens : List Token} : IsAccepted tokens ↔
    ∃ d, Stmt.walkBody (Cursor.ofTokens tokens) = .ok d ∧ d.isAtEnd = true := by
  constructor
  · rintro ⟨p, hParse⟩
    obtain ⟨body, hBody, hEnd, -⟩ := ofTokens_eq_ok.1 hParse
    exact ⟨body.rest, outcome_eq_ok.2 ⟨body, hBody, rfl⟩, hEnd⟩
  · rintro ⟨d, hWalk, hEnd⟩
    obtain ⟨body, hBody, rfl⟩ := outcome_eq_ok.1 hWalk
    exact ⟨body.value, ofTokens_eq_ok.2 ⟨body, hBody, hEnd, rfl⟩⟩

/-- A program that is not read fails at a token. What was read can go on to a program, and nothing
is read wherever the same tokens lead to the same one. -/
theorem exists_moves_of_error {tokens : List Token} {e : Located GrammarError}
    (h : ofTokens tokens = .error e) :
    ∃ (u : List Token) (d : Cursor) (kinds : List Token.Kind),
      (Cursor.ofTokens tokens).Moves u d ∧ e.span = d.peek.span ∧ .eof ∉ kinds ∧
      (∃ p, DerivesAll (u ++ kinds.map .ofKind) p) ∧
      ∀ (others : List Token) (d' : Cursor), (Cursor.ofTokens others).Moves u d' →
        d'.SameNext d → ¬IsAccepted others := by
  have hFaithful := Stmt.faithful_walkBody (Cursor.ofTokens tokens)
  rcases bind_eq_error.1 h with hBody | ⟨body, hBody, h⟩
  · obtain ⟨u, d, kinds, hMoves, hSpan, hKinds, hWhole, hStuck⟩ :=
      hFaithful.fails e.span (by rw [Stmt.walkBody, hBody]; rfl)
    refine ⟨u, d, kinds, hMoves, hSpan, hKinds, hWhole, fun others d' hMoves' hNext hOk => ?_⟩
    obtain ⟨span, hSpan'⟩ := hStuck _ d' hMoves' hNext
    obtain ⟨stop, hWalk, -⟩ := isAccepted_iff.1 hOk
    cases hSpan'.symm.trans hWalk
  · obtain ⟨u, hMoves, hWhole, hAlike⟩ :=
      hFaithful.passes body.rest (outcome_eq_ok.2 ⟨body, hBody, rfl⟩)
    by_cases hEnd : body.rest.isAtEnd = true
    · rw [if_pos hEnd] at h
      cases h
    · rw [if_neg hEnd] at h
      cases h
      refine ⟨u, body.rest, [], hMoves, rfl, by simp, by simpa using hWhole, ?_⟩
      intro others d' hMoves' hNext hOk
      obtain ⟨stop, hWalk, hAtEnd⟩ := isAccepted_iff.1 hOk
      cases (hAlike _ d' hMoves' hNext).symm.trans hWalk
      rw [Cursor.isAtEnd, hNext.peek_kind] at hAtEnd
      exact hEnd hAtEnd

/-- An error of grammar is at the first token that cannot be right. Either it shows a token: those
before it start some program, and none starts with those and it. Or it shows the end of the text:
all the tokens start a program that is longer. -/
theorem ofTokens_error_earliest (tokens : List Token) (e : Located GrammarError)
    (hEof : ∀ t ∈ tokens, t.kind ≠ .eof) (h : ofTokens tokens = .error e) :
    (∃ k t, tokens[k]? = some t ∧ e.span = t.span ∧
      (∃ whole, IsAccepted whole ∧ tokens.take k <+: whole ∧ ∀ t ∈ whole, t.kind ≠ .eof) ∧
      ∀ whole, IsAccepted whole → ¬tokens.take (k + 1) <+: whole) ∨
    (∃ last, tokens.getLast? = some last ∧ e.span = .point last.span.stop ∧
      ∃ whole, IsAccepted whole ∧ tokens <+: whole ∧ tokens ≠ whole ∧
        ∀ t ∈ whole, t.kind ≠ .eof) := by
  obtain ⟨u, d, kinds, hMoves, hSpan, hKinds, ⟨q, hWhole⟩, hStuck⟩ := exists_moves_of_error h
  have hAhead : tokens = u ++ d.ahead := hMoves.ahead
  have hAccepted : IsAccepted (u ++ kinds.map .ofKind) := by
    obtain ⟨p, hParse, -⟩ := exists_ofTokens_of_derives hWhole
    exact ⟨p, hParse⟩
  have hFree : ∀ t ∈ u ++ kinds.map .ofKind, t.kind ≠ .eof := by
    intro t hT
    rcases List.mem_append.1 hT with hRead | hMore
    · exact hEof t (hAhead ▸ List.mem_append_left _ hRead)
    · obtain ⟨kind, hKind, rfl⟩ := List.mem_map.1 hMore
      exact fun hEq => hKinds (hEq ▸ hKind)
  cases hNext : d.ahead with
  | cons t rest =>
      left
      rw [hNext] at hAhead
      refine ⟨u.length, t, by simp [hAhead], ?_, ⟨_, hAccepted, by simp [hAhead], hFree⟩, ?_⟩
      · rw [hSpan, Cursor.peek, Cursor.peekAt, hNext]
        rfl
      · rintro whole hOk ⟨more, rfl⟩
        have hTake : tokens.take (u.length + 1) = u ++ [t] := by
          rw [hAhead, List.take_length_add_append]
          rfl
        rw [hTake, List.append_assoc] at hOk
        let d' : Cursor := ⟨u.reverse, t :: more, (Cursor.ofTokens (u ++ t :: more)).finish⟩
        have hMoves' : (Cursor.ofTokens (u ++ t :: more)).Moves u d' :=
          ⟨rfl, (List.append_nil _).symm, rfl⟩
        exact hStuck _ d' hMoves' (by rw [Cursor.SameNext, hNext]; rfl) hOk
  | nil =>
      right
      rw [hNext, List.append_nil] at hAhead
      subst hAhead
      cases hLast : tokens.getLast? with
      | none =>
          rw [List.getLast?_eq_none_iff.1 hLast] at h
          obtain ⟨p, hParse, -⟩ := exists_ofTokens_of_derives .nil
          cases h.symm.trans hParse
      | some last =>
          refine ⟨last, rfl, ?_, _, hAccepted, List.prefix_append _ _, fun hSame => ?_, hFree⟩
          · rw [hSpan, Cursor.peek, Cursor.peekAt, hNext, hMoves.finish, Cursor.ofTokens, hLast]
            rfl
          · obtain ⟨p, hParse⟩ := hAccepted
            rw [← hSame] at hParse
            cases h.symm.trans hParse

/-- The tokens of `x=(1;`. -/
def unclosedTokens : List Token :=
  [⟨.ident, "x", ⟨0, 1⟩⟩, ⟨.assign, "=", ⟨1, 2⟩⟩, ⟨.lparen, "(", ⟨2, 3⟩⟩, ⟨.number, "1", ⟨3, 4⟩⟩,
    ⟨.semicolon, ";", ⟨4, 5⟩⟩]

theorem ofTokens_error_earliest_unclosed :
    (∃ e, ofTokens unclosedTokens = .error e ∧ e.span = ⟨4, 5⟩) ∧
    (∃ whole, IsAccepted whole ∧ unclosedTokens.take 4 <+: whole) ∧
    ∀ whole, IsAccepted whole → ¬unclosedTokens.take 5 <+: whole := by
  have hEof : ∀ t ∈ unclosedTokens, t.kind ≠ .eof := by decide
  have hError : ofTokens unclosedTokens =
      .error ⟨.expected .rparen ⟨.semicolon, ";", ⟨4, 5⟩⟩, ⟨4, 5⟩⟩ := by cbv
  rcases ofTokens_error_earliest unclosedTokens _ hEof hError with
    ⟨k, t, hT, hSpan, ⟨whole, hOk, hStart, -⟩, hStuck⟩ | ⟨last, -, hSpan, -⟩
  · have hSpans : ∀ k < 5, unclosedTokens[k]?.map Token.span = some ⟨4, 5⟩ → k = 4 := by decide
    have hPlace : k = 4 := by
      refine hSpans k (List.getElem?_eq_some_iff.1 hT).1 ?_
      rw [hT, Option.map_some, ← hSpan]
    subst hPlace
    exact ⟨⟨_, hError, rfl⟩, ⟨whole, hOk, hStart⟩, hStuck⟩
  · obtain ⟨hStart, hStop⟩ := Span.mk.inj hSpan
    exact absurd (hStart.trans hStop.symm) (by decide)

end Program

end WasmCompiler
