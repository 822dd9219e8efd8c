import WasmCompiler.Proofs.Replacement
import WasmCompiler.Proofs.StatementReading

/-! Every `return` among the tokens of a program starts a statement that goes on to the next
semicolon, and what it returns can be replaced by any other expression. The statements before it
have as many `return`s as the tokens before it. -/

namespace WasmCompiler.Grammar

/-- No token is of a kind. -/
def Lacks (kind : Token.Kind) (u : List Token) : Prop := ∀ t ∈ u, t.kind ≠ kind

section Kinds

variable {kind : Token.Kind} {u v : List Token} {t : Token}

@[simp] theorem lacks_nil : Lacks kind [] := List.forall_mem_nil _

@[simp] theorem lacks_cons : Lacks kind (t :: u) ↔ t.kind ≠ kind ∧ Lacks kind u :=
  List.forall_mem_cons

@[simp] theorem lacks_append : Lacks kind (u ++ v) ↔ Lacks kind u ∧ Lacks kind v :=
  List.forall_mem_append

/-- The kinds that have no place in an expression, and mark the ends of a `return`. -/
def retMarks : List Token.Kind := [.kwReturn, .semicolon]

theorem kwReturn_mem_retMarks : Token.Kind.kwReturn ∈ retMarks := by decide

theorem semicolon_mem_retMarks : Token.Kind.semicolon ∈ retMarks := by decide

theorem ne_of_mem_retMarks {kind' : Token.Kind} (hKind : kind ∈ retMarks) (hT : t.kind = kind')
    (hOther : kind' ∉ retMarks) : t.kind ≠ kind := by
  rintro rfl
  exact hOther (hT ▸ hKind)

mutual

/-- No expression has the keyword of a return statement in it, or a semicolon. -/
theorem Derives.lacks (hKind : kind ∈ retMarks) {k : Nat} {u : List Token} {e : Expr} :
    Derives k u e → Lacks kind u
  | .tighter _ h => h.lacks hKind
  | .chain hOp hLhs hRhs => by
      have hTable : ∀ entry ∈ operators, entry.2.1 ∉ retMarks := by decide
      have hT := ne_of_mem_retMarks hKind rfl (hTable _ hOp)
      simp [hLhs.lacks hKind, hRhs.lacks hKind, hT]
  | .sign hSign h => by
      have hTable : ∀ entry ∈ signs, entry.1 ∉ retMarks := by decide
      have hT := ne_of_mem_retMarks hKind rfl (hTable _ hSign)
      simp [h.lacks hKind, hT]
  | .number hT _ | .yes hT | .no hT | .str hT | .name hT => by
      simp [ne_of_mem_retMarks hKind hT (by decide)]
  | .call hT h => by simp [h.lacks hKind, ne_of_mem_retMarks hKind hT (by decide)]
  | .cast hOpening hType hClosing h => by
      simp [h.lacks hKind, ne_of_mem_retMarks hKind hOpening (by decide),
        ne_of_mem_retMarks hKind hType (by decide), ne_of_mem_retMarks hKind hClosing (by decide)]
  | .group hOpening hClosing h => by
      simp [h.lacks hKind, ne_of_mem_retMarks hKind hOpening (by decide),
        ne_of_mem_retMarks hKind hClosing (by decide)]

theorem DerivesArgs.lacks (hKind : kind ∈ retMarks) {u : List Token} {es : List Expr} :
    DerivesArgs u es → Lacks kind u
  | .none hOpening hClosing => by
      simp [ne_of_mem_retMarks hKind hOpening (by decide),
        ne_of_mem_retMarks hKind hClosing (by decide)]
  | .some hOpening hClosing h => by
      simp [h.lacks hKind, ne_of_mem_retMarks hKind hOpening (by decide),
        ne_of_mem_retMarks hKind hClosing (by decide)]

theorem DerivesList.lacks (hKind : kind ∈ retMarks) {u : List Token} {es : List Expr} :
    DerivesList u es → Lacks kind u
  | .one h => h.lacks hKind
  | .more h hComma hs => by
      simp [h.lacks hKind, hs.lacks hKind, ne_of_mem_retMarks hKind hComma (by decide)]

end

theorem IsExpr.lacks {e : Expr} (h : IsExpr u e) (hKind : kind ∈ retMarks) : Lacks kind u :=
  (isExpr_iff.1 h).lacks hKind

/-- No declaration has one of them in it. -/
theorem DerivesDecl.lacks {d : Declaration} (h : DerivesDecl u d) (hKind : kind ∈ retMarks) :
    Lacks kind u := by
  cases h with
  | bare hType hName =>
      simp [ne_of_mem_retMarks hKind hType (by decide), ne_of_mem_retMarks hKind hName (by decide)]
  | init hType hName hEquals h =>
      simp [h.lacks hKind, ne_of_mem_retMarks hKind hType (by decide),
        ne_of_mem_retMarks hKind hName (by decide), ne_of_mem_retMarks hKind hEquals (by decide)]

/-- No condition has one of them in it. -/
theorem DerivesCondition.lacks {e : Expr} (h : DerivesCondition u e) (hKind : kind ∈ retMarks) :
    Lacks kind u := by
  cases h with
  | parens hOpening hClosing h =>
      simp [h.lacks hKind, ne_of_mem_retMarks hKind hOpening (by decide),
        ne_of_mem_retMarks hKind hClosing (by decide)]

theorem Separated.lacks {ds : List Declaration} (h : Separated DerivesDecl u ds)
    (hKind : kind ∈ retMarks) : Lacks kind u := by
  induction h with
  | one h => exact h.lacks hKind
  | more h hComma _ ih =>
      simp [h.lacks hKind, ih, ne_of_mem_retMarks hKind hComma (by decide)]

theorem Parenthesized.lacks {ds : List Declaration} (h : Parenthesized DerivesDecl u ds)
    (hKind : kind ∈ retMarks) : Lacks kind u := by
  cases h with
  | none hOpening hClosing =>
      simp [ne_of_mem_retMarks hKind hOpening (by decide),
        ne_of_mem_retMarks hKind hClosing (by decide)]
  | some hOpening hClosing h =>
      simp [h.lacks hKind, ne_of_mem_retMarks hKind hOpening (by decide),
        ne_of_mem_retMarks hKind hClosing (by decide)]

end Kinds

section Cuts

variable {kind : Token.Kind} {u v before after : List Token} {t : Token}

/-- A token of two rows is in the one or in the other. -/
theorem cut_append (h : u ++ v = before ++ t :: after) :
    (∃ w, u = before ++ t :: w ∧ after = w ++ v) ∨
      ∃ w, before = u ++ w ∧ v = w ++ t :: after := by
  rcases List.append_eq_append_iff.1 h with ⟨w, hBefore, hV⟩ | ⟨w, hU, hAfter⟩
  · exact .inr ⟨w, hBefore, hV⟩
  · cases w with
    | nil => exact .inr ⟨[], by simpa using hU.symm, hAfter.symm⟩
    | cons first w =>
        obtain ⟨rfl, rfl⟩ := List.cons.inj hAfter
        exact .inl ⟨w, hU, rfl⟩

/-- A row without tokens of a kind is not cut at one. -/
theorem Lacks.not_cut (hU : Lacks kind u) (hT : t.kind = kind) : u ≠ before ++ t :: after := by
  rintro rfl
  exact hU t (by simp) hT

/-- A cut at a token that the first of two rows lacks is a cut of the second. -/
theorem Lacks.cut_right (hU : Lacks kind u) (hT : t.kind = kind)
    (h : u ++ v = before ++ t :: after) : ∃ w, before = u ++ w ∧ v = w ++ t :: after :=
  (cut_append h).resolve_left fun ⟨_, hW, _⟩ => hU.not_cut hT hW

/-- A cut at a token that the second of two rows lacks is a cut of the first. -/
theorem Lacks.cut_left (hV : Lacks kind v) (hT : t.kind = kind)
    (h : u ++ v = before ++ t :: after) : ∃ w, u = before ++ t :: w ∧ after = w ++ v :=
  (cut_append h).resolve_right fun ⟨_, _, hW⟩ => hV.not_cut hT hW

end Cuts

section Counting

/-- The number of tokens that are `return`. -/
def returnWords (u : List Token) : Nat := u.countP fun t => t.kind = .kwReturn

variable {u v : List Token} {t : Token}

theorem returnWords_append (u v : List Token) :
    returnWords (u ++ v) = returnWords u + returnWords v := List.countP_append

theorem returnWords_cons_of_ne (hT : t.kind ≠ .kwReturn) (u : List Token) :
    returnWords (t :: u) = returnWords u := List.countP_cons_of_neg (by simpa using hT)

theorem Lacks.returnWords (h : Lacks .kwReturn u) : returnWords u = 0 :=
  List.countP_eq_zero.2 fun t hT => by simpa using h t hT

theorem Lacks.returnWords_append (h : Lacks .kwReturn u) (v : List Token) :
    Grammar.returnWords (u ++ v) = Grammar.returnWords v := by
  rw [Grammar.returnWords_append, h.returnWords, Nat.zero_add]

mutual

/-- A statement returns as often as its tokens are `return`. -/
theorem DerivesStmt.returns_eq {takes : Bool} {u : List Token} {s : Stmt} :
    DerivesStmt takes u s → s.returns = returnWords u
  | @DerivesStmt.loop first test inner _ _ _ hFirst hCond hBody => by
      have hFront : Lacks .kwReturn (first :: test) := by
        simp [hFirst, hCond.lacks kwReturn_mem_retMarks]
      rw [Stmt.returns, ← List.cons_append, hFront.returnWords_append, hBody.returns_eq]
  | .branch h => by rw [Stmt.returns, h.returns_eq]
  | .raw hFirst hText hEnd => by
      rw [Stmt.returns, Lacks.returnWords (by simp [hFirst, hText, hEnd])]
  | .ret hFirst h hEnd => by
      rw [Stmt.returns, returnWords, List.countP_cons_of_pos (by simpa using hFirst),
        ← returnWords, Lacks.returnWords (by simp [hEnd, h.lacks kwReturn_mem_retMarks])]
  | .assign hName hEquals h hEnd => by
      rw [Stmt.returns, Lacks.returnWords]
      simp [hName, hEquals, hEnd, h.lacks kwReturn_mem_retMarks]
  | .call hName h hEnd => by
      rw [Stmt.returns, Lacks.returnWords]
      simp [hName, hEnd, (parenthesized_isExpr_iff.1 h).lacks kwReturn_mem_retMarks]
  | .var h hEnd => by
      rw [Stmt.returns, Lacks.returnWords]
      simp [hEnd, h.lacks kwReturn_mem_retMarks]
  | @DerivesStmt.function type name opening closing row inner _ _ hType hName hParams hOpening hBody
      hClosing => by
      have hFront : Lacks .kwReturn (type :: name :: (row ++ [opening])) := by
        simp [hType, hName, hOpening, hParams.lacks kwReturn_mem_retMarks]
      have hBack : Lacks .kwReturn [closing] := by simp [hClosing]
      have hTokens : type :: name :: (row ++ opening :: (inner ++ [closing])) =
          (type :: name :: (row ++ [opening])) ++ (inner ++ [closing]) := by simp
      rw [Stmt.returns, hTokens, hFront.returnWords_append, returnWords_append, hBack.returnWords,
        hBody.returns_eq, Nat.add_zero]

/-- A chain of branches has as many return statements as keywords of them. -/
theorem DerivesChain.returns_eq {takes : Bool} {u : List Token} {conds : List Expr}
    {blocks : List (List Stmt)} :
    DerivesChain takes u conds blocks → Stmt.returnsBlocks blocks = returnWords u
  | @DerivesChain.last first test inner _ _ _ hFirst hCond hBlock => by
      have hFront : Lacks .kwReturn (first :: test) := by
        simp [hFirst, hCond.lacks kwReturn_mem_retMarks]
      rw [← List.cons_append, hFront.returnWords_append, Stmt.returnsBlocks, Stmt.returnsBlocks,
        hBlock.returns_eq, Nat.add_zero]
  | @DerivesChain.orElse first orElse test _ _ _ _ _ _ hFirst hCond hYes hElse _ hNo => by
      have hFront : Lacks .kwReturn (first :: test) := by
        simp [hFirst, hCond.lacks kwReturn_mem_retMarks]
      have hMiddle : orElse.kind ≠ .kwReturn := by simp [hElse]
      rw [← List.cons_append, hFront.returnWords_append, returnWords_append,
        returnWords_cons_of_ne hMiddle, Stmt.returnsBlocks, Stmt.returnsBlocks, Stmt.returnsBlocks,
        hYes.returns_eq, hNo.returns_eq, Nat.add_zero]
  | @DerivesChain.more first orElse test _ _ _ _ _ _ _ hFirst hCond hBlock hElse hMore => by
      have hFront : Lacks .kwReturn (first :: test) := by
        simp [hFirst, hCond.lacks kwReturn_mem_retMarks]
      have hMiddle : orElse.kind ≠ .kwReturn := by simp [hElse]
      rw [← List.cons_append, hFront.returnWords_append, returnWords_append,
        returnWords_cons_of_ne hMiddle, Stmt.returnsBlocks, hBlock.returns_eq, hMore.returns_eq]

/-- So has a branch. -/
theorem DerivesBranch.returns_eq {takes : Bool} {u : List Token} {ss : List Stmt} :
    DerivesBranch takes u ss → Stmt.returnsAll ss = returnWords u
  | @DerivesBranch.braces opening closing _ _ hOpening h hClosing => by
      have hFront : opening.kind ≠ .kwReturn := by simp [hOpening]
      have hBack : Lacks .kwReturn [closing] := by simp [hClosing]
      rw [returnWords_cons_of_ne hFront, returnWords_append, hBack.returnWords, h.returns_eq,
        Nat.add_zero]
  | .bare h => by rw [Stmt.returnsAll, Stmt.returnsAll, h.returns_eq, Nat.add_zero]

theorem DerivesAll.returns_eq {u : List Token} {ss : List Stmt} :
    DerivesAll u ss → Stmt.returnsAll ss = returnWords u
  | .nil => rfl
  | .cons h hs => by rw [Stmt.returnsAll, h.returns_eq, hs.returns_eq, returnWords_append]

end

end Counting

/-- After the tokens `before`, of which the last is `return`, an expression and a semicolon follow,
and with another expression there the tokens are those of the tree with the other one in it, after
`k` `return`s. -/
def Replaceable {α : Type} (Tree : List Token → α → Prop)
    (Replaces : Stmt → Stmt → Nat → α → α → Prop) (k : Nat) (before after : List Token)
    (tree : α) : Prop :=
  ∃ u e semicolon rest, after = u ++ semicolon :: rest ∧ semicolon.kind = .semicolon ∧
    IsExpr u e ∧ ∀ u' e', IsExpr u' e' → ∃ tree',
      Tree (before ++ (u' ++ semicolon :: rest)) tree' ∧
        Replaces (.ret (.point 0) e) (.ret (.point 0) e') k tree tree'

/-- What can be replaced in a part can be replaced in the whole. -/
theorem Replaceable.lift {α β : Type} {Tree : List Token → α → Prop}
    {Tree' : List Token → β → Prop} {Replaces : Stmt → Stmt → Nat → α → α → Prop}
    {Replaces' : Stmt → Stmt → Nat → β → β → Prop} {k k' : Nat} {before after : List Token}
    {tree : α}
    (h : Replaceable Tree Replaces k before after tree) (front back : List Token) (f : α → β)
    (hTree : ∀ inner part, before <+: inner → Tree inner part →
      Tree' (front ++ (inner ++ back)) (f part))
    (hReplaces : ∀ old new part, Replaces old new k tree part →
      Replaces' old new k' (f tree) (f part)) :
    Replaceable Tree' Replaces' k' (front ++ before) (after ++ back) (f tree) := by
  obtain ⟨u, e, semicolon, rest, rfl, hEnd, hE, hOther⟩ := h
  refine ⟨u, e, semicolon, rest ++ back, by simp, hEnd, hE, fun u' e' hE' => ?_⟩
  obtain ⟨part, hPart, hNew⟩ := hOther u' e' hE'
  exact ⟨f part, by simpa using hTree _ part (List.prefix_append _ _) hPart,
    hReplaces _ _ part hNew⟩

mutual

/-- In a statement that is cut after the keyword of a return statement, that statement can be
replaced. -/
theorem DerivesStmt.replaceable {takes : Bool} {u before after : List Token} {s : Stmt}
    {word : Token} (hWord : word.kind = .kwReturn) : DerivesStmt takes u s →
      u = before ++ word :: after →
        Replaceable (DerivesStmt takes) Stmt.Replaces (returnWords before) (before ++ [word])
          after s
  | @DerivesStmt.loop first test inner takes cond body hFirst hCond hBody, hCut => by
      have hFront : Lacks .kwReturn (first :: test) := by
        simp [hFirst, hCond.lacks kwReturn_mem_retMarks]
      obtain ⟨w, rfl, hInner⟩ := hFront.cut_right hWord hCut
      rw [hFront.returnWords_append]
      simpa using (hBody.replaceable hWord hInner).lift (first :: test) []
        (Stmt.loop (.point 0) cond) (fun _ _ _ h => by simpa using .loop hFirst hCond h)
        (fun _ _ _ h => .loop h)
  | @DerivesStmt.branch _ _ conds blocks h, hCut => by
      simpa using (h.replaceable hWord hCut).lift [] [] (Stmt.branch (.point 0) conds)
        (fun _ _ _ h => by simpa using .branch h) (fun _ _ _ h => .branch h)
  | .raw hFirst hText hEnd, hCut => by
      refine absurd hCut (Lacks.not_cut ?_ hWord)
      simp [hFirst, hText, hEnd]
  | @DerivesStmt.ret first semicolon value e hFirst h hEnd, hCut => by
      have hRest : Lacks .kwReturn (value ++ [semicolon]) := by
        simp [hEnd, h.lacks kwReturn_mem_retMarks]
      cases before with
      | nil =>
          obtain ⟨rfl, rfl⟩ := List.cons.inj hCut
          exact ⟨value, e, semicolon, [], rfl, hEnd, h, fun u' e' hE' =>
            ⟨_, .ret hFirst hE' hEnd, .self⟩⟩
      | cons _ before => exact absurd (List.cons.inj hCut).2 (hRest.not_cut hWord)
  | .assign hName hEquals h hEnd, hCut => by
      refine absurd hCut (Lacks.not_cut ?_ hWord)
      simp [hName, hEquals, hEnd, h.lacks kwReturn_mem_retMarks]
  | .call hName h hEnd, hCut => by
      refine absurd hCut (Lacks.not_cut ?_ hWord)
      simp [hName, hEnd, (parenthesized_isExpr_iff.1 h).lacks kwReturn_mem_retMarks]
  | .var h hEnd, hCut => by
      refine absurd hCut (Lacks.not_cut ?_ hWord)
      simp [hEnd, h.lacks kwReturn_mem_retMarks]
  | @DerivesStmt.function type name opening closing row inner params body hType hName hParams
      hOpening hBody hClosing, hCut => by
      have hFront : Lacks .kwReturn (type :: name :: (row ++ [opening])) := by
        simp [hType, hName, hOpening, hParams.lacks kwReturn_mem_retMarks]
      have hBack : Lacks .kwReturn [closing] := by simp [hClosing]
      obtain ⟨w, rfl, hRest⟩ := @Lacks.cut_right _ _ (inner ++ [closing]) _ _ _ hFront hWord
        (by simpa using hCut)
      obtain ⟨w', hInner, rfl⟩ := hBack.cut_left hWord hRest
      rw [hFront.returnWords_append]
      simpa using (hBody.replaceable hWord hInner).lift (type :: name :: (row ++ [opening]))
        [closing] (Stmt.function (.point 0) type.text name.text params)
        (fun _ _ _ h => by simpa using .function hType hName hParams hOpening h hClosing)
        (fun _ _ _ h => .function h)

/-- So it can in a chain of branches. -/
theorem DerivesChain.replaceable {takes : Bool} {u before after : List Token} {conds : List Expr}
    {blocks : List (List Stmt)} {word : Token} (hWord : word.kind = .kwReturn) :
    DerivesChain takes u conds blocks → u = before ++ word :: after →
      Replaceable (fun v bs => DerivesChain takes v conds bs) Stmt.ReplacesInBlocks
        (returnWords before) (before ++ [word]) after blocks
  | @DerivesChain.last first test inner takes cond block hFirst hCond hBlock, hCut => by
      have hFront : Lacks .kwReturn (first :: test) := by
        simp [hFirst, hCond.lacks kwReturn_mem_retMarks]
      obtain ⟨w, rfl, hInner⟩ := hFront.cut_right hWord hCut
      rw [hFront.returnWords_append]
      simpa using (hBlock.replaceable hWord hInner).lift (first :: test) [] (fun b => [b])
        (fun _ _ _ h => by simpa using .last hFirst hCond h) (fun _ _ _ h => .here h)
  | @DerivesChain.orElse first orElse test inner other takes cond yes no hFirst hCond hYes hElse
      hIf hNo, hCut => by
      have hFront : Lacks .kwReturn (first :: test) := by
        simp [hFirst, hCond.lacks kwReturn_mem_retMarks]
      have hMiddle : Lacks .kwReturn [orElse] := by simp [hElse]
      obtain ⟨w, rfl, hRest⟩ := hFront.cut_right hWord hCut
      rw [hFront.returnWords_append]
      rcases cut_append hRest with ⟨w', hInner, rfl⟩ | ⟨w', rfl, hOther⟩
      · simpa using (hYes.replaceable hWord hInner).lift (first :: test) (orElse :: other)
          (fun b => [b, no]) (fun _ _ _ h => by simpa using .orElse hFirst hCond h hElse hIf hNo)
          (fun _ _ _ h => .here h)
      · obtain ⟨w'', rfl, hLast⟩ := hMiddle.cut_right hWord hOther
        -- what is replaced comes after the `return`, so the first token stays
        have hHead {v : List Token} (hV : w'' ++ [word] <+: v) : ∀ t ∈ v.head?, t.kind ≠ .kwIf := by
          obtain ⟨rest, rfl⟩ := hV
          rw [hLast] at hIf
          cases w'' <;> simpa using hIf
        rw [returnWords_append, hMiddle.returnWords_append, ← hYes.returns_eq]
        simpa using (hNo.replaceable hWord hLast).lift (first :: (test ++ (inner ++ [orElse]))) []
          (fun b => [yes, b]) (fun _ _ hStart h => by
            simpa using .orElse hFirst hCond hYes hElse (hHead hStart) h)
          (fun _ _ _ h => .later (.here h))
  | @DerivesChain.more first orElse test inner other takes cond conds block blocks hFirst hCond
      hBlock hElse hMore, hCut => by
      have hFront : Lacks .kwReturn (first :: test) := by
        simp [hFirst, hCond.lacks kwReturn_mem_retMarks]
      have hMiddle : Lacks .kwReturn [orElse] := by simp [hElse]
      obtain ⟨w, rfl, hRest⟩ := hFront.cut_right hWord hCut
      rw [hFront.returnWords_append]
      rcases cut_append hRest with ⟨w', hInner, rfl⟩ | ⟨w', rfl, hOther⟩
      · simpa using (hBlock.replaceable hWord hInner).lift (first :: test) (orElse :: other)
          (fun b => b :: blocks)
          (fun _ _ _ h => by simpa using .more hFirst hCond h hElse hMore)
          (fun _ _ _ h => .here h)
      · obtain ⟨w'', rfl, hLast⟩ := hMiddle.cut_right hWord hOther
        rw [returnWords_append, hMiddle.returnWords_append, ← hBlock.returns_eq]
        simpa using (hMore.replaceable hWord hLast).lift (first :: (test ++ (inner ++ [orElse]))) []
          (fun bs => block :: bs)
          (fun _ _ _ h => by simpa using .more hFirst hCond hBlock hElse h)
          (fun _ _ _ h => .later h)

/-- So it can in a branch. -/
theorem DerivesBranch.replaceable {takes : Bool} {u before after : List Token} {ss : List Stmt}
    {word : Token} (hWord : word.kind = .kwReturn) : DerivesBranch takes u ss →
      u = before ++ word :: after →
        Replaceable (DerivesBranch takes) Stmt.ReplacesIn (returnWords before) (before ++ [word])
          after ss
  | @DerivesBranch.braces opening closing inner _ hOpening h hClosing, hCut => by
      have hFront : Lacks .kwReturn [opening] := by simp [hOpening]
      have hBack : Lacks .kwReturn [closing] := by simp [hClosing]
      obtain ⟨w, rfl, hRest⟩ := hFront.cut_right hWord hCut
      obtain ⟨w', hInner, rfl⟩ := hBack.cut_left hWord hRest
      rw [hFront.returnWords_append]
      simpa using (h.replaceable hWord hInner).lift [opening] [closing] id
        (fun _ _ _ h => by simpa using .braces hOpening h hClosing) (fun _ _ _ h => h)
  | .bare h, hCut => by
      simpa using (h.replaceable hWord hCut).lift [] [] (fun s => [s])
        (fun _ _ _ h => by simpa using .bare h) (fun _ _ _ h => .here h)

/-- Every `return` in a row of statements can return something else. -/
theorem DerivesAll.replaceable {u before after : List Token} {ss : List Stmt} {word : Token}
    (hWord : word.kind = .kwReturn) : DerivesAll u ss → u = before ++ word :: after →
      Replaceable DerivesAll Stmt.ReplacesIn (returnWords before) (before ++ [word]) after ss
  | .nil, hCut => by simp at hCut
  | @DerivesAll.cons first rest takes s ss h hs, hCut => by
      rcases cut_append hCut with ⟨w, hFirst, rfl⟩ | ⟨w, rfl, hRest⟩
      · simpa using (h.replaceable hWord hFirst).lift [] rest (fun s => s :: ss)
          (fun _ _ _ h => by simpa using .cons h hs) (fun _ _ _ h => .here h)
      · rw [returnWords_append, ← h.returns_eq]
        simpa using (hs.replaceable hWord hRest).lift first [] (fun ss => s :: ss)
          (fun _ _ _ hs => by simpa using .cons h hs) (fun _ _ _ h => .later h)

end

section Numbers

variable {t : Token} {e : Expr}

/-- A number is an expression of its own in one way only. -/
theorem Derives.eq_number (hKind : t.kind = .number) {k : Nat} {u : List Token} {e : Expr} :
    Derives k u e → u = [t] →
      ∃ value, Literal.read? t.text.toList = some value ∧ e = .number (.point 0) value
  | .tighter _ h, hU => h.eq_number hKind hU
  | .chain _ hLhs _, hU => by
      obtain ⟨first, more, rfl, -⟩ := hLhs.head
      simp at hU
  | .sign hSign _, hU => by
      have hTable : ∀ entry ∈ signs, entry.1 ≠ .number := by decide
      obtain ⟨rfl, -⟩ := List.cons.inj hU
      exact absurd hKind (hTable _ hSign)
  | .number _ hValue, hU => by
      obtain ⟨rfl, -⟩ := List.cons.inj hU
      exact ⟨_, hValue, rfl⟩
  | .yes hT, hU | .no hT, hU | .str hT, hU | .name hT, hU | .call hT _, hU
  | .cast hT _ _ _, hU | .group hT _ _, hU => by
      obtain ⟨rfl, -⟩ := List.cons.inj hU
      rw [hT] at hKind
      cases hKind

/-- One number alone is the expression of its value. -/
theorem isExpr_number_iff (hKind : t.kind = .number) : IsExpr [t] e ↔
    ∃ value, Literal.read? t.text.toList = some value ∧ e = .number (.point 0) value := by
  rw [isExpr_iff]
  constructor
  · exact fun h => h.eq_number hKind rfl
  · rintro ⟨value, hValue, rfl⟩
    exact Derives.anti (by decide) (by decide) (by decide) (.number hKind hValue)

/-- An expression that a semicolon follows ends at the first semicolon. -/
theorem IsExpr.eq_singleton {u rest after : List Token} {mark semicolon : Token} (h : IsExpr u e)
    (hEnd : semicolon.kind = .semicolon) (hCut : t :: semicolon :: after = u ++ mark :: rest) :
    u = [t] ∧ mark = semicolon ∧ rest = after := by
  have hLacks := h.lacks semicolon_mem_retMarks
  obtain ⟨first, more, rfl, -⟩ := (isExpr_iff.1 h).head
  obtain ⟨rfl, hMore⟩ := List.cons.inj hCut
  cases more with
  | nil =>
      obtain ⟨rfl, rfl⟩ := List.cons.inj hMore
      exact ⟨rfl, rfl, rfl⟩
  | cons second more =>
      obtain ⟨rfl, -⟩ := List.cons.inj hMore
      exact absurd hEnd (hLacks semicolon (by simp))

/-- A statement in which a number is returned goes on up to the semicolon after it at least. -/
theorem DerivesStmt.exists_rest {takes : Bool} {before rest later after : List Token}
    {word semicolon : Token} {s : Stmt} (h : DerivesStmt takes (before ++ word :: rest) s)
    (hWord : word.kind = .kwReturn) (hEnd : semicolon.kind = .semicolon)
    (hAfter : t :: semicolon :: after = rest ++ later) :
    ∃ rest', rest = t :: semicolon :: rest' ∧ after = rest' ++ later := by
  obtain ⟨u, e, mark, rest', rfl, -, hE, -⟩ := h.replaceable hWord rfl
  rw [List.append_assoc, List.cons_append] at hAfter
  obtain ⟨rfl, rfl, rfl⟩ := hE.eq_singleton hEnd hAfter
  exact ⟨rest', rfl, rfl⟩

/-- A number that is returned can be replaced by another one. -/
theorem DerivesStmt.replaces_number {takes : Bool} {before after : List Token}
    {word number semicolon : Token} {s : Stmt}
    (h : DerivesStmt takes (before ++ word :: number :: semicolon :: after) s)
    (hWord : word.kind = .kwReturn) (hNumber : number.kind = .number)
    (hEnd : semicolon.kind = .semicolon) :
    ∃ value, Literal.read? number.text.toList = some value ∧
      ∀ other value', other.kind = .number → Literal.read? other.text.toList = some value' →
        ∃ s', DerivesStmt takes (before ++ word :: other :: semicolon :: after) s' ∧
          Stmt.Replaces (.ret (.point 0) (.number (.point 0) value))
            (.ret (.point 0) (.number (.point 0) value')) (returnWords before) s s' := by
  obtain ⟨u, e, mark, rest, hAfter, -, hE, hOther⟩ := h.replaceable hWord rfl
  obtain ⟨rfl, rfl, rfl⟩ := hE.eq_singleton hEnd hAfter
  obtain ⟨value, hValue, rfl⟩ := (isExpr_number_iff hNumber).1 hE
  refine ⟨value, hValue, fun other value' hKind hRead => ?_⟩
  obtain ⟨s', hDerives, hReplaces⟩ :=
    hOther [other] _ ((isExpr_number_iff hKind).2 ⟨value', hRead, rfl⟩)
  exact ⟨s', by simpa using hDerives, hReplaces⟩

end Numbers

section Rows

variable {u v before after : List Token} {word : Token} {ss : List Stmt}

/-- Statements after statements are statements. -/
theorem DerivesAll.append {ss' : List Stmt} (h : DerivesAll u ss) (h' : DerivesAll v ss') :
    DerivesAll (u ++ v) (ss ++ ss') := by
  induction ss generalizing u with
  | nil =>
      cases h
      exact h'
  | cons s ss ih =>
      cases h with
      | cons h hs =>
          rw [List.append_assoc]
          exact .cons h (ih hs)

/-- A token of a row of statements is in one of them, after others and before others. -/
theorem DerivesAll.exists_cut (h : DerivesAll u ss) (hCut : u = before ++ word :: after) :
    ∃ i takes s earlier inside rest later, before = earlier ++ inside ∧ after = rest ++ later ∧
      DerivesAll earlier (ss.take i) ∧ ss[i]? = some s ∧
      DerivesStmt takes (inside ++ word :: rest) s ∧ DerivesAll later (ss.drop (i + 1)) := by
  induction ss generalizing u before with
  | nil =>
      cases h
      simp at hCut
  | cons s ss ih =>
      cases h with
      | @cons first others takes _ _ h hs =>
          rcases cut_append hCut with ⟨w, rfl, rfl⟩ | ⟨w, rfl, hRest⟩
          · exact ⟨0, takes, s, [], before, w, others, rfl, rfl, .nil, rfl, h, by simpa using hs⟩
          · obtain ⟨i, takes, s', earlier, inside, rest, later, rfl, rfl, hEarlier, hAt, hS,
              hLater⟩ := ih hs hRest
            exact ⟨i + 1, takes, s', first ++ earlier, inside, rest, later,
              (List.append_assoc ..).symm, rfl, .cons h hEarlier, hAt, hS, hLater⟩

end Rows

end WasmCompiler.Grammar
