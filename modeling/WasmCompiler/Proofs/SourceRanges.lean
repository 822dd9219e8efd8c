import WasmCompiler.Proofs.NodePlaces
import WasmCompiler.Proofs.ParsingLayout
import WasmCompiler.Proofs.RoundTrip
import WasmCompiler.Proofs.Scanning

/-! The ranges of a tree are exact. The text from the first to the last of some tokens in a row has
the same tokens when it stands alone, and so the text in the range of a node is read as that node.
The ranges of children lie in that of their parent, one after the other. -/

namespace WasmCompiler

namespace Lexical

section Cut

variable {gap s rest rest' : List Char}

/-- Whether a blank or a comment is one depends only on the character after it. -/
theorem IsGapUnit.of_head {unit : List Char} (h : IsGapUnit unit rest)
    (hHead : rest.head? = rest'.head?) : IsGapUnit unit rest' := by
  cases h with
  | blank hBlank => exact .blank hBlank
  | line hBody hEnd => exact .line hBody (hHead ▸ hEnd)
  | block hBody => exact .block hBody

/-- Of the text after a gap only the first character matters. -/
theorem IsGap.of_head (h : IsGap gap rest) (hHead : rest.head? = rest'.head?) :
    IsGap gap rest' := by
  induction h with
  | nil => exact .nil
  | cons hUnit _ ih =>
      refine .cons (hUnit.of_head ?_) (ih hHead)
      rw [List.head?_append, List.head?_append, hHead]

/-- The longest spelling takes in the mark of a base with a digit after it, so that a cut after the
spelling does not part them. -/
theorem IsLongest.exists_digit {x : Char} {more after : List Char} {P : Char → Prop}
    (h : IsLongest s (s ++ (rest ++ after))) (hText : s ++ rest = '0' :: x :: more)
    (hDigit : ¬ ∀ d ∈ (more ++ after).head?, ¬ P d) (hNumber : ∀ d, P d → IsNumber ['0', x, d]) :
    ∃ d ∈ more.head?, P d := by
  have hWhole : s ++ (rest ++ after) = '0' :: x :: (more ++ after) := by
    rw [← List.append_assoc, hText]
    rfl
  cases hMore : more ++ after with
  | nil =>
      rw [hMore] at hDigit
      exact absurd nofun hDigit
  | cons d tail =>
      rw [hMore] at hDigit hWhole
      have hP : P d := by simpa using hDigit
      have hStarts : ['0', x, d] <+: s ++ (rest ++ after) := ⟨tail, hWhole.symm⟩
      have hLength := h.longest _ _ hStarts (.number (hNumber d hP))
      obtain ⟨back, rfl⟩ := List.prefix_of_prefix_length_le hStarts h.starts hLength
      cases hText
      exact ⟨d, rfl, hP⟩

/-- A number that has its digit has it also if less follows. -/
theorem not_lacksDigit_of_initial (hLongest : IsLongest s (s ++ rest))
    (hBased : ¬ LacksDigit (s ++ rest)) (hRest : rest' <+: rest) : ¬ LacksDigit (s ++ rest') := by
  obtain ⟨after, rfl⟩ := hRest
  rw [← List.append_assoc] at hBased
  rintro (⟨x, more, hText, hX, hHead⟩ | ⟨b, more, hText, hB, hHead⟩)
  · obtain ⟨d, hD, hHex⟩ := hLongest.exists_digit hText
      (fun hNone => hBased (.inl ⟨x, more ++ after, by rw [hText]; rfl, hX, hNone⟩))
      (fun d hD => .hex hX ⟨List.cons_ne_nil _ _, by simpa using hD⟩)
    exact hHead d hD hHex
  · obtain ⟨d, hD, hBinary⟩ := hLongest.exists_digit hText
      (fun hNone => hBased (.inr ⟨b, more ++ after, by rw [hText]; rfl, hB, hNone⟩))
      (fun d hD => .binary hB ⟨List.cons_ne_nil _ _, by simpa using hD⟩)
    exact hHead d hD hBinary

/-- A piece stays one if the text after it is cut off somewhere. -/
theorem Begins.initial (h : Begins gap s rest) (hRest : rest' <+: rest) : Begins gap s rest' := by
  have hText : s ++ rest' <+: s ++ rest := (List.prefix_append_right_inj s).2 hRest
  refine ⟨h.gap.of_head ?_, ?_, ?_, not_lacksDigit_of_initial h.longest h.based hRest⟩
  · obtain ⟨l, hWrites⟩ := h.longest.writes
    cases s with
    | nil => exact absurd hWrites Writes.ne_nil
    | cons c cs => rfl
  · exact fun hComment => h.apart (hComment.imp (·.trans hText) (·.trans hText))
  · exact ⟨List.prefix_append _ _, h.longest.writes, fun s' l hStarts hWrites =>
      h.longest.longest s' l (hStarts.trans hText) hWrites⟩

end Cut

/-- The same pieces elsewhere have the same tokens, places apart. -/
theorem Tokenizes.exists_moved {offset : Nat} {pieces : List Piece} {ts : List Token}
    (h : Tokenizes offset pieces ts) (offset' : Nat) :
    ∃ ts', Tokenizes offset' pieces ts' ∧ ts'.map Token.lexeme = ts.map Token.lexeme := by
  induction h generalizing offset' with
  | nil => exact ⟨[], .nil, rfl⟩
  | @cons _ _ _ gap s _ _ _ _ _ _ hWrites _ ih =>
      obtain ⟨ts', hTs', hLexemes⟩ := ih (offset' + byteLength gap + byteLength s)
      exact ⟨_, .cons rfl rfl hWrites hTs', congrArg (_ :: ·) hLexemes⟩

theorem stop_getLast?_cons (t : Token) (u : List Token) :
    (t :: u).getLast?.map (fun t => t.span.stop) =
      some ((u.getLast?.map fun t => t.span.stop).getD t.span.stop) := by
  rw [List.getLast?_cons]
  cases u.getLast? <;> rfl

/-- The text of the first tokens, up to where the last of them ends. -/
theorem Splits.exists_initial {text : List Char} {pieces : List Piece} {last : List Char}
    (h : Splits text pieces last) {offset : Nat} {u back : List Token}
    (hTokens : Tokenizes offset pieces (u ++ back)) :
    ∃ inside after pieces', text = inside ++ after ∧ Splits inside pieces' [] ∧
      Tokenizes offset pieces' u ∧
      (u.getLast?.map fun t => t.span.stop).getD offset = offset + byteLength inside := by
  induction h generalizing offset u with
  | @last gap _ =>
      obtain rfl : u = [] := by
        generalize hTs : u ++ back = ts at hTokens
        cases hTokens
        exact (List.append_eq_nil_iff.1 hTs).1
      exact ⟨[], gap, [], rfl, .last .nil, .nil, rfl⟩
  | @cons gap s rest _ _ hPiece _ ih =>
      cases u with
      | nil => exact ⟨[], _, [], rfl, .last .nil, .nil, rfl⟩
      | cons t u =>
          cases hTokens with
          | cons hStart hStop hWrites hRest =>
              obtain ⟨inside, after, pieces', rfl, hSplits, hTs, hEnd⟩ := ih hRest
              refine ⟨gap ++ (s ++ inside), after, _, by simp,
                .cons (hPiece.initial (List.prefix_append _ _)) hSplits,
                .cons hStart hStop hWrites hTs, ?_⟩
              rw [stop_getLast?_cons, Option.getD_some, hEnd, hStop, hStart]
              simp only [byteLength_append, Nat.add_assoc]

/-- The text that some tokens in a row cover has the same tokens when it stands alone. -/
theorem Splits.exists_slice {text : List Char} {pieces : List Piece} {last : List Char}
    (h : Splits text pieces last) {offset : Nat} {front u back : List Token} {span : Span}
    (hTokens : Tokenizes offset pieces (front ++ (u ++ back))) (hCovers : Covers u span) :
    ∃ before inside after ts, text = before ++ (inside ++ after) ∧
      span = ⟨offset + byteLength before, offset + byteLength before + byteLength inside⟩ ∧
      Token.ofText (String.ofList inside) = .ok ts ∧ ts.map Token.lexeme = u.map Token.lexeme := by
  induction front generalizing text pieces offset with
  | nil =>
      cases u with
      | nil => exact absurd hCovers.start nofun
      | cons t u =>
          cases hTokens with
          | @cons _ start stop gap s kind word _ _ hStart hStop hWrites hRest =>
              cases h with
              | cons hPiece hSplits =>
                  obtain ⟨inside, after, pieces', rfl, hInside, hTs, hEnd⟩ :=
                    hSplits.exists_initial hRest
                  obtain ⟨ts, hMoved, hLexemes⟩ := hTs.exists_moved (byteLength s)
                  -- Without the gap before it the first piece starts the text.
                  have hAlone : Splits (s ++ inside) (⟨[], s⟩ :: pieces') [] :=
                    .cons { hPiece.initial (List.prefix_append inside after) with gap := .nil }
                      hInside
                  have hTokens : Tokenizes 0 (⟨[], s⟩ :: pieces')
                      (⟨kind, word, ⟨0, byteLength s⟩⟩ :: ts) :=
                    .cons rfl (Nat.zero_add _).symm hWrites hMoved
                  refine ⟨gap, s ++ inside, after, ⟨kind, word, ⟨0, byteLength s⟩⟩ :: ts, by simp,
                    ?_, ?_, congrArg ((kind, word) :: ·) hLexemes⟩
                  · have hFirst : start = span.start := Option.some.inj hCovers.start
                    have hLast := hCovers.stop
                    rw [stop_getLast?_cons, hEnd, Option.some.injEq] at hLast
                    rw [byteLength_append, ← Nat.add_assoc, ← hStart, ← hStop, hLast, hFirst]
                  · rw [Token.ofText_eq, Scan.ofText, String.toList_ofList]
                    exact hAlone.tokens_eq_ok hTokens
  | cons t front ih =>
      cases hTokens with
      | @cons _ _ _ gap s _ _ _ _ hStart hStop _ hRest =>
          cases h with
          | cons _ hSplits =>
              obtain ⟨before, inside, after, ts, rfl, rfl, hTs, hLexemes⟩ := ih hSplits hRest
              refine ⟨gap ++ (s ++ before), inside, after, ts, by simp, ?_, hTs, hLexemes⟩
              subst hStop hStart
              simp only [byteLength_append, Nat.add_assoc]

end Lexical

/-- Tokens that are written one after the other. -/
structure Ordered (ts : List Token) : Prop where
  apart : ts.Pairwise fun t t' => t.span.stop ≤ t'.span.start
  forward : ∀ t ∈ ts, t.span.start ≤ t.span.stop

/-- One range ends before another starts. -/
def Span.Precedes (s s' : Span) : Prop := s.stop ≤ s'.start

/-- One range lies in another. -/
structure Span.Within (s s' : Span) : Prop where
  start : s'.start ≤ s.start
  stop : s.stop ≤ s'.stop

/-- The tokens of a split stand in order, without overlap. -/
theorem Lexical.Tokenizes.ordered {offset : Nat} {pieces : List Piece} {ts : List Token}
    (h : Tokenizes offset pieces ts) :
    Ordered ts ∧ ∀ t ∈ ts, offset ≤ t.span.start := by
  induction h with
  | nil => exact ⟨⟨.nil, nofun⟩, nofun⟩
  | @cons offset start stop gap s _ _ _ _ hStart hStop _ _ ih =>
      obtain ⟨⟨hApart, hForward⟩, hAfter⟩ := ih
      refine ⟨⟨.cons hAfter hApart, List.forall_mem_cons.2 ⟨?_, hForward⟩⟩,
        List.forall_mem_cons.2 ⟨?_, fun t hT => ?_⟩⟩
      · exact hStop ▸ Nat.le_add_right _ _
      · exact hStart ▸ Nat.le_add_right _ _
      · have hLater := hAfter t hT
        omega

section Ordered

variable {u v front back : List Token} {s s' : Span}

/-- A span that covers tokens starts with the first of them. -/
theorem Covers.exists_first (h : Covers u s) :
    ∃ t more, u = t :: more ∧ t.span.start = s.start := by
  obtain ⟨t, hHead, hStart⟩ := Option.map_eq_some_iff.1 h.start
  obtain ⟨more, rfl⟩ := List.head?_eq_some_iff.1 hHead
  exact ⟨t, more, rfl, hStart⟩

/-- A span that covers tokens ends with the last of them. -/
theorem Covers.exists_last (h : Covers u s) :
    ∃ t more, u = more ++ [t] ∧ t.span.stop = s.stop := by
  obtain ⟨t, hLast, hStop⟩ := Option.map_eq_some_iff.1 h.stop
  obtain ⟨more, rfl⟩ := List.getLast?_eq_some_iff.1 hLast
  exact ⟨t, more, rfl, hStop⟩

theorem Ordered.append (h : Ordered (u ++ v)) :
    Ordered u ∧ Ordered v ∧ ∀ t ∈ u, ∀ t' ∈ v, t.span.stop ≤ t'.span.start := by
  obtain ⟨hU, hV, hCross⟩ := List.pairwise_append.1 h.apart
  exact ⟨⟨hU, fun t hT => h.forward t (List.mem_append_left v hT)⟩,
    ⟨hV, fun t hT => h.forward t (List.mem_append_right u hT)⟩, hCross⟩

/-- Spans that cover tokens in order are in order. -/
theorem Covers.precedes (h : Covers u s) (h' : Covers v s')
    (hOrdered : Ordered (u ++ (front ++ (v ++ back)))) : s.Precedes s' := by
  obtain ⟨last, more, rfl, hStop⟩ := h.exists_last
  obtain ⟨first, more', rfl, hStart⟩ := h'.exists_first
  have hLe := hOrdered.append.2.2 last (by simp) first (by simp)
  rwa [hStop, hStart] at hLe

/-- A span that covers a part of the tokens lies within the span of all of them. -/
theorem Covers.within (h : Covers u s) (h' : Covers (front ++ (u ++ back)) s')
    (hOrdered : Ordered (front ++ (u ++ back))) : s.Within s' := by
  obtain ⟨hFront, hRest, hCross⟩ := hOrdered.append
  obtain ⟨-, hBack, hCross'⟩ := hRest.append
  obtain ⟨first, more, hU, hStart⟩ := h.exists_first
  obtain ⟨last, more', hU', hStop⟩ := h.exists_last
  constructor
  · -- The first token of all is the first of these or stands before it.
    cases front with
    | nil =>
        have hSame := h'.start
        rw [List.nil_append, List.head?_append, hU] at hSame
        exact (Option.some.inj hSame).symm.trans hStart |>.le
    | cons t front =>
        have hFirst : t.span.start = s'.start := Option.some.inj h'.start
        have hLe := hCross t (by simp) first (by simp [hU])
        have hForward := hFront.forward t (by simp)
        omega
  · obtain rfl | ⟨most, t, rfl⟩ := List.eq_nil_or_concat' back
    · have hSame := h'.stop
      rw [List.append_nil, List.getLast?_append, hU', List.getLast?_concat] at hSame
      exact (hStop.symm.trans (Option.some.inj hSame)).le
    · have hLast : t.span.stop = s'.stop := by
        have hSame := h'.stop
        rw [← List.append_assoc, ← List.append_assoc, List.getLast?_concat] at hSame
        exact Option.some.inj hSame
      have hLe := hCross' last (by simp [hU']) t (by simp)
      have hForward := hBack.forward t (by simp)
      omega

/-- Nodes that are placed in a row have their spans in order. -/
theorem PlacedRow.precedes {ns : List Node} (h : PlacedRow u ns) (hOrdered : Ordered u) :
    ns.Pairwise fun n m => n.span.Precedes m.span := by
  induction ns generalizing u with
  | nil => exact .nil
  | cons n ns ih =>
      cases h with
      | @cons gap w rest _ _ hPlaced hs =>
          obtain ⟨-, hOrdered, -⟩ := hOrdered.append
          refine .cons (fun m hM => ?_) (ih hs hOrdered.append.2.1)
          obtain ⟨front, v, back, rfl, hOther⟩ := hs.exists_of_mem hM
          exact hPlaced.covers.precedes hOther.covers hOrdered

/-- The span of a child lies within the span of its node. -/
theorem Placed.within {n m : Node} (h : Placed u n) (hMem : m ∈ n.children)
    (hOrdered : Ordered u) : m.span.Within n.span := by
  obtain ⟨front, v, back, rfl, hPlaced⟩ := h.children.exists_of_mem hMem
  exact hPlaced.covers.within h.covers hOrdered

end Ordered

section Alike

/-- A parse that looks like one that succeeds succeeds. -/
theorem Reading.exists_of_seen {α γ : Type} {f : α → γ} {n m : Nat} {x : Reading α n}
    {r : Parsed α m} (h : seen f x = seen f (.ok r)) :
    ∃ r', x = .ok r' ∧ f r'.value = f r.value ∧ r'.rest.lexemes = r.rest.lexemes := by
  cases x with
  | error e => cases h
  | ok r' =>
      have hView := Except.ok.inj h
      exact ⟨r', rfl, congrArg Prod.fst hView, congrArg Prod.snd hView⟩

variable {u ts : List Token} (hLexemes : ts.map Token.lexeme = u.map Token.lexeme)
include hLexemes

/-- Rows of tokens that say the same are the same expression. -/
theorem Grammar.IsExpr.alike {e : Expr} (h : IsExpr u e) : IsExpr ts e := by
  obtain ⟨r, hParse, hEnd, rfl⟩ := h
  have hStart : (Cursor.ofTokens ts).lexemes = (Cursor.ofTokens u).lexemes := hLexemes
  have hSeen : Reading.seen Expr.eraseSpans (Expr.parse 0 (Cursor.ofTokens ts)) =
      Reading.seen Expr.eraseSpans (Expr.parse 0 (Cursor.ofTokens u)) := Expr.parse_alike hStart
  rw [hParse] at hSeen
  obtain ⟨r', hParse', hErase, hRest⟩ := Reading.exists_of_seen hSeen
  refine ⟨r', hParse', ?_, hErase⟩
  rw [Cursor.lexemes, Cursor.lexemes, hEnd] at hRest
  exact List.map_eq_nil_iff.1 hRest

/-- A statement is read alone from a row of tokens that says the same. -/
theorem Program.exists_ofTokens_of_derivesStmt {takes : Bool} {s : Stmt}
    (h : Grammar.DerivesStmt takes u s) : ∃ p, ofTokens ts = .ok p ∧ p.eraseSpans = [s] := by
  have hAll : Grammar.DerivesAll (u ++ []) [s] := .cons h .nil
  rw [List.append_nil] at hAll
  obtain ⟨p, hP, hErase⟩ := exists_ofTokens_of_derives hAll
  have hSeen := ofTokens_alike hLexemes
  rw [hP] at hSeen
  cases hQ : ofTokens ts with
  | error e =>
      rw [hQ] at hSeen
      cases hSeen
  | ok q =>
      rw [hQ] at hSeen
      exact ⟨q, rfl, (Except.ok.inj hSeen).trans hErase⟩

end Alike

/-- The text is read as the node, places apart, and nothing of it is left. Parameters and
assignments have no text that is read alone. -/
def Node.IsReadFrom (text : String) : Node → Prop
  | stmt s => ∃ p, Program.ofText text = .ok p ∧ p.eraseSpans = [s.eraseSpans]
  | param _ | expr (.assign _ _ _) => True
  | expr e => ∃ ts r, Token.ofText text = .ok ts ∧
      Expr.parse 0 (Cursor.ofTokens ts) = .ok r ∧ r.rest.ahead = [] ∧
      r.value.eraseSpans = e.eraseSpans

/-- A node is read from a text that has the lexemes of its tokens. -/
theorem Node.Derived.isReadFrom {n : Node} {u ts : List Token} {text : String}
    (h : n.Derived u) (hTs : Token.ofText text = .ok ts)
    (hLexemes : ts.map Token.lexeme = u.map Token.lexeme) : n.IsReadFrom text := by
  cases n with
  | stmt s =>
      obtain ⟨takes, hDerives⟩ := h
      obtain ⟨p, hP, hErase⟩ := Program.exists_ofTokens_of_derivesStmt hLexemes hDerives
      exact ⟨p, Program.ofText_eq_ok.2 ⟨ts, hTs, hP⟩, hErase⟩
  | param d => trivial
  | expr e =>
      cases e with
      | assign => trivial
      | _ =>
          obtain ⟨r, hParse, hEnd, hErase⟩ := (Grammar.isExpr_iff.2 h).alike hLexemes
          exact ⟨ts, r, hTs, hParse, hEnd, hErase⟩

namespace Program

/-- The nodes of a program, at any depth. -/
inductive HasNode (p : Program) : Node → Prop where
  | top {s : Stmt} (h : s ∈ p) : HasNode p (.stmt s)
  | child {n m : Node} (h : HasNode p n) (hMem : m ∈ n.children) : HasNode p m

/-- Each node of a program is placed in a part of the tokens. -/
theorem HasNode.exists_placed {p : Program} {n : Node} {tokens : List Token}
    (hRow : PlacedRow tokens (p.map .stmt)) (h : p.HasNode n) :
    ∃ front u back, tokens = front ++ (u ++ back) ∧ Placed u n := by
  induction h with
  | top h => exact hRow.exists_of_mem (List.mem_map_of_mem h)
  | child _ hMem ih =>
      obtain ⟨front, u, back, rfl, hPlaced⟩ := ih
      obtain ⟨front', v, back', rfl, hChild⟩ := hPlaced.children.exists_of_mem hMem
      exact ⟨front ++ front', v, back' ++ back, by simp, hChild⟩

/-- The ranges of a tree are exact. Every node has a part of the text as its range, whole characters
only, and that part alone is read as the node. The children of a node lie in its range, and so do
the statements of a program in the text, one after the other and apart. -/
theorem spans_exact (src : String) (p : Program) (h : ofText src = .ok p) :
    ((p.map Node.stmt).Pairwise fun n m => n.span.Precedes m.span) ∧
    ∀ n, p.HasNode n →
      (∃ before inside after, src.toList = before ++ (inside ++ after) ∧
        n.span = ⟨byteLength before, byteLength before + byteLength inside⟩ ∧
        n.IsReadFrom (String.ofList inside)) ∧
      (∀ m ∈ n.children, m.span.Within n.span) ∧
      n.children.Pairwise fun m m' => m.span.Precedes m'.span := by
  obtain ⟨tokens, hTokens, hProgram⟩ := ofText_eq_ok.1 h
  obtain ⟨pieces, last, hSplits, hTokenizes⟩ := Lexical.exists_splits_of_ofText hTokens
  have hOrdered := hTokenizes.ordered.1
  have hRow := placed_of_ofTokens hProgram
  refine ⟨hRow.precedes hOrdered, fun n hNode => ?_⟩
  obtain ⟨front, u, back, rfl, hPlaced⟩ := hNode.exists_placed hRow
  have hOwn : Ordered u := hOrdered.append.2.1.append.1
  obtain ⟨before, inside, after, ts, hText, hSpan, hTs, hLexemes⟩ :=
    hSplits.exists_slice hTokenizes hPlaced.covers
  rw [Nat.zero_add] at hSpan
  exact ⟨⟨before, inside, after, hText, hSpan, hPlaced.derived.isReadFrom hTs hLexemes⟩,
    fun m hMem => hPlaced.within hMem hOwn, hPlaced.children.precedes hOwn⟩

/-- A call with a character of two bytes, a comment and parentheses in it. -/
def accentText : String := "f(\"é\",/*;*/(1));"

def accentTokens : List Token :=
  [⟨.ident, "f", ⟨0, 1⟩⟩, ⟨.lparen, "(", ⟨1, 2⟩⟩, ⟨.str, "é", ⟨2, 6⟩⟩, ⟨.comma, ",", ⟨6, 7⟩⟩,
    ⟨.lparen, "(", ⟨12, 13⟩⟩, ⟨.number, "1", ⟨13, 14⟩⟩, ⟨.rparen, ")", ⟨14, 15⟩⟩,
    ⟨.rparen, ")", ⟨15, 16⟩⟩, ⟨.semicolon, ";", ⟨16, 17⟩⟩]

def accentArgs : List Expr := [.str ⟨2, 6⟩ "é", .number ⟨12, 15⟩ (.int 1)]

def accentCall : Expr := .call ⟨0, 16⟩ "f" accentArgs

theorem spans_exact_accent :
    ofText accentText = .ok [.eval ⟨0, 17⟩ accentCall] ∧
    (∃ before inside after, accentText.toList = before ++ (inside ++ after) ∧
      (⟨12, 15⟩ : Span) = ⟨byteLength before, byteLength before + byteLength inside⟩ ∧
      Node.IsReadFrom (String.ofList inside) (.expr (.number ⟨12, 15⟩ (.int 1)))) ∧
    (accentArgs.map Node.expr).Pairwise fun n m => n.span.Precedes m.span := by
  have hTokens : Token.ofText accentText = .ok accentTokens := by
    rw [Token.ofText_eq]
    decide +kernel
  have hProgram : ofTokens accentTokens = .ok [.eval ⟨0, 17⟩ accentCall] := by cbv
  have hText := ofText_eq_ok.2 ⟨accentTokens, hTokens, hProgram⟩
  have hNodes := (spans_exact accentText _ hText).2
  have hCall : HasNode [.eval ⟨0, 17⟩ accentCall] (.expr accentCall) :=
    .child (.top List.mem_cons_self) List.mem_cons_self
  have hOne := hCall.child (List.mem_cons_of_mem _ List.mem_cons_self)
  exact ⟨hText, (hNodes _ hOne).1, (hNodes _ hCall).2.2⟩

end Program

end WasmCompiler
