import WasmCompiler.Proofs.LexicalGrammar

/-! The lexer and the lexical grammar. What is skipped before a token is a gap, what is read after
the gap is the longest spelling, and so the tokens of a text are those of its pieces. -/

namespace WasmCompiler.Lexical

section Gaps

open Scan

/-- The body of a comment has no end mark at its first character or later. -/
theorem isBlockBody_cons {c : Char} {body : List Char} : IsBlockBody (c :: body) ↔
    (∀ back, c :: (body ++ ['*', '/']) ≠ '*' :: '/' :: back) ∧ IsBlockBody body := by
  constructor
  · refine fun h => ⟨fun back hBack => ?_, fun front back hBack => ?_⟩
    · have hNil := h [] back hBack
      rw [hNil] at hBack
      simpa using congrArg List.length hBack
    · exact h (c :: front) back (by rw [List.cons_append, hBack, List.cons_append])
  · rintro ⟨hHead, hBody⟩ front back hBack
    cases front with
    | nil => exact absurd hBack (hHead back)
    | cons d front => exact hBody front back (List.cons.inj hBack).2

/-- A comment ends at its first end mark. -/
theorem commentEnd?_append {body rest : List Char} (h : IsBlockBody body) :
    commentEnd? (body ++ '*' :: '/' :: rest) = some (body.length + 2) := by
  induction body with
  | nil => rfl
  | cons c body ih =>
      obtain ⟨hHead, hBody⟩ := isBlockBody_cons.1 h
      have hOpen : ∀ back, c = '*' → body ++ '*' :: '/' :: rest ≠ '/' :: back := by
        rintro back rfl hBack
        cases body with
        | nil => cases hBack
        | cons d body =>
            obtain ⟨rfl, -⟩ := List.cons.inj hBack
            exact hHead _ rfl
      rw [List.cons_append, commentEnd?.eq_2 _ _ hOpen, ih hBody]
      rfl

/-- What stands before the end of a comment is a body without the end mark. -/
theorem exists_of_commentEnd? {text : List Char} {count : Nat}
    (h : commentEnd? text = some count) :
    ∃ body rest, text = body ++ '*' :: '/' :: rest ∧ IsBlockBody body ∧
      count = body.length + 2 := by
  fun_induction commentEnd? text generalizing count with
  | case1 rest =>
      cases h
      refine ⟨[], rest, rfl, fun front back hBack => ?_, rfl⟩
      have hLength := congrArg List.length hBack
      simp only [List.nil_append, List.length_append, List.length_cons, List.length_nil] at hLength
      exact List.length_eq_zero_iff.1 (by omega)
  | case2 c rest hOpen ih =>
      obtain ⟨count, hCount, rfl⟩ := Option.map_eq_some_iff.1 h
      obtain ⟨body, after, rfl, hBody, rfl⟩ := ih hCount
      refine ⟨c :: body, after, rfl, isBlockBody_cons.2 ⟨fun back hBack => ?_, hBody⟩, by simp⟩
      obtain ⟨rfl, hBack⟩ := List.cons.inj hBack
      cases body with
      | nil => cases hBack
      | cons d body =>
          cases hBack
          exact hOpen _ rfl rfl
  | case3 => cases h

/-- A blank or a comment of the grammar is skipped as one. -/
theorem IsGapUnit.gapLength?_append {unit rest : List Char} (h : IsGapUnit unit rest) :
    ∃ count, unit.length = count + 1 ∧ gapLength? (unit ++ rest) = some (count + 1) := by
  cases h with
  | @blank c _ hBlank =>
      exact ⟨0, rfl, gapLength?_of_isBlank hBlank rest⟩
  | @line body _ hBody hEnd =>
      refine ⟨1 + body.length, by simp; omega, ?_⟩
      have hTake : (body ++ rest).takeWhile (· ≠ '\n') = body := by
        have hAll : ∀ c ∈ body, decide (c ≠ '\n') = true := fun c hC => by
          simpa using ne_of_mem_of_not_mem hC hBody
        cases rest with
        | nil => rw [List.append_nil, List.takeWhile_eq_self_iff.2 hAll]
        | cons c rest => exact takeWhile_append_stop hAll (by simp [hEnd c rfl])
      rw [List.cons_append, List.cons_append, gapLength?, hTake]
      congr 1
      omega
  | @block body _ hBody =>
      refine ⟨body.length + 3, by simp, ?_⟩
      rw [List.cons_append, List.cons_append, gapLength?, List.append_assoc, List.cons_append,
        List.singleton_append, commentEnd?_append hBody]
      simp
      omega

/-- What is skipped as a gap is a blank or a comment of the grammar. -/
theorem exists_isGapUnit {text : List Char} {count : Nat} : gapLength? text = some (count + 1) →
    ∃ unit rest, text = unit ++ rest ∧ unit.length = count + 1 ∧ IsGapUnit unit rest := by
  fun_cases gapLength? text with
  | case1 more =>
      intro h
      refine ⟨'/' :: '/' :: more.takeWhile (· ≠ '\n'), more.dropWhile (· ≠ '\n'), ?_, ?_,
        .line ?_ ?_⟩
      · rw [List.cons_append, List.cons_append, List.takeWhile_append_dropWhile]
      · simp only [Option.some.injEq] at h
        simp only [List.length_cons]
        omega
      · exact notMem_takeWhile (by simp) more
      · intro c hC
        have hStop := List.head?_dropWhile_not (fun c => decide (c ≠ '\n')) more
        rw [hC] at hStop
        simpa using hStop
  | case2 more =>
      intro h
      obtain ⟨inner, hInner, hCount⟩ := Option.map_eq_some_iff.1 h
      obtain ⟨body, rest, rfl, hBody, rfl⟩ := exists_of_commentEnd? hInner
      refine ⟨'/' :: '*' :: (body ++ ['*', '/']), rest, by simp, ?_, .block hBody⟩
      simp only [List.length_cons, List.length_append, List.length_nil]
      omega
  | case3 c more _ _ hBlank =>
      rintro ⟨⟩
      exact ⟨[c], more, rfl, rfl, .blank hBlank⟩
  | case4 => rintro ⟨⟩
  | case5 => rintro ⟨⟩

/-- No comment starts where nothing is skipped. -/
theorem not_startsComment_of_gapLength? {text : List Char} (h : gapLength? text = some 0) :
    ¬ StartsComment text := by
  rintro (⟨rest, rfl⟩ | ⟨rest, rfl⟩)
  · simp [gapLength?] at h
  · simp [gapLength?] at h

/-- No spelling starts with a blank. -/
theorem Writes.isBlank_head {c : Char} {cs : List Char} {l : Lexeme} (h : Writes (c :: cs) l) :
    Text.isBlank c = false := by
  by_cases hQuote : c = '"'
  · rw [hQuote]
    rfl
  · by_cases hDigit : IsDigit c
    · have hNat := Number.toNat_of_isDigit (isDigit_iff.2 hDigit)
      exact isBlank_eq_false (by omega) (by omega)
    · by_cases hName : IsNameStart c
      · have hNat := toNat_of_startsName (startsName_iff.2 hName)
        exact isBlank_eq_false (by omega) (by omega)
      · have hMarks : Token.Kind.marks.all (fun mark => mark.1.head?.all fun d =>
            !Text.isBlank d) = true := by decide
        have hHead := List.all_eq_true.1 hMarks _ (h.of_mark hQuote hDigit hName).1
        simpa using hHead

/-- A spelling is not part of a gap. -/
theorem gapLength?_of_writes {s rest : List Char} {l : Lexeme} (h : Writes s l)
    (hApart : ¬ StartsComment (s ++ rest)) : gapLength? (s ++ rest) = some 0 := by
  cases s with
  | nil => exact absurd h Writes.ne_nil
  | cons c cs =>
      have hLine : ∀ more, c = '/' → cs ++ rest ≠ '/' :: more := by
        rintro more rfl hMore
        exact hApart (.inl ⟨more, by simp [hMore]⟩)
      have hBlock : ∀ more, c = '/' → cs ++ rest ≠ '*' :: more := by
        rintro more rfl hMore
        exact hApart (.inr ⟨more, by simp [hMore]⟩)
      rw [List.cons_append, gapLength?.eq_3 _ _ hLine hBlock, h.isBlank_head]
      rfl

/-- Dropping a part of the text moves the offset by its bytes. -/
theorem drop_append (offset : Nat) (front rest : List Char) :
    Scan.drop ⟨offset, front ++ rest⟩ front.length = ⟨offset + byteLength front, rest⟩ := by
  simp [Scan.drop]

/-- A gap is skipped, whatever stands after it. -/
theorem IsGap.skipGaps_eq {gap rest : List Char} (h : IsGap gap rest) (offset : Nat) :
    Scan.skipGaps ⟨offset, gap ++ rest⟩ = Scan.skipGaps ⟨offset + byteLength gap, rest⟩ := by
  induction h generalizing offset with
  | nil => rfl
  | @cons unit gap rest hUnit _ ih =>
      obtain ⟨count, hLength, hUnit⟩ := hUnit.gapLength?_append
      rw [List.append_assoc, skipGaps_of_succ hUnit, ← hLength, drop_append, ih, byteLength_append,
        Nat.add_assoc]

/-- A gap of the grammar is skipped as a whole, up to where no gap goes on. -/
theorem IsGap.skipGaps_append {gap rest : List Char} (h : IsGap gap rest)
    (hRest : gapLength? rest = some 0) (offset : Nat) :
    Scan.skipGaps ⟨offset, gap ++ rest⟩ = (⟨offset + byteLength gap, rest⟩, true) := by
  rw [h.skipGaps_eq, skipGaps_of_zero hRest]

/-- What is skipped is a gap. After it there is no more of it, or an open comment. -/
theorem exists_isGap_of_skipGaps {s after : Scan} {closed : Bool}
    (h : s.skipGaps = (after, closed)) :
    ∃ gap, s.rest = gap ++ after.rest ∧ IsGap gap after.rest ∧
      after.offset = s.offset + byteLength gap ∧
      gapLength? after.rest = if closed then some 0 else none := by
  fun_induction skipGaps s with
  | case1 s hNone =>
      cases h
      exact ⟨[], rfl, .nil, rfl, hNone⟩
  | case2 s hZero =>
      cases h
      exact ⟨[], rfl, .nil, rfl, hZero⟩
  | case3 s count hCount _ ih =>
      obtain ⟨unit, rest, hText, hLength, hUnit⟩ := exists_isGapUnit hCount
      have hDrop : s.drop (count + 1) = ⟨s.offset + byteLength unit, rest⟩ := by
        rw [← hLength, ← drop_append, ← hText]
      obtain ⟨gap, hGap, hIsGap, hOffset, hEnd⟩ := ih h
      simp only [hDrop] at hGap hOffset
      refine ⟨unit ++ gap, ?_, .cons (hGap ▸ hUnit) hIsGap, ?_, hEnd⟩
      · rw [hText, hGap, List.append_assoc]
      · rw [hOffset, byteLength_append, Nat.add_assoc]

end Gaps

section Tokens

open Scan

theorem Writes.kind_ne {s : List Char} {l : Lexeme} (h : Writes s l) : l.1 ≠ .eof := by
  cases h with
  | str => exact nofun
  | number => exact nofun
  | word _ _ hWord =>
      have hWords : ∀ entry ∈ Token.Kind.words, entry.2 ≠ .eof := by decide
      exact hWords _ hWord
  | name => exact nofun
  | mark hMark =>
      have hMarks : ∀ mark ∈ Token.Kind.marks, mark.2 ≠ .eof := by decide
      exact hMarks _ hMark

/-- The token of a spelling has the spelling without its quotes, and its span. -/
theorem token_append (offset : Nat) (s rest : List Char) (kind : Token.Kind) (quotes : Nat) :
    Scan.token ⟨offset, s ++ rest⟩ kind s.length quotes =
      ⟨kind, String.ofList ((s.take (s.length - quotes)).drop quotes),
        ⟨offset, offset + byteLength s⟩⟩ := by
  rw [token, drop_append, List.take_append_of_le_length (Nat.sub_le _ _)]

/-- What is read at the start of a piece is its whole spelling. -/
theorem Begins.read_eq {gap rest : List Char} {c : Char} {cs : List Char} {kind : Token.Kind}
    {text : String} (h : Begins gap (c :: cs) rest) (hWrites : Writes (c :: cs) (kind, text)) :
    ∃ quotes, Scan.read c (cs ++ rest) = .lexeme kind (c :: cs).length quotes ∧
      text = String.ofList (((c :: cs).take ((c :: cs).length - quotes)).drop quotes) := by
  have hFits := fits_read c (cs ++ rest)
  cases hRead : Scan.read c (cs ++ rest) with
  | failure error length =>
      rw [hRead] at hFits
      rcases hFits with hLacks | hNone
      · exact absurd hLacks h.based
      · exact absurd hWrites (hNone _ _ (List.prefix_append _ _))
  | lexeme kind' length quotes =>
      rw [hRead] at hFits
      obtain ⟨⟨s, after, hText, rfl, hWrites'⟩, hLongest, -⟩ := hFits
      have hLe := hLongest _ _ (List.prefix_append (c :: cs) rest) hWrites
      have hGe := h.longest.longest s _ ⟨after, hText.symm⟩ hWrites'
      obtain ⟨rfl, rfl⟩ := List.append_inj (show (c :: cs) ++ rest = s ++ after from hText)
        (hLe.antisymm hGe)
      cases hWrites.unique hWrites'
      exact ⟨quotes, rfl, rfl⟩

/-- A piece is read as one token. -/
theorem Begins.next_eq {gap s rest : List Char} {kind : Token.Kind} {text : String}
    (h : Begins gap s rest) (hWrites : Writes s (kind, text)) (offset : Nat) :
    Scan.next ⟨offset, gap ++ (s ++ rest)⟩ =
      (.ok ⟨kind, text, ⟨offset + byteLength gap, offset + byteLength gap + byteLength s⟩⟩,
        ⟨offset + byteLength gap + byteLength s, rest⟩) := by
  have hSkip := h.gap.skipGaps_append (gapLength?_of_writes hWrites h.apart) offset
  cases s with
  | nil => exact absurd hWrites Writes.ne_nil
  | cons c cs =>
      obtain ⟨quotes, hRead, rfl⟩ := h.read_eq hWrites
      have hToken := token_append (offset + byteLength gap) (c :: cs) rest kind quotes
      have hDrop := drop_append (offset + byteLength gap) (c :: cs) rest
      rw [List.cons_append] at hSkip hToken hDrop
      simp only [List.cons_append, Scan.next, hSkip, hRead, hToken, hDrop]
      rfl

/-- A token that is read is a piece, and at the end there is a gap. -/
theorem exists_begins_of_next {s after : Scan} {t : Token} : s.next = (.ok t, after) →
    (t.kind = .eof ∧ IsGap s.rest []) ∨
      ∃ gap spelling, s.rest = gap ++ (spelling ++ after.rest) ∧ Begins gap spelling after.rest ∧
        Writes spelling (t.kind, t.text) ∧ t.span.start = s.offset + byteLength gap ∧
        t.span.stop = t.span.start + byteLength spelling ∧ after.offset = t.span.stop := by
  fun_cases Scan.next s with
  | case1 => rintro ⟨⟩
  | case2 start closed hSkip hClosed hNil =>
      rintro ⟨⟩
      obtain ⟨gap, hText, hGap, -, -⟩ := exists_isGap_of_skipGaps hSkip
      rw [hNil] at hText hGap
      exact .inl ⟨rfl, by rw [hText, List.append_nil]; exact hGap⟩
  | case3 start closed hSkip hClosed first rest hRest kind length quotes hRead =>
      obtain rfl : closed = true := by simpa using hClosed
      obtain ⟨gap, hText, hGap, hOffset, hZero⟩ := exists_isGap_of_skipGaps hSkip
      have hFits := fits_read first rest
      rw [hRead, ← hRest] at hFits
      obtain ⟨⟨spelling, after, hSpelling, rfl, hWrites⟩, hLongest, hBased⟩ := hFits
      rintro ⟨⟩
      have hToken := token_append start.offset spelling after kind quotes
      have hDrop := drop_append start.offset spelling after
      rw [← hSpelling] at hToken hDrop
      rw [hToken, hDrop]
      rw [hSpelling] at hText hGap hZero hBased
      refine .inr ⟨gap, spelling, hText,
        ⟨hGap, not_startsComment_of_gapLength? hZero, ?_, hBased⟩, hWrites, hOffset, rfl, rfl⟩
      exact ⟨List.prefix_append _ _, ⟨_, hWrites⟩, fun s l hStarts hWrites =>
        hLongest s l (hSpelling ▸ hStarts) hWrites⟩
  | case4 => rintro ⟨⟩

/-- A text that has tokens is split into gaps and spellings, with the tokens of these. -/
theorem exists_splits_of_tokens {s : Scan} {ts : List Token} (h : s.tokens = .ok ts) :
    ∃ pieces last, Splits s.rest pieces last ∧ Tokenizes s.offset pieces ts := by
  fun_induction tokens s generalizing ts with
  | case1 => cases h
  | case2 s t after hNext hEnd =>
      cases h
      rcases exists_begins_of_next hNext with ⟨-, hGap⟩ | ⟨gap, spelling, -, -, hWrites, -⟩
      · exact ⟨[], s.rest, .last hGap, .nil⟩
      · exact absurd hEnd hWrites.kind_ne
  | case3 => cases h
  | case4 s t after hNext hEnd _ rest hOk ih =>
      cases h
      obtain ⟨gap, spelling, hText, hPiece, hWrites, hStart, hStop, hAfter⟩ :=
        (exists_begins_of_next hNext).resolve_left fun hLast => hEnd hLast.1
      obtain ⟨pieces, last, hSplits, hTokenizes⟩ := ih hOk
      refine ⟨⟨gap, spelling⟩ :: pieces, last, ?_, ?_⟩
      · rw [hText]
        exact .cons hPiece hSplits
      · exact .cons hStart hStop hWrites (hAfter ▸ hTokenizes)

/-- After the last gap there is the end. -/
theorem IsGap.next_eq {gap : List Char} (h : IsGap gap []) (offset : Nat) :
    Scan.next ⟨offset, gap⟩ =
      (.ok (.atEnd (offset + byteLength gap)), ⟨offset + byteLength gap, []⟩) := by
  have hSkip := h.skipGaps_append rfl offset
  rw [List.append_nil] at hSkip
  rw [Scan.next, hSkip]
  rfl

/-- A text that is split into gaps and spellings has the tokens of these. -/
theorem Splits.tokens_eq_ok {text : List Char} {pieces : List Piece} {last : List Char}
    (h : Splits text pieces last) {offset : Nat} {ts : List Token}
    (hTokens : Tokenizes offset pieces ts) : Scan.tokens ⟨offset, text⟩ = .ok ts := by
  induction h generalizing offset ts with
  | @last gap hGap =>
      cases hTokens
      exact tokens_of_end (hGap.next_eq offset) rfl
  | cons hPiece _ ih =>
      cases hTokens with
      | cons hStart hStop hWrites hRest =>
          subst hStart hStop
          exact tokens_of_next (hPiece.next_eq hWrites offset) hWrites.kind_ne (ih hRest)

/-- A text starts with one gap, up to where no gap goes on. -/
theorem IsGap.unique {gap rest gap' rest' : List Char} (h : IsGap gap rest)
    (h' : IsGap gap' rest') (hRest : gapLength? rest = some 0) (hRest' : gapLength? rest' = some 0)
    (hText : gap ++ rest = gap' ++ rest') : gap = gap' ∧ rest = rest' := by
  have hSkip := h.skipGaps_append hRest 0
  rw [hText, h'.skipGaps_append hRest' 0] at hSkip
  obtain rfl : rest' = rest := congrArg (fun p : Scan × Bool => p.1.rest) hSkip
  exact ⟨List.append_cancel_right hText, rfl⟩

theorem Begins.gapLength?_eq {gap s rest : List Char} (h : Begins gap s rest) :
    gapLength? (s ++ rest) = some 0 := by
  obtain ⟨l, hWrites⟩ := h.longest.writes
  exact gapLength?_of_writes hWrites h.apart

theorem Begins.ne_nil {gap s rest : List Char} (h : Begins gap s rest) : s ++ rest ≠ [] := by
  obtain ⟨l, hWrites⟩ := h.longest.writes
  intro hNil
  rw [(List.append_eq_nil_iff.1 hNil).1] at hWrites
  exact hWrites.ne_nil

/-- A text begins with one gap and one spelling. -/
theorem Begins.unique {gap s rest gap' s' rest' : List Char} (h : Begins gap s rest)
    (h' : Begins gap' s' rest') (hText : gap ++ (s ++ rest) = gap' ++ (s' ++ rest')) :
    gap = gap' ∧ s = s' ∧ rest = rest' := by
  obtain ⟨rfl, hRest⟩ := h.gap.unique h'.gap h.gapLength?_eq h'.gapLength?_eq hText
  obtain ⟨l, hWrites⟩ := h.longest.writes
  obtain ⟨l', hWrites'⟩ := h'.longest.writes
  have hLe := h'.longest.longest s l ⟨rest, hRest⟩ hWrites
  have hGe := h.longest.longest s' l' ⟨rest', hRest.symm⟩ hWrites'
  exact ⟨rfl, List.append_inj hRest (by omega)⟩

/-- A text is split in one way. -/
theorem Splits.unique {text : List Char} {pieces pieces' : List Piece} {last last' : List Char}
    (h : Splits text pieces last) (h' : Splits text pieces' last') :
    pieces = pieces' ∧ last = last' := by
  induction h generalizing pieces' last' with
  | @last gap hGap =>
      generalize hText : gap = text at h' ⊢
      cases h' with
      | last => exact ⟨rfl, rfl⟩
      | cons hPiece =>
          rw [← List.append_nil gap] at hText
          have hRest := (hGap.unique hPiece.gap rfl hPiece.gapLength?_eq hText).2
          exact absurd hRest.symm hPiece.ne_nil
  | @cons gap s rest _ _ hPiece _ ih =>
      generalize hText : gap ++ (s ++ rest) = text at h'
      cases h' with
      | last hGap' =>
          rw [← List.append_nil last'] at hText
          have hRest := (hPiece.gap.unique hGap' hPiece.gapLength?_eq rfl hText).2
          exact absurd hRest hPiece.ne_nil
      | cons hPiece' hRest' =>
          obtain ⟨rfl, rfl, rfl⟩ := hPiece.unique hPiece' hText
          obtain ⟨rfl, rfl⟩ := ih hRest'
          exact ⟨rfl, rfl⟩

/-- A text that has tokens is split, with its tokens from the start on. -/
theorem exists_splits_of_ofText {text : String} {ts : List Token}
    (h : Token.ofText text = .ok ts) :
    ∃ pieces last, Splits text.toList pieces last ∧ Tokenizes 0 pieces ts := by
  rw [Token.ofText_eq] at h
  exact exists_splits_of_tokens h

end Tokens

end WasmCompiler.Lexical
