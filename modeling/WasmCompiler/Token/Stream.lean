import WasmCompiler.Token.Lexer

/-! The tokens of a text. A call of the lexer gives what the scan of its text gives and leaves it
where the scan is, so no call fails and the tokens are those of the scan. -/

namespace WasmCompiler

namespace Scan

variable {s : Scan} {text : String}

/-- The lexer skips the gaps that the scan skips. -/
theorem IsOf.skipGaps?_lexer (h : s.IsOf text) :
    (s.lexer text).skipGaps? = some (s.skipGaps.1.lexer text, s.skipGaps.2) := by
  induction hLength : s.rest.length using Nat.strongRecOn generalizing s with
  | ind length ih =>
    subst hLength
    have hStart := h.drop (s.rest.takeWhile Text.isBlank).length
    have hLe := length_drop_le s (s.rest.takeWhile Text.isBlank).length
    rw [Lexer.skipGaps?_eq, h.gap?_lexer rfl, ← skipGaps_drop_blanks, Option.bind_some]
    generalize s.drop (s.rest.takeWhile Text.isBlank).length = start at hStart hLe
    cases hGap : gapLength? start.rest with
    | none => rw [skipGaps_of_none hGap]
    | some length =>
      cases length with
      | zero => rw [skipGaps_of_zero hGap]
      | succ count =>
        rw [skipGaps_of_succ hGap]
        exact ih _ (Nat.lt_of_lt_of_le (drop_length_lt hGap) hLe) (hStart.drop _) rfl

/-- What a lexer gives where a scan finds a lexeme or an error. -/
def Outcome.answer (s : Scan) (text : String) : Outcome → Lexer.Answer
  | lexeme kind length quotes =>
    (.ok (s.token kind length quotes), (s.drop length).lexer text)
  | failure error length => (.error ⟨error, .point s.offset⟩, (s.drop length).lexer text)

/-- The text between the offsets before and after some characters is these characters. -/
theorem IsOf.between?_drop (h : s.IsOf text) (count : Nat) :
    Text.between? text s.offset (s.drop count).offset =
      some (String.ofList (s.rest.take count)) := by
  obtain ⟨front, hText, hOffset⟩ := h
  rw [← List.take_append_drop count s.rest] at hText
  have hPart := Text.between?_append hText
  rwa [← hOffset] at hPart

/-- The token of what was read has its text and its span. -/
theorem IsOf.token?_drop (h : s.IsOf text) (kind : Token.Kind) (count : Nat) :
    ((s.drop count).lexer text).token? kind s.offset = some (s.token kind count 0) := by
  have hPart : Text.between? ((s.drop count).lexer text).text s.offset
      ((s.drop count).lexer text).offset = _ := h.between?_drop count
  rw [Lexer.token?, hPart]
  rfl

/-- The lexer reads the name that the scan reads. -/
theorem IsOf.name?_lexer (h : s.IsOf text) :
    (s.lexer text).name? = some ((readName s.rest).answer s text) := by
  have hWord := h.between?_drop (s.rest.takeWhile continuesName).length
  rw [take_length_takeWhile] at hWord
  have hPart : Text.between? (s.lexer text).text (s.lexer text).offset
      ((s.drop (s.rest.takeWhile continuesName).length).lexer text).offset = _ := hWord
  have hToken := fun kind => h.token?_drop kind (s.rest.takeWhile continuesName).length
  simp only [Lexer.name?, h.skipWhile?_lexer, hPart, Option.bind_eq_bind, Option.bind_some]
  exact congrArg (Option.bind · _) (hToken _)

/-- After two characters of one byte each, a number is read as far as its digits go. -/
theorem IsOf.radix?_lexer (h : s.IsOf text) {isDigit : Char → Bool} {error : Token.Error}
    {digits : List Char} {base : Char} (hRest : s.rest = '0' :: base :: digits)
    (hBase : base.utf8Size = 1) :
    (s.lexer text).radix? isDigit error =
      some ((readRadix isDigit error digits).answer s text) := by
  have hSkip : (s.lexer text).skip 2 = (s.drop 2).lexer text := by
    rw [lexer_drop, hRest]
    simp only [List.take_succ_cons, List.take_zero, byteLength_cons, hBase]
    rfl
  have hDigits : (s.drop 2).rest = digits := by
    rw [Scan.drop, hRest]
    rfl
  have hOffset (count : Nat) :
      (s.drop (2 + count)).offset = s.offset + 2 + byteLength (digits.take count) := by
    rw [← drop_drop, ← hDigits]
    exact congrArg (· + _) (congrArg Lexer.offset hSkip).symm
  simp only [Lexer.radix?, hSkip, (h.drop 2).skipWhile?_lexer, hDigits, drop_drop,
    Option.bind_eq_bind, Option.bind_some]
  fun_cases readRadix isDigit error digits with
  | case1 hNone =>
    have hStays : ((s.drop (2 + 0)).lexer text).offset = (s.lexer text).offset + 2 := hOffset 0
    rw [hNone, if_pos hStays]
    rfl
  | case2 count hCount =>
    have hSome : 0 < byteLength (digits.take (count + 1)) := by
      cases digits with
      | nil => cases hCount
      | cons c digits => exact Nat.lt_of_lt_of_le c.utf8Size_pos (Nat.le_add_right _ _)
    have hMoves : ((s.drop (2 + (count + 1))).lexer text).offset ≠ (s.lexer text).offset + 2 := by
      have hAfter := hOffset (count + 1)
      simp only [lexer]
      omega
    rw [hCount, if_neg hMoves]
    exact congrArg (Option.bind · _) (h.token?_drop _ _)

/-- A number that starts with the mark of a base is read in that base. -/
theorem IsOf.radix?_lexer_of_prefix (h : s.IsOf text) {isDigit : Char → Bool}
    {error : Token.Error} {base : Char} (hBase : base.utf8Size = 1)
    (hStarts : ['0', base].isPrefixOf s.rest = true)
    (hRead : ∀ digits, readNumber ('0' :: base :: digits) = readRadix isDigit error digits) :
    (s.lexer text).radix? isDigit error = some ((readNumber s.rest).answer s text) := by
  obtain ⟨digits, hPrefix⟩ := List.isPrefixOf_iff_prefix.1 hStarts
  have hRest : s.rest = '0' :: base :: digits := hPrefix.symm
  rw [h.radix?_lexer hRest hBase, hRest, hRead]

/-- A point with a digit after it starts a fraction. -/
theorem fractionLength_of_digit {rest digits : List Char} (hRest : rest = '.' :: digits)
    (hDigit : digits.head?.any Char.isDigit = true) :
    fractionLength rest = 1 + (digits.takeWhile Char.isDigit).length := by
  subst hRest
  cases digits with
  | nil => cases hDigit
  | cons c digits =>
    have hC : c.isDigit = true := hDigit
    rw [fractionLength, List.takeWhile_cons, if_pos hC]
    rfl

/-- A point without a digit after it starts none. -/
theorem fractionLength_of_other {rest digits : List Char} (hRest : rest = '.' :: digits)
    (hDigit : ¬ digits.head?.any Char.isDigit = true) : fractionLength rest = 0 := by
  subst hRest
  cases digits with
  | nil => rfl
  | cons c digits =>
    have hC : ¬ c.isDigit = true := hDigit
    rw [fractionLength, List.takeWhile_cons, if_neg hC]
    rfl

/-- A fraction is read as far as its digits go. -/
theorem IsOf.skipFraction?_lexer (h : s.IsOf text) :
    (s.lexer text).skipFraction? = some ((s.drop (fractionLength s.rest)).lexer text) := by
  simp only [Lexer.skipFraction?, h.peek?_lexer, Option.bind_eq_bind, Option.bind_some]
  by_cases hPoint : s.rest.head? = some '.'
  · obtain ⟨digits, hRest⟩ := List.head?_eq_some_iff.1 hPoint
    have hSkip : (s.lexer text).skip 1 = (s.drop 1).lexer text := skip_lexer hRest
    have hDigits := rest_drop_one hRest
    rw [if_pos hPoint, hSkip, (h.drop 1).peek?_lexer, Option.bind_some, hDigits]
    by_cases hDigit : digits.head?.any Char.isDigit = true
    · rw [if_pos hDigit, (h.drop 1).skipWhile?_lexer, hDigits, drop_drop,
        fractionLength_of_digit hRest hDigit]
    · rw [if_neg hDigit, fractionLength_of_other hRest hDigit]
      rfl
  · have hNone : fractionLength s.rest = 0 :=
      fractionLength.eq_2 s.rest fun digits hRest => hPoint (by rw [hRest]; rfl)
    rw [if_neg hPoint, hNone]
    rfl

/-- The lexer reads the number that the scan reads, or fails as it does. -/
theorem IsOf.number?_lexer (h : s.IsOf text) :
    (s.lexer text).number? = some ((readNumber s.rest).answer s text) := by
  simp only [Lexer.number?, Lexer.startsWithEither?, h.startsWith?_lexer, Option.bind_eq_bind,
    Option.bind_some, Option.pure_def]
  by_cases hHex : (['0', 'x'].isPrefixOf s.rest || ['0', 'X'].isPrefixOf s.rest) = true
  · rw [if_pos hHex]
    rcases Bool.or_eq_true_iff.1 hHex with hLower | hUpper
    · exact h.radix?_lexer_of_prefix rfl hLower fun _ => rfl
    · exact h.radix?_lexer_of_prefix rfl hUpper fun _ => rfl
  rw [if_neg hHex]
  by_cases hBinary : (['0', 'b'].isPrefixOf s.rest || ['0', 'B'].isPrefixOf s.rest) = true
  · rw [if_pos hBinary]
    rcases Bool.or_eq_true_iff.1 hBinary with hLower | hUpper
    · exact h.radix?_lexer_of_prefix rfl hLower fun _ => rfl
    · exact h.radix?_lexer_of_prefix rfl hUpper fun _ => rfl
  have hPlain : ∀ x digits, s.rest = '0' :: x :: digits → x ∉ radixMarks := by
    intro x digits hRest hX
    simp only [radixMarks, List.mem_cons, List.not_mem_nil, or_false] at hX
    rw [hRest] at hHex hBinary
    rcases hX with rfl | rfl | rfl | rfl
    · exact hHex rfl
    · exact hHex rfl
    · exact hBinary rfl
    · exact hBinary rfl
  rw [if_neg hBinary, readNumber_of_plain hPlain]
  simp only [h.skipWhile?_lexer, (h.drop _).skipFraction?_lexer, rest_drop_takeWhile, drop_drop,
    Option.bind_some]
  exact congrArg (Option.bind · _) (h.token?_drop _ _)

/-- A search whose tests all succeed finds what the plain search finds. -/
theorem findM?_eq_some_find? {α : Type} {test? : α → Option Bool} {test : α → Bool}
    (h : ∀ a, test? a = some (test a)) (as : List α) : as.findM? test? = some (as.find? test) := by
  induction as with
  | nil => rfl
  | cons a as ih =>
    rw [List.findM?, h, List.find?_cons]
    cases test a with
    | false => exact ih
    | true => rfl

/-- The lexer reads the mark that the scan reads, or fails as it does. -/
theorem IsOf.mark?_lexer (h : s.IsOf text) {first : Char} {rest : List Char}
    (hRest : s.rest = first :: rest) :
    (s.lexer text).mark? = some ((readMark first s.rest).answer s text) := by
  have hFindM := findM?_eq_some_find? fun mark : List Char × Token.Kind =>
    h.startsWith?_lexer mark.1
  simp only [Lexer.mark?, readMark, hFindM, h.peek?_lexer, Option.bind_eq_bind, Option.bind_some]
  cases hFind : Token.Kind.marks.find? fun mark => mark.1.isPrefixOf s.rest with
  | none =>
    rw [hRest]
    rfl
  | some mark =>
    have hStarts := List.find?_some hFind
    have hPrefix : mark.1 <+: s.rest := List.isPrefixOf_iff_prefix.1 hStarts
    have hSkip : (s.lexer text).skip (byteLength mark.1) = (s.drop mark.1.length).lexer text := by
      rw [lexer_drop, ← List.prefix_iff_eq_take.1 hPrefix]
    simp only [hSkip]
    exact congrArg (Option.bind · _) (h.token?_drop _ _)

/-- The number of characters up to the quote that closes a string, and whether there is one. -/
def stringEnd : List Char → Nat × Bool
  | [] => (0, false)
  | c :: rest =>
    if c = '"' then (1, true)
    else if c = '\n' then (1, false)
    else ((stringEnd rest).1 + 1, (stringEnd rest).2)

theorem readString_cons {c : Char} {rest : List Char} (hQuote : c ≠ '"') (hNewline : c ≠ '\n') :
    readString (c :: rest) = match readString rest with
      | .lexeme kind length quotes => .lexeme kind (length + 1) quotes
      | .failure error length => .failure error (length + 1) := by
  have hTest : (decide (c ≠ '"') && decide (c ≠ '\n')) = true := by simp [hQuote, hNewline]
  simp only [readString, List.takeWhile_cons, hTest, if_true, List.length_cons,
    List.drop_succ_cons]
  cases rest.drop (rest.takeWhile fun c => c ≠ '"' && c ≠ '\n').length with
  | nil => rfl
  | cons d more =>
    by_cases hEnd : d = '"'
    · subst hEnd
      rfl
    · simp

/-- A string is read up to where it is closed, and fails where it is broken. -/
theorem readString_eq (body : List Char) : readString body =
    if (stringEnd body).2 then .lexeme .str ((stringEnd body).1 + 1) 1
    else .failure .unterminatedString ((stringEnd body).1 + 1) := by
  induction body with
  | nil => rfl
  | cons c rest ih =>
    by_cases hQuote : c = '"'
    · subst hQuote
      rfl
    by_cases hNewline : c = '\n'
    · subst hNewline
      rfl
    rw [readString_cons hQuote hNewline, ih, stringEnd, if_neg hQuote, if_neg hNewline]
    cases (stringEnd rest).2 with
    | false => rfl
    | true => rfl

/-- A string that is closed is closed by a quote. -/
theorem exists_quote_of_stringEnd {body : List Char} (h : (stringEnd body).2 = true) :
    ∃ content, (stringEnd body).1 = content + 1 ∧ body[content]? = some '"' := by
  induction body with
  | nil => cases h
  | cons c rest ih =>
    by_cases hQuote : c = '"'
    · subst hQuote
      exact ⟨0, rfl, rfl⟩
    by_cases hNewline : c = '\n'
    · subst hNewline
      cases h
    rw [stringEnd, if_neg hQuote, if_neg hNewline] at h ⊢
    obtain ⟨content, hContent, hAt⟩ := ih h
    exact ⟨content + 1, congrArg (· + 1) hContent, hAt⟩

/-- The search for the quote that closes a string ends after it, or after the newline or at the end
that comes before. -/
theorem IsOf.closeString?_lexer (h : s.IsOf text) : (s.lexer text).closeString? =
    some ((s.drop (stringEnd s.rest).1).lexer text, (stringEnd s.rest).2) := by
  induction hRest : s.rest generalizing s with
  | nil =>
    have hPeek := h.peek?_lexer
    rw [hRest] at hPeek
    exact Lexer.closeString?_of_nil hPeek
  | cons c rest ih =>
    have hPeek := h.peek?_lexer
    rw [hRest] at hPeek
    rw [Lexer.closeString?_of_cons hPeek, skip_lexer hRest, stringEnd]
    by_cases hQuote : c = '"'
    · rw [if_pos hQuote, if_pos hQuote]
    by_cases hNewline : c = '\n'
    · rw [if_neg hQuote, if_neg hQuote, if_pos hNewline, if_pos hNewline]
    rw [if_neg hQuote, if_neg hQuote, if_neg hNewline, if_neg hNewline,
      ih (h.drop 1) (rest_drop_one hRest), drop_drop, Nat.add_comm]

/-- The lexer reads the string that the scan reads, or fails as it does. -/
theorem IsOf.string?_lexer (h : s.IsOf text) {body : List Char} (hRest : s.rest = '"' :: body) :
    (s.lexer text).string? = some ((readString body).answer s text) := by
  have hSkip : (s.lexer text).skip 1 = (s.drop 1).lexer text := skip_lexer hRest
  have hBody : (s.drop 1).rest = body := rest_drop_one hRest
  simp only [Lexer.string?, hSkip, (h.drop 1).closeString?_lexer, hBody, drop_drop,
    Option.bind_eq_bind, Option.bind_some, readString_eq]
  cases hClosed : (stringEnd body).2 with
  | false =>
    rw [Nat.add_comm]
    rfl
  | true =>
    obtain ⟨content, hLength, hQuote⟩ := exists_quote_of_stringEnd hClosed
    -- the quote is one byte long, so the offset before it is one less than the one after it
    have hStop : ((s.drop (content + 1 + 1)).lexer text).offset - 1 =
        ((s.drop 1).drop content).offset := by
      change (s.drop (content + 1 + 1)).offset - 1 = _
      rw [Nat.add_comm _ 1, ← drop_drop, offset_drop _ (content + 1), offset_drop _ content, hBody,
        List.take_add_one, hQuote, byteLength_append]
      rfl
    have hPart := (h.drop 1).between?_drop content
    rw [← hStop, hBody] at hPart
    have hToken : s.token .str (content + 1 + 1) 1 = ⟨.str, String.ofList (body.take content),
        ⟨s.offset, (s.drop (content + 1 + 1)).offset⟩⟩ := by
      rw [token, hRest]
      rfl
    rw [hLength, if_pos rfl, if_pos rfl, Outcome.answer, hToken, Nat.add_comm 1]
    exact congrArg (Option.bind · _) hPart

/-- The lexer reads what the scan reads, or fails as it does. -/
theorem IsOf.read?_lexer (h : s.IsOf text) {first : Char} {rest : List Char}
    (hRest : s.rest = first :: rest) :
    (s.lexer text).read? = some ((read first rest).answer s text) := by
  rw [Lexer.read?, h.peek?_lexer, hRest, List.head?_cons]
  simp only [Option.bind_eq_bind, Option.bind_some]
  fun_cases read first rest with
  | case1 hQuote =>
    subst hQuote
    exact h.string?_lexer hRest
  | case2 hQuote hDigit =>
    rw [if_neg hQuote, if_pos hDigit, h.number?_lexer, hRest]
  | case3 hQuote hDigit hName =>
    rw [if_neg hQuote, if_neg hDigit, if_pos hName, h.name?_lexer, hRest]
  | case4 hQuote hDigit hName =>
    rw [if_neg hQuote, if_neg hDigit, if_neg hName, h.mark?_lexer hRest, hRest]

theorem IsOf.skipGaps (h : s.IsOf text) : s.skipGaps.1.IsOf text := by
  fun_induction Scan.skipGaps s with
  | case1 => exact h
  | case2 => exact h
  | case3 s count _ _ ih => exact ih (h.drop _)

/-- A scan has nothing left exactly at the end of the text. -/
theorem IsOf.utf8ByteSize_le_iff (h : s.IsOf text) :
    text.utf8ByteSize ≤ s.offset ↔ s.rest = [] := by
  obtain ⟨front, hText, hOffset⟩ := h
  rw [utf8ByteSize_eq_byteLength, hText, byteLength_append, hOffset]
  cases s.rest with
  | nil => simp
  | cons c rest =>
    have hPos := c.utf8Size_pos
    simp only [byteLength_cons, List.cons_ne_nil, iff_false]
    omega

/-- A lexer gives what the scan gives, and goes to where the scan goes. -/
theorem IsOf.next?_lexer (h : s.IsOf text) :
    (s.lexer text).next? = some (s.next.1, s.next.2.lexer text) := by
  have hStart := h.skipGaps
  have hEnd := hStart.utf8ByteSize_le_iff
  simp only [Lexer.next?, h.skipGaps?_lexer, Option.bind_eq_bind, Option.bind_some]
  fun_cases next s with
  | case1 start closed hSkip hClosed =>
    rw [hSkip, if_pos hClosed]
    rfl
  | case2 start closed hSkip hClosed hNil =>
    rw [hSkip] at hEnd
    rw [hSkip, if_neg hClosed]
    exact if_pos (hEnd.2 hNil)
  | case3 start closed hSkip hClosed first rest hCons kind length quotes hRead =>
    rw [hSkip] at hStart hEnd
    rw [hSkip, if_neg hClosed, hStart.read?_lexer hCons, hRead]
    exact if_neg fun hLe => by cases hCons.symm.trans (hEnd.1 hLe)
  | case4 start closed hSkip hClosed first rest hCons error length hRead =>
    rw [hSkip] at hStart hEnd
    rw [hSkip, if_neg hClosed, hStart.read?_lexer hCons, hRead]
    exact if_neg fun hLe => by cases hCons.symm.trans (hEnd.1 hLe)

/-- What a call of the lexer gives is what the scan gives there. -/
theorem IsOf.next_of_next?_lexer (h : s.IsOf text)
    {result : Except (Located Token.Error) Token} {after : Lexer}
    (hNext : (s.lexer text).next? = some (result, after)) :
    s.next = (result, s.next.2) ∧ s.next.2.lexer text = after := by
  obtain ⟨hResult, hAfter⟩ := Prod.mk.inj (Option.some.inj (h.next?_lexer.symm.trans hNext))
  exact ⟨Prod.ext hResult rfl, hAfter⟩

/-- A scan of a text stays one after each call. -/
theorem IsOf.next (h : s.IsOf text) : s.next.2.IsOf text := by
  have hStart := h.skipGaps
  fun_cases Scan.next s with
  | case1 start closed hSkip hClosed =>
    rw [hSkip] at hStart
    exact hStart
  | case2 start closed hSkip hClosed hNil =>
    rw [hSkip] at hStart
    exact hStart
  | case3 start closed hSkip hClosed first rest hCons kind length quotes hRead =>
    rw [hSkip] at hStart
    exact hStart.drop _
  | case4 start closed hSkip hClosed first rest hCons error length hRead =>
    rw [hSkip] at hStart
    exact hStart.drop _

end Scan

namespace Lexer

open Scan

/-- A lexer that gives an answer is where a scan of the text is. -/
theorem exists_isOf_of_next? {l : Lexer} {answer : Answer} (h : l.next? = some answer) :
    ∃ s : Scan, s.IsOf l.text ∧ s.lexer l.text = l := by
  cases hGap : l.gap? with
  | none =>
    rw [next?, skipGaps?_eq, hGap] at h
    cases h
  | some turn => exact exists_isOf_of_gap? hGap

/-- Every token but the last shortens what is left. -/
theorem left_lt_of_next? {l after : Lexer} {t : Token} (h : l.next? = some (.ok t, after))
    (hKind : t.kind ≠ .eof) : after.left < l.left := by
  obtain ⟨s, hIsOf, hLexer⟩ := exists_isOf_of_next? h
  rw [← hLexer] at h
  obtain ⟨hNext, rfl⟩ := hIsOf.next_of_next?_lexer h
  have hLeft := hIsOf.left_lt hIsOf.next (next_length_lt hNext hKind)
  rwa [hLexer] at hLeft

/-- The tokens up to the end of the text, without the token that stands for the end. -/
def tokens? (l : Lexer) : Option (Except (Located Token.Error) (List Token)) :=
  match h : l.next? with
  | none => none
  | some (.error e, _) => some (.error e)
  | some (.ok t, after) =>
    if hKind : t.kind = .eof then some (.ok [])
    else
      have := left_lt_of_next? h hKind
      (tokens? after).map fun rest => rest.map (t :: ·)
termination_by l.left

end Lexer

/-- The tokens of a lexer are those of the scan. -/
theorem Scan.IsOf.tokens?_lexer {s : Scan} {text : String} (h : s.IsOf text) :
    (s.lexer text).tokens? = some s.tokens := by
  induction hLength : s.rest.length using Nat.strongRecOn generalizing s with
  | ind length ih =>
    subst hLength
    rw [tokens_eq]
    fun_cases Lexer.tokens? (s.lexer text) with
    | case1 hNone => cases h.next?_lexer.symm.trans hNone
    | case2 e after hError =>
      obtain ⟨hNext, -⟩ := h.next_of_next?_lexer hError
      rw [hNext]
    | case3 t after hToken hEnd =>
      obtain ⟨hNext, -⟩ := h.next_of_next?_lexer hToken
      rw [hNext]
      exact congrArg some (if_pos hEnd).symm
    | case4 t after hToken hMore =>
      obtain ⟨hNext, rfl⟩ := h.next_of_next?_lexer hToken
      rw [ih _ (next_length_lt hNext hMore) h.next rfl, hNext]
      exact congrArg some (if_neg hMore).symm

/-- The tokens of a text. -/
def Token.ofText (text : String) : Except (Located Token.Error) (List Token) :=
  (Lexer.ofText text).tokens?.get (by
    have hTokens : (Lexer.ofText text).tokens? = _ := (Scan.isOf_ofText text).tokens?_lexer
    rw [hTokens]
    rfl)

/-- The tokens of a text are those of its scan. -/
theorem Token.ofText_eq (text : String) : Token.ofText text = (Scan.ofText text).tokens := by
  have hTokens : (Lexer.ofText text).tokens? = _ := (Scan.isOf_ofText text).tokens?_lexer
  simp only [Token.ofText, hTokens, Option.get_some]

end WasmCompiler
