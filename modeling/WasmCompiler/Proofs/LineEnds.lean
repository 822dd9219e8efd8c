import WasmCompiler.Proofs.DirectivePlaces
import WasmCompiler.Proofs.Scanning

/-! Line ends and the lexer. A text without directives is expanded to its lines, each but the last
ended by a newline. Carriage returns before newlines are lost in this, and the last line end. No
token, no comment and no error depends on them. -/

namespace WasmCompiler

namespace Text

variable {text text' a b s : List Char} {c : Char} {p : Char → Bool}

/-- The second text is the first without carriage returns before newlines, or without some of them,
and perhaps without the newline that ends it. -/
inductive Relines : List Char → List Char → Prop where
  | nil : Relines [] []
  | last : Relines ['\n'] []
  | keep {c : Char} {text text' : List Char} (h : Relines text text') :
      Relines (c :: text) (c :: text')
  | paired {text text' : List Char} (h : Relines ('\n' :: text) text') :
      Relines ('\r' :: '\n' :: text) text'

theorem Relines.refl (text : List Char) : Relines text text := by
  induction text with
  | nil => exact .nil
  | cons c text ih => exact .keep ih

/-- A line that a newline ends keeps all but the carriage return before it. -/
theorem Relines.dropReturn_append (h : Relines ('\n' :: a) b) (line : List Char) :
    Relines (line ++ '\n' :: a) (dropReturn line ++ b) := by
  induction line with
  | nil => exact h
  | cons c line ih =>
      cases line with
      | nil =>
          by_cases hC : c = '\r'
          · subst hC
            exact .paired h
          · have hKeep : dropReturn [c] = [c] := if_neg (by simpa using hC)
            rw [hKeep]
            exact .keep h
      | cons d line =>
          rw [dropReturn_cons (by simp)]
          exact .keep ih

theorem eq_nil_of_lines_eq_nil (h : lines text = []) : text = [] := by
  rcases line_cases text with rfl | ⟨hNe, hLast⟩ | ⟨piece, rest, hPiece, rfl⟩
  · rfl
  · rw [lines_of_notMem hLast hNe] at h
    cases h
  · rw [lines_append_newline hPiece] at h
    cases h

/-- The lines of a text, with newlines between them. -/
theorem relines_lines (text : List Char) : Relines text (['\n'].intercalate (lines text)) := by
  induction hLength : text.length using Nat.strong_induction_on generalizing text with
  | _ length ih =>
      rcases line_cases text with rfl | ⟨hNe, hLast⟩ | ⟨piece, rest, hPiece, rfl⟩
      · exact .nil
      · rw [lines_of_notMem hLast hNe, List.intercalate_singleton]
        exact .refl text
      · have hRest := ih rest.length (by simp at hLength; omega) rest rfl
        rw [lines_append_newline hPiece]
        cases hLines : lines rest with
        | nil =>
            obtain rfl := eq_nil_of_lines_eq_nil hLines
            simpa using Relines.last.dropReturn_append piece
        | cons line others =>
            rw [hLines] at hRest
            simpa using (Relines.keep hRest).dropReturn_append piece

/-- What holds no line end stays at the start of the text. -/
theorem Relines.append (h : Relines (s ++ a) b) (hNewline : '\n' ∉ s)
    (hReturn : s.getLast? ≠ some '\r') : ∃ b', b = s ++ b' ∧ Relines a b' := by
  induction s generalizing b with
  | nil => exact ⟨b, rfl, h⟩
  | cons c s ih =>
      obtain ⟨hC, hRest⟩ := not_or.1 (List.mem_cons.not.1 hNewline)
      rw [List.cons_append] at h
      generalize hText : s ++ a = text at h
      cases h with
      | last => exact absurd rfl hC
      | keep h =>
          subst hText
          have hLast : s.getLast? ≠ some '\r' := by
            cases s with
            | nil => exact nofun
            | cons d s => simpa using hReturn
          obtain ⟨b', rfl, hB⟩ := ih h hRest hLast
          exact ⟨b', rfl, hB⟩
      | paired h =>
          -- The return that is lost would be the last of `s`, or a newline would follow it in `s`.
          cases s with
          | nil => exact absurd rfl hReturn
          | cons d s => exact absurd (List.cons.inj hText).1.symm (List.ne_of_not_mem_cons hRest)

/-- What both texts have in common on one line can be taken off. -/
theorem Relines.of_append (h : Relines a (s ++ b)) (hNewline : '\n' ∉ s) :
    ∃ a', a = s ++ a' ∧ Relines a' b := by
  induction s generalizing a with
  | nil => exact ⟨a, rfl, h⟩
  | cons c s ih =>
      obtain ⟨hC, hRest⟩ := not_or.1 (List.mem_cons.not.1 hNewline)
      cases h with
      | keep h =>
          obtain ⟨a', rfl, hA⟩ := ih h hRest
          exact ⟨a', rfl, hA⟩
      | paired h =>
          cases h with
          | keep => exact absurd rfl hC

/-- A run without line breaks is the same in both texts. -/
theorem Relines.takeWhile (h : Relines a b) (hReturn : p '\r' = false) (hNewline : p '\n' = false) :
    a.takeWhile p = b.takeWhile p ∧ Relines (a.dropWhile p) (b.dropWhile p) := by
  induction h with
  | nil => exact ⟨rfl, .nil⟩
  | last => simp [hNewline, Relines.last]
  | @keep c text text' h ih =>
      cases hC : p c with
      | true => simpa [hC] using ih
      | false => simpa [hC] using h.keep
  | @paired text text' h ih =>
      simp only [List.takeWhile_cons, List.dropWhile_cons, hReturn, hNewline] at ih ⊢
      exact ⟨ih.1, ih.2.paired⟩

/-- The rest of a line can be taken off both texts. -/
theorem Relines.dropWhile_newline (h : Relines a b) :
    Relines (a.dropWhile (· ≠ '\n')) (b.dropWhile (· ≠ '\n')) := by
  induction h with
  | nil => exact .nil
  | last => exact .last
  | @keep c text text' h ih =>
      by_cases hC : c = '\n'
      · simpa [hC] using h.keep
      · simpa [hC] using ih
  | @paired text text' h ih => simpa using ih

end Text

namespace Scan

open Text

variable {a b : List Char}

/-- A comment ends in both texts or in neither, and what follows it is alike. -/
theorem commentEnd?_relines (h : Relines a b) :
    (commentEnd? a = none → commentEnd? b = none) ∧
      ∀ n, commentEnd? a = some n →
        ∃ m, commentEnd? b = some m ∧ Relines (a.drop n) (b.drop m) := by
  fun_induction commentEnd? a generalizing b with
  | case1 rest =>
      obtain ⟨b', rfl, hRest⟩ := @Relines.append _ _ ['*', '/'] h (by decide) (by decide)
      refine ⟨fun hNone => ?_, fun n hN => ?_⟩
      · cases hNone
      · cases hN
        exact ⟨2, rfl, hRest⟩
  | case2 c rest hOpen ih =>
      have hGo {b' : List Char} (hRest : Relines rest b') :
          ((commentEnd? rest).map (· + 1) = none → commentEnd? b' = none) ∧
            ∀ n, (commentEnd? rest).map (· + 1) = some n →
              ∃ m, commentEnd? b' = some m ∧ Relines ((c :: rest).drop n) (b'.drop m) := by
        refine ⟨fun hNone => (ih hRest).1 (Option.map_eq_none_iff.1 hNone), fun n hN => ?_⟩
        obtain ⟨n, hEnd, rfl⟩ := Option.map_eq_some_iff.1 hN
        exact (ih hRest).2 n hEnd
      cases h with
      | last => simp [commentEnd?]
      | @keep _ _ b' h =>
          have hOpen' : ∀ more, c = '*' → b' = '/' :: more → False := by
            rintro more rfl rfl
            obtain ⟨a', rfl, -⟩ := @Relines.of_append _ _ ['/'] h (by decide)
            exact hOpen a' rfl rfl
          rw [commentEnd?.eq_2 _ _ hOpen']
          obtain ⟨hNone, hSome⟩ := hGo h
          refine ⟨fun h => by rw [hNone h]; rfl, fun n hN => ?_⟩
          obtain ⟨m, hM, hDrop⟩ := hSome n hN
          exact ⟨m + 1, by rw [hM]; rfl, hDrop⟩
      | paired h => exact hGo h
  | case3 =>
      cases h
      refine ⟨fun _ => rfl, fun n hN => ?_⟩
      cases hN

/-- What is not blank stays the first character. -/
theorem exists_cons_of_relines {c : Char} {text : List Char} (hC : isBlank c = false)
    (h : Relines (c :: text) b) : ∃ text', b = c :: text' ∧ Relines text text' := by
  cases h with
  | last => cases hC
  | keep h => exact ⟨_, rfl, h⟩
  | paired => cases hC

/-- A comment that is not closed in the first text is not closed in the second. -/
theorem gapLength?_relines_none (h : Relines a b) : gapLength? a = none →
    gapLength? b = none := by
  fun_cases gapLength? a with
  | case1 => rintro ⟨⟩
  | case2 rest =>
      intro hNone
      obtain ⟨b', rfl, hRest⟩ := @Relines.append rest b ['/', '*'] h (by decide) (by decide)
      have hOpen := (commentEnd?_relines hRest).1 (Option.map_eq_none_iff.1 hNone)
      exact Option.map_eq_none_iff.2 hOpen
  | case3 => rintro ⟨⟩
  | case4 => rintro ⟨⟩
  | case5 => rintro ⟨⟩

/-- Where no gap starts in the first text, none starts in the second. -/
theorem gapLength?_relines_zero (h : Relines a b) (hZero : gapLength? a = some 0) :
    gapLength? b = some 0 := by
  cases a with
  | nil =>
      cases h
      rfl
  | cons c rest =>
      have hBlank := isBlank_of_gapLength? hZero
      obtain ⟨b', rfl, hRest⟩ := exists_cons_of_relines hBlank h
      have hApart := Lexical.not_startsComment_of_gapLength? hZero
      have hSecond {d : Char} (hD : d ≠ '\n') {more : List Char} (hMore : b' = d :: more) :
          ∃ more', rest = d :: more' := by
        subst hMore
        obtain ⟨more', hText, -⟩ := @Relines.of_append rest more [d] hRest (by simpa using hD.symm)
        exact ⟨more', hText⟩
      have hLine : ∀ more, c = '/' → b' = '/' :: more → False := by
        rintro more rfl hMore
        obtain ⟨more', rfl⟩ := hSecond (by decide) hMore
        exact hApart (.inl ⟨more', rfl⟩)
      have hBlock : ∀ more, c = '/' → b' = '*' :: more → False := by
        rintro more rfl hMore
        obtain ⟨more', rfl⟩ := hSecond (by decide) hMore
        exact hApart (.inr ⟨more', rfl⟩)
      rw [gapLength?.eq_3 _ _ hLine hBlock, if_neg (by simp [hBlank])]

/-- A blank or comment is skipped in both texts, or it is a part of a line end that only one of them
has. -/
theorem gapLength?_relines_succ {n : Nat} (h : Relines a b) : gapLength? a = some (n + 1) →
    ∃ b', Relines (a.drop (n + 1)) b' ∧
      (b' = b ∨ ∃ m, gapLength? b = some (m + 1) ∧ b' = b.drop (m + 1)) := by
  fun_cases gapLength? a with
  | case1 rest =>
      intro hGap
      obtain ⟨b', rfl, hRest⟩ := @Relines.append rest b ['/', '/'] h (by decide) (by decide)
      have hDrop (text : List Char) : ('/' :: '/' :: text).drop
          (2 + (text.takeWhile (· ≠ '\n')).length) = text.dropWhile (· ≠ '\n') := by
        rw [Nat.add_comm]
        exact drop_length_takeWhile _ text
      have hLength : gapLength? ('/' :: '/' :: b') =
          some (1 + (b'.takeWhile (· ≠ '\n')).length + 1) := by
        rw [gapLength?, Nat.add_right_comm]
      rw [← Option.some.inj hGap, hDrop]
      refine ⟨_, hRest.dropWhile_newline, .inr ⟨_, hLength, ?_⟩⟩
      rw [Nat.add_right_comm]
      exact (hDrop b').symm
  | case2 rest =>
      intro hGap
      obtain ⟨b', rfl, hRest⟩ := @Relines.append rest b ['/', '*'] h (by decide) (by decide)
      obtain ⟨n', hEnd, hN⟩ := Option.map_eq_some_iff.1 hGap
      obtain ⟨m, hM, hDrop⟩ := (commentEnd?_relines hRest).2 n' hEnd
      have hLength : gapLength? ('/' :: '*' :: b') = some (m + 1 + 1) := by
        rw [gapLength?, hM, Option.map_some, Nat.add_comm]
      rw [← hN, Nat.add_comm]
      exact ⟨b'.drop m, hDrop, .inr ⟨m + 1, hLength, rfl⟩⟩
  | case3 c rest _ _ hBlank =>
      rintro ⟨⟩
      cases h with
      | last => exact ⟨[], .nil, .inl rfl⟩
      | keep h => exact ⟨_, h, .inr ⟨0, gapLength?_of_isBlank hBlank _, rfl⟩⟩
      | paired h => exact ⟨_, h, .inl rfl⟩
  | case4 => rintro ⟨⟩
  | case5 => rintro ⟨⟩

/-- The gaps of both texts are skipped alike. -/
theorem skipGaps_relines {s t : Scan} (h : Relines s.rest t.rest) :
    s.skipGaps.2 = t.skipGaps.2 ∧ Relines s.skipGaps.1.rest t.skipGaps.1.rest := by
  fun_induction skipGaps s generalizing t with
  | case1 s hNone =>
      rw [skipGaps_of_none (gapLength?_relines_none h hNone)]
      exact ⟨rfl, h⟩
  | case2 s hZero =>
      rw [skipGaps_of_zero (gapLength?_relines_zero h hZero)]
      exact ⟨rfl, h⟩
  | case3 s count hGap hLess ih =>
      obtain ⟨rest, hRest, rfl | ⟨m, hM, rfl⟩⟩ := gapLength?_relines_succ h hGap
      · -- Only the first scan moves on.
        exact ih hRest
      · rw [skipGaps_of_succ hM]
        exact ih hRest

/-- The same lexeme, or an error with the same cause. -/
def Outcome.Agrees : Outcome → Outcome → Prop
  | .lexeme kind length quotes, o => o = .lexeme kind length quotes
  | .failure error _, o => ∃ length, o = .failure error length

theorem Outcome.Agrees.refl (o : Outcome) : o.Agrees o := by
  cases o with
  | lexeme => rfl
  | failure error length => exact ⟨length, rfl⟩

/-- A string that is not closed on its line. -/
theorem exists_readString_failure {body : List Char}
    (h : ∀ content rest, (∀ c ∈ content, c ≠ '"' ∧ c ≠ '\n') → body ≠ content ++ '"' :: rest) :
    ∃ length, readString body = .failure .unterminatedString length := by
  fun_cases readString body with
  | case1 content rest hRest =>
      rw [drop_length_takeWhile] at hRest
      refine absurd ?_ (h (body.takeWhile fun c => c ≠ '"' && c ≠ '\n') rest fun c hC => ?_)
      · rw [← hRest, List.takeWhile_append_dropWhile]
      · simpa using List.mem_takeWhile_imp hC
  | case2 => exact ⟨_, rfl⟩
  | case3 => exact ⟨_, rfl⟩

/-- A string is read alike, or is not closed in either text. -/
theorem readString_relines (h : Relines a b) : (readString a).Agrees (readString b) := by
  by_cases hClosed : ∃ content rest, (∀ c ∈ content, c ≠ '"' ∧ c ≠ '\n') ∧
      a = content ++ '"' :: rest
  · obtain ⟨content, rest, hContent, rfl⟩ := hClosed
    have hNewline : '\n' ∉ content ++ ['"'] := by
      simpa using fun hMem => (hContent _ hMem).2 rfl
    rw [List.append_cons] at h
    obtain ⟨b', rfl, -⟩ := h.append hNewline (by simp)
    rw [List.append_assoc, List.singleton_append, Lexical.readString_append hContent,
      Lexical.readString_append hContent]
    exact .refl _
  · obtain ⟨length, hA⟩ := exists_readString_failure fun content rest hContent hText =>
      hClosed ⟨content, rest, hContent, hText⟩
    have hOpen (content rest : List Char) (hContent : ∀ c ∈ content, c ≠ '"' ∧ c ≠ '\n') :
        b ≠ content ++ '"' :: rest := by
      rintro rfl
      rw [List.append_cons] at h
      obtain ⟨a', rfl, -⟩ := h.of_append (by simpa using fun hMem => (hContent _ hMem).2 rfl)
      exact hClosed ⟨content, a', hContent, by simp⟩
    obtain ⟨length', hB⟩ := exists_readString_failure hOpen
    rw [hA, hB]
    exact ⟨length', rfl⟩

/-- A number in another base is the same in both texts. -/
theorem readRadix_relines {p : Char → Bool} (hReturn : p '\r' = false) (hNewline : p '\n' = false)
    (error : Token.Error) (h : Relines a b) : readRadix p error a = readRadix p error b := by
  rw [readRadix, readRadix, (h.takeWhile hReturn hNewline).1]

/-- A fraction is the same in both texts. -/
theorem fractionLength_relines (h : Relines a b) : fractionLength a = fractionLength b := by
  by_cases hPoint : ∃ rest, a = '.' :: rest
  · obtain ⟨rest, rfl⟩ := hPoint
    obtain ⟨b', rfl, hRest⟩ := exists_cons_of_relines (by decide) h
    rw [fractionLength, fractionLength, (hRest.takeWhile rfl rfl).1]
  · have hNone : ∀ rest, b ≠ '.' :: rest := by
      rintro rest rfl
      obtain ⟨a', rfl, -⟩ := @Relines.of_append a rest ['.'] h (by decide)
      exact hPoint ⟨a', rfl⟩
    rw [fractionLength.eq_2 _ fun rest hA => hPoint ⟨rest, hA⟩,
      fractionLength.eq_2 _ fun rest hB => hNone rest hB]

theorem isBlank_of_mem_radixMarks {x : Char} (h : x ∈ radixMarks) : isBlank x = false := by
  have hMarks : (radixMarks.all fun x => !isBlank x) = true := by decide
  simpa using List.all_eq_true.1 hMarks x h

/-- A number is the same in both texts. -/
theorem readNumber_relines (h : Relines a b) : readNumber a = readNumber b := by
  by_cases hMark : ∃ x digits, a = '0' :: x :: digits ∧ x ∈ radixMarks
  · obtain ⟨x, digits, rfl, hX⟩ := hMark
    obtain ⟨b, rfl, hTail⟩ := exists_cons_of_relines (by decide) h
    obtain ⟨b, rfl, hDigits⟩ := exists_cons_of_relines (isBlank_of_mem_radixMarks hX) hTail
    simp only [radixMarks, List.mem_cons, List.not_mem_nil, or_false] at hX
    rcases hX with rfl | rfl | rfl | rfl <;> exact readRadix_relines rfl rfl _ hDigits
  · have hPlain (x : Char) (digits : List Char) (hText : b = '0' :: x :: digits) :
        x ∉ radixMarks := by
      intro hX
      subst hText
      have hNewline : '\n' ∉ ['0', x] := by
        rintro (_ | ⟨_, _ | ⟨_, hNil⟩⟩)
        · exact absurd (isBlank_of_mem_radixMarks hX) (by decide)
        · cases hNil
      obtain ⟨a', rfl, -⟩ := @Relines.of_append a digits ['0', x] h hNewline
      exact hMark ⟨x, a', rfl, hX⟩
    obtain ⟨hTake, hDrop⟩ := @Relines.takeWhile a b Char.isDigit h rfl rfl
    rw [readNumber_of_plain fun x digits hText hX => hMark ⟨x, digits, hText, hX⟩,
      readNumber_of_plain hPlain, hTake, fractionLength_relines hDrop]

theorem readName_relines (h : Relines a b) : readName a = readName b := by
  rw [readName, readName, (@Relines.takeWhile a b continuesName h rfl rfl).1]

/-- No mark spans lines. -/
theorem newline_notMem_of_mem_marks {mark : List Char × Token.Kind}
    (h : mark ∈ Token.Kind.marks) : '\n' ∉ mark.1 ∧ mark.1.getLast? ≠ some '\r' := by
  have hMarks : ∀ mark ∈ Token.Kind.marks, '\n' ∉ mark.1 ∧ mark.1.getLast? ≠ some '\r' := by
    decide
  exact hMarks mark h

/-- A mark is the same in both texts. -/
theorem readMark_relines (first : Char) (h : Relines a b) :
    readMark first a = readMark first b := by
  have hStarts (mark : List Char × Token.Kind) (hMark : mark ∈ Token.Kind.marks) :
      mark.1.isPrefixOf a = mark.1.isPrefixOf b := by
    obtain ⟨hNewline, hReturn⟩ := newline_notMem_of_mem_marks hMark
    rw [Bool.eq_iff_iff, List.isPrefixOf_iff_prefix, List.isPrefixOf_iff_prefix]
    constructor
    · rintro ⟨rest, rfl⟩
      obtain ⟨b', rfl, -⟩ := h.append hNewline hReturn
      exact ⟨b', rfl⟩
    · rintro ⟨rest, rfl⟩
      obtain ⟨a', rfl, -⟩ := h.of_append hNewline
      exact ⟨a', rfl⟩
  rw [readMark, readMark, List.find?_congr hStarts]

/-- A token is read alike from both texts. -/
theorem read_relines (first : Char) (h : Relines a b) :
    (read first a).Agrees (read first b) := by
  have hKeep : Relines (first :: a) (first :: b) := .keep h
  rw [read, read, readNumber_relines hKeep, readName_relines hKeep, readMark_relines first hKeep]
  by_cases hQuote : first = '"'
  · rw [if_pos hQuote, if_pos hQuote]
    exact readString_relines h
  · rw [if_neg hQuote, if_neg hQuote]
    exact .refl _

end Scan

namespace Lexical

/-- A number is made of digits, letters and a point. -/
theorem IsNumber.isNamePart {s : List Char} (h : IsNumber s) : ∀ c ∈ s, IsNamePart c ∨ c = '.' := by
  have hDigits {P : Char → Prop} {digits : List Char} (hP : ∀ c, P c → IsNamePart c)
      (hRun : IsRun P digits) : ∀ c ∈ digits, IsNamePart c ∨ c = '.' :=
    fun c hC => .inl (hP c (hRun.all c hC))
  have hZero : IsNamePart '0' := continuesName_iff.1 rfl
  cases h with
  | hex hX hRun =>
      refine List.forall_mem_cons.2 ⟨.inl hZero, List.forall_mem_cons.2 ⟨.inl ?_, ?_⟩⟩
      · rcases hX with rfl | rfl <;> exact continuesName_iff.1 rfl
      · refine hDigits (fun c hC => ?_) hRun
        rcases hC with hDigit | hLower | hUpper
        · exact .inr hDigit
        · exact .inl (.inr (.inl ⟨hLower.1, hLower.2.trans (by decide)⟩))
        · exact .inl (.inr (.inr ⟨hUpper.1, hUpper.2.trans (by decide)⟩))
  | binary hB hRun =>
      refine List.forall_mem_cons.2 ⟨.inl hZero, List.forall_mem_cons.2 ⟨.inl ?_, ?_⟩⟩
      · rcases hB with rfl | rfl <;> exact continuesName_iff.1 rfl
      · refine hDigits (fun c hC => ?_) hRun
        rcases hC with rfl | rfl <;> exact continuesName_iff.1 rfl
  | whole hRun => exact hDigits (fun _ => .inr) hRun
  | point hWhole hFraction =>
      refine List.forall_mem_append.2 ⟨hDigits (fun _ => .inr) hWhole, ?_⟩
      exact List.forall_mem_cons.2 ⟨.inr rfl, hDigits (fun _ => .inr) hFraction⟩

/-- A spelling holds no line end. -/
theorem Writes.newline_notMem {s : List Char} {l : Lexeme} (h : Writes s l) :
    '\n' ∉ s ∧ s.getLast? ≠ some '\r' := by
  have hPart {c : Char} (hC : IsNamePart c ∨ c = '.') : c ≠ '\n' ∧ c ≠ '\r' := by
    rw [← continuesName_iff] at hC
    constructor
    · rintro rfl
      exact absurd hC (by decide)
    · rintro rfl
      exact absurd hC (by decide)
  have hParts {s : List Char} (h : ∀ c ∈ s, IsNamePart c ∨ c = '.') :
      '\n' ∉ s ∧ s.getLast? ≠ some '\r' :=
    ⟨fun hMem => (hPart (h _ hMem)).1 rfl,
      fun hLast => (hPart (h _ (List.mem_of_getLast? hLast))).2 rfl⟩
  cases h with
  | str hContent =>
      refine ⟨by simpa using fun hMem => (hContent _ hMem).2 rfl, ?_⟩
      rw [← List.cons_append, List.getLast?_concat]
      decide
  | number hNumber => exact hParts hNumber.isNamePart
  | word hStart hRest =>
      exact hParts (List.forall_mem_cons.2 ⟨.inl (.inl hStart), fun d hD => .inl (hRest d hD)⟩)
  | name hStart hRest =>
      exact hParts (List.forall_mem_cons.2 ⟨.inl (.inl hStart), fun d hD => .inl (hRest d hD)⟩)
  | mark hMark => exact Scan.newline_notMem_of_mem_marks hMark

end Lexical

namespace Scan

open Text

variable {a b : List Char}

/-- Where no blank and no comment stands, the same spelling is read from both texts, or none for the
same reason. -/
theorem exists_spelling_of_relines (first : Char) (h : Relines a b) :
    (∃ kind quotes spelling rest rest', first :: a = spelling ++ rest ∧
      first :: b = spelling ++ rest' ∧ Relines rest rest' ∧
      read first a = .lexeme kind spelling.length quotes ∧
      read first b = .lexeme kind spelling.length quotes) ∨
    ∃ error length length', read first a = .failure error length ∧
      read first b = .failure error length' := by
  have hAgrees := read_relines first h
  have hFits := Lexical.fits_read first a
  cases hRead : read first a with
  | lexeme kind length quotes =>
      rw [hRead] at hAgrees hFits
      obtain ⟨⟨spelling, rest, hText, rfl, hWrites⟩, -⟩ := hFits
      have hKeep : Relines (first :: a) (first :: b) := .keep h
      rw [hText] at hKeep
      obtain ⟨rest', hText', hRest⟩ :=
        hKeep.append hWrites.newline_notMem.1 hWrites.newline_notMem.2
      exact .inl ⟨kind, quotes, spelling, rest, rest', hText, hText', hRest, rfl, hAgrees⟩
  | failure error length =>
      rw [hRead] at hAgrees
      obtain ⟨length', hFailure⟩ := hAgrees
      exact .inr ⟨error, length, length', rfl, hFailure⟩

section Next

variable {s : Scan} {offset : Nat} {first : Char} {rest : List Char}

/-- A comment that is not closed is an error where it starts. -/
theorem next_of_open {start : Scan} (h : s.skipGaps = (start, false)) :
    s.next = (.error ⟨.unterminatedComment, .point start.offset⟩, start) := by
  rw [next, h]
  rfl

/-- At the end of a text there is the end token. -/
theorem next_of_nil (h : s.skipGaps = (⟨offset, []⟩, true)) :
    s.next = (.ok (Token.atEnd offset), ⟨offset, []⟩) := by
  rw [next, h]
  rfl

/-- A spelling is given as its token, without its quotes, and the scan goes on after it. -/
theorem next_of_lexeme {spelling after : List Char} {kind : Token.Kind} {quotes : Nat}
    (h : s.skipGaps = (⟨offset, first :: rest⟩, true)) (hText : first :: rest = spelling ++ after)
    (hRead : read first rest = .lexeme kind spelling.length quotes) :
    s.next = (.ok ⟨kind, String.ofList ((spelling.take (spelling.length - quotes)).drop quotes),
      ⟨offset, offset + byteLength spelling⟩⟩, ⟨offset + byteLength spelling, after⟩) := by
  rw [next, h]
  simp only [Bool.not_true, Bool.false_eq_true, if_false, hRead]
  rw [hText, Lexical.token_append, Lexical.drop_append]

/-- What cannot be read is an error where it starts. -/
theorem next_of_failure {error : Token.Error} {length : Nat}
    (h : s.skipGaps = (⟨offset, first :: rest⟩, true))
    (hRead : read first rest = .failure error length) :
    s.next = (.error ⟨error, .point offset⟩, drop ⟨offset, first :: rest⟩ length) := by
  rw [next, h]
  simp only [Bool.not_true, Bool.false_eq_true, if_false, hRead]

end Next

/-- The next tokens say the same, or are missing for the same reason, and the texts after them are
alike again. -/
theorem next_relines {s t : Scan} (h : Relines s.rest t.rest) :
    (∃ e e' after after', s.next = (.error e, after) ∧ t.next = (.error e', after') ∧
      e.cause = e'.cause) ∨
    ∃ x x' after after', s.next = (.ok x, after) ∧ t.next = (.ok x', after') ∧
      x.lexeme = x'.lexeme ∧ Relines after.rest after'.rest := by
  obtain ⟨hClosed, hRest⟩ := skipGaps_relines h
  rcases hS : s.skipGaps with ⟨⟨offset, rest⟩, closed⟩
  rcases hT : t.skipGaps with ⟨⟨offset', rest'⟩, closed'⟩
  rw [hS, hT] at hClosed hRest
  simp only at hClosed hRest
  subst hClosed
  cases closed with
  | false => exact .inl ⟨_, _, _, _, next_of_open hS, next_of_open hT, rfl⟩
  | true =>
      obtain ⟨gap, -, -, -, hZero⟩ := Lexical.exists_isGap_of_skipGaps hS
      cases rest with
      | nil =>
          cases hRest
          exact .inr ⟨_, _, _, _, next_of_nil hS, next_of_nil hT, rfl, .nil⟩
      | cons first rest =>
          have hBlank := isBlank_of_gapLength? hZero
          obtain ⟨rest', rfl, hTail⟩ := exists_cons_of_relines hBlank hRest
          rcases exists_spelling_of_relines first hTail with
            ⟨kind, quotes, spelling, after, after', hText, hText', hAfter, hRead, hRead'⟩ |
              ⟨error, length, length', hRead, hRead'⟩
          · exact .inr ⟨_, _, _, _, next_of_lexeme hS hText hRead, next_of_lexeme hT hText' hRead',
              rfl, hAfter⟩
          · exact .inl ⟨_, _, _, _, next_of_failure hS hRead, next_of_failure hT hRead', rfl⟩

/-- Tokens that say the same, or errors with the same cause. -/
inductive Alike : Except (Located Token.Error) (List Token) →
    Except (Located Token.Error) (List Token) → Prop where
  | ok {ts ts' : List Token} (h : ts.map Token.lexeme = ts'.map Token.lexeme) :
      Alike (.ok ts) (.ok ts')
  | error {e e' : Located Token.Error} (h : e.cause = e'.cause) : Alike (.error e) (.error e')

/-- Texts that differ only in their line ends have the same tokens, places apart. -/
theorem tokens_relines {s t : Scan} (h : Relines s.rest t.rest) : Alike s.tokens t.tokens := by
  -- The second text is never the longer one, so the induction is on the length of the first.
  induction hLength : s.rest.length using Nat.strong_induction_on generalizing s t with
  | _ length ih =>
      rw [tokens_eq s, tokens_eq t]
      rcases next_relines h with ⟨e, e', after, after', hS, hT, hCause⟩ |
        ⟨x, x', after, after', hS, hT, hLexeme, hRest⟩
      · rw [hS, hT]
        exact .error hCause
      · have hKind : x.kind = x'.kind := congrArg Prod.fst hLexeme
        rw [hS, hT]
        dsimp only
        rw [← hKind]
        by_cases hEnd : x.kind = .eof
        · rw [if_pos hEnd, if_pos hEnd]
          exact .ok rfl
        · rw [if_neg hEnd, if_neg hEnd]
          have hAlike := ih _ (hLength ▸ next_length_lt hS hEnd) hRest rfl
          revert hAlike
          generalize after.tokens = y
          generalize after'.tokens = y'
          intro hAlike
          cases hAlike with
          | ok hTail => exact .ok (by simp [hLexeme, hTail])
          | error hCause => exact .error hCause

end Scan

section Expansion

variable {files : Files} {active : List String} {name directory : String} {number offset : Nat}
  {lines : List (List Char)}

/-- Lines without directives are expanded to themselves. -/
theorem expandLines_of_plain (h : ∀ line ∈ lines, ¬SourceLine.IsDirective line) :
    ∃ out, expandLines files active name directory number offset lines = .ok out ∧
      out.map (fun line => line.text.toList) = lines := by
  induction lines generalizing number offset with
  | nil => exact ⟨[], by rw [expandLines], rfl⟩
  | cons line lines ih =>
      obtain ⟨hLine, hLines⟩ := List.forall_mem_cons.1 h
      obtain ⟨out, hOut, hTexts⟩ := @ih (number + 1) (offset + byteLength line + 1) hLines
      refine ⟨⟨String.ofList line, ⟨name, number⟩⟩ :: out, ?_, ?_⟩
      · rw [expandLines]
        simp only [SourceLine.ofChars_eq_plain_iff.2 hLine, hOut]
        rfl
      · rw [List.map_cons, hTexts, String.toList_ofList]

end Expansion

/-- Where no line of a text is a directive, the text is expanded, and the lexer does not see it: it
finds the same tokens, or the same error. -/
theorem tokens_of_expansion {text : String}
    (h : ∀ line ∈ Text.lines text.toList, ¬SourceLine.IsDirective line) (files : Files)
    (directory : String) :
    ∃ e, Expansion.ofText files text directory = .ok e ∧
      Scan.Alike (Token.ofText text) (Token.ofText e.text) := by
  obtain ⟨out, hOut, hTexts⟩ := @expandLines_of_plain files [] Expansion.inputName directory 1 0 _ h
  refine ⟨⟨out⟩, ?_, ?_⟩
  · rw [Expansion.ofText_eq, hOut]
    rfl
  · have hRelines := Text.relines_lines text.toList
    rw [← hTexts, ← Expansion.toList_text ⟨out⟩] at hRelines
    rw [Token.ofText_eq, Token.ofText_eq]
    exact Scan.tokens_relines hRelines

/-- A text whose lines end in both ways, in a comment, after a slash and after a string. -/
def pairedText : String := "/* a *\r\n/ */ i32 x;\r\n\r\n_wasm 1 /\r\n/ \"s\rt\"; // #include\r\n"

theorem tokens_of_expansion_paired :
    (∀ line ∈ Text.lines pairedText.toList, ¬SourceLine.IsDirective line) ∧
      ∃ e, Expansion.ofText Source.mixedTree.toFiles pairedText "." = .ok e ∧
        Scan.Alike (Token.ofText pairedText) (Token.ofText e.text) := by
  have hPlain : ∀ line ∈ Text.lines pairedText.toList, SourceLine.ofChars line = .plain := by
    decide
  have hLines (line : List Char) (hLine : line ∈ Text.lines pairedText.toList) :=
    SourceLine.ofChars_eq_plain_iff.1 (hPlain line hLine)
  exact ⟨hLines, tokens_of_expansion hLines Source.mixedTree.toFiles "."⟩

end WasmCompiler
