import Mathlib
import WasmCompiler.Proofs.Positions
import WasmCompiler.Proofs.Scanning

/-! Calls of the lexer one after the other. A call skips a gap, and then it comes to a spelling, to
the end of the text or to something that is no token. What it does then is said in full, so that the
next call can start wherever it leaves off, also after an error. -/

namespace WasmCompiler

/-- Whether an error is met again by the next call, because nothing of it is passed. -/
def Token.Error.isLasting : Token.Error → Bool
  | .unterminatedComment | .unrecognized _ => true
  | .unterminatedString | .noHexDigit | .noBinaryDigit => false

namespace Lexical

/-- What is no token: the part of it that is passed, and the text after this part. -/
inductive Fails : Token.Error → List Char → List Char → Prop where
  | comment {body : List Char} (hOpen : ¬ ['*', '/'] <:+: body) :
      Fails .unterminatedComment [] ('/' :: '*' :: body)
  | line {content rest : List Char} (hContent : ∀ c ∈ content, c ≠ '"' ∧ c ≠ '\n') :
      Fails .unterminatedString ('"' :: (content ++ ['\n'])) rest
  | finish {content : List Char} (hContent : ∀ c ∈ content, c ≠ '"' ∧ c ≠ '\n') :
      Fails .unterminatedString ('"' :: content) []
  | hex {x : Char} {rest : List Char} (hX : x = 'x' ∨ x = 'X')
      (hNone : ∀ c ∈ rest.head?, ¬ IsHexDigit c) : Fails .noHexDigit ['0', x] rest
  | binary {b : Char} {rest : List Char} (hB : b = 'b' ∨ b = 'B')
      (hNone : ∀ c ∈ rest.head?, ¬ IsBinaryDigit c) : Fails .noBinaryDigit ['0', b] rest
  | symbol {c : Char} {rest : List Char} (hBlank : Text.isBlank c = false)
      (hNone : ∀ cs l, ¬ Writes (c :: cs) l) : Fails (.unrecognized c) [] (c :: rest)

/-- What one call gives, and the scan that it leaves. -/
inductive Call : Scan → Except (Located Token.Error) Token → Scan → Prop where
  | finish {offset : Nat} {gap : List Char} (hGap : IsGap gap []) :
      Call ⟨offset, gap⟩ (.ok (.atEnd (offset + byteLength gap))) ⟨offset + byteLength gap, []⟩
  | token {offset : Nat} {gap s rest : List Char} {kind : Token.Kind} {text : String}
      (hPiece : Begins gap s rest) (hWrites : Writes s (kind, text)) :
      Call ⟨offset, gap ++ (s ++ rest)⟩
        (.ok ⟨kind, text, ⟨offset + byteLength gap, offset + byteLength gap + byteLength s⟩⟩)
        ⟨offset + byteLength gap + byteLength s, rest⟩
  | failure {offset : Nat} {gap passed rest : List Char} {error : Token.Error}
      (hGap : IsGap gap (passed ++ rest)) (hFails : Fails error passed rest) :
      Call ⟨offset, gap ++ (passed ++ rest)⟩ (.error ⟨error, .point (offset + byteLength gap)⟩)
        ⟨offset + byteLength gap + byteLength passed, rest⟩

section Failures

open Scan

/-- A comment does not end exactly where its end mark does not stand. -/
theorem commentEnd?_eq_none_iff {text : List Char} :
    commentEnd? text = none ↔ ¬ ['*', '/'] <:+: text := by
  fun_induction commentEnd? text with
  | case1 rest => simpa using ⟨[], rest, rfl⟩
  | case2 c rest hOpen ih =>
      rw [Option.map_eq_none_iff, ih, List.infix_cons_iff, not_or]
      refine (and_iff_right ?_).symm
      rintro ⟨back, hBack⟩
      cases hBack
      exact hOpen _ rfl rfl
  | case3 => simp

/-- The length of a gap is missing only for a comment that is not closed. -/
theorem exists_of_gapLength?_eq_none {text : List Char} : gapLength? text = none →
    ∃ body, text = '/' :: '*' :: body ∧ ¬ ['*', '/'] <:+: body := by
  fun_cases gapLength? text with
  | case1 => rintro ⟨⟩
  | case2 body =>
      exact fun h => ⟨_, rfl, commentEnd?_eq_none_iff.1 (Option.map_eq_none_iff.1 h)⟩
  | case3 => rintro ⟨⟩
  | case4 => rintro ⟨⟩
  | case5 => rintro ⟨⟩

/-- A string fails where it is not closed on its line, and that much is passed. -/
theorem fails_of_readString {body : List Char} {error : Token.Error} {length : Nat} :
    readString body = .failure error length →
      ∃ passed rest, '"' :: body = passed ++ rest ∧ passed.length = length ∧
        Fails error passed rest := by
  have hContent : ∀ c ∈ body.takeWhile fun c => c ≠ '"' && c ≠ '\n', c ≠ '"' ∧ c ≠ '\n' :=
    fun c hC => by simpa using List.mem_takeWhile_imp hC
  have hParts := body.takeWhile_append_dropWhile (p := fun c => c ≠ '"' && c ≠ '\n')
  have hStop := List.head?_dropWhile_not (fun c => c ≠ '"' && c ≠ '\n') body
  rw [← drop_length_takeWhile] at hParts hStop
  fun_cases readString body with
  | case1 => rintro ⟨⟩
  | case2 content c rest hQuote hRest =>
      rintro ⟨⟩
      rw [hRest] at hParts hStop
      have hNewline : ¬c = '"' → c = '\n' := by simpa using hStop
      obtain rfl := hNewline hQuote
      have hText := congrArg ('"' :: ·) hParts.symm
      exact ⟨_, rest, hText.trans (by simp), by simp [content], .line hContent⟩
  | case3 content hRest =>
      rintro ⟨⟩
      rw [hRest] at hParts
      have hText := congrArg ('"' :: ·) hParts.symm
      exact ⟨_, [], hText, by simp [content], .finish hContent⟩

theorem head_of_takeWhile_eq_zero {p : Char → Bool} {P : Char → Prop}
    (hP : ∀ {c}, p c = true ↔ P c) {cs : List Char} (h : (cs.takeWhile p).length = 0) :
    ∀ c ∈ cs.head?, ¬ P c := by
  cases cs with
  | nil => simp
  | cons c cs =>
      by_cases hC : p c = true
      · simp [List.takeWhile_cons_of_pos hC] at h
      · simpa using mt hP.2 hC

/-- The mark of a base without a digit, given the class of its digits. -/
theorem fails_of_readRadix {p : Char → Bool} {P : Char → Prop} (hP : ∀ {c}, p c = true ↔ P c)
    {x : Char} {wrong error : Token.Error} {digits : List Char} {length : Nat}
    (hFails : (∀ c ∈ digits.head?, ¬ P c) → Fails wrong ['0', x] digits) :
    readRadix p wrong digits = .failure error length →
      ∃ passed rest, '0' :: x :: digits = passed ++ rest ∧ passed.length = length ∧
        Fails error passed rest := by
  fun_cases readRadix p wrong digits with
  | case1 hZero =>
      rintro ⟨⟩
      exact ⟨['0', x], digits, rfl, rfl, hFails (head_of_takeWhile_eq_zero hP hZero)⟩
  | case2 => rintro ⟨⟩

/-- A number fails where a mark of a base has no digit after it. -/
theorem fails_of_readNumber {text : List Char} {error : Token.Error} {length : Nat} :
    readNumber text = .failure error length →
      ∃ passed rest, text = passed ++ rest ∧ passed.length = length ∧ Fails error passed rest := by
  fun_cases readNumber text with
  | case1 => exact fails_of_readRadix isHexDigit_iff (.hex (.inl rfl))
  | case2 => exact fails_of_readRadix isHexDigit_iff (.hex (.inr rfl))
  | case3 => exact fails_of_readRadix isBinaryDigit_iff (.binary (.inl rfl))
  | case4 => exact fails_of_readRadix isBinaryDigit_iff (.binary (.inr rfl))
  | case5 => rintro ⟨⟩

/-- If no mark is found, then none starts with the character: each mark of two characters starts
with one that is a mark of its own. -/
theorem readMark_eq_failure {c : Char} {rest : List Char} {error : Token.Error} {length : Nat}
    (h : readMark c (c :: rest) = .failure error length) :
    error = .unrecognized c ∧ length = 0 ∧ ∀ cs kind, (c :: cs, kind) ∉ Token.Kind.marks := by
  rw [readMark] at h
  cases hFind : Token.Kind.marks.find? fun mark => mark.1.isPrefixOf (c :: rest) with
  | some mark =>
      rw [hFind] at h
      cases h
  | none =>
      rw [hFind] at h
      cases h
      refine ⟨rfl, rfl, fun cs kind hMem => ?_⟩
      have hAlone : ∀ mark ∈ Token.Kind.marks, ∃ mark' ∈ Token.Kind.marks,
          mark'.1 = mark.1.take 1 := by decide
      obtain ⟨mark, hMark, hTake⟩ := hAlone _ hMem
      have hStarts := List.find?_eq_none.1 hFind mark hMark
      simp [hTake] at hStarts

/-- What is read as no token is none by the grammar. -/
theorem fails_of_read {first : Char} {rest : List Char} {error : Token.Error} {length : Nat}
    (hBlank : Text.isBlank first = false) : Scan.read first rest = .failure error length →
      ∃ passed after, first :: rest = passed ++ after ∧ passed.length = length ∧
        Fails error passed after := by
  fun_cases Scan.read first rest with
  | case1 hQuote =>
      rw [hQuote]
      exact fails_of_readString
  | case2 => exact fails_of_readNumber
  | case3 => rintro ⟨⟩
  | case4 hQuote hDigit hName =>
      intro h
      obtain ⟨rfl, rfl, hNone⟩ := readMark_eq_failure h
      refine ⟨[], first :: rest, rfl, rfl, .symbol hBlank fun cs l hWrites => ?_⟩
      exact hNone cs l.1 (hWrites.of_mark hQuote (mt isDigit_iff.2 hDigit)
        (mt startsName_iff.2 hName)).1

end Failures

section Calls

open Scan

/-- A call that fails does so after a gap, and leaves the text after what it passes. -/
theorem call_of_next_error {s after : Scan} {e : Located Token.Error} :
    s.next = (.error e, after) → Call s (.error e) after := by
  fun_cases Scan.next s with
  | case1 start closed hSkip hClosed =>
      intro h
      obtain ⟨gap, hText, hGap, hOffset, hEnd⟩ := exists_isGap_of_skipGaps hSkip
      obtain ⟨offset, text⟩ := s
      obtain ⟨stop, rest⟩ := start
      simp only at hText hGap hOffset hEnd
      subst hText hOffset
      rw [if_neg (by simpa using hClosed)] at hEnd
      obtain ⟨body, rfl, hOpen⟩ := exists_of_gapLength?_eq_none hEnd
      cases h
      exact .failure hGap (.comment hOpen)
  | case2 => rintro ⟨⟩
  | case3 => rintro ⟨⟩
  | case4 start closed hSkip hClosed first rest hRest error length hRead =>
      intro h
      obtain ⟨gap, hText, hGap, hOffset, hEnd⟩ := exists_isGap_of_skipGaps hSkip
      obtain ⟨offset, text⟩ := s
      obtain ⟨stop, startRest⟩ := start
      simp only at hText hGap hOffset hEnd hRest
      subst hText hOffset hRest
      rw [if_pos (by simpa using hClosed)] at hEnd
      obtain ⟨passed, rest', hText, rfl, hFails⟩ :=
        fails_of_read (isBlank_of_gapLength? hEnd) hRead
      rw [hText] at h hGap ⊢
      rw [drop_append] at h
      cases h
      exact .failure hGap hFails

/-- Each call of the lexer is one of the calls that the rules describe. -/
theorem call_of_next {s after : Scan} {r : Except (Located Token.Error) Token}
    (h : s.next = (r, after)) : Call s r after := by
  cases r with
  | error e => exact call_of_next_error h
  | ok t =>
      obtain ⟨offset, text⟩ := s
      rcases exists_begins_of_next h with ⟨-, hGap⟩ | ⟨gap, spelling, hText, hPiece, hWrites,
        hStart, hStop, hAfter⟩
      · rw [hGap.next_eq] at h
        cases h
        exact .finish hGap
      · obtain ⟨stop, rest⟩ := after
        obtain ⟨kind, word, start, finish⟩ := t
        simp only at hText hStart hStop hAfter
        subst hText hAfter hStop hStart
        exact .token hPiece hWrites

/-- Nothing is passed exactly where the error lasts. -/
theorem Fails.passed_eq_nil_iff {error : Token.Error} {passed rest : List Char}
    (h : Fails error passed rest) : passed = [] ↔ error.isLasting = true := by
  cases h <;> simp [Token.Error.isLasting]

/-- A character that starts no spelling is read as such. -/
theorem read_of_not_writes {c : Char} (rest : List Char) (hBlank : Text.isBlank c = false)
    (hNone : ∀ cs l, ¬ Writes (c :: cs) l) : Scan.read c rest = .failure (.unrecognized c) 0 := by
  have hFits := fits_read c rest
  cases hRead : Scan.read c rest with
  | lexeme kind length quotes =>
      rw [hRead] at hFits
      obtain ⟨⟨s, after, hText, -, hWrites⟩, -⟩ := hFits
      cases s with
      | nil => exact absurd hWrites Writes.ne_nil
      | cons d ds =>
          cases hText
          exact absurd hWrites (hNone ds _)
  | failure error length =>
      obtain ⟨passed, after, hText, rfl, hFails⟩ := fails_of_read hBlank hRead
      -- The first characters of the other failures start spellings.
      have hZero : Writes ['0'] (.number, "0") := .number (.whole ⟨by simp, by simp [IsDigit]⟩)
      have hQuotes : Writes ['"', '"'] (.str, "") := @Writes.str [] (by simp)
      cases hFails with
      | symbol =>
          cases hText
          rfl
      | comment =>
          cases hText
          exact absurd (.mark (by decide)) (hNone [] (.slash, "/"))
      | line =>
          cases hText
          exact absurd hQuotes (hNone ['"'] _)
      | finish =>
          cases hText
          exact absurd hQuotes (hNone ['"'] _)
      | hex =>
          cases hText
          exact absurd hZero (hNone [] _)
      | binary =>
          cases hText
          exact absurd hZero (hNone [] _)

/-- An error that lasts is met where it is. -/
theorem Fails.next_eq {error : Token.Error} {rest : List Char} (h : Fails error [] rest)
    (offset : Nat) :
    Scan.next ⟨offset, rest⟩ = (.error ⟨error, .point offset⟩, ⟨offset, rest⟩) := by
  cases h with
  | @comment body hOpen =>
      have hNone : gapLength? ('/' :: '*' :: body) = none := by
        rw [gapLength?, commentEnd?_eq_none_iff.2 hOpen]
        rfl
      rw [Scan.next, skipGaps_of_none hNone]
      rfl
  | @symbol c rest hBlank hNone =>
      have hSlash : c ≠ '/' := by
        rintro rfl
        exact hNone [] (.slash, "/") (.mark (by decide))
      have hZero : gapLength? (c :: rest) = some 0 := by
        rw [gapLength?.eq_3 _ _ (by simp [hSlash]) (by simp [hSlash]), hBlank]
        rfl
      rw [Scan.next, skipGaps_of_zero hZero]
      simp only [read_of_not_writes rest hBlank hNone]
      rfl

/-- Whether the next call gives the same. -/
def Lasts : Except (Located Token.Error) Token → Prop
  | .ok t => t.kind = .eof
  | .error e => e.cause.isLasting = true

section Step

variable {s after : Scan} {r : Except (Located Token.Error) Token}

/-- A call goes on in the text. -/
theorem Call.exists_passed (h : Call s r after) : ∃ passed,
    s.rest = passed ++ after.rest ∧ after.offset = s.offset + byteLength passed := by
  cases h with
  | @finish offset gap _ => exact ⟨gap, by simp, rfl⟩
  | @token offset gap spelling rest _ _ _ _ =>
      exact ⟨gap ++ spelling, by simp, by simp [Nat.add_assoc]⟩
  | @failure offset gap passed rest _ _ _ =>
      exact ⟨gap ++ passed, by simp, by simp [Nat.add_assoc]⟩

/-- A token starts after a gap, and the call leaves off where the token stops. -/
theorem Call.token_place {t : Token} (h : Call s (.ok t) after) (hKind : t.kind ≠ .eof) :
    s.offset ≤ t.span.start ∧ t.span.start < t.span.stop ∧ t.span.stop = after.offset := by
  cases h with
  | finish => exact absurd rfl hKind
  | @token offset gap spelling rest _ _ _ hWrites =>
      have hSome : 0 < byteLength spelling := byteLength_pos fun hNil => by
        rw [hNil] at hWrites
        exact hWrites.ne_nil
      exact ⟨Nat.le_add_right _ _, Nat.lt_add_of_pos_right hSome, rfl⟩

/-- An error that does not last lets the lexer go on. -/
theorem Call.offset_lt {e : Located Token.Error} (h : Call s (.error e) after)
    (hPasses : e.cause.isLasting = false) : s.offset < after.offset := by
  cases h with
  | @failure offset gap passed rest error _ hFails =>
      have hSome : 0 < byteLength passed := byteLength_pos fun hNil => by
        simp [hFails.passed_eq_nil_iff.1 hNil] at hPasses
      simp only
      omega

/-- What lasts is given again, by a call that stays. -/
theorem Call.next_again (h : Call s r after) (hLasts : Lasts r) : after.next = (r, after) := by
  cases h with
  | finish => exact IsGap.nil.next_eq _
  | token _ hWrites => exact absurd hLasts hWrites.kind_ne
  | @failure offset gap passed rest error _ hFails =>
      obtain rfl := hFails.passed_eq_nil_iff.2 hLasts
      exact hFails.next_eq _

end Step

end Calls

end Lexical

namespace Scan

open Lexical

/-- The scan of a text after some calls, whatever they gave. -/
def afterCalls (text : String) (calls : Nat) : Scan := (fun s => s.next.2)^[calls] (ofText text)

/-- What the next call gives after some calls. -/
def answer (text : String) (calls : Nat) : Except (Located Token.Error) Token :=
  (afterCalls text calls).next.1

section Run

variable {text : String} {calls : Nat}

/-- Each call gives its answer and leaves the scan for the next one. -/
theorem next_afterCalls (text : String) (calls : Nat) :
    (afterCalls text calls).next = (answer text calls, afterCalls text (calls + 1)) := by
  rw [afterCalls, afterCalls, Function.iterate_succ_apply']
  rfl

/-- Each of them is described by the rules. -/
theorem call_afterCalls (text : String) (calls : Nat) :
    Call (afterCalls text calls) (answer text calls) (afterCalls text (calls + 1)) :=
  call_of_next (next_afterCalls text calls)

/-- Later calls go on in the text. -/
theorem exists_passed {later : Nat} (hLe : calls ≤ later) : ∃ passed,
    (afterCalls text calls).rest = passed ++ (afterCalls text later).rest ∧
      (afterCalls text later).offset = (afterCalls text calls).offset + byteLength passed := by
  induction later, hLe using Nat.le_induction with
  | base => exact ⟨[], rfl, rfl⟩
  | succ later _ ih =>
      obtain ⟨passed, hRest, hOffset⟩ := ih
      obtain ⟨more, hMore, hNext⟩ := (call_afterCalls text later).exists_passed
      refine ⟨passed ++ more, ?_, ?_⟩
      · rw [hRest, hMore, List.append_assoc]
      · rw [hNext, hOffset, byteLength_append, Nat.add_assoc]

/-- What lasts is given by all later calls, and these stay where they are. -/
theorem answer_of_lasts (hLasts : Lasts (answer text calls)) {later : Nat} (hLe : calls ≤ later) :
    answer text later = answer text calls ∧
      afterCalls text (later + 1) = afterCalls text (calls + 1) := by
  induction later, hLe using Nat.le_induction with
  | base => exact ⟨rfl, rfl⟩
  | succ later _ ih =>
      obtain ⟨hAnswer, hAfter⟩ := ih
      have hAgain := (call_afterCalls text calls).next_again hLasts
      rw [← hAfter, next_afterCalls, hAfter] at hAgain
      exact Prod.mk.inj hAgain

end Run

/-- After any number of calls the rest that is left is the rest of the text. -/
theorem isOf_afterCalls (text : String) (calls : Nat) : (afterCalls text calls).IsOf text := by
  induction calls with
  | zero => exact isOf_ofText text
  | succ calls ih =>
      have hNext := ih.next
      rwa [next_afterCalls] at hNext

/-- However many calls are made of the lexer, each of them gives an answer, that of the scan. The
lexer stays between characters of its text and does not go back. A token starts after the place
before its call and stops at the place after it. The end is given again and again, and so are a
comment that is not closed and a character that starts no token; after any other error the lexer
goes on. -/
theorem calls_well_placed (text : String) :
    ∃ (states : Nat → Lexer) (answers : Nat → Except (Located Token.Error) Token),
      states 0 = Lexer.ofText text ∧
      (∀ n, (states n).next? = some (answers n, states (n + 1))) ∧
      (∀ n, states n = (afterCalls text n).lexer text ∧ answers n = answer text n) ∧
      ∀ calls,
        String.Pos.Raw.IsValid text ⟨(states calls).offset⟩ ∧
        (states calls).offset ≤ text.utf8ByteSize ∧
        (∀ later, calls ≤ later → (states calls).offset ≤ (states later).offset) ∧
        (∀ t, answers calls = .ok t → t.kind ≠ .eof →
          (states calls).offset ≤ t.span.start ∧ t.span.start < t.span.stop ∧
            t.span.stop = (states (calls + 1)).offset) ∧
        (∀ t, answers calls = .ok t → t.kind = .eof →
          ∀ later, calls ≤ later → answers later = .ok t) ∧
        (∀ e, answers calls = .error e → e.cause.isLasting = true →
          ∀ later, calls < later → answers later = .error e ∧
            (states later).offset = (states (calls + 1)).offset) ∧
        (∀ e, answers calls = .error e → e.cause.isLasting = false →
          (states calls).offset < (states (calls + 1)).offset) := by
  refine ⟨fun n => (afterCalls text n).lexer text, answer text, rfl, ?_, fun n => ⟨rfl, rfl⟩, ?_⟩
  · intro n
    have hNext := (isOf_afterCalls text n).next?_lexer
    rwa [next_afterCalls] at hNext
  intro calls
  have hCall := call_afterCalls text calls
  obtain ⟨front, hText, hOffset⟩ := isOf_afterCalls text calls
  simp only [lexer]
  refine ⟨?_, ?_, ?_, ?_, ?_, ?_, ?_⟩
  · exact isValid_iff.2 ⟨front, _, hText, hOffset⟩
  · rw [utf8ByteSize_eq_byteLength, hText, byteLength_append, hOffset]
    exact Nat.le_add_right _ _
  · intro later hLe
    obtain ⟨passed, -, hPassed⟩ := @exists_passed text calls later hLe
    rw [hPassed]
    exact Nat.le_add_right _ _
  · intro t hAnswer hKind
    rw [hAnswer] at hCall
    exact hCall.token_place hKind
  · intro t hAnswer hKind later hLe
    have hLasts : Lasts (answer text calls) := hAnswer ▸ hKind
    exact (answer_of_lasts hLasts hLe).1.trans hAnswer
  · intro e hAnswer hLasting later hLt
    have hLasts : Lasts (answer text calls) := hAnswer ▸ hLasting
    obtain ⟨before, rfl⟩ := Nat.exists_eq_add_of_lt hLt
    refine ⟨(answer_of_lasts hLasts hLt.le).1.trans hAnswer, ?_⟩
    rw [(answer_of_lasts hLasts (Nat.le_add_right calls before)).2]
  · intro e hAnswer hPasses
    rw [hAnswer] at hCall
    exact hCall.offset_lt hPasses

/-- A string that its line ends, a number without digits, a blank and a character of two bytes that
starts no token. -/
def brokenText : String := "\"é\n0x ß"

theorem calls_well_placed_broken :
    ∃ (states : Nat → Lexer) (answers : Nat → Except (Located Token.Error) Token),
      states 0 = Lexer.ofText brokenText ∧
      (∀ n, (states n).next? = some (answers n, states (n + 1))) ∧
      (∃ e, answers 0 = .error e ∧ e.cause = .unterminatedString ∧
        (states 0).offset < (states 1).offset) ∧
      (∃ e, answers 1 = .error e ∧ e.cause = .noHexDigit ∧
        (states 1).offset < (states 2).offset) ∧
      (∃ e, answers 2 = .error e ∧ e.cause = .unrecognized 'ß' ∧ answers 9 = .error e ∧
        (states 9).offset = (states 3).offset) ∧
      String.Pos.Raw.IsValid brokenText ⟨(states 9).offset⟩ := by
  obtain ⟨states, answers, hStart, hNext, hScan, hCalls⟩ := calls_well_placed brokenText
  have hFirst : answers 0 = .error ⟨.unterminatedString, .point 0⟩ :=
    (hScan 0).2.trans (by cbv)
  have hSecond : answers 1 = .error ⟨.noHexDigit, .point 4⟩ := (hScan 1).2.trans (by cbv)
  have hThird : answers 2 = .error ⟨.unrecognized 'ß', .point 7⟩ := (hScan 2).2.trans (by cbv)
  obtain ⟨-, -, -, -, -, -, hAdvances⟩ := hCalls 0
  obtain ⟨-, -, -, -, -, -, hAdvances'⟩ := hCalls 1
  obtain ⟨-, -, -, -, -, hLasts, -⟩ := hCalls 2
  obtain ⟨hSame, hStays⟩ := hLasts _ hThird rfl 9 (by decide)
  exact ⟨states, answers, hStart, hNext, ⟨_, hFirst, rfl, hAdvances _ hFirst rfl⟩,
    ⟨_, hSecond, rfl, hAdvances' _ hSecond rfl⟩, ⟨_, hThird, rfl, hSame, hStays⟩, (hCalls 9).1⟩

end Scan

end WasmCompiler
