import WasmCompiler.Token.Basic
import WasmCompiler.Diagnostic
import WasmCompiler.Text.Fields

/-! What stands at the start of a text: blanks and comments, and after them a token or an error. A
scan keeps the characters that are left and the offset at which they start, also after an error, so
that it can be resumed. -/

namespace WasmCompiler

/-- Why no token could be read. -/
inductive Token.Error where
  | unterminatedComment
  | unterminatedString
  | noHexDigit
  | noBinaryDigit
  | unrecognized (symbol : Char)
  deriving DecidableEq, Repr

def Token.Error.message : Token.Error → String
  | .unterminatedComment => "unterminated block comment"
  | .unterminatedString => "unterminated string literal"
  | .noHexDigit => "hex literal needs at least one digit"
  | .noBinaryDigit => "binary literal needs at least one digit"
  | .unrecognized symbol => "unrecognized symbol '" ++ symbol.toString ++ "'"

/-- The report of a lexical error. -/
def Token.Error.report : Located Token.Error → Diagnostic :=
  Located.report (fun _ => .lexical) Token.Error.message

/-- The part of a text that has not been read: its characters and where they start. -/
structure Scan where
  offset : Nat
  rest : List Char
  deriving DecidableEq, Repr

namespace Scan

/-- The scan of a whole text. -/
def ofText (text : String) : Scan := ⟨0, text.toList⟩

/-- The scan after its first `count` characters. -/
def drop (s : Scan) (count : Nat) : Scan :=
  ⟨s.offset + byteLength (s.rest.take count), s.rest.drop count⟩

theorem take_length_takeWhile (test : Char → Bool) (text : List Char) :
    text.take (text.takeWhile test).length = text.takeWhile test :=
  (List.prefix_iff_eq_take.1 (List.takeWhile_prefix test)).symm

theorem drop_length_takeWhile (test : Char → Bool) (text : List Char) :
    text.drop (text.takeWhile test).length = text.dropWhile test := by
  have hDrop := @List.drop_left _ (text.takeWhile test) (text.dropWhile test)
  rwa [List.takeWhile_append_dropWhile] at hDrop

/-- The number of characters up to and including the first closing mark of a comment. -/
def commentEnd? : List Char → Option Nat
  | '*' :: '/' :: _ => some 2
  | _ :: rest => (commentEnd? rest).map (· + 1)
  | [] => none

/-- The number of characters of the blank or comment that `text` starts with, zero if it
starts with neither, and nothing if it starts with a comment that is not closed. -/
def gapLength? (text : List Char) : Option Nat :=
  match text with
  | '/' :: '/' :: rest => some (2 + (rest.takeWhile (· ≠ '\n')).length)
  | '/' :: '*' :: rest => (commentEnd? rest).map (2 + ·)
  | c :: _ => if Text.isBlank c then some 1 else some 0
  | [] => some 0

/-- A blank is a gap of one character. -/
theorem gapLength?_of_isBlank {c : Char} (h : Text.isBlank c = true) (rest : List Char) :
    gapLength? (c :: rest) = some 1 := by
  have hSlash : c ≠ '/' := by
    rintro rfl
    exact absurd h (by decide)
  rw [gapLength?.eq_3 _ _ (by simp [hSlash]) (by simp [hSlash]), if_pos h]

/-- What stands after all gaps is not blank. -/
theorem isBlank_of_gapLength? {c : Char} {rest : List Char}
    (h : gapLength? (c :: rest) = some 0) : Text.isBlank c = false := by
  cases hBlank : Text.isBlank c with
  | false => rfl
  | true =>
    rw [gapLength?_of_isBlank hBlank] at h
    cases h

/-- Dropping a gap leaves fewer characters. -/
theorem drop_length_lt {s : Scan} {count : Nat} (h : gapLength? s.rest = some (count + 1)) :
    (s.drop (count + 1)).rest.length < s.rest.length := by
  cases hRest : s.rest with
  | nil =>
    rw [hRest] at h
    cases h
  | cons c rest =>
    simp only [drop, hRest, List.length_drop, List.length_cons]
    omega

/-- The scan after the blanks and comments that it starts with, and whether these end: an
open comment is not skipped. -/
def skipGaps (s : Scan) : Scan × Bool :=
  match h : gapLength? s.rest with
  | none => (s, false)
  | some 0 => (s, true)
  | some (count + 1) =>
    have := drop_length_lt h
    skipGaps (s.drop (count + 1))
termination_by s.rest.length

theorem skipGaps_of_none {s : Scan} (h : gapLength? s.rest = none) : s.skipGaps = (s, false) := by
  fun_cases skipGaps s with
  | case1 => rfl
  | case2 hZero => cases h.symm.trans hZero
  | case3 count hCount => cases h.symm.trans hCount

theorem skipGaps_of_zero {s : Scan} (h : gapLength? s.rest = some 0) : s.skipGaps = (s, true) := by
  fun_cases skipGaps s with
  | case1 hNone => cases h.symm.trans hNone
  | case2 => rfl
  | case3 count hCount => cases h.symm.trans hCount

theorem skipGaps_of_succ {s : Scan} {count : Nat} (h : gapLength? s.rest = some (count + 1)) :
    s.skipGaps = (s.drop (count + 1)).skipGaps := by
  fun_cases skipGaps s with
  | case1 hNone => cases h.symm.trans hNone
  | case2 hZero => cases h.symm.trans hZero
  | case3 other hOther =>
    cases h.symm.trans hOther
    rfl

/-- Whether a name may start with a character. -/
def startsName (c : Char) : Bool := c == '_' || c.isAlpha

/-- Whether a name may go on with a character. -/
def continuesName (c : Char) : Bool := c == '_' || c.isAlphanum

def isHexDigit (c : Char) : Bool :=
  c.isDigit || ('a' ≤ c && c ≤ 'f') || ('A' ≤ c && c ≤ 'F')

def isBinaryDigit (c : Char) : Bool := c == '0' || c == '1'

/-- What stands at the start of a text: a lexeme of a kind and a length, with the number of
characters at either end that are not part of its text, or an error with the number of
characters that were read before it was noticed. -/
inductive Outcome where
  | lexeme (kind : Token.Kind) (length : Nat) (quotes : Nat)
  | failure (error : Token.Error) (length : Nat)
  deriving DecidableEq, Repr

/-- The number of characters of the longest row of digits at the start of a text, after the
two characters that give the base. -/
def readRadix (isDigit : Char → Bool) (error : Token.Error) (digits : List Char) : Outcome :=
  match (digits.takeWhile isDigit).length with
  | 0 => .failure error 2
  | count + 1 => .lexeme .number (2 + (count + 1)) 0

/-- The number of characters of a point and digits; a point that no digit follows does not
belong to a number. -/
def fractionLength : List Char → Nat
  | '.' :: rest =>
    match (rest.takeWhile Char.isDigit).length with
    | 0 => 0
    | count + 1 => 1 + (count + 1)
  | _ => 0

/-- A number at the start of a text that starts with a digit. -/
def readNumber (text : List Char) : Outcome :=
  match text with
  | '0' :: 'x' :: digits | '0' :: 'X' :: digits => readRadix isHexDigit .noHexDigit digits
  | '0' :: 'b' :: digits | '0' :: 'B' :: digits => readRadix isBinaryDigit .noBinaryDigit digits
  | _ =>
    let whole := (text.takeWhile Char.isDigit).length
    .lexeme .number (whole + fractionLength (text.dropWhile Char.isDigit)) 0

/-- The marks of the bases other than ten. -/
def radixMarks : List Char := ['x', 'X', 'b', 'B']

/-- Without the mark of a base, a number is its digits and a fraction. -/
theorem readNumber_of_plain {text : List Char}
    (h : ∀ x digits, text = '0' :: x :: digits → x ∉ radixMarks) :
    readNumber text = .lexeme .number ((text.takeWhile Char.isDigit).length +
      fractionLength (text.dropWhile Char.isDigit)) 0 := by
  fun_cases readNumber text with
  | case1 => exact absurd (by decide) (h _ _ rfl)
  | case2 => exact absurd (by decide) (h _ _ rfl)
  | case3 => exact absurd (by decide) (h _ _ rfl)
  | case4 => exact absurd (by decide) (h _ _ rfl)
  | case5 => rfl

/-- A string literal, given the text after its opening quote. A newline ends the search for
the closing quote and counts as read. -/
def readString (body : List Char) : Outcome :=
  let content := (body.takeWhile fun c => c ≠ '"' && c ≠ '\n').length
  match body.drop content with
  | '"' :: _ => .lexeme .str (content + 2) 1
  | _ :: _ => .failure .unterminatedString (content + 2)
  | [] => .failure .unterminatedString (content + 1)

/-- A name, or a word of the language. -/
def readName (text : List Char) : Outcome :=
  let name := text.takeWhile continuesName
  .lexeme ((Token.Kind.words.lookup (String.ofList name)).getD .ident) name.length 0

/-- A mark, the longest that the text starts with. -/
def readMark (first : Char) (text : List Char) : Outcome :=
  match Token.Kind.marks.find? fun mark => mark.1.isPrefixOf text with
  | some mark => .lexeme mark.2 mark.1.length 0
  | none => .failure (.unrecognized first) 0

/-- What stands at the start of a text that starts with neither a blank nor a comment. -/
def read (first : Char) (rest : List Char) : Outcome :=
  if first = '"' then readString rest
  else if first.isDigit then readNumber (first :: rest)
  else if startsName first then readName (first :: rest)
  else readMark first (first :: rest)

/-- The token of a lexeme of the given length at the start of a scan. -/
def token (s : Scan) (kind : Token.Kind) (length quotes : Nat) : Token :=
  ⟨kind, String.ofList ((s.rest.take (length - quotes)).drop quotes),
    ⟨s.offset, (s.drop length).offset⟩⟩

/-- The next token, or why there is none, and the scan after it. At the end of the text the
token is the one that stands for the end, again and again. -/
def next (s : Scan) : Except (Located Token.Error) Token × Scan :=
  let (start, closed) := s.skipGaps
  if !closed then (.error ⟨.unterminatedComment, .point start.offset⟩, start)
  else
    match start.rest with
    | [] => (.ok (Token.atEnd start.offset), start)
    | first :: rest =>
      match read first rest with
      | .lexeme kind length quotes => (.ok (start.token kind length quotes), start.drop length)
      | .failure error length => (.error ⟨error, .point start.offset⟩, start.drop length)

section Positive

variable {first : Char} {rest text : List Char} {kind : Token.Kind} {length quotes : Nat}

/-- A string has at least one character. -/
theorem pos_of_readString : readString text = .lexeme kind length quotes → 0 < length := by
  fun_cases readString text with
  | case1 =>
    rintro ⟨⟩
    exact Nat.succ_pos _
  | case2 => rintro ⟨⟩
  | case3 => rintro ⟨⟩

theorem pos_of_readRadix {isDigit : Char → Bool} {error : Token.Error} :
    readRadix isDigit error text = .lexeme kind length quotes → 0 < length := by
  fun_cases readRadix isDigit error text with
  | case1 => rintro ⟨⟩
  | case2 =>
    rintro ⟨⟩
    omega

/-- A number has at least one character, if it starts with a digit. -/
theorem pos_of_readNumber (hDigits : 0 < (text.takeWhile Char.isDigit).length) :
    readNumber text = .lexeme kind length quotes → 0 < length := by
  fun_cases readNumber text with
  | case1 => exact pos_of_readRadix
  | case2 => exact pos_of_readRadix
  | case3 => exact pos_of_readRadix
  | case4 => exact pos_of_readRadix
  | case5 =>
    rintro ⟨⟩
    omega

/-- A name has at least one character. -/
theorem pos_of_readName (hName : startsName first = true)
    (h : readName (first :: rest) = .lexeme kind length quotes) : 0 < length := by
  have hContinues : continuesName first = true := by
    simp only [startsName, continuesName, Char.isAlphanum, Bool.or_eq_true] at hName ⊢
    rcases hName with hScore | hAlpha
    · exact .inl hScore
    · exact .inr (.inl hAlpha)
  simp only [readName, List.takeWhile_cons, hContinues, if_true, List.length_cons,
    Outcome.lexeme.injEq] at h
  omega

theorem pos_of_readMark : readMark first text = .lexeme kind length quotes → 0 < length := by
  have hAll : ∀ mark ∈ Token.Kind.marks, 0 < mark.1.length := by decide
  fun_cases readMark first text with
  | case1 mark hMark =>
    rintro ⟨⟩
    exact hAll mark (List.mem_of_find?_eq_some hMark)
  | case2 => rintro ⟨⟩

/-- A lexeme is never empty. -/
theorem pos_of_read : read first rest = .lexeme kind length quotes → 0 < length := by
  fun_cases read first rest with
  | case1 => exact pos_of_readString
  | case2 _ hDigit => exact pos_of_readNumber (by simp [hDigit])
  | case3 _ _ hName => exact pos_of_readName hName
  | case4 => exact pos_of_readMark

end Positive

/-- Skipping gaps leaves no more characters. -/
theorem skipGaps_length_le (s : Scan) : s.skipGaps.1.rest.length ≤ s.rest.length := by
  fun_induction skipGaps s with
  | case1 => exact Nat.le_refl _
  | case2 => exact Nat.le_refl _
  | case3 s count _ hLess ih => omega

/-- Every token but the last shortens what is left. -/
theorem next_length_lt {s after : Scan} {t : Token} : s.next = (.ok t, after) → t.kind ≠ .eof →
    after.rest.length < s.rest.length := by
  have hLe := skipGaps_length_le s
  fun_cases next s with
  | case1 => rintro ⟨⟩
  | case2 =>
    rintro ⟨⟩ hKind
    exact absurd rfl hKind
  | case3 start closed hSkip hClosed first rest hRest kind length quotes hRead =>
    rintro ⟨⟩ -
    have hPos := pos_of_read hRead
    rw [hSkip] at hLe
    simp only [drop, List.length_drop, hRest, List.length_cons] at hLe ⊢
    omega
  | case4 => rintro ⟨⟩

/-- The tokens from a scan to the end of its text, without the token that stands for the end. -/
def tokens (s : Scan) : Except (Located Token.Error) (List Token) :=
  match h : s.next with
  | (.error e, _) => .error e
  | (.ok t, after) =>
    if hk : t.kind = .eof then .ok []
    else
      have := next_length_lt h hk
      match tokens after with
      | .error e => .error e
      | .ok ts => .ok (t :: ts)
termination_by s.rest.length

/-- The tokens of a scan are the next one and those after it, up to the end. -/
theorem tokens_eq (s : Scan) : s.tokens =
    match s.next with
    | (.error e, _) => .error e
    | (.ok t, after) => if t.kind = .eof then .ok [] else after.tokens.map (t :: ·) := by
  fun_cases tokens s with
  | case1 e after hNext => rw [hNext]
  | case2 t after hNext hEnd => simp only [hNext, if_pos hEnd]
  | case3 t after hNext hMore _ e hTokens =>
    simp only [hNext, if_neg hMore, hTokens]
    rfl
  | case4 t after hNext hMore _ ts hTokens =>
    simp only [hNext, if_neg hMore, hTokens]
    rfl

theorem tokens_of_end {s after : Scan} {t : Token} (h : s.next = (.ok t, after))
    (hKind : t.kind = .eof) : s.tokens = .ok [] := by
  rw [tokens_eq, h]
  exact if_pos hKind

theorem tokens_of_next {s after : Scan} {t : Token} {ts : List Token}
    (h : s.next = (.ok t, after)) (hKind : t.kind ≠ .eof) (hRest : after.tokens = .ok ts) :
    s.tokens = .ok (t :: ts) := by
  rw [tokens_eq, h]
  exact (if_neg hKind).trans (by rw [hRest]; rfl)

end Scan

end WasmCompiler
