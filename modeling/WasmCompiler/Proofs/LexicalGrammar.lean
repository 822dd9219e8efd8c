import WasmCompiler.Proofs.Lexing

/-! The lexical grammar. A text is a row of spellings with gaps around them. Gaps are blanks and
comments, and a spelling is always the longest that its text starts with. -/

namespace WasmCompiler.Lexical

def IsDigit (c : Char) : Prop := '0' ≤ c ∧ c ≤ '9'

def IsHexDigit (c : Char) : Prop := IsDigit c ∨ ('a' ≤ c ∧ c ≤ 'f') ∨ ('A' ≤ c ∧ c ≤ 'F')

def IsBinaryDigit (c : Char) : Prop := c = '0' ∨ c = '1'

def IsNameStart (c : Char) : Prop := c = '_' ∨ ('a' ≤ c ∧ c ≤ 'z') ∨ ('A' ≤ c ∧ c ≤ 'Z')

def IsNamePart (c : Char) : Prop := IsNameStart c ∨ IsDigit c

/-- One or more characters of a class. -/
structure IsRun (P : Char → Prop) (cs : List Char) : Prop where
  some : cs ≠ []
  all : ∀ c ∈ cs, P c

/-- The spellings of numbers. -/
inductive IsNumber : List Char → Prop where
  | hex {x : Char} {digits : List Char} (hX : x = 'x' ∨ x = 'X')
      (hDigits : IsRun IsHexDigit digits) : IsNumber ('0' :: x :: digits)
  | binary {b : Char} {digits : List Char} (hB : b = 'b' ∨ b = 'B')
      (hDigits : IsRun IsBinaryDigit digits) : IsNumber ('0' :: b :: digits)
  | whole {digits : List Char} (hDigits : IsRun IsDigit digits) : IsNumber digits
  | point {whole fraction : List Char} (hWhole : IsRun IsDigit whole)
      (hFraction : IsRun IsDigit fraction) : IsNumber (whole ++ '.' :: fraction)

/-- A spelling, with the kind and the text of its token. Only strings leave out a part of their
spelling. -/
inductive Writes : List Char → Lexeme → Prop where
  | str {content : List Char} (hContent : ∀ c ∈ content, c ≠ '"' ∧ c ≠ '\n') :
      Writes ('"' :: (content ++ ['"'])) (.str, String.ofList content)
  | number {s : List Char} (hNumber : IsNumber s) : Writes s (.number, String.ofList s)
  | word {c : Char} {cs : List Char} {kind : Token.Kind} (hStart : IsNameStart c)
      (hParts : ∀ d ∈ cs, IsNamePart d)
      (hWord : (String.ofList (c :: cs), kind) ∈ Token.Kind.words) :
      Writes (c :: cs) (kind, String.ofList (c :: cs))
  | name {c : Char} {cs : List Char} (hStart : IsNameStart c) (hParts : ∀ d ∈ cs, IsNamePart d)
      (hFree : ∀ kind, (String.ofList (c :: cs), kind) ∉ Token.Kind.words) :
      Writes (c :: cs) (.ident, String.ofList (c :: cs))
  | mark {s : List Char} {kind : Token.Kind} (hMark : (s, kind) ∈ Token.Kind.marks) :
      Writes s (kind, String.ofList s)

/-- The longest spelling that a text starts with. -/
structure IsLongest (s text : List Char) : Prop where
  starts : s <+: text
  writes : ∃ l, Writes s l
  longest : ∀ s' l, s' <+: text → Writes s' l → s'.length ≤ s.length

/-- The inside of a block comment, which the first closing mark ends. -/
def IsBlockBody (body : List Char) : Prop :=
  ∀ front back, body ++ ['*', '/'] = front ++ '*' :: '/' :: back → back = []

/-- A blank or a comment with the text after it. A line comment goes on to the end of its line. -/
inductive IsGapUnit : List Char → List Char → Prop where
  | blank {c : Char} {rest : List Char} (hBlank : Text.isBlank c = true) : IsGapUnit [c] rest
  | line {body rest : List Char} (hBody : '\n' ∉ body) (hEnd : ∀ c ∈ rest.head?, c = '\n') :
      IsGapUnit ('/' :: '/' :: body) rest
  | block {body rest : List Char} (hBody : IsBlockBody body) :
      IsGapUnit ('/' :: '*' :: (body ++ ['*', '/'])) rest

/-- Blanks and comments one after the other, with the text after them. -/
inductive IsGap : List Char → List Char → Prop where
  | nil {rest : List Char} : IsGap [] rest
  | cons {unit gap rest : List Char} (hUnit : IsGapUnit unit (gap ++ rest))
      (hGap : IsGap gap rest) : IsGap (unit ++ gap) rest

def StartsComment (text : List Char) : Prop := ['/', '/'] <+: text ∨ ['/', '*'] <+: text

/-- A text that starts with the mark of a base and no digit of it. -/
def LacksDigit (text : List Char) : Prop :=
  (∃ x rest, text = '0' :: x :: rest ∧ (x = 'x' ∨ x = 'X') ∧ ∀ c ∈ rest.head?, ¬ IsHexDigit c) ∨
    ∃ b rest, text = '0' :: b :: rest ∧ (b = 'b' ∨ b = 'B') ∧
      ∀ c ∈ rest.head?, ¬ IsBinaryDigit c

/-- A gap and the spelling after it, with the text after both. -/
structure Begins (gap s rest : List Char) : Prop where
  gap : IsGap gap (s ++ rest)
  apart : ¬ StartsComment (s ++ rest)
  longest : IsLongest s (s ++ rest)
  based : ¬ LacksDigit (s ++ rest)

/-- A gap and the spelling after it. -/
structure Piece where
  gap : List Char
  spelling : List Char

/-- A text that is cut into pieces and a last gap. -/
inductive Splits : List Char → List Piece → List Char → Prop where
  | last {gap : List Char} (hGap : IsGap gap []) : Splits gap [] gap
  | cons {gap s rest : List Char} {pieces : List Piece} {last : List Char}
      (hPiece : Begins gap s rest) (hRest : Splits rest pieces last) :
      Splits (gap ++ (s ++ rest)) (⟨gap, s⟩ :: pieces) last

/-- The tokens of pieces, of which the first starts at an offset. -/
inductive Tokenizes : Nat → List Piece → List Token → Prop where
  | nil {offset : Nat} : Tokenizes offset [] []
  | cons {offset start stop : Nat} {gap s : List Char} {kind : Token.Kind} {text : String}
      {pieces : List Piece} {ts : List Token} (hStart : start = offset + byteLength gap)
      (hStop : stop = start + byteLength s) (hWrites : Writes s (kind, text))
      (hRest : Tokenizes stop pieces ts) :
      Tokenizes offset (⟨gap, s⟩ :: pieces) (⟨kind, text, ⟨start, stop⟩⟩ :: ts)

section Classes

variable {c : Char}

theorem isDigit_iff : c.isDigit = true ↔ IsDigit c := by
  simp [Char.isDigit, IsDigit, Char.le_def]

theorem isHexDigit_iff : Scan.isHexDigit c = true ↔ IsHexDigit c := by
  simp [Scan.isHexDigit, IsHexDigit, isDigit_iff, or_assoc]

theorem isBinaryDigit_iff : Scan.isBinaryDigit c = true ↔ IsBinaryDigit c := by
  simp [Scan.isBinaryDigit, IsBinaryDigit]

/-- A name starts where the grammar lets it start. -/
theorem startsName_iff : Scan.startsName c = true ↔ IsNameStart c := by
  simp [Scan.startsName, IsNameStart, Scan.isAlpha_eq, Char.le_def, or_comm]

/-- A name goes on as the grammar lets it go on. -/
theorem continuesName_iff : Scan.continuesName c = true ↔ IsNamePart c := by
  simp [Scan.continuesName, IsNamePart, ← startsName_iff, Scan.startsName, Char.isAlphanum,
    isDigit_iff, or_assoc]

/-- The first character tells a name from a number. -/
theorem not_isDigit_of_isNameStart (h : IsNameStart c) : ¬ IsDigit c := by
  intro hDigit
  have hNat := Scan.toNat_of_startsName (startsName_iff.2 h)
  have := Number.toNat_of_isDigit (isDigit_iff.2 hDigit)
  omega

end Classes

section Heads

variable {c : Char} {cs : List Char} {l : Lexeme}

/-- A number starts with a digit, whatever its base. -/
theorem IsNumber.head (h : IsNumber (c :: cs)) : IsDigit c := by
  generalize hText : c :: cs = text at h
  cases h with
  | hex =>
      cases hText
      exact isDigit_iff.1 rfl
  | binary =>
      cases hText
      exact isDigit_iff.1 rfl
  | whole hDigits =>
      subst hText
      exact hDigits.all c List.mem_cons_self
  | @point whole fraction hWhole =>
      cases whole with
      | nil => exact absurd rfl hWhole.some
      | cons d whole =>
          cases hText
          exact hWhole.all c List.mem_cons_self

/-- No mark starts as a string, a number or a name does. -/
theorem head_of_mem_marks {kind : Token.Kind} (h : (c :: cs, kind) ∈ Token.Kind.marks) :
    c ≠ '"' ∧ ¬ IsDigit c ∧ ¬ IsNameStart c := by
  have hMarks : Token.Kind.marks.all (fun mark => mark.1.head?.all fun d =>
      d != '"' && !d.isDigit && !Scan.startsName d) = true := by decide
  have hHead := List.all_eq_true.1 hMarks _ h
  simp only [List.head?_cons, Option.all_some, Bool.and_eq_true, bne_iff_ne,
    Bool.not_eq_true'] at hHead
  obtain ⟨⟨hQuote, hDigit⟩, hName⟩ := hHead
  exact ⟨hQuote, mt isDigit_iff.2 (Bool.eq_false_iff.1 hDigit),
    mt startsName_iff.2 (Bool.eq_false_iff.1 hName)⟩

theorem Writes.ne_nil (h : Writes [] l) : False := by
  generalize hText : ([] : List Char) = s at h
  cases h with
  | str => cases hText
  | number hNumber =>
      cases hNumber with
      | hex => cases hText
      | binary => cases hText
      | whole hDigits => exact hDigits.some hText.symm
      | point => simp at hText
  | word => cases hText
  | name => cases hText
  | mark hMark =>
      have hMarks : ∀ mark ∈ Token.Kind.marks, mark.1 ≠ [] := by decide
      exact hMarks _ hMark hText.symm

-- The first character of a spelling tells which rule it is made by.
/-- A spelling that starts with a quote is that of a string. -/
theorem Writes.of_quote (h : Writes ('"' :: cs) l) :
    ∃ content, (∀ d ∈ content, d ≠ '"' ∧ d ≠ '\n') ∧ cs = content ++ ['"'] ∧
      l = (.str, String.ofList content) := by
  cases h with
  | str hContent => exact ⟨_, hContent, rfl, rfl⟩
  | number hNumber => exact absurd (isDigit_iff.2 hNumber.head) (by decide)
  | word hStart => exact absurd (startsName_iff.2 hStart) (by decide)
  | name hStart => exact absurd (startsName_iff.2 hStart) (by decide)
  | mark hMark => exact absurd rfl (head_of_mem_marks hMark).1

/-- A spelling that starts with a digit is that of a number. -/
theorem Writes.of_isDigit (hC : IsDigit c) (h : Writes (c :: cs) l) :
    IsNumber (c :: cs) ∧ l = (.number, String.ofList (c :: cs)) := by
  cases h with
  | str => exact absurd (isDigit_iff.2 hC) (by decide)
  | number hNumber => exact ⟨hNumber, rfl⟩
  | word hStart => exact absurd hC (not_isDigit_of_isNameStart hStart)
  | name hStart => exact absurd hC (not_isDigit_of_isNameStart hStart)
  | mark hMark => exact absurd hC (head_of_mem_marks hMark).2.1

/-- A spelling that starts as a name is that of a keyword or a name. -/
theorem Writes.of_isNameStart (hC : IsNameStart c) (h : Writes (c :: cs) l) :
    (∀ d ∈ cs, IsNamePart d) ∧ l =
      ((Token.Kind.words.lookup (String.ofList (c :: cs))).getD .ident,
        String.ofList (c :: cs)) := by
  cases h with
  | str => exact absurd (startsName_iff.2 hC) (by decide)
  | number hNumber => exact absurd hNumber.head (not_isDigit_of_isNameStart hC)
  | word _ hParts hWord =>
      have hWords : ∀ entry ∈ Token.Kind.words,
          Token.Kind.words.lookup entry.1 = some entry.2 := by decide +kernel
      exact ⟨hParts, by rw [hWords _ hWord]; rfl⟩
  | name _ hParts hFree =>
      have hNone : Token.Kind.words.lookup (String.ofList (c :: cs)) = none := by
        refine List.lookup_eq_none_iff.2 fun entry hEntry => ?_
        have hNe : String.ofList (c :: cs) ≠ entry.1 := fun hEq => hFree entry.2 (hEq ▸ hEntry)
        simpa using hNe
      exact ⟨hParts, by rw [hNone]; rfl⟩
  | mark hMark => exact absurd hC (head_of_mem_marks hMark).2.2

/-- A spelling that starts in no other way is that of a mark. -/
theorem Writes.of_mark (hQuote : c ≠ '"') (hDigit : ¬ IsDigit c) (hName : ¬ IsNameStart c)
    (h : Writes (c :: cs) l) :
    (c :: cs, l.1) ∈ Token.Kind.marks ∧ l.2 = String.ofList (c :: cs) := by
  cases h with
  | str => exact absurd rfl hQuote
  | number hNumber => exact absurd hNumber.head hDigit
  | word hStart => exact absurd hStart hName
  | name hStart => exact absurd hStart hName
  | mark hMark => exact ⟨hMark, rfl⟩

/-- A spelling has one token. -/
theorem Writes.unique {s : List Char} {l' : Lexeme} (h : Writes s l) (h' : Writes s l') :
    l = l' := by
  cases s with
  | nil => exact absurd h Writes.ne_nil
  | cons c cs =>
      by_cases hQuote : c = '"'
      · subst hQuote
        obtain ⟨content, -, hCs, rfl⟩ := h.of_quote
        obtain ⟨content', -, hCs', rfl⟩ := h'.of_quote
        rw [List.append_cancel_right (hCs.symm.trans hCs')]
      · by_cases hDigit : IsDigit c
        · rw [(h.of_isDigit hDigit).2, (h'.of_isDigit hDigit).2]
        · by_cases hName : IsNameStart c
          · rw [(h.of_isNameStart hName).2, (h'.of_isNameStart hName).2]
          · have hMarks : ∀ mark ∈ Token.Kind.marks, ∀ mark' ∈ Token.Kind.marks,
                mark.1 = mark'.1 → mark.2 = mark'.2 := by decide +kernel
            obtain ⟨hMem, hText⟩ := h.of_mark hQuote hDigit hName
            obtain ⟨hMem', hText'⟩ := h'.of_mark hQuote hDigit hName
            exact Prod.ext (hMarks _ hMem _ hMem' rfl) (hText.trans hText'.symm)

end Heads

/-- What is read at the start of a text, as the grammar has it. -/
def Fits (text : List Char) : Scan.Outcome → Prop
  | .lexeme kind length quotes =>
      (∃ s rest, text = s ++ rest ∧ s.length = length ∧
        Writes s (kind, String.ofList ((s.take (length - quotes)).drop quotes))) ∧
      (∀ s l, s <+: text → Writes s l → s.length ≤ length) ∧ ¬ LacksDigit text
  | .failure _ _ => LacksDigit text ∨ ∀ s l, s <+: text → ¬ Writes s l

section Reading

open Scan

/-- Only a number that starts with zero can be in another base. -/
theorem not_lacksDigit_of_ne {c : Char} {rest : List Char} (hC : c ≠ '0') :
    ¬ LacksDigit (c :: rest) := by
  rintro (⟨x, more, hText, -⟩ | ⟨b, more, hText, -⟩)
  · exact hC (List.cons.inj hText).1
  · exact hC (List.cons.inj hText).1

/-- A run of characters is part of the longest run. -/
theorem length_le_takeWhile {p : Char → Bool} {s text : List Char} (hStarts : s <+: text)
    (hAll : ∀ c ∈ s, p c = true) : s.length ≤ (text.takeWhile p).length := by
  obtain ⟨rest, rfl⟩ := hStarts
  rw [List.takeWhile_append_of_pos hAll, List.length_append]
  omega

theorem takeWhile_append_stop {p : Char → Bool} {s rest : List Char} {c : Char}
    (hAll : ∀ d ∈ s, p d = true) (hC : ¬ p c = true) : (s ++ c :: rest).takeWhile p = s := by
  rw [List.takeWhile_append_of_pos hAll, List.takeWhile_cons_of_neg hC, List.append_nil]

/-- A string is read up to the quote that closes it. -/
theorem readString_append {content rest : List Char}
    (hContent : ∀ c ∈ content, c ≠ '"' ∧ c ≠ '\n') :
    readString (content ++ '"' :: rest) = .lexeme .str (content.length + 2) 1 := by
  have hTake : (content ++ '"' :: rest).takeWhile (fun c => c ≠ '"' && c ≠ '\n') = content :=
    takeWhile_append_stop (fun c hC => by simp [hContent c hC]) (by simp)
  rw [readString, hTake]
  simp

/-- What starts with a quote is a string. -/
theorem Writes.exists_content {s body : List Char} {l : Lexeme} (h : Writes s l)
    (hStarts : s <+: '"' :: body) :
    ∃ content rest, (∀ c ∈ content, c ≠ '"' ∧ c ≠ '\n') ∧ body = content ++ '"' :: rest ∧
      s.length = content.length + 2 := by
  cases s with
  | nil => exact absurd h Writes.ne_nil
  | cons c cs =>
      obtain ⟨rfl, rest, rfl⟩ := List.cons_prefix_cons.1 hStarts
      obtain ⟨content, hContent, rfl, -⟩ := h.of_quote
      exact ⟨content, rest, hContent, by simp, by simp⟩

/-- A string is read as the grammar has it, and fails if it is not closed on its line. -/
theorem fits_readString (body : List Char) : Fits ('"' :: body) (readString body) := by
  by_cases hClosed : ∃ content rest, (∀ c ∈ content, c ≠ '"' ∧ c ≠ '\n') ∧
      body = content ++ '"' :: rest
  · obtain ⟨content, rest, hContent, hBody⟩ := hClosed
    have hRead : readString body = .lexeme .str (content.length + 2) 1 := by
      rw [hBody, readString_append hContent]
    rw [hRead]
    refine ⟨⟨'"' :: (content ++ ['"']), rest, by simp [hBody], by simp, ?_⟩, ?_,
      not_lacksDigit_of_ne (by decide)⟩
    · have hText : (('"' :: (content ++ ['"'])).take (content.length + 2 - 1)).drop 1 =
          content := by
        simp
      rw [hText]
      exact .str hContent
    · intro s l hStarts hWrites
      obtain ⟨content', rest', hContent', hBody', hLength⟩ := hWrites.exists_content hStarts
      have hSame : readString body = .lexeme .str (content'.length + 2) 1 := by
        rw [hBody', readString_append hContent']
      rw [hRead, Outcome.lexeme.injEq] at hSame
      omega
  · have hOpen : ∀ s l, s <+: '"' :: body → ¬ Writes s l := fun s l hStarts hWrites => by
      obtain ⟨content, rest, hContent, hBody, -⟩ := hWrites.exists_content hStarts
      exact hClosed ⟨content, rest, hContent, hBody⟩
    fun_cases readString body with
    | case1 content rest hRest =>
        have hTake : body.take content = body.takeWhile fun c => c ≠ '"' && c ≠ '\n' :=
          take_length_takeWhile _ _
        refine absurd ⟨body.take content, rest, fun c hC => ?_, ?_⟩ hClosed
        · rw [hTake] at hC
          simpa using List.mem_takeWhile_imp hC
        · rw [← hRest, List.take_append_drop]
    | case2 => exact .inr hOpen
    | case3 => exact .inr hOpen

/-- A number that starts with the mark of a base is in this base, or it is the zero alone. -/
theorem IsNumber.of_mark {x : Char} {s digits : List Char} (h : IsNumber s)
    (hStarts : s <+: '0' :: x :: digits) (hX : ¬ IsDigit x) (hPoint : x ≠ '.') :
    s.length ≤ 1 ∨ ∃ run, s = '0' :: x :: run ∧
      ((x = 'x' ∨ x = 'X') ∧ IsRun IsHexDigit run ∨
        (x = 'b' ∨ x = 'B') ∧ IsRun IsBinaryDigit run) := by
  have hShort {run : List Char} (hRun : ∀ c ∈ run, IsDigit c) (h : run <+: '0' :: x :: digits) :
      run.length ≤ 1 := by
    match run with
    | [] => simp
    | [c] => simp
    | c :: d :: run =>
        obtain ⟨rest, hRest⟩ := h
        cases hRest
        exact absurd (hRun x (by simp)) hX
  cases h with
  | hex hMark hRun =>
      obtain ⟨rest, hRest⟩ := hStarts
      cases hRest
      exact .inr ⟨_, rfl, .inl ⟨hMark, hRun⟩⟩
  | binary hMark hRun =>
      obtain ⟨rest, hRest⟩ := hStarts
      cases hRest
      exact .inr ⟨_, rfl, .inr ⟨hMark, hRun⟩⟩
  | whole hRun => exact .inl (hShort hRun.all hStarts)
  | @point whole fraction hWhole =>
      have hLength := hShort hWhole.all ((List.prefix_append _ _).trans hStarts)
      obtain ⟨rest, hRest⟩ := hStarts
      match whole with
      | [] => exact absurd rfl hWhole.some
      | [c] =>
          cases hRest
          exact absurd rfl hPoint
      | c :: d :: whole => simp at hLength

/-- A number that does not start with the mark of a base has digits, and perhaps a fraction. -/
theorem IsNumber.length_le {s text : List Char} (h : IsNumber s) (hStarts : s <+: text)
    (hPlain : ∀ x digits, text = '0' :: x :: digits → x ∉ ['x', 'X', 'b', 'B']) :
    s.length ≤ (text.takeWhile Char.isDigit).length +
      fractionLength (text.dropWhile Char.isDigit) := by
  cases h with
  | hex hMark =>
      obtain ⟨rest, rfl⟩ := hStarts
      exact absurd (by rcases hMark with rfl | rfl <;> simp) (hPlain _ _ rfl)
  | binary hMark =>
      obtain ⟨rest, rfl⟩ := hStarts
      exact absurd (by rcases hMark with rfl | rfl <;> simp) (hPlain _ _ rfl)
  | whole hRun =>
      have := length_le_takeWhile (p := Char.isDigit) hStarts
        fun c hC => isDigit_iff.2 (hRun.all c hC)
      omega
  | @point whole fraction hWhole hFraction =>
      obtain ⟨rest, rfl⟩ := hStarts
      have hStop : ¬ '.'.isDigit = true := by decide
      have hAll : ∀ c ∈ whole, c.isDigit = true := fun c hC => isDigit_iff.2 (hWhole.all c hC)
      have hLength := length_le_takeWhile (p := Char.isDigit) (List.prefix_append fraction rest)
        fun c hC => isDigit_iff.2 (hFraction.all c hC)
      have hSome := List.length_pos_iff.2 hFraction.some
      rw [List.append_assoc, List.cons_append, takeWhile_append_stop hAll hStop,
        List.dropWhile_append_of_pos hAll, List.dropWhile_cons_of_neg hStop, fractionLength]
      cases hCount : ((fraction ++ rest).takeWhile Char.isDigit).length with
      | zero => omega
      | succ count =>
          simp only [List.length_append, List.length_cons]
          omega

/-- The longest run of digits is a run of the grammar, unless it is empty. -/
theorem isRun_takeWhile {p : Char → Bool} {P : Char → Prop} (hP : ∀ {c}, p c = true ↔ P c)
    {cs : List Char} {count : Nat} (hLength : (cs.takeWhile p).length = count + 1) :
    IsRun P (cs.takeWhile p) where
  some hNil := by simp [hNil] at hLength
  all c hC := hP.1 (List.mem_takeWhile_imp hC)

/-- A number in a base, given its class of digits and its mark. -/
theorem fits_readRadix {p : Char → Bool} {P : Char → Prop} (hP : ∀ {c}, p c = true ↔ P c)
    {x : Char} (error : Token.Error) (digits : List Char)
    (hLacks : LacksDigit ('0' :: x :: digits) ↔ ∀ c ∈ digits.head?, ¬ P c)
    (hNumber : ∀ {run}, IsRun P run → IsNumber ('0' :: x :: run))
    (hBase : ∀ {s}, IsNumber s → s <+: '0' :: x :: digits →
      s.length ≤ 1 ∨ ∃ run, s = '0' :: x :: run ∧ IsRun P run) :
    Fits ('0' :: x :: digits) (readRadix p error digits) := by
  fun_cases readRadix p error digits with
  | case1 hZero =>
      refine .inl (hLacks.2 fun c hC hDigit => ?_)
      cases digits with
      | nil => cases hC
      | cons d digits =>
          cases hC
          simp [List.takeWhile_cons_of_pos (hP.2 hDigit)] at hZero
  | case2 count hCount =>
      have hLength : ('0' :: x :: digits.takeWhile p).length = 2 + (count + 1) := by
        simp only [List.length_cons, hCount]
        omega
      refine ⟨⟨'0' :: x :: digits.takeWhile p, digits.dropWhile p, ?_, hLength, ?_⟩, ?_,
        fun hNone => ?_⟩
      · rw [List.cons_append, List.cons_append, List.takeWhile_append_dropWhile]
      · rw [← hLength, Nat.sub_zero, List.take_length, List.drop_zero]
        exact .number (hNumber (isRun_takeWhile hP hCount))
      · intro s l hStarts hWrites
        cases s with
        | nil => simp
        | cons c cs =>
            have hC : IsDigit c := by
              rw [(List.cons_prefix_cons.1 hStarts).1]
              exact isDigit_iff.1 rfl
            rcases hBase (hWrites.of_isDigit hC).1 hStarts with hShort | ⟨run, hS, hRun⟩
            · omega
            · rw [hS, List.cons_prefix_cons, List.cons_prefix_cons] at hStarts
              have hRunLe := length_le_takeWhile (p := p) hStarts.2.2
                fun c hC => hP.2 (hRun.all c hC)
              simp only [hS, List.length_cons]
              omega
      · have hFirst := hLacks.1 hNone
        cases digits with
        | nil => simp at hCount
        | cons d digits =>
            have hD : ¬ p d = true := fun hD => hFirst d rfl (hP.1 hD)
            simp [List.takeWhile_cons_of_neg hD] at hCount

/-- A fraction is a point and digits; a point alone is none. -/
theorem fractionLength_cases (cs : List Char) : fractionLength cs = 0 ∨
    ∃ run rest, cs = '.' :: (run ++ rest) ∧ IsRun IsDigit run ∧
      fractionLength cs = run.length + 1 := by
  fun_cases fractionLength cs with
  | case1 => exact .inl rfl
  | case2 more count hCount =>
      refine .inr ⟨more.takeWhile Char.isDigit, more.dropWhile Char.isDigit, ?_,
        isRun_takeWhile isDigit_iff hCount, ?_⟩
      · rw [List.takeWhile_append_dropWhile]
      · omega
  | case3 => exact .inl rfl

/-- Digits and a fraction, if there is one, are a number. -/
theorem exists_isNumber {first : Char} {rest : List Char} (hFirst : IsDigit first) :
    ∃ s after, first :: rest = s ++ after ∧ IsNumber s ∧
      s.length = ((first :: rest).takeWhile Char.isDigit).length +
        fractionLength ((first :: rest).dropWhile Char.isDigit) := by
  have hWhole : IsRun IsDigit ((first :: rest).takeWhile Char.isDigit) := by
    have hLength : ((first :: rest).takeWhile Char.isDigit).length =
        (rest.takeWhile Char.isDigit).length + 1 := by
      rw [List.takeWhile_cons_of_pos (isDigit_iff.2 hFirst), List.length_cons]
    exact isRun_takeWhile isDigit_iff hLength
  have hText := (first :: rest).takeWhile_append_dropWhile (p := Char.isDigit)
  rcases fractionLength_cases ((first :: rest).dropWhile Char.isDigit) with
    hZero | ⟨run, after, hDrop, hRun, hLength⟩
  · exact ⟨_, _, hText.symm, .whole hWhole, by omega⟩
  · refine ⟨_, after, ?_, .point hWhole hRun, ?_⟩
    · rw [List.append_assoc, List.cons_append, ← hDrop, hText]
    · rw [hLength]
      simp

/-- A number in base sixteen is read as the grammar has it. -/
theorem fits_hex {x : Char} {digits : List Char} (hX : x = 'x' ∨ x = 'X') :
    Fits ('0' :: x :: digits) (readRadix isHexDigit .noHexDigit digits) := by
  refine fits_readRadix isHexDigit_iff _ _ ?_ (.hex hX) fun hNumber hStarts => ?_
  · refine ⟨?_, fun hNone => .inl ⟨x, digits, rfl, hX, hNone⟩⟩
    rintro (⟨_, _, hText, -, hNone⟩ | ⟨_, _, hText, hB, -⟩)
    · cases hText
      exact hNone
    · cases hText
      rcases hX with rfl | rfl <;> simp at hB
  · rcases hNumber.of_mark hStarts (by rcases hX with rfl | rfl <;> simp [← isDigit_iff])
      (by rcases hX with rfl | rfl <;> simp) with hShort | ⟨run, hS, hRun | ⟨hB, -⟩⟩
    · exact .inl hShort
    · exact .inr ⟨run, hS, hRun.2⟩
    · rcases hX with rfl | rfl <;> simp at hB

/-- A number in base two is read as the grammar has it. -/
theorem fits_binary {b : Char} {digits : List Char} (hB : b = 'b' ∨ b = 'B') :
    Fits ('0' :: b :: digits) (readRadix isBinaryDigit .noBinaryDigit digits) := by
  refine fits_readRadix isBinaryDigit_iff _ _ ?_ (.binary hB) fun hNumber hStarts => ?_
  · refine ⟨?_, fun hNone => .inr ⟨b, digits, rfl, hB, hNone⟩⟩
    rintro (⟨_, _, hText, hX, -⟩ | ⟨_, _, hText, -, hNone⟩)
    · cases hText
      rcases hB with rfl | rfl <;> simp at hX
    · cases hText
      exact hNone
  · rcases hNumber.of_mark hStarts (by rcases hB with rfl | rfl <;> simp [← isDigit_iff])
      (by rcases hB with rfl | rfl <;> simp) with hShort | ⟨run, hS, ⟨hX, -⟩ | hRun⟩
    · exact .inl hShort
    · rcases hB with rfl | rfl <;> simp at hX
    · exact .inr ⟨run, hS, hRun.2⟩

/-- A number is read as the grammar has it, in any of its bases. -/
theorem fits_readNumber {first : Char} {rest : List Char} (hFirst : IsDigit first) :
    Fits (first :: rest) (readNumber (first :: rest)) := by
  generalize hText : first :: rest = text
  fun_cases readNumber text with
  | case1 => exact fits_hex (.inl rfl)
  | case2 => exact fits_hex (.inr rfl)
  | case3 => exact fits_binary (.inl rfl)
  | case4 => exact fits_binary (.inr rfl)
  | case5 _ hx hX hb hB =>
      have hPlain : ∀ x digits, text = '0' :: x :: digits → x ∉ ['x', 'X', 'b', 'B'] := by
        intro x digits hText hMem
        simp only [List.mem_cons, List.not_mem_nil, or_false] at hMem
        rcases hMem with rfl | rfl | rfl | rfl
        · exact hx digits hText
        · exact hX digits hText
        · exact hb digits hText
        · exact hB digits hText
      subst hText
      obtain ⟨s, after, hText, hNumber, hLength⟩ := @exists_isNumber first rest hFirst
      refine ⟨⟨s, after, hText, hLength, ?_⟩, fun s' l hStarts hWrites => ?_, ?_⟩
      · rw [← hLength, Nat.sub_zero, List.take_length, List.drop_zero]
        exact .number hNumber
      · cases s' with
        | nil => simp
        | cons c cs =>
            have hC : IsDigit c := (List.cons_prefix_cons.1 hStarts).1 ▸ hFirst
            exact (hWrites.of_isDigit hC).1.length_le hStarts hPlain
      · rintro (⟨x, digits, hMark, hIs, -⟩ | ⟨b, digits, hMark, hIs, -⟩)
        · exact hPlain x digits hMark (by rcases hIs with rfl | rfl <;> simp)
        · exact hPlain b digits hMark (by rcases hIs with rfl | rfl <;> simp)

/-- A name is read as the grammar has it, up to where it cannot go on. -/
theorem fits_readName {first : Char} {rest : List Char} (hFirst : IsNameStart first) :
    Fits (first :: rest) (readName (first :: rest)) := by
  have hTake : (first :: rest).takeWhile continuesName = first :: rest.takeWhile continuesName :=
    List.takeWhile_cons_of_pos (continuesName_of_startsName (startsName_iff.2 hFirst))
  have hParts : ∀ d ∈ rest.takeWhile continuesName, IsNamePart d := fun d hD =>
    continuesName_iff.1 (List.mem_takeWhile_imp hD)
  refine ⟨⟨_, (first :: rest).dropWhile continuesName, ?_, rfl, ?_⟩,
    fun s l hStarts hWrites => ?_, not_lacksDigit_of_ne ?_⟩
  · rw [List.takeWhile_append_dropWhile]
  · rw [Nat.sub_zero, List.take_length, List.drop_zero, hTake]
    cases hLookup : Token.Kind.words.lookup
        (String.ofList (first :: rest.takeWhile continuesName)) with
    | none =>
        refine .name hFirst hParts fun kind hMem => ?_
        have hNone := List.lookup_eq_none_iff.1 hLookup _ hMem
        simp at hNone
    | some kind =>
        obtain ⟨before, after, hSplit, -⟩ := List.lookup_eq_some_iff.1 hLookup
        exact .word hFirst hParts (by simp [hSplit])
  · cases s with
    | nil => simp
    | cons c cs =>
        have hC : IsNameStart c := (List.cons_prefix_cons.1 hStarts).1 ▸ hFirst
        refine length_le_takeWhile hStarts (List.forall_mem_cons.2 ⟨?_, fun d hD => ?_⟩)
        · exact continuesName_of_startsName (startsName_iff.2 hC)
        · exact continuesName_iff.2 ((hWrites.of_isNameStart hC).1 d hD)
  · rintro rfl
    exact absurd (startsName_iff.2 hFirst) (by decide)

/-- Of two marks that a text starts with, the longer stands first in the table. -/
theorem length_le_of_find?_marks {text : List Char} {mark mark' : List Char × Token.Kind}
    (hFind : Token.Kind.marks.find? (fun m => m.1.isPrefixOf text) = some mark)
    (hMem : mark' ∈ Token.Kind.marks) (hStarts : mark'.1 <+: text) :
    mark'.1.length ≤ mark.1.length := by
  have hOrder : Token.Kind.marks.Pairwise fun m m' =>
      m.1.isPrefixOf m'.1 = true → m'.1.length ≤ m.1.length := by decide +kernel
  obtain ⟨hMark, before, after, hSplit, hBefore⟩ := List.find?_eq_some_iff_append.1 hFind
  rw [hSplit] at hMem hOrder
  rcases List.mem_append.1 hMem with hMem | hMem
  · have := hBefore mark' hMem
    simp [List.isPrefixOf_iff_prefix.2 hStarts] at this
  · rcases List.mem_cons.1 hMem with rfl | hMem
    · exact le_rfl
    · by_contra hLonger
      have hWithin : mark.1 <+: mark'.1 :=
        List.prefix_of_prefix_length_le (List.isPrefixOf_iff_prefix.1 hMark) hStarts (by omega)
      exact hLonger (List.rel_of_pairwise_cons (List.pairwise_append.1 hOrder).2.1 hMem
        (List.isPrefixOf_iff_prefix.2 hWithin))

/-- Of the marks at the start of a text the longest is read. -/
theorem fits_readMark {first : Char} {rest : List Char} (hQuote : first ≠ '"')
    (hDigit : ¬ IsDigit first) (hName : ¬ IsNameStart first) :
    Fits (first :: rest) (readMark first (first :: rest)) := by
  have hMarks {s : List Char} {l : Lexeme} (hStarts : s <+: first :: rest) (h : Writes s l) :
      (s, l.1) ∈ Token.Kind.marks := by
    cases s with
    | nil => exact absurd h Writes.ne_nil
    | cons c cs =>
        obtain ⟨rfl, -⟩ := List.cons_prefix_cons.1 hStarts
        exact (h.of_mark hQuote hDigit hName).1
  rw [readMark]
  cases hFind : Token.Kind.marks.find? fun mark => mark.1.isPrefixOf (first :: rest) with
  | none =>
      refine .inr fun s l hStarts hWrites => ?_
      exact List.find?_eq_none.1 hFind _ (hMarks hStarts hWrites)
        (List.isPrefixOf_iff_prefix.2 hStarts)
  | some mark =>
      have hMark := List.find?_some hFind
      obtain ⟨after, hAfter⟩ := List.isPrefixOf_iff_prefix.1 hMark
      refine ⟨⟨mark.1, after, hAfter.symm, rfl, ?_⟩, fun s l hStarts hWrites => ?_,
        not_lacksDigit_of_ne ?_⟩
      · rw [Nat.sub_zero, List.take_length, List.drop_zero]
        exact .mark (List.mem_of_find?_eq_some hFind)
      · exact length_le_of_find?_marks hFind (hMarks hStarts hWrites) hStarts
      · rintro rfl
        exact hDigit (isDigit_iff.1 rfl)

/-- Whatever a text starts with is read as the grammar has it. -/
theorem fits_read (first : Char) (rest : List Char) :
    Fits (first :: rest) (Scan.read first rest) := by
  fun_cases Scan.read first rest with
  | case1 hQuote =>
      rw [hQuote]
      exact fits_readString rest
  | case2 _ hDigit => exact fits_readNumber (isDigit_iff.1 hDigit)
  | case3 _ _ hName => exact fits_readName (startsName_iff.1 hName)
  | case4 hQuote hDigit hName =>
      exact fits_readMark hQuote (mt isDigit_iff.2 hDigit) (mt startsName_iff.2 hName)

end Reading

end WasmCompiler.Lexical
