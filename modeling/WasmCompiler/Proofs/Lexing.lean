import WasmCompiler.Proofs.Numerals
import WasmCompiler.Proofs.Parsing

/-! Texts and their tokens. What a text starts with is read as one token if the text after it does
not go on with it, so the tokens of a text are known piece by piece, from its end. -/

namespace WasmCompiler

open Number

/-- What a token says, without its place in the text. -/
abbrev Lexeme := Token.Kind × String

def Token.lexeme (t : Token) : Lexeme := (t.kind, t.text)

namespace Scan

/-- A text that is cut into tokens with the given lexemes, wherever it starts. -/
def Reads (text : List Char) (ls : List Lexeme) : Prop :=
  ∀ offset, ∃ ts, tokens ⟨offset, text⟩ = .ok ts ∧ ts.map Token.lexeme = ls

theorem Reads.nil : Reads [] [] := by
  intro offset
  have hNext : next ⟨offset, []⟩ = (.ok (.atEnd offset), ⟨offset, []⟩) := by
    rw [next, skipGaps_of_zero rfl]
    rfl
  exact ⟨[], tokens_of_end hNext rfl, rfl⟩

/-- Blanks are skipped. -/
theorem Reads.blank {c : Char} {rest : List Char} {ls : List Lexeme}
    (hGap : gapLength? (c :: rest) = some 1) (h : Reads rest ls) : Reads (c :: rest) ls := by
  intro offset
  have hNext : next ⟨offset, c :: rest⟩ = next (drop ⟨offset, c :: rest⟩ 1) := by
    rw [next, next, skipGaps_of_succ hGap]
  rw [tokens_eq, hNext, ← tokens_eq]
  exact h _

/-- What a text starts with is a token. -/
theorem Reads.cons {first : Char} {more rest : List Char} {kind : Token.Kind}
    {length quotes : Nat} {text : List Char} {ls : List Lexeme}
    (hGap : gapLength? (first :: more) = some 0)
    (hRead : read first more = .lexeme kind length quotes)
    (hText : ((first :: more).take (length - quotes)).drop quotes = text)
    (hRest : (first :: more).drop length = rest) (hKind : kind ≠ .eof) (h : Reads rest ls) :
    Reads (first :: more) ((kind, String.ofList text) :: ls) := by
  intro offset
  have hSkip : skipGaps ⟨offset, first :: more⟩ = (⟨offset, first :: more⟩, true) :=
    skipGaps_of_zero hGap
  obtain ⟨ts, hTokens, hLexemes⟩ := h (drop ⟨offset, first :: more⟩ length).offset
  have hNext : next ⟨offset, first :: more⟩ =
      (.ok (token ⟨offset, first :: more⟩ kind length quotes),
        ⟨(drop ⟨offset, first :: more⟩ length).offset, rest⟩) := by
    simp only [next, hSkip, hRead]
    rw [← hRest]
    rfl
  refine ⟨token ⟨offset, first :: more⟩ kind length quotes :: ts, ?_, ?_⟩
  · exact tokens_of_next hNext hKind hTokens
  · rw [List.map_cons, hLexemes, ← hText]
    rfl

section Characters

variable {c : Char} {more : List Char}

theorem isBlank_eq_false (hLow : 33 ≤ c.toNat) (hHigh : c.toNat ≤ 126) :
    Text.isBlank c = false := by
  simp [Text.isBlank, Text.blankRanges]
  omega

/-- What is neither blank nor a slash is no gap. -/
theorem gapLength?_eq_zero (hBlank : Text.isBlank c = false) (hSlash : c ≠ '/') :
    gapLength? (c :: more) = some 0 := by
  rw [gapLength?.eq_3 _ _ (by simp [hSlash]) (by simp [hSlash]), hBlank]
  rfl

theorem isAlpha_eq : c.isAlpha = (decide (c.val ≥ 'A'.val ∧ c.val ≤ 'Z'.val) ||
    decide (c.val ≥ 'a'.val) && decide (c.val ≤ 'z'.val)) := rfl

/-- A name starts with a letter or an underscore. -/
theorem toNat_of_startsName (h : startsName c = true) :
    65 ≤ c.toNat ∧ c.toNat ≤ 90 ∨ c.toNat = 95 ∨ 97 ≤ c.toNat ∧ c.toNat ≤ 122 := by
  simp only [startsName, isAlpha_eq, Bool.or_eq_true, beq_iff_eq, Bool.and_eq_true,
    decide_eq_true_eq, ge_iff_le, UInt32.le_iff_toNat_le] at h
  rcases h with rfl | h | h
  · exact .inr (.inl rfl)
  · exact .inl h
  · exact .inr (.inr h)

theorem continuesName_of_startsName (h : startsName c = true) : continuesName c = true := by
  simp only [startsName, continuesName, Char.isAlphanum, Bool.or_eq_true] at h ⊢
  exact h.imp_right .inl

theorem ne_of_toNat_ne {d : Char} (h : c.toNat ≠ d.toNat) : c ≠ d := fun hEq => h (hEq ▸ rfl)

/-- A name starts neither a gap nor a string nor a number. -/
theorem read_of_startsName (h : startsName c = true) :
    gapLength? (c :: more) = some 0 ∧ read c more = readName (c :: more) := by
  have hNat := toNat_of_startsName h
  have hQuote : c ≠ '"' := ne_of_toNat_ne (by change c.toNat ≠ 34; omega)
  have hSlash : c ≠ '/' := ne_of_toNat_ne (by change c.toNat ≠ 47; omega)
  have hDigit : ¬ c.isDigit = true := fun hDigit => by
    have := toNat_of_isDigit hDigit
    omega
  refine ⟨gapLength?_eq_zero (isBlank_eq_false (by omega) (by omega)) hSlash, ?_⟩
  rw [read, if_neg hQuote, if_neg hDigit, if_pos h]

/-- What starts with a digit is read as a number. -/
theorem read_of_isDigit (h : c.isDigit = true) :
    gapLength? (c :: more) = some 0 ∧ read c more = readNumber (c :: more) := by
  have hNat := toNat_of_isDigit h
  have hQuote : c ≠ '"' := ne_of_toNat_ne (by change c.toNat ≠ 34; omega)
  have hSlash : c ≠ '/' := ne_of_toNat_ne (by change c.toNat ≠ 47; omega)
  refine ⟨gapLength?_eq_zero (isBlank_eq_false (by omega) (by omega)) hSlash, ?_⟩
  rw [read, if_neg hQuote, if_pos h]

end Characters

/-- Characters with which no word or number goes on. -/
def delimiters : List Char := [' ', '\n', '(', ')', ',', ';']

/-- A text after which a word or number is at its end. -/
def Delimits : List Char → Prop
  | [] => True
  | c :: _ => c ∈ delimiters

/-- A text after which a mark is at its end. -/
def IsApart : List Char → Prop
  | [] => True
  | c :: _ => c ∉ ['=', '&', '|', '/', '*']

/-- A letter or underscore, and more of them or digits. -/
def IsName : List Char → Prop
  | [] => False
  | c :: cs => startsName c = true ∧ cs.all continuesName = true

instance : DecidablePred IsName
  | [] => isFalse id
  | c :: cs => inferInstanceAs (Decidable (startsName c = true ∧ cs.all continuesName = true))

-- Facts about all of a few characters are tests on the list of them, which evaluate.
/-- A run of characters ends at a delimiter, if it has none in it. -/
theorem takeWhile_append_of_delimits {p : Char → Bool}
    (hStop : delimiters.all (fun c => !p c) = true)
    {cs rest : List Char} (hCs : ∀ c ∈ cs, p c = true) (hRest : Delimits rest) :
    (cs ++ rest).takeWhile p = cs ∧ (cs ++ rest).dropWhile p = rest := by
  rw [List.takeWhile_append_of_pos hCs, List.dropWhile_append_of_pos hCs]
  cases rest with
  | nil => simp
  | cons c rest =>
      have hC : ¬ p c = true := by simpa using List.all_eq_true.1 hStop c hRest
      rw [List.takeWhile_cons_of_neg hC, List.dropWhile_cons_of_neg hC, List.append_nil]
      exact ⟨rfl, rfl⟩

/-- A token that is the whole of what stands before the rest of a text. -/
theorem Reads.append {first : Char} {more rest : List Char} {kind : Token.Kind}
    {ls : List Lexeme} (hGap : gapLength? (first :: (more ++ rest)) = some 0)
    (hRead : read first (more ++ rest) = .lexeme kind (more.length + 1) 0) (hKind : kind ≠ .eof)
    (h : Reads rest ls) :
    Reads (first :: more ++ rest) ((kind, String.ofList (first :: more)) :: ls) := by
  refine Reads.cons hGap hRead ?_ ?_ hKind h
  · simp
  · simp

/-- What holds of names and of all keywords holds of every word. -/
theorem kind_of_name {P : Token.Kind → Prop} (hIdent : P .ident)
    (hWords : ∀ entry ∈ Token.Kind.words, P entry.2) (name : String) :
    P ((Token.Kind.words.lookup name).getD .ident) := by
  cases hLookup : Token.Kind.words.lookup name with
  | none => exact hIdent
  | some kind =>
      obtain ⟨before, after, hSplit, -⟩ := List.lookup_eq_some_iff.1 hLookup
      exact hWords (name, kind) (by simp [hSplit])

/-- A word of the language or a name. -/
theorem Reads.word {name rest : List Char} {ls : List Lexeme} (hName : IsName name)
    (hRest : Delimits rest) (h : Reads rest ls) :
    Reads (name ++ rest)
      (((Token.Kind.words.lookup (String.ofList name)).getD .ident, String.ofList name) :: ls) := by
  cases name with
  | nil => exact absurd hName id
  | cons c cs =>
      obtain ⟨hStart, hMore⟩ := hName
      have hAll : ∀ d ∈ c :: cs, continuesName d = true :=
        List.forall_mem_cons.2 ⟨continuesName_of_startsName hStart, List.all_eq_true.1 hMore⟩
      obtain ⟨hGap, hRead⟩ := @read_of_startsName c (cs ++ rest) hStart
      refine Reads.append hGap ?_ ?_ h
      · rw [hRead, readName, ← List.cons_append,
          (takeWhile_append_of_delimits (by decide) hAll hRest).1]
        rfl
      · exact @kind_of_name (· ≠ .eof) (by decide) (by decide) _

/-- No fraction starts at a delimiter. -/
theorem fractionLength_of_delimits {rest : List Char} (h : Delimits rest) :
    fractionLength rest = 0 := by
  fun_cases fractionLength rest with
  | case1 => rfl
  | case2 => exact absurd h (by simp [Delimits, delimiters])
  | case3 => rfl

/-- A number that was written is read up to the delimiter after it. -/
theorem readNumber_append {cs rest : List Char} (hCs : Literal.IsText cs) (hRest : Delimits rest) :
    readNumber (cs ++ rest) = .lexeme .number cs.length 0 := by
  have hSecond {c : Char} {tail : List Char} (hC : c ∉ delimiters) (hDigit : c.isDigit = false)
      (hPoint : c ≠ '.') : cs ++ rest ≠ '0' :: c :: tail := by
    refine hCs.append_ne hDigit hPoint fun hHead => hC ?_
    cases rest with
    | nil => cases hHead
    | cons d rest =>
        cases hHead
        exact hRest
  have hDecimal : readNumber (cs ++ rest) =
      .lexeme .number (((cs ++ rest).takeWhile Char.isDigit).length +
        fractionLength ((cs ++ rest).dropWhile Char.isDigit)) 0 := by
    refine readNumber_of_plain fun x digits hText hX => ?_
    have hMarks : ∀ x ∈ radixMarks, x ∉ delimiters ∧ x.isDigit = false ∧ x ≠ '.' := by
      simp [radixMarks, delimiters]
    obtain ⟨hDelimits, hDigit, hPoint⟩ := hMarks x hX
    exact hSecond hDelimits hDigit hPoint hText
  rw [hDecimal]
  cases hCs with
  | whole h =>
      obtain ⟨hTake, hDrop⟩ := takeWhile_append_of_delimits (by decide) h.isDigit hRest
      rw [hTake, hDrop, fractionLength_of_delimits hRest]
      rfl
  | @point whole fraction hWhole hFraction =>
      have hTake := (takeWhile_append_of_delimits (by decide) hFraction.isDigit hRest).1
      have hPoint : ¬ '.'.isDigit = true := by decide
      obtain ⟨d, ds, rfl, -⟩ := hFraction.exists_cons
      rw [List.append_assoc, List.takeWhile_append_of_pos hWhole.isDigit,
        List.dropWhile_append_of_pos hWhole.isDigit, List.cons_append,
        List.takeWhile_cons_of_neg hPoint, List.dropWhile_cons_of_neg hPoint, List.append_nil,
        fractionLength, hTake]
      simp
      omega

/-- A number without a sign. -/
theorem Reads.number {cs rest : List Char} {ls : List Lexeme} (hCs : Literal.IsText cs)
    (hRest : Delimits rest) (h : Reads rest ls) :
    Reads (cs ++ rest) ((.number, String.ofList cs) :: ls) := by
  have hNumber := readNumber_append hCs hRest
  obtain ⟨c, more, rfl, hC⟩ := hCs.exists_cons
  obtain ⟨hGap, hRead⟩ := @read_of_isDigit c (more ++ rest) hC
  exact Reads.append hGap (hRead.trans hNumber) (by decide) h

/-- A string literal. -/
theorem Reads.str {content rest : List Char} {ls : List Lexeme}
    (hContent : ∀ c ∈ content, c ≠ '"' ∧ c ≠ '\n') (h : Reads rest ls) :
    Reads ('"' :: content ++ '"' :: rest) ((.str, String.ofList content) :: ls) := by
  have hTest : ∀ c ∈ content, (fun c => decide (c ≠ '"') && decide (c ≠ '\n')) c = true :=
    fun c hC => by simp [hContent c hC]
  have hTake : (content ++ '"' :: rest).takeWhile (fun c => c ≠ '"' && c ≠ '\n') = content := by
    rw [List.takeWhile_append_of_pos hTest, List.takeWhile_cons_of_neg (by simp), List.append_nil]
  have hRead : read '"' (content ++ '"' :: rest) = .lexeme .str (content.length + 2) 1 := by
    rw [read, if_pos rfl, readString, hTake]
    simp
  refine Reads.cons (gapLength?_eq_zero rfl (by decide)) hRead ?_ ?_ (by decide) h
  · simp
  · simp

/-- A mark is the first of those that a text starts with, if the text after it is apart. -/
theorem find?_marks {rest : List Char} (hRest : IsApart rest) :
    ∀ mark ∈ Token.Kind.marks,
      Token.Kind.marks.find? (fun m => m.1.isPrefixOf (mark.1 ++ rest)) = some mark := by
  cases rest with
  | nil => decide
  | cons c rest =>
      simp only [IsApart, List.mem_cons, List.not_mem_nil, or_false, not_or] at hRest
      obtain ⟨hEqual, hAnd, hOr, -, -⟩ := hRest
      simp [Token.Kind.marks, List.find?_cons, List.isPrefixOf,
        beq_false_of_ne (Ne.symm hEqual), beq_false_of_ne (Ne.symm hAnd),
        beq_false_of_ne (Ne.symm hOr)]

/-- A slash is no gap if what follows does not make it a comment. -/
theorem gapLength?_slash {rest : List Char} (hRest : IsApart rest) :
    gapLength? ('/' :: rest) = some 0 := by
  have hApart (c : Char) (more : List Char) (hC : c ∈ ['/', '*']) : rest ≠ c :: more := by
    rintro rfl
    simp only [IsApart, List.mem_cons, List.not_mem_nil, or_false, not_or] at hRest hC
    rcases hC with hSlash | hStar
    · exact hRest.2.2.2.1 hSlash
    · exact hRest.2.2.2.2 hStar
  rw [gapLength?.eq_3 _ _ (fun more _ => hApart '/' more (by decide))
    (fun more _ => hApart '*' more (by decide))]
  rfl

/-- A mark. -/
theorem Reads.mark {spelling rest : List Char} {kind : Token.Kind} {ls : List Lexeme}
    (hMem : (spelling, kind) ∈ Token.Kind.marks) (hRest : IsApart rest) (h : Reads rest ls) :
    Reads (spelling ++ rest) ((kind, String.ofList spelling) :: ls) := by
  have hMarks : ∀ mark ∈ Token.Kind.marks, mark.2 ≠ .eof ∧ mark.1.head?.any (fun c =>
      c != '"' && !c.isDigit && !startsName c && !Text.isBlank c &&
      (c != '/' || mark.1 == ['/'])) = true := by decide
  obtain ⟨hKind, hAny⟩ := hMarks _ hMem
  obtain ⟨c, hHead, hTest⟩ := (Option.any_eq_true _ _).1 hAny
  simp only [Bool.and_eq_true, Bool.or_eq_true, bne_iff_ne, Bool.not_eq_true', beq_iff_eq] at hTest
  obtain ⟨⟨⟨⟨hQuote, hDigit⟩, hName⟩, hBlank⟩, hSlash⟩ := hTest
  have hFind := find?_marks hRest _ hMem
  cases spelling with
  | nil => cases hHead
  | cons d more =>
      cases hHead
      refine Reads.append ?_ ?_ hKind h
      · by_cases hC : c = '/'
        · cases hSlash.resolve_left (not_not_intro hC)
          exact gapLength?_slash hRest
        · exact gapLength?_eq_zero hBlank hC
      · simp only [List.cons_append] at hFind
        rw [read, if_neg hQuote, if_neg (by simp [hDigit]), if_neg (by simp [hName]), readMark,
          hFind]
        rfl

end Scan

/-- The texts that tokens of a kind can have. -/
def Token.Kind.Spells (kind : Token.Kind) (text : String) : Prop :=
  match kind with
  | .ident | .type => Scan.IsName text.toList ∧ (words.lookup text).getD .ident = kind
  | .str => ∀ c ∈ text.toList, c ≠ '"' ∧ c ≠ '\n'
  | _ => True

/-- A word spells the token that it is looked up as. -/
theorem Token.Kind.spells_of_isName {kind : Token.Kind} {text : String}
    (hName : Scan.IsName text.toList) (hKind : (words.lookup text).getD .ident = kind)
    (hStr : kind ≠ .str) : kind.Spells text := by
  fun_cases Spells kind text with
  | case1 => exact ⟨hName, hKind⟩
  | case2 => exact ⟨hName, hKind⟩
  | case3 => exact absurd rfl hStr
  | case4 => trivial

theorem Token.Kind.spells_of_ne {kind : Token.Kind} {text : String} (hIdent : kind ≠ .ident)
    (hType : kind ≠ .type) (hStr : kind ≠ .str) : kind.Spells text := by
  fun_cases Spells kind text with
  | case1 => exact absurd rfl hIdent
  | case2 => exact absurd rfl hType
  | case3 => exact absurd rfl hStr
  | case4 => trivial

/-- What can be read from a text. A number has no sign, but it can be too large. -/
def Vocabulary.lexed : Vocabulary :=
  ⟨Token.Kind.Spells, fun value => value.IsFinite → value.IsPlain⟩

namespace Scan

theorem notMem_takeWhile {p : Char → Bool} {c : Char} (hC : p c = false) (cs : List Char) :
    c ∉ cs.takeWhile p := fun hMem => by
  have hP := List.mem_takeWhile_imp hMem
  rw [hC] at hP
  cases hP

section Readers

variable {s : Scan} {first : Char} {rest : List Char} {kind : Token.Kind} {length quotes : Nat}

/-- A string that was read has no quote and no line break in it. -/
theorem covers_of_readString (hRest : s.rest = '"' :: rest) :
    readString rest = .lexeme kind length quotes →
      Vocabulary.lexed.Covers (s.token kind length quotes) := by
  fun_cases readString rest with
  | case1 content tail hEnd =>
      rintro ⟨⟩
      refine ⟨fun c hC => ?_, fun hKind => by cases hKind⟩
      simp only [token, hRest, String.toList_ofList, Nat.add_succ_sub_one, List.take_succ_cons,
        List.drop_succ_cons, List.drop_zero, content, take_length_takeWhile] at hC
      simpa using List.mem_takeWhile_imp hC
  | case2 => rintro ⟨⟩
  | case3 => rintro ⟨⟩

/-- The digits after a base have no sign among them. -/
theorem notMem_take_of_readRadix {isDigit : Char → Bool} {error : Token.Error} {second : Char}
    (hDigit : isDigit '-' = false) (hFirst : '-' ≠ first) (hSecond : '-' ≠ second) :
    readRadix isDigit error rest = .lexeme kind length quotes →
      kind = .number ∧ quotes = 0 ∧ '-' ∉ (first :: second :: rest).take length := by
  fun_cases readRadix isDigit error rest with
  | case1 => rintro ⟨⟩
  | case2 count hCount =>
      rintro ⟨⟩
      refine ⟨rfl, rfl, ?_⟩
      rw [show count + 1 = _ from hCount.symm, Nat.add_comm 2, List.take_succ_cons,
        List.take_succ_cons, take_length_takeWhile, List.mem_cons, List.mem_cons]
      simp [hFirst, hSecond, notMem_takeWhile hDigit]

/-- There is no sign in a fraction. -/
theorem notMem_take_fractionLength (cs : List Char) : '-' ∉ cs.take (fractionLength cs) := by
  fun_cases fractionLength cs with
  | case1 => simp
  | case2 rest count hCount =>
      rw [show count + 1 = _ from hCount.symm, Nat.add_comm 1, List.take_succ_cons,
        take_length_takeWhile, List.mem_cons]
      simp [notMem_takeWhile (show Char.isDigit '-' = false from rfl)]
  | case3 => simp

/-- A number has no sign. -/
theorem notMem_take_of_readNumber {text : List Char} :
    readNumber text = .lexeme kind length quotes →
      kind = .number ∧ quotes = 0 ∧ '-' ∉ text.take length := by
  fun_cases readNumber text with
  | case1 => exact notMem_take_of_readRadix (by decide) (by decide) (by decide)
  | case2 => exact notMem_take_of_readRadix (by decide) (by decide) (by decide)
  | case3 => exact notMem_take_of_readRadix (by decide) (by decide) (by decide)
  | case4 => exact notMem_take_of_readRadix (by decide) (by decide) (by decide)
  | case5 =>
      rintro ⟨⟩
      have hTake := @List.take_length_add_append _ (text.takeWhile Char.isDigit)
        (text.dropWhile Char.isDigit) (fractionLength (text.dropWhile Char.isDigit))
      rw [List.takeWhile_append_dropWhile] at hTake
      refine ⟨rfl, rfl, ?_⟩
      rw [hTake, List.mem_append]
      simp [notMem_takeWhile (show Char.isDigit '-' = false from rfl), notMem_take_fractionLength]

/-- A number that was read is one that can be written. -/
theorem covers_of_readNumber (hRest : s.rest = first :: rest) (hDigit : first.isDigit = true)
    (hRead : readNumber (first :: rest) = .lexeme kind length quotes) :
    Vocabulary.lexed.Covers (s.token kind length quotes) := by
  obtain ⟨rfl, rfl, hMinus⟩ := notMem_take_of_readNumber hRead
  obtain ⟨count, rfl⟩ := Nat.exists_eq_add_of_lt (pos_of_readNumber (by simp [hDigit]) hRead)
  refine ⟨trivial, fun _ value hValue hFinite => ?_⟩
  simp only [token, hRest, Nat.sub_zero, List.drop_zero, String.toList_ofList, Nat.zero_add,
    List.take_succ_cons, List.mem_cons, not_or] at hValue hMinus
  exact Literal.isPlain_of_read? hDigit hMinus.2 hValue hFinite

/-- The words of the language are names. -/
theorem covers_of_isName {t : Token} (hName : IsName t.text.toList)
    (hKind : (Token.Kind.words.lookup t.text).getD .ident = t.kind) :
    Vocabulary.lexed.Covers t := by
  have hOther := @kind_of_name (fun kind => kind ≠ .number ∧ kind ≠ .str) (by decide) (by decide)
    t.text
  rw [hKind] at hOther
  refine ⟨?_, fun hNumber => absurd hNumber hOther.1⟩
  exact Token.Kind.spells_of_isName hName hKind hOther.2

/-- A word that was read spells its token. -/
theorem covers_of_readName (hRest : s.rest = first :: rest) (hFirst : startsName first = true)
    (hRead : readName (first :: rest) = .lexeme kind length quotes) :
    Vocabulary.lexed.Covers (s.token kind length quotes) := by
  unfold readName at hRead
  cases hRead
  have hText : (s.token ((Token.Kind.words.lookup
      (String.ofList ((first :: rest).takeWhile continuesName))).getD .ident)
      ((first :: rest).takeWhile continuesName).length 0).text =
      String.ofList ((first :: rest).takeWhile continuesName) := by
    simp only [token, hRest, Nat.sub_zero, List.drop_zero, take_length_takeWhile]
  refine covers_of_isName ?_ ?_
  · rw [hText, String.toList_ofList,
      List.takeWhile_cons_of_pos (continuesName_of_startsName hFirst)]
    exact ⟨hFirst, List.all_eq_true.2 fun d hD => List.mem_takeWhile_imp hD⟩
  · rw [hText]
    rfl

/-- A mark that was read needs no words. -/
theorem covers_of_readMark : readMark first rest = .lexeme kind length quotes →
    Vocabulary.lexed.Covers (s.token kind length quotes) := by
  have hMarks : ∀ mark ∈ Token.Kind.marks, mark.2 ∉ [.ident, .type, .str, .number] := by decide
  fun_cases readMark first rest with
  | case1 mark hFind =>
      rintro ⟨⟩
      have hKind := hMarks mark (List.mem_of_find?_eq_some hFind)
      simp only [List.mem_cons, List.not_mem_nil, or_false, not_or] at hKind
      obtain ⟨hIdent, hType, hStr, hNumber⟩ := hKind
      exact ⟨Token.Kind.spells_of_ne hIdent hType hStr, fun h => absurd h hNumber⟩
  | case2 => rintro ⟨⟩

/-- Whatever was read is in the vocabulary of the lexer. -/
theorem covers_of_read (hRest : s.rest = first :: rest) :
    read first rest = .lexeme kind length quotes →
      Vocabulary.lexed.Covers (s.token kind length quotes) := by
  fun_cases read first rest with
  | case1 hQuote => exact covers_of_readString (hQuote ▸ hRest)
  | case2 _ hDigit => exact covers_of_readNumber hRest hDigit
  | case3 _ _ hName => exact covers_of_readName hRest hName
  | case4 => exact covers_of_readMark

end Readers

/-- So is each token that a scan gives. -/
theorem covers_of_next {s after : Scan} {t : Token} : s.next = (.ok t, after) → t.kind ≠ .eof →
    Vocabulary.lexed.Covers t := by
  fun_cases next s with
  | case1 => rintro ⟨⟩
  | case2 =>
      rintro ⟨⟩ hKind
      exact absurd rfl hKind
  | case3 start closed hSkip hClosed first rest hRest kind length quotes hRead =>
      rintro ⟨⟩ -
      exact covers_of_read hRest hRead
  | case4 => rintro ⟨⟩

/-- The tokens of a text are made of what can be read from one. -/
theorem covers_of_tokens {s : Scan} {ts : List Token} (h : s.tokens = .ok ts) :
    ∀ t ∈ ts, Vocabulary.lexed.Covers t := by
  fun_induction tokens s generalizing ts with
  | case1 => cases h
  | case2 =>
      cases h
      exact List.forall_mem_nil _
  | case3 => cases h
  | case4 _ t after hNext hEnd _ rest hOk ih =>
      cases h
      exact List.forall_mem_cons.2 ⟨covers_of_next hNext hEnd, ih hOk⟩

end Scan

/-- The tokens of a text are in the vocabulary of the lexer. -/
theorem Token.covers_of_ofText {text : String} {ts : List Token} (h : Token.ofText text = .ok ts) :
    ∀ t ∈ ts, Vocabulary.lexed.Covers t := by
  rw [Token.ofText_eq] at h
  exact Scan.covers_of_tokens h

end WasmCompiler
