import WasmCompiler.Text.Slice
import WasmCompiler.Token.Scan

/-! Cutting a text into tokens by offset. The lexer keeps its text and the offset up to which it
has read, and it looks at the text at offsets that it computes. There is no character at an offset
inside a character and no part of a text up to such an offset, so any step could fail. None does:
the lexer is always where a scan of the text is. -/

namespace WasmCompiler

/-- A text and the offset of its first byte that has not been read. -/
structure Lexer where
  text : String
  offset : Nat
  deriving DecidableEq, Repr

namespace Lexer

/-- A token or an error, and the lexer after it. -/
abbrev Answer := Except (Located Token.Error) Token × Lexer

/-- The lexer of a whole text. -/
def ofText (text : String) : Lexer := ⟨text, 0⟩

/-- The character that comes next; there is none at the end. -/
def peek? (l : Lexer) : Option (Option Char) := Text.charAt? l.text l.offset

/-- The lexer some bytes later. -/
def skip (l : Lexer) (bytes : Nat) : Lexer := { l with offset := l.offset + bytes }

/-- The number of bytes that have not been read. -/
def left (l : Lexer) : Nat := l.text.utf8ByteSize - l.offset

end Lexer

theorem byteLength_pos {cs : List Char} (h : cs ≠ []) : 0 < byteLength cs := by
  cases cs with
  | nil => exact absurd rfl h
  | cons c cs => exact Nat.add_pos_left c.utf8Size_pos _

namespace Scan

variable {s : Scan} {text : String}

/-- The lexer of a text that has read up to where the scan is. -/
def lexer (s : Scan) (text : String) : Lexer := ⟨text, s.offset⟩

/-- What a scan has left is the end of a text, from its offset on. -/
def IsOf (s : Scan) (text : String) : Prop :=
  ∃ front, text.toList = front ++ s.rest ∧ s.offset = byteLength front

theorem isOf_ofText (text : String) : (ofText text).IsOf text := ⟨[], rfl, rfl⟩

/-- A scan of a text stays one where it goes on. -/
theorem IsOf.drop (h : s.IsOf text) (count : Nat) : (s.drop count).IsOf text := by
  obtain ⟨front, hText, hOffset⟩ := h
  refine ⟨front ++ s.rest.take count, ?_, ?_⟩
  · rw [hText, List.append_assoc, Scan.drop, List.take_append_drop]
  · rw [byteLength_append, ← hOffset, Scan.drop]

/-- The lexer sees the first character of the rest. -/
theorem IsOf.peek?_lexer (h : s.IsOf text) : (s.lexer text).peek? = some s.rest.head? := by
  obtain ⟨front, hText, hOffset⟩ := h
  rw [Lexer.peek?, lexer, hOffset]
  exact Text.charAt?_append hText

/-- The lexer has as many bytes left as the rest has. -/
theorem IsOf.left_lexer (h : s.IsOf text) : (s.lexer text).left = byteLength s.rest := by
  obtain ⟨front, hText, hOffset⟩ := h
  rw [Lexer.left, lexer, utf8ByteSize_eq_byteLength, hText, byteLength_append, hOffset,
    Nat.add_sub_cancel_left]

/-- Of two scans of one text, the one that has fewer characters left has fewer bytes left. -/
theorem IsOf.left_lt {s' : Scan} (h : s.IsOf text) (h' : s'.IsOf text)
    (hLt : s'.rest.length < s.rest.length) : (s'.lexer text).left < (s.lexer text).left := by
  rw [h.left_lexer, h'.left_lexer]
  obtain ⟨front, hText, -⟩ := h
  obtain ⟨front', hText', -⟩ := h'
  obtain ⟨more, hMore⟩ := List.suffix_of_suffix_length_le ⟨front', hText'.symm⟩
    ⟨front, hText.symm⟩ (Nat.le_of_lt hLt)
  have hSome : more ≠ [] := by
    rintro rfl
    rw [← hMore] at hLt
    exact Nat.lt_irrefl _ hLt
  rw [← hMore, byteLength_append]
  exact Nat.lt_add_of_pos_left (byteLength_pos hSome)

/-- A lexer that is between characters is where a scan is. -/
theorem exists_isOf {l : Lexer} {first : Option Char} (h : l.peek? = some first) :
    ∃ s : Scan, s.IsOf l.text ∧ s.lexer l.text = l ∧ s.rest.head? = first := by
  obtain ⟨front, back, hText, hOffset, hFirst⟩ := Text.exists_of_charAt? h
  exact ⟨⟨l.offset, back⟩, ⟨front, hText, hOffset⟩, rfl, hFirst⟩

theorem drop_drop (s : Scan) (m n : Nat) : (s.drop m).drop n = s.drop (m + n) := by
  simp only [drop, List.take_add, byteLength_append, List.drop_drop, Nat.add_assoc]

theorem offset_drop (s : Scan) (count : Nat) :
    (s.drop count).offset = s.offset + byteLength (s.rest.take count) := rfl

theorem length_drop_le (s : Scan) (count : Nat) : (s.drop count).rest.length ≤ s.rest.length := by
  rw [drop, List.length_drop]
  exact Nat.sub_le _ _

theorem rest_drop_takeWhile (s : Scan) (test : Char → Bool) :
    (s.drop (s.rest.takeWhile test).length).rest = s.rest.dropWhile test :=
  drop_length_takeWhile test s.rest

/-- The lexer after some characters is as many bytes later as these have. -/
theorem lexer_drop (s : Scan) (count : Nat) :
    (s.drop count).lexer text = (s.lexer text).skip (byteLength (s.rest.take count)) := rfl

/-- Skipping the bytes of a character is dropping the character. -/
theorem skip_lexer {c : Char} {rest : List Char} (hRest : s.rest = c :: rest) :
    (s.lexer text).skip c.utf8Size = (s.drop 1).lexer text := by
  rw [lexer_drop, hRest]
  rfl

theorem rest_drop_one {c : Char} {rest : List Char} (hRest : s.rest = c :: rest) :
    (s.drop 1).rest = rest := by
  rw [drop, hRest, List.drop_one, List.tail_cons]

end Scan

namespace Lexer

open Scan

/-- Skipping a character leaves fewer bytes. -/
theorem left_skip_lt {l : Lexer} {c : Char} (h : l.peek? = some (some c)) :
    (l.skip c.utf8Size).left < l.left := by
  obtain ⟨s, hIsOf, hLexer, hFirst⟩ := exists_isOf h
  obtain ⟨rest, hRest⟩ := List.head?_eq_some_iff.1 hFirst
  have hLess : (s.drop 1).rest.length < s.rest.length := by
    rw [rest_drop_one hRest, hRest]
    exact Nat.lt_succ_self _
  have hLeft := hIsOf.left_lt (hIsOf.drop 1) hLess
  rwa [← skip_lexer hRest, hLexer] at hLeft

/-- The lexer after the characters that satisfy a test. -/
def skipWhile? (test : Char → Bool) (l : Lexer) : Option Lexer :=
  match h : l.peek? with
  | none => none
  | some none => some l
  | some (some c) =>
    if test c then
      have := left_skip_lt h
      skipWhile? test (l.skip c.utf8Size)
    else some l
termination_by l.left

/-- Whether a text goes on with `mark` where the lexer is. -/
def startsWith? : List Char → Lexer → Option Bool
  | [], l => l.peek?.map fun _ => true
  | c :: mark, l => do
    let first ← l.peek?
    if first = some c then startsWith? mark (l.skip c.utf8Size) else return false

/-- The lexer at the first place from here on where the text goes on with `mark`. -/
def seek? (mark : List Char) (l : Lexer) : Option (Option Lexer) :=
  match l.startsWith? mark with
  | none => none
  | some true => some (some l)
  | some false =>
    match h : l.peek? with
    | none => none
    | some none => some none
    | some (some c) =>
      have := left_skip_lt h
      seek? mark (l.skip c.utf8Size)
termination_by l.left

/-- Characters are skipped one by one, as long as they pass the test. -/
theorem skipWhile?_eq (test : Char → Bool) (l : Lexer) :
    l.skipWhile? test = l.peek?.bind fun
      | none => some l
      | some c => if test c then (l.skip c.utf8Size).skipWhile? test else some l := by
  fun_cases skipWhile? test l with
  | case1 hNone => rw [hNone, Option.bind_none]
  | case2 hNil => rw [hNil, Option.bind_some]
  | case3 c hCons hTest => simp only [hCons, Option.bind_some, if_pos hTest]
  | case4 c hCons hTest => simp only [hCons, Option.bind_some, if_neg hTest]

theorem skipWhile?_of_none {test : Char → Bool} {l : Lexer} (h : l.peek? = none) :
    l.skipWhile? test = none := by
  rw [skipWhile?_eq, h, Option.bind_none]

theorem skipWhile?_of_nil {test : Char → Bool} {l : Lexer} (h : l.peek? = some none) :
    l.skipWhile? test = some l := by
  rw [skipWhile?_eq, h, Option.bind_some]

theorem skipWhile?_of_cons {test : Char → Bool} {l : Lexer} {c : Char}
    (h : l.peek? = some (some c)) :
    l.skipWhile? test = if test c then (l.skip c.utf8Size).skipWhile? test else some l := by
  rw [skipWhile?_eq, h, Option.bind_some]

theorem seek?_of_true {mark : List Char} {l : Lexer} (h : l.startsWith? mark = some true) :
    l.seek? mark = some (some l) := by
  rw [seek?, h]

/-- A mark that does not stand here is looked for after the next character. -/
theorem seek?_of_false {mark : List Char} {l : Lexer} (h : l.startsWith? mark = some false) :
    l.seek? mark = l.peek?.bind fun
      | none => some none
      | some c => (l.skip c.utf8Size).seek? mark := by
  fun_cases seek? mark l with
  | case1 hNone => cases h.symm.trans hNone
  | case2 hTrue => cases h.symm.trans hTrue
  | case3 _ hNone => rw [hNone, Option.bind_none]
  | case4 _ hNil => rw [hNil, Option.bind_some]
  | case5 _ c hCons => rw [hCons, Option.bind_some]

theorem seek?_of_nil {mark : List Char} {l : Lexer} (hStarts : l.startsWith? mark = some false)
    (h : l.peek? = some none) : l.seek? mark = some none := by
  rw [seek?_of_false hStarts, h, Option.bind_some]

theorem seek?_of_cons {mark : List Char} {l : Lexer} {c : Char}
    (hStarts : l.startsWith? mark = some false) (h : l.peek? = some (some c)) :
    l.seek? mark = (l.skip c.utf8Size).seek? mark := by
  rw [seek?_of_false hStarts, h, Option.bind_some]

/-- What was found at the end of some blanks: a comment, neither blank nor comment, or a comment
that is not closed. -/
inductive Gap where
  | comment
  | finish
  | unclosed
  deriving DecidableEq, Repr

/-- A comment, if there is one here, and the lexer after it. -/
def comment? (l : Lexer) : Option (Gap × Lexer) := do
  if ← l.startsWith? ['/', '/'] then
    let after ← l.skipWhile? (· ≠ '\n')
    return (.comment, after)
  else if ← l.startsWith? ['/', '*'] then
    match ← (l.skip 2).seek? ['*', '/'] with
    | some stop => return (.comment, stop.skip 2)
    | none => return (.unclosed, l)
  else return (.finish, l)

/-- Blanks and at most one comment, and the lexer after them. -/
def gap? (l : Lexer) : Option (Gap × Lexer) := do
  let start ← l.skipWhile? Text.isBlank
  start.comment?

end Lexer

namespace Scan

variable {s : Scan} {text : String}

/-- A lexer goes on over as many bytes as the characters have that satisfy a test. -/
theorem IsOf.skipWhile?_lexer (test : Char → Bool) (h : s.IsOf text) :
    (s.lexer text).skipWhile? test =
      some ((s.drop (s.rest.takeWhile test).length).lexer text) := by
  have hPeek := h.peek?_lexer
  induction hRest : s.rest generalizing s with
  | nil =>
    rw [hRest] at hPeek
    exact Lexer.skipWhile?_of_nil hPeek
  | cons c rest ih =>
    rw [hRest] at hPeek
    rw [Lexer.skipWhile?_of_cons hPeek, skip_lexer hRest, List.takeWhile_cons]
    have hDrop := h.drop 1
    by_cases hTest : test c = true
    · rw [if_pos hTest, if_pos hTest, ih hDrop hDrop.peek?_lexer (rest_drop_one hRest), drop_drop,
        List.length_cons, Nat.add_comm]
    · rw [if_neg hTest, if_neg hTest]
      rfl

/-- A lexer sees whether a scan goes on with a mark. -/
theorem IsOf.startsWith?_lexer (mark : List Char) (h : s.IsOf text) :
    (s.lexer text).startsWith? mark = some (mark.isPrefixOf s.rest) := by
  induction mark generalizing s with
  | nil =>
    rw [Lexer.startsWith?, h.peek?_lexer]
    rfl
  | cons c mark ih =>
    simp only [Lexer.startsWith?, h.peek?_lexer, Option.bind_eq_bind, Option.bind_some]
    cases hRest : s.rest with
    | nil => rfl
    | cons d rest =>
      by_cases hSame : d = c
      · subst hSame
        rw [List.head?_cons, if_pos rfl, skip_lexer hRest, ih (h.drop 1), rest_drop_one hRest,
          List.isPrefixOf_cons_cons, beq_self_eq_true, Bool.true_and]
      · rw [List.head?_cons, if_neg (mt Option.some.inj hSame), List.isPrefixOf_cons_cons,
          beq_false_of_ne (Ne.symm hSame), Bool.false_and]
        rfl

/-- Leading blanks are skipped. -/
theorem skipGaps_drop_blanks (s : Scan) :
    (s.drop (s.rest.takeWhile Text.isBlank).length).skipGaps = s.skipGaps := by
  induction hRest : s.rest generalizing s with
  | nil => rfl
  | cons c rest ih =>
    rw [List.takeWhile_cons]
    by_cases hBlank : Text.isBlank c = true
    · have hGap : gapLength? s.rest = some (0 + 1) := by
        rw [hRest, gapLength?_of_isBlank hBlank]
      rw [if_pos hBlank, List.length_cons, skipGaps_of_succ hGap, ← ih _ (rest_drop_one hRest),
        drop_drop, Nat.add_comm]
    · rw [if_neg hBlank]
      rfl

/-- The search for the mark that closes a comment ends where counting up to the end of the mark
does, two characters earlier. -/
theorem IsOf.seek?_lexer (h : s.IsOf text) :
    match commentEnd? s.rest with
    | none => (s.lexer text).seek? ['*', '/'] = some none
    | some count => ∃ stop, (s.lexer text).seek? ['*', '/'] = some (some stop) ∧
        stop.skip 2 = (s.drop count).lexer text := by
  generalize hRest : s.rest = rest
  have hStarts := h.startsWith?_lexer ['*', '/']
  have hPeek := h.peek?_lexer
  fun_induction commentEnd? rest generalizing s with
  | case1 rest =>
    rw [hRest] at hStarts
    refine ⟨_, Lexer.seek?_of_true hStarts, ?_⟩
    rw [lexer_drop, hRest]
    rfl
  | case2 c rest hOpen ih =>
    have hPrefix : ['*', '/'].isPrefixOf (c :: rest) = false := by
      cases rest with
      | nil => simp [List.isPrefixOf]
      | cons d rest =>
        by_cases hStar : c = '*'
        · have hSlash : d ≠ '/' := fun hSlash => hOpen rest hStar (by rw [hSlash])
          simp [List.isPrefixOf, hSlash.symm]
        · simp [List.isPrefixOf, Ne.symm hStar]
    have hDrop := h.drop 1
    have hNext := rest_drop_one hRest
    have hSeek := ih hDrop hNext (hDrop.startsWith?_lexer _) hDrop.peek?_lexer
    rw [hRest, hPrefix] at hStarts
    rw [hRest] at hPeek
    rw [Lexer.seek?_of_cons hStarts hPeek, skip_lexer hRest]
    cases hEnd : commentEnd? rest with
    | none =>
      rw [hEnd] at hSeek
      exact hSeek
    | some count =>
      rw [hEnd] at hSeek
      obtain ⟨stop, hStop, hSkip⟩ := hSeek
      refine ⟨stop, hStop, ?_⟩
      rw [hSkip, drop_drop, Nat.add_comm]
  | case3 =>
    rw [hRest] at hStarts hPeek
    exact Lexer.seek?_of_nil hStarts hPeek

/-- What is neither blank nor the start of a comment is no gap. -/
theorem gapLength?_of_other {rest : List Char} (hLine : ['/', '/'].isPrefixOf rest = false)
    (hBlock : ['/', '*'].isPrefixOf rest = false)
    (hBlank : ∀ c ∈ rest.head?, Text.isBlank c = false) : gapLength? rest = some 0 := by
  fun_cases gapLength? rest with
  | case1 => cases hLine
  | case2 => cases hBlock
  | case3 c rest _ _ hC => cases hC.symm.trans (hBlank c rfl)
  | case4 => rfl
  | case5 => rfl

/-- A comment is skipped if it is one to the scan. -/
theorem IsOf.comment?_lexer (h : s.IsOf text)
    (hBlank : ∀ c ∈ s.rest.head?, Text.isBlank c = false) :
    (s.lexer text).comment? = some (match gapLength? s.rest with
      | none => (.unclosed, s.lexer text)
      | some 0 => (.finish, s.lexer text)
      | some (count + 1) => (.comment, (s.drop (count + 1)).lexer text)) := by
  simp only [Lexer.comment?, h.startsWith?_lexer, Option.bind_eq_bind, Option.bind_some]
  by_cases hLine : ['/', '/'].isPrefixOf s.rest = true
  · obtain ⟨more, hMore⟩ := List.isPrefixOf_iff_prefix.1 hLine
    have hTake : (s.rest.takeWhile (· ≠ '\n')).length =
        1 + (more.takeWhile (· ≠ '\n')).length + 1 := by
      simp [← hMore, Nat.add_comm 1]
    have hGap : gapLength? s.rest = some (1 + (more.takeWhile (· ≠ '\n')).length + 1) := by
      rw [← hMore, List.cons_append, List.cons_append, List.nil_append, gapLength?]
      exact congrArg some (by omega)
    rw [if_pos hLine, h.skipWhile?_lexer, hGap, hTake]
    rfl
  rw [if_neg hLine]
  by_cases hBlock : ['/', '*'].isPrefixOf s.rest = true
  · obtain ⟨more, hMore⟩ := List.isPrefixOf_iff_prefix.1 hBlock
    -- the two characters of the mark have one byte each
    have hSkip : (s.lexer text).skip 2 = (s.drop 2).lexer text := by
      rw [lexer_drop, ← hMore]
      rfl
    have hBody : (s.drop 2).rest = more := by
      rw [Scan.drop, ← hMore]
      rfl
    have hGap : gapLength? s.rest = (commentEnd? more).map (2 + ·) := by
      rw [← hMore]
      rfl
    have hClose := (h.drop 2).seek?_lexer
    rw [if_pos hBlock, hSkip, hGap]
    rw [hBody] at hClose
    cases hEnd : commentEnd? more with
    | none =>
      rw [hEnd] at hClose
      rw [hClose]
      rfl
    | some count =>
      rw [hEnd] at hClose
      obtain ⟨stop, hStop, hAfter⟩ := hClose
      rw [drop_drop] at hAfter
      rw [hStop, Option.map_some, show 2 + count = 1 + count + 1 by omega]
      rw [show 2 + count = 1 + count + 1 by omega] at hAfter
      exact congrArg (fun after => some (Lexer.Gap.comment, after)) hAfter
  rw [if_neg hBlock,
    gapLength?_of_other (Bool.eq_false_iff.2 hLine) (Bool.eq_false_iff.2 hBlock) hBlank]
  rfl

/-- A turn of the lexer over blanks and a comment ends where the scan is after these. -/
theorem IsOf.gap?_lexer (h : s.IsOf text) {start : Scan}
    (hStart : s.drop (s.rest.takeWhile Text.isBlank).length = start) :
    (s.lexer text).gap? = some (match gapLength? start.rest with
      | none => (.unclosed, start.lexer text)
      | some 0 => (.finish, start.lexer text)
      | some (count + 1) => (.comment, (start.drop (count + 1)).lexer text)) := by
  have hBlank : ∀ c ∈ start.rest.head?, Text.isBlank c = false := by
    intro c hC
    have hStop := List.head?_dropWhile_not Text.isBlank s.rest
    rw [← rest_drop_takeWhile, hStart, Option.mem_def.1 hC] at hStop
    exact hStop
  have hIsOf : start.IsOf text := hStart ▸ h.drop _
  rw [Lexer.gap?, h.skipWhile?_lexer, hStart]
  exact hIsOf.comment?_lexer hBlank

end Scan

namespace Lexer

open Scan

/-- A lexer that finds the end of a gap is where a scan of the text is. -/
theorem exists_isOf_of_gap? {l : Lexer} {turn : Gap × Lexer} (h : l.gap? = some turn) :
    ∃ s : Scan, s.IsOf l.text ∧ s.lexer l.text = l := by
  cases hPeek : l.peek? with
  | none =>
    rw [gap?, skipWhile?_of_none hPeek] at h
    cases h
  | some first =>
    obtain ⟨s, hIsOf, hLexer, -⟩ := exists_isOf hPeek
    exact ⟨s, hIsOf, hLexer⟩

/-- A turn that finds a comment goes on. -/
theorem left_lt_of_gap? {l after : Lexer} (h : l.gap? = some (.comment, after)) :
    after.left < l.left := by
  obtain ⟨s, hIsOf, hLexer⟩ := exists_isOf_of_gap? h
  have hGap := hIsOf.gap?_lexer rfl
  have hLe := length_drop_le s (s.rest.takeWhile Text.isBlank).length
  have hStart := hIsOf.drop (s.rest.takeWhile Text.isBlank).length
  rw [hLexer, h] at hGap
  generalize s.drop (s.rest.takeWhile Text.isBlank).length = start at hGap hLe hStart
  cases hLength : gapLength? start.rest with
  | none =>
    rw [hLength] at hGap
    cases hGap
  | some length =>
    cases length with
    | zero =>
      rw [hLength] at hGap
      cases hGap
    | succ count =>
      rw [hLength] at hGap
      cases hGap
      have hLeft := hIsOf.left_lt (hStart.drop (count + 1))
        (Nat.lt_of_lt_of_le (drop_length_lt hLength) hLe)
      rwa [hLexer] at hLeft

/-- The lexer after all blanks and comments, and whether these end: a comment that is not closed is
not skipped. -/
def skipGaps? (l : Lexer) : Option (Lexer × Bool) :=
  match h : l.gap? with
  | none => none
  | some (.comment, after) =>
    have := left_lt_of_gap? h
    skipGaps? after
  | some (.finish, after) => some (after, true)
  | some (.unclosed, after) => some (after, false)
termination_by l.left

/-- Gaps are skipped one by one, up to what is neither blank nor comment. -/
theorem skipGaps?_eq (l : Lexer) : l.skipGaps? = l.gap?.bind fun (found, after) =>
    match found with
    | .comment => after.skipGaps?
    | .finish => some (after, true)
    | .unclosed => some (after, false) := by
  fun_cases skipGaps? l with
  | case1 hNone =>
    rw [hNone]
    rfl
  | case2 after hGap =>
    rw [hGap]
    rfl
  | case3 after hGap =>
    rw [hGap]
    rfl
  | case4 after hGap =>
    rw [hGap]
    rfl

/-- The token from an offset to where the lexer is. -/
def token? (l : Lexer) (kind : Token.Kind) (start : Nat) : Option Token := do
  let text ← Text.between? l.text start l.offset
  return ⟨kind, text, ⟨start, l.offset⟩⟩

/-- A name, or a word of the language. -/
def name? (l : Lexer) : Option Answer := do
  let after ← l.skipWhile? continuesName
  let word ← Text.between? l.text l.offset after.offset
  let t ← after.token? ((Token.Kind.words.lookup word).getD .ident) l.offset
  return (.ok t, after)

/-- A number after the two characters that give its base. -/
def radix? (isDigit : Char → Bool) (error : Token.Error) (l : Lexer) : Option Answer := do
  let after ← (l.skip 2).skipWhile? isDigit
  if after.offset = l.offset + 2 then return (.error ⟨error, .point l.offset⟩, after)
  else
    let t ← after.token? .number l.offset
    return (.ok t, after)

/-- The lexer after a point and digits; a point that no digit follows is not skipped. -/
def skipFraction? (l : Lexer) : Option Lexer := do
  if (← l.peek?) = some '.' then
    let digit ← (l.skip 1).peek?
    if digit.any Char.isDigit then (l.skip 1).skipWhile? Char.isDigit else return l
  else return l

/-- Whether a text goes on with one of two marks. -/
def startsWithEither? (l : Lexer) (mark other : List Char) : Option Bool := do
  return (← l.startsWith? mark) || (← l.startsWith? other)

def number? (l : Lexer) : Option Answer := do
  if ← l.startsWithEither? ['0', 'x'] ['0', 'X'] then l.radix? isHexDigit .noHexDigit
  else if ← l.startsWithEither? ['0', 'b'] ['0', 'B'] then l.radix? isBinaryDigit .noBinaryDigit
  else
    let whole ← l.skipWhile? Char.isDigit
    let after ← whole.skipFraction?
    let t ← after.token? .number l.offset
    return (.ok t, after)

/-- The lexer after the quote that closes a string, and whether there is one. A newline comes before
it if there is none, and counts as read. -/
def closeString? (l : Lexer) : Option (Lexer × Bool) :=
  match h : l.peek? with
  | none => none
  | some none => some (l, false)
  | some (some c) =>
    if c = '"' then some (l.skip c.utf8Size, true)
    else if c = '\n' then some (l.skip c.utf8Size, false)
    else
      have := left_skip_lt h
      closeString? (l.skip c.utf8Size)
termination_by l.left

/-- A string is closed by a quote and broken by a newline, and goes on after any other character. -/
theorem closeString?_eq (l : Lexer) : l.closeString? = l.peek?.bind fun
    | none => some (l, false)
    | some c =>
      if c = '"' then some (l.skip c.utf8Size, true)
      else if c = '\n' then some (l.skip c.utf8Size, false)
      else (l.skip c.utf8Size).closeString? := by
  fun_cases closeString? l with
  | case1 hNone => rw [hNone, Option.bind_none]
  | case2 hNil => rw [hNil, Option.bind_some]
  | case3 hQuote =>
    rw [hQuote, Option.bind_some]
    rfl
  | case4 hNewline =>
    rw [hNewline, Option.bind_some]
    rfl
  | case5 c hCons hQuote hNewline =>
    simp only [hCons, Option.bind_some, if_neg hQuote, if_neg hNewline]

theorem closeString?_of_nil {l : Lexer} (h : l.peek? = some none) :
    l.closeString? = some (l, false) := by
  rw [closeString?_eq, h, Option.bind_some]

theorem closeString?_of_cons {l : Lexer} {c : Char} (h : l.peek? = some (some c)) :
    l.closeString? =
      if c = '"' then some (l.skip c.utf8Size, true)
      else if c = '\n' then some (l.skip c.utf8Size, false)
      else (l.skip c.utf8Size).closeString? := by
  rw [closeString?_eq, h, Option.bind_some]

/-- A string literal, from its opening quote on. -/
def string? (l : Lexer) : Option Answer := do
  let body := l.skip 1
  let (after, closed) ← body.closeString?
  if closed then
    let text ← Text.between? l.text body.offset (after.offset - 1)
    return (.ok ⟨.str, text, ⟨l.offset, after.offset⟩⟩, after)
  else return (.error ⟨.unterminatedString, .point l.offset⟩, after)

/-- A mark, the longest that stands here. -/
def mark? (l : Lexer) : Option Answer := do
  match ← Token.Kind.marks.findM? fun mark => l.startsWith? mark.1 with
  | some mark =>
    let after := l.skip (byteLength mark.1)
    let t ← after.token? mark.2 l.offset
    return (.ok t, after)
  | none =>
    let first ← l.peek?
    return (.error ⟨.unrecognized (first.getD '\x00'), .point l.offset⟩, l)

/-- What stands here, which is neither a blank nor a comment. -/
def read? (l : Lexer) : Option Answer := do
  match ← l.peek? with
  | some c =>
    if c = '"' then l.string?
    else if c.isDigit then l.number?
    else if startsName c then l.name?
    else l.mark?
  | none => l.mark?

/-- The next token, or why there is none, and the lexer after it. -/
def next? (l : Lexer) : Option Answer := do
  let (start, closed) ← l.skipGaps?
  if !closed then return (.error ⟨.unterminatedComment, .point start.offset⟩, start)
  else if start.text.utf8ByteSize ≤ start.offset then
    return (.ok (Token.atEnd start.offset), start)
  else start.read?

end Lexer

end WasmCompiler
