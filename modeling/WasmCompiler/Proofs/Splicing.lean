import Mathlib
import WasmCompiler.Compilation
import WasmCompiler.Proofs.Basic
import WasmCompiler.Proofs.LineExpansion
import WasmCompiler.Proofs.LineIndex

/-! The lines of a file with its includes spliced in. They are the lines of the file in order, with
each directive replaced by the lines of what it names, and each of them is the line of a file that
its origin says it is. A report on the spliced text shows that line of that file. -/

namespace WasmCompiler

namespace Text

variable {p : Char → Bool} {c : Char} {text rest piece : List Char}

/-- The fields of a text are what the marks split it into. -/
theorem fields_eq_splitOnP (p : Char → Bool) (text : List Char) :
    fields p text = text.splitOnP p := by
  induction text with
  | nil => rfl
  | cons c rest ih =>
      rw [List.splitOnP_cons_eq_if_modifyHead, ← ih]
      cases hC : p c with
      | true => exact fields_cons_of_pos rest hC
      | false =>
          obtain ⟨field, others, hRest, hFields⟩ := exists_fields_cons_of_neg rest hC
          rw [hFields, hRest]
          rfl

/-- No mark is in a field. -/
theorem eq_false_of_mem_fields (h : piece ∈ fields p text) : ∀ c ∈ piece, p c = false := by
  induction text generalizing piece with
  | nil => simp_all [fields]
  | cons c rest ih =>
      cases hC : p c with
      | true =>
          rw [fields_cons_of_pos rest hC] at h
          rcases List.mem_cons.1 h with rfl | hRest
          · simp
          · exact ih hRest
      | false =>
          obtain ⟨field, others, hRest, hFields⟩ := exists_fields_cons_of_neg rest hC
          rw [hFields] at h
          rw [hRest] at ih
          rcases List.mem_cons.1 h with rfl | hOthers
          · exact List.forall_mem_cons.2 ⟨hC, ih List.mem_cons_self⟩
          · exact ih (List.mem_cons_of_mem _ hOthers)

/-- A line does not hold a newline. -/
theorem newline_notMem_of_mem_lines (h : piece ∈ lines text) : '\n' ∉ piece := by
  have hFields : ∀ field ∈ fields (· == '\n') text, '\n' ∉ field := fun field hField hNewline =>
    absurd (eq_false_of_mem_fields hField '\n' hNewline) (by decide)
  rcases List.mem_append.1 h with hFront | hLast
  · obtain ⟨field, hField, rfl⟩ := List.mem_map.1 hFront
    have hNewline := hFields field (List.dropLast_subset _ hField)
    rw [dropReturn]
    split
    · exact fun hMem => hNewline (List.dropLast_subset _ hMem)
    · exact hNewline
  · split at hLast
    · simp at hLast
    · cases hEnd : (fields (· == '\n') text).getLast? with
      | none => simp_all
      | some field =>
          rw [hEnd] at hLast
          rw [List.mem_singleton.1 hLast]
          exact hFields field (List.mem_of_getLast? hEnd)

theorem lines_of_notMem (hPiece : '\n' ∉ text) (hNe : text ≠ []) : lines text = [text] := by
  have hFields : fields (· == '\n') text = [text] := by
    rw [fields_eq_splitOnP]
    exact List.splitOnP_eq_singleton fun c hC => by simpa using ne_of_mem_of_not_mem hC hPiece
  simp [lines, hFields, hNe]

/-- A line up to its newline is the first line, without a carriage return at its end. -/
theorem lines_append_newline (hPiece : '\n' ∉ piece) :
    lines (piece ++ '\n' :: rest) = dropReturn piece :: lines rest := by
  have hFields : fields (· == '\n') (piece ++ '\n' :: rest) =
      piece :: fields (· == '\n') rest := by
    rw [fields_eq_splitOnP, fields_eq_splitOnP]
    exact List.splitOnP_append_cons_of_forall_mem
      (fun c hC => by simpa using ne_of_mem_of_not_mem hC hPiece) '\n' rfl rest
  have hNe := fields_ne_nil (· == '\n') rest
  simp only [lines, hFields]
  rw [List.dropLast_cons_of_ne_nil hNe, List.map_cons, List.cons_append,
    List.getLast?_cons_of_ne_nil hNe]

/-- A text that is not empty is a last line, or starts with a line that a newline ends. -/
theorem line_cases (text : List Char) : text = [] ∨ (text ≠ [] ∧ '\n' ∉ text) ∨
    ∃ piece rest, '\n' ∉ piece ∧ text = piece ++ '\n' :: rest := by
  by_cases hNil : text = []
  · exact .inl hNil
  · by_cases hNewline : '\n' ∈ text
    · obtain ⟨piece, rest, hText, hPiece⟩ := List.eq_append_cons_of_mem hNewline
      exact .inr (.inr ⟨piece, rest, hPiece, hText⟩)
    · exact .inr (.inl ⟨hNil, hNewline⟩)

/-- What is trimmed at the start is blank. -/
theorem exists_append_trimStart (text : List Char) :
    ∃ margin, (∀ c ∈ margin, isBlank c = true) ∧ text = margin ++ trimStart text :=
  ⟨text.takeWhile isBlank, List.all_eq_true.1 List.all_takeWhile,
    List.takeWhile_append_dropWhile.symm⟩

theorem trimStart_append {margin : List Char} (hMargin : ∀ c ∈ margin, isBlank c = true)
    (hC : isBlank c = false) : trimStart (margin ++ c :: rest) = c :: rest := by
  rw [trimStart, List.dropWhile_append_of_pos hMargin, List.dropWhile_cons_of_neg (by simp [hC])]

/-- What is trimmed at the end is blank. -/
theorem exists_trimEnd_append (text : List Char) :
    ∃ tail, (∀ c ∈ tail, isBlank c = true) ∧ text = trimEnd text ++ tail :=
  ⟨text.rtakeWhile isBlank, fun _ => List.mem_rtakeWhile_imp,
    List.rdropWhile_append_rtakeWhile.symm⟩

theorem trimEnd_append {tail : List Char} (hTail : ∀ c ∈ tail, isBlank c = true)
    (hC : isBlank c = false) : trimEnd (text ++ c :: tail) = text ++ [c] := by
  have hReverse : ∀ c ∈ tail.reverse, isBlank c = true := fun c h => hTail c (List.mem_reverse.1 h)
  have hStart : trimStart (tail.reverse ++ c :: text.reverse) = c :: text.reverse :=
    trimStart_append hReverse hC
  rw [trimStart] at hStart
  rw [trimEnd, List.reverse_append, List.reverse_cons, List.append_assoc, List.singleton_append,
    hStart, List.reverse_cons, List.reverse_reverse]

/-- A line is what is left of it without the carriage returns that end it, and these. -/
theorem exists_rdropWhile_append (piece : List Char) :
    ∃ returns, (∀ c ∈ returns, c = '\r') ∧ piece = piece.rdropWhile (· == '\r') ++ returns ∧
      (piece.rdropWhile (· == '\r')).getLast? ≠ some '\r' := by
  refine ⟨piece.rtakeWhile (· == '\r'), ?_, ?_, ?_⟩
  · intro c hC
    simpa using List.mem_rtakeWhile_imp hC
  · exact List.rdropWhile_append_rtakeWhile.symm
  · intro hLast
    have hNe : piece.rdropWhile (· == '\r') ≠ [] := by
      intro hNil
      rw [hNil] at hLast
      cases hLast
    have hReturn := List.rdropWhile_last_not (· == '\r') piece hNe
    rw [List.getLast?_eq_some_getLast hNe] at hLast
    simp [Option.some.inj hLast] at hReturn

end Text

namespace SourceLine

variable {line target : List Char}

/-- The line starts with the keyword, blanks apart. -/
def IsDirective (line : List Char) : Prop :=
  ∃ margin rest, (∀ c ∈ margin, Text.isBlank c = true) ∧ line = margin ++ (keyword ++ rest)

/-- The line names a target: the keyword and the target in quotes, with blanks around them. -/
def Names (line target : List Char) : Prop :=
  ∃ margin gap tail, (∀ c ∈ margin, Text.isBlank c = true) ∧ (∀ c ∈ gap, Text.isBlank c = true) ∧
    (∀ c ∈ tail, Text.isBlank c = true) ∧ target ≠ [] ∧ '"' ∉ target ∧
    line = margin ++ (keyword ++ (gap ++ ('"' :: (target ++ '"' :: tail))))

theorem Names.isDirective (h : Names line target) : IsDirective line := by
  obtain ⟨margin, gap, tail, hMargin, -, -, -, -, rfl⟩ := h
  exact ⟨margin, _, hMargin, rfl⟩

/-- A target is what stands between two quotes, if it is not empty and has no quote in it. -/
theorem quoted?_eq_some_iff {text : List Char} :
    quoted? text = some target ↔ target ≠ [] ∧ '"' ∉ target ∧ text = '"' :: (target ++ ['"']) := by
  constructor
  · fun_cases quoted? text with
    | case1 rest hRest =>
        obtain ⟨hLast, hNe, hQuote⟩ := hRest
        obtain ⟨front, rfl⟩ := List.getLast?_eq_some_iff.1 hLast
        rw [List.dropLast_concat] at hNe hQuote ⊢
        rintro ⟨⟩
        exact ⟨hNe, hQuote, rfl⟩
    | case2 | case3 => rintro ⟨⟩
  · rintro ⟨hNe, hQuote, rfl⟩
    simp [quoted?, hNe, hQuote]

/-- What is left of a directive after the blanks before the keyword. -/
theorem isDirective_iff : IsDirective line ↔ ∃ rest, Text.trimStart line = keyword ++ rest := by
  constructor
  · rintro ⟨margin, rest, hMargin, rfl⟩
    exact ⟨rest, Text.trimStart_append hMargin (by decide)⟩
  · rintro ⟨rest, hText⟩
    obtain ⟨margin, hMargin, hLine⟩ := Text.exists_append_trimStart line
    exact ⟨margin, rest, hMargin, hText ▸ hLine⟩

/-- A line is plain exactly if it is no directive. -/
theorem ofChars_eq_plain_iff : ofChars line = .plain ↔ ¬IsDirective line := by
  rw [isDirective_iff]
  fun_cases ofChars line with
  | case1 _ hPrefix | case2 _ hPrefix =>
      obtain ⟨rest, hRest⟩ := List.isPrefixOf_iff_prefix.1 hPrefix
      exact iff_of_false (by simp) (not_not_intro ⟨rest, hRest.symm⟩)
  | case3 _ hPrefix =>
      refine iff_of_true rfl ?_
      rintro ⟨rest, hRest⟩
      exact hPrefix (List.isPrefixOf_iff_prefix.2 ⟨rest, hRest.symm⟩)

/-- The target of a directive is what stands in quotes after the keyword. -/
theorem ofChars_eq_directive_iff : ofChars line = .directive target ↔ Names line target := by
  constructor
  · fun_cases ofChars line with
    | case1 text hPrefix named hQuoted =>
        rintro ⟨⟩
        obtain ⟨rest, hRest⟩ := List.isPrefixOf_iff_prefix.1 hPrefix
        rw [← hRest, List.drop_left] at hQuoted
        obtain ⟨hNe, hQuote, hTrim⟩ := quoted?_eq_some_iff.1 hQuoted
        obtain ⟨margin, hMargin, hLine⟩ := Text.exists_append_trimStart line
        obtain ⟨gap, hGap, hGapped⟩ := Text.exists_append_trimStart rest
        obtain ⟨tail, hTail, hTailed⟩ := Text.exists_trimEnd_append (Text.trimStart rest)
        refine ⟨margin, gap, tail, hMargin, hGap, hTail, hNe, hQuote, ?_⟩
        rw [← Text.trim, hTrim] at hTailed
        rw [hTailed] at hGapped
        rw [show Text.trimStart line = text from rfl, ← hRest, hGapped] at hLine
        simpa using hLine
    | case2 | case3 => rintro ⟨⟩
  · rintro ⟨margin, gap, tail, hMargin, hGap, hTail, hNe, hQuote, rfl⟩
    have hText {rest : List Char} :
        Text.trimStart (margin ++ (keyword ++ rest)) = keyword ++ rest :=
      Text.trimStart_append hMargin (by decide)
    have hTrim : Text.trim (gap ++ '"' :: (target ++ '"' :: tail)) = '"' :: (target ++ ['"']) := by
      rw [Text.trim, Text.trimStart_append hGap (by decide), ← List.cons_append,
        Text.trimEnd_append hTail (by decide), List.cons_append]
    rw [ofChars, hText, if_pos (List.isPrefixOf_iff_prefix.2 (List.prefix_append _ _)),
      List.drop_left, hTrim, quoted?_eq_some_iff.2 ⟨hNe, hQuote, rfl⟩]

/-- A line names one target. -/
theorem Names.unique {target' : List Char} (h : Names line target) (h' : Names line target') :
    target = target' := by
  have hSame := (ofChars_eq_directive_iff.2 h).symm.trans (ofChars_eq_directive_iff.2 h')
  injection hSame

end SourceLine

section Flattening

variable {files : Files} {name path : String} {number : Nat} {lines : List (List Char)}
  {out out' : List ExpandedLine}

/-- The lines of the file `name`, from line `number` on, with each directive replaced by the lines
of the file that it names. That file is found from the directory of the file with the directive. -/
inductive Flattens (files : Files) :
    String → Nat → List (List Char) → List ExpandedLine → Prop where
  | nil {name : String} {number : Nat} : Flattens files name number [] []
  | keep {name : String} {number : Nat} {line : List Char} {rest : List (List Char)}
      {others : List ExpandedLine} (hLine : ¬SourceLine.IsDirective line)
      (hRest : Flattens files name (number + 1) rest others) :
      Flattens files name number (line :: rest) (⟨String.ofList line, ⟨name, number⟩⟩ :: others)
  | splice {name : String} {number : Nat} {line target : List Char} {rest : List (List Char)}
      {file : SourceFile} {inner others : List ExpandedLine}
      (hLine : SourceLine.Names line target)
      (hFile : files.read (String.ofList (Path.join (Path.parent name.toList) target)) = .ok file)
      (hInner : Flattens files (String.ofList (Path.join (Path.parent name.toList) target)) 1
        (Text.lines file.text.toList) inner)
      (hRest : Flattens files name (number + 1) rest others) :
      Flattens files name number (line :: rest) (inner ++ others)

/-- The lines of a file with all that it includes. -/
def FlattensFile (files : Files) (path : String) (out : List ExpandedLine) : Prop :=
  ∃ file, files.read path = .ok file ∧ Flattens files path 1 (Text.lines file.text.toList) out

/-- A file that is opened was read from its path. -/
theorem Files.read_of_openAt {active : List String} {site : Option Site}
    {opened : Opened files active} (h : files.openAt active path site = .ok opened) :
    files.read path = .ok opened.file := by
  revert h
  fun_cases openAt files active path site with
  | case1 | case2 => rintro ⟨⟩
  | case3 file hRead =>
      rintro ⟨⟩
      exact hRead

/-- Expanding the lines of a file flattens them. -/
theorem flattens_of_expandLines {active : List String} {directory : String} {offset : Nat} :
    directory = String.ofList (Path.parent name.toList) →
      ∀ out, expandLines files active name directory number offset lines = .ok out →
        Flattens files name number lines out := by
  -- The files that are active and the offset decide which error there is, and no line.
  fun_induction expandLines files active name directory number offset lines with
  | case1 =>
      rintro _ _ ⟨⟩
      exact .nil
  | case2 active name directory number offset line rest next hLine ih =>
      intro hDirectory out h
      obtain ⟨others, hOthers, hOut⟩ := bind_eq_ok.1 h
      cases pure_eq_ok.1 hOut
      exact .keep (SourceLine.ofChars_eq_plain_iff.1 hLine) (ih hDirectory others hOthers)
  | case3 => rintro _ _ ⟨⟩
  | case4 active name directory number offset line rest next target hLine path ihInner ih =>
      intro hDirectory out h
      obtain ⟨opened, hOpened, h⟩ := bind_eq_ok.1 h
      obtain ⟨inner, hInner, h⟩ := bind_eq_ok.1 h
      obtain ⟨others, hOthers, hOut⟩ := bind_eq_ok.1 h
      cases pure_eq_ok.1 hOut
      have hPath : path = Path.join (Path.parent name.toList) target := by
        rw [← @String.toList_ofList (Path.parent name.toList), ← hDirectory]
      have hFile := Files.read_of_openAt hOpened
      have hSpliced := ihInner opened (by rw [String.toList_ofList]) inner hInner
      rw [hPath] at hFile hSpliced
      exact .splice (SourceLine.ofChars_eq_directive_iff.1 hLine) hFile hSpliced
        (ih hDirectory others hOthers)

/-- An expansion of a file has the lines of the file with all that it includes. -/
theorem flattensFile_of_ofFile {e : Expansion} (h : Expansion.ofFile files path = .ok e) :
    FlattensFile files path e.lines := by
  rw [Expansion.ofFile_eq] at h
  obtain ⟨opened, hOpened, h⟩ := bind_eq_ok.1 h
  obtain ⟨lines, hLines, hOut⟩ := bind_eq_ok.1 h
  cases pure_eq_ok.1 hOut
  exact ⟨opened.file, Files.read_of_openAt hOpened, flattens_of_expandLines rfl _ hLines⟩

/-- Lines are flattened in one way. -/
theorem Flattens.unique (h : Flattens files name number lines out)
    (h' : Flattens files name number lines out') : out = out' := by
  induction h generalizing out' with
  | nil =>
      cases h'
      rfl
  | keep hLine _ ih =>
      cases h' with
      | keep _ hRest' => rw [ih hRest']
      | splice hNames => exact absurd hNames.isDirective hLine
  | splice hNames hFile _ _ ihInner ih =>
      cases h' with
      | keep hLine => exact absurd hNames.isDirective hLine
      | splice hNames' hFile' hInner' hRest' =>
          cases hNames.unique hNames'
          cases hFile.symm.trans hFile'
          rw [ihInner hInner', ih hRest']

/-- The line of a file that an origin names. -/
def Files.line? (files : Files) (origin : LineOrigin) : Option String :=
  match files.read origin.file with
  | .error _ => none
  | .ok file =>
    if origin.line = 0 then none
    else ((Text.lines file.text.toList)[origin.line - 1]?).map String.ofList

/-- A line of a file has no newline in it. -/
theorem Files.newline_notMem_of_line? {origin : LineOrigin} {text : String}
    (h : files.line? origin = some text) : '\n' ∉ text.toList := by
  revert h
  fun_cases line? files origin with
  | case1 | case2 => rintro ⟨⟩
  | case3 file =>
      intro h
      obtain ⟨line, hLine, rfl⟩ := Option.map_eq_some_iff.1 h
      rw [String.toList_ofList]
      exact Text.newline_notMem_of_mem_lines (List.mem_of_getElem? hLine)

/-- The next line of a row from a line on, and the row after it. -/
theorem getElem?_of_drop_eq_cons {α : Type} {row rest : List α} {a : α} (hNumber : 0 < number)
    (h : row.drop (number - 1) = a :: rest) :
    row[number - 1]? = some a ∧ row.drop (number + 1 - 1) = rest := by
  constructor
  · rw [← Nat.add_zero (number - 1), ← List.getElem?_drop, h]
    rfl
  · rw [show number + 1 - 1 = number - 1 + 1 by omega, ← List.drop_drop, h]
    rfl

/-- Each line that a file is flattened to is the line that its origin names. -/
theorem Flattens.line?_origin (h : Flattens files name number lines out) {file : SourceFile}
    (hRead : files.read name = .ok file) (hNumber : 0 < number)
    (hLines : (Text.lines file.text.toList).drop (number - 1) = lines) :
    ∀ x ∈ out, files.line? x.origin = some x.text := by
  -- What is carried along is that the lines are those of the file from line `number` on.
  induction h generalizing file with
  | nil => simp
  | keep _ _ ih =>
      obtain ⟨hLine, hRest⟩ := getElem?_of_drop_eq_cons hNumber hLines
      intro x hX
      rcases List.mem_cons.1 hX with rfl | hX
      · simp only [Files.line?, hRead, if_neg (Nat.ne_of_gt hNumber), hLine, Option.map_some]
      · exact ih hRead (Nat.succ_pos _) hRest x hX
  | splice _ hFile _ _ ihInner ih =>
      -- An included file starts over at its own first line.
      intro x hX
      rcases List.mem_append.1 hX with hX | hX
      · exact ihInner hFile Nat.one_pos rfl x hX
      · exact ih hRead (Nat.succ_pos _) (getElem?_of_drop_eq_cons hNumber hLines).2 x hX

/-- Each line stands where its origin says. -/
theorem FlattensFile.line?_origin (h : FlattensFile files path out) :
    ∀ x ∈ out, files.line? x.origin = some x.text := by
  obtain ⟨file, hRead, hFlattens⟩ := h
  exact hFlattens.line?_origin hRead Nat.one_pos rfl

theorem FlattensFile.unique (h : FlattensFile files path out) (h' : FlattensFile files path out') :
    out = out' := by
  obtain ⟨file, hRead, hFlattens⟩ := h
  obtain ⟨file', hRead', hFlattens'⟩ := h'
  cases hRead.symm.trans hRead'
  exact hFlattens.unique hFlattens'

end Flattening

namespace Expansion

variable {e : Expansion}

/-- The text of an expansion is its lines with newlines between them. -/
theorem toList_text (e : Expansion) :
    e.text.toList = ['\n'].intercalate (e.lines.map fun line => line.text.toList) := by
  rw [text, String.toList_intercalate, List.map_map]
  rfl

theorem text_of_lines_eq_nil (h : e.lines = []) : e.text = "" := by
  rw [text, h]
  rfl

/-- The text is cut at its newlines into the lines that it was put together from. -/
theorem splitOn_text (hLines : e.lines ≠ [])
    (hNewline : ∀ line ∈ e.lines, '\n' ∉ line.text.toList) :
    e.text.toList.splitOn '\n' = e.lines.map fun line => line.text.toList := by
  rw [toList_text]
  apply List.splitOn_intercalate
  · simpa using hNewline
  · simpa using hLines

/-- The origin of a line is found by its number, counted from one. -/
theorem origin?_eq_some_iff {n : Nat} {origin : LineOrigin} :
    e.origin? n = some origin ↔
      0 < n ∧ ∃ line, e.lines[n - 1]? = some line ∧ line.origin = origin := by
  rw [origin?]
  split
  · simp_all
  · rw [Option.map_eq_some_iff]
    exact ⟨fun h => ⟨by omega, h⟩, fun h => h.2⟩

theorem isSome_origin?_iff {n : Nat} :
    (e.origin? n).isSome = true ↔ 1 ≤ n ∧ n ≤ e.lines.length := by
  rw [origin?]
  split
  · simp_all
  · rw [Option.isSome_map, isSome_getElem?]
    omega

end Expansion

section Reports

variable {e : Expansion} {d : Diagnostic}

/-- A text without tokens is a program. -/
theorem compileText_empty (dumps : Dumps) : ∃ bytes, (compileText dumps "").result = .ok bytes := by
  have hTokens : Token.ofText "" = .ok [] := by
    rw [Token.ofText_eq]
    decide +kernel
  have hParse : Program.ofTokens [] = .ok [] := by cbv
  obtain ⟨m, hModule, text, hText⟩ :
    ∃ m, Program.toModule [] = .ok m ∧ ∃ text, m.text = .ok text := ⟨_, rfl, _, rfl⟩
  exact ⟨m.encode, result_compileText_of_toModule hTokens hParse hModule hText⟩

/-- A file that is expanded and does not compile has lines, and the report is on their text. -/
theorem exists_source_of_compileFile {files : Files} {path : String} {dumps : Dumps}
    {failure : Failure} (h : Expansion.ofFile files path = .ok e)
    (hFailure : (compileFile files dumps path).result = .error failure) :
    (∃ d, failure = .source d e) ∧ e.lines ≠ [] := by
  simp only [compileFile, h] at hFailure
  cases hResult : (compileText dumps e.text).result with
  | ok bytes =>
      rw [hResult] at hFailure
      cases hFailure
  | error d =>
      rw [hResult] at hFailure
      cases hFailure
      refine ⟨⟨d, rfl⟩, fun hNil => ?_⟩
      obtain ⟨bytes, hBytes⟩ := compileText_empty dumps
      rw [Expansion.text_of_lines_eq_nil hNil, hBytes] at hResult
      cases hResult

/-- A report on the text points into one of its lines, if there are any, and shows it without the
carriage returns that end it. -/
theorem Expansion.exists_line_of_position (d : Diagnostic) (hLines : e.lines ≠ [])
    (hNewline : ∀ line ∈ e.lines, '\n' ∉ line.text.toList) :
    ∃ line, e.lines[(d.position e.text).line - 1]? = some line ∧
      e.origin? (d.position e.text).line = some line.origin ∧
      (IndexedText.ofText e.text).lineText (d.position e.text).line =
        line.text.toList.rdropWhile (· == '\r') := by
  obtain ⟨hPos, hLess⟩ := (IndexedText.ofText e.text).line_lineCol d.span.start
  change 1 ≤ (d.position e.text).line at hPos
  change (d.position e.text).line ≤ e.text.toList.count '\n' + 1 at hLess
  have hSplit := Expansion.splitOn_text hLines hNewline
  have hFields : Text.fields (· == '\n') e.text.toList =
      e.lines.map fun line => line.text.toList := by
    rw [Text.fields_eq_splitOnP, ← List.splitOn_eq_splitOnP, hSplit]
  rw [← Text.length_fields, hFields, List.length_map] at hLess
  have hBound : (d.position e.text).line - 1 < e.lines.length := by omega
  have hLine := List.getElem?_eq_getElem hBound
  refine ⟨_, hLine, Expansion.origin?_eq_some_iff.2 ⟨by omega, _, hLine, rfl⟩, ?_⟩
  refine IndexedText.lineText_of_fields hPos ?_
  change (Text.fields (· == '\n') e.text.toList)[_]? = _
  rw [hFields, List.getElem?_map, hLine]
  rfl

/-- A failure is shown with the origin of its line, and a caret under its column. -/
theorem Failure.render_source {origin : LineOrigin}
    (h : e.origin? (d.position e.text).line = some origin) {printed : List Char}
    (hLine : (IndexedText.ofText e.text).lineText (d.position e.text).line = printed) :
    (Failure.source d e).render = d.summary ++ "\n --> " ++
      (origin.file ++ ":" ++ toString origin.line ++ ":" ++ toString (d.position e.text).column) ++
      "\n" ++ String.ofList printed ++ "\n" ++
      String.ofList (Text.caretUnder printed (d.position e.text).column) := by
  have hPosition : (Excerpt.ofSpan e.text d.span).position = d.position e.text := rfl
  rw [render, Diagnostic.renderWith, hPosition, h, ← hLine]
  rfl

end Reports

/-- The expansion of a file is its flattening, the text is cut into the lines that it was put
together from, and each of these is the line that its origin names. So a report on the text names
a file and shows a line of it, without the carriage returns that end it. -/
theorem Expansion.ofFile_splices {files : Files} {path : String} {e : Expansion}
    (h : Expansion.ofFile files path = .ok e) :
    (∀ out, FlattensFile files path out ↔ out = e.lines) ∧
    e.text.toList = ['\n'].intercalate (e.lines.map fun line => line.text.toList) ∧
    (e.lines ≠ [] →
      e.text.toList.splitOn '\n' = e.lines.map fun line => line.text.toList) ∧
    (e.lines = [] → e.text = "" ∧ ∀ n, e.origin? n = none) ∧
    (∀ n, (e.origin? n).isSome = true ↔ 1 ≤ n ∧ n ≤ e.lines.length) ∧
    (∀ n origin, e.origin? n = some origin →
      ∃ line, e.lines[n - 1]? = some line ∧ files.line? origin = some line.text) ∧
    ∀ dumps failure, (compileFile files dumps path).result = .error failure →
      ∃ d origin printed returns, failure = .source d e ∧
        e.origin? (d.position e.text).line = some origin ∧
        files.line? origin = some (String.ofList (printed ++ returns)) ∧
        (∀ c ∈ returns, c = '\r') ∧ printed.getLast? ≠ some '\r' ∧
        failure.render = d.summary ++ "\n --> " ++ (origin.file ++ ":" ++ toString origin.line ++
            ":" ++ toString (d.position e.text).column) ++ "\n" ++ String.ofList printed ++ "\n" ++
          String.ofList (Text.caretUnder printed (d.position e.text).column) := by
  have hFlattens := flattensFile_of_ofFile h
  have hOrigins := hFlattens.line?_origin
  have hNewline : ∀ line ∈ e.lines, '\n' ∉ line.text.toList := fun line hLine =>
    Files.newline_notMem_of_line? (hOrigins line hLine)
  have hOut (out : List ExpandedLine) : FlattensFile files path out ↔ out = e.lines :=
    ⟨fun hOut => hOut.unique hFlattens, fun hSame => hSame ▸ hFlattens⟩
  refine ⟨hOut, e.toList_text, fun hLines => splitOn_text hLines hNewline, ?_,
    fun n => isSome_origin?_iff, ?_, ?_⟩
  · intro hLines
    refine ⟨text_of_lines_eq_nil hLines, fun n => ?_⟩
    rw [origin?, hLines]
    split <;> rfl
  · intro n origin hOrigin
    obtain ⟨-, line, hLine, rfl⟩ := origin?_eq_some_iff.1 hOrigin
    exact ⟨line, hLine, hOrigins line (List.mem_of_getElem? hLine)⟩
  · intro dumps failure hFailure
    obtain ⟨⟨d, rfl⟩, hLines⟩ := exists_source_of_compileFile h hFailure
    obtain ⟨line, hLine, hOrigin, hPrinted⟩ := exists_line_of_position d hLines hNewline
    obtain ⟨returns, hReturns, hText, hLast⟩ := Text.exists_rdropWhile_append line.text.toList
    refine ⟨d, line.origin, _, returns, rfl, hOrigin, ?_, hReturns, hLast,
      Failure.render_source hOrigin hPrinted⟩
    rw [← hText, String.ofList_toList]
    exact hOrigins line (List.mem_of_getElem? hLine)

/-- A file that includes another one twice, of which the second line ends in a carriage return. -/
def twiceFiles : Files where
  identities := ["main", "part"]
  read path :=
    if path = "d/main" then .ok ⟨"main", "#include \"part\"\n\n  #include \"part\" \n"⟩
    else if path = "d/part" then .ok ⟨"part", "\r\n@\r"⟩
    else .error .notFound
  mem_of_read := by
    intro path file h
    split at h
    · cases h
      simp
    · split at h
      · cases h
        simp
      · cases h

theorem Expansion.ofFile_splices_twice :
    ∃ (e : Expansion) (d : Diagnostic), ofFile twiceFiles "d/main" = .ok e ∧
      e.text.toList.splitOn '\n' = [[], ['@', '\r'], [], [], ['@', '\r']] ∧
      (compileFile twiceFiles ⟨false, false, false⟩ "d/main").result = .error (.source d e) ∧
      ∃ origin printed returns, e.origin? (d.position e.text).line = some origin ∧
        twiceFiles.line? origin = some (String.ofList (printed ++ returns)) ∧
        ∀ c ∈ returns, c = '\r' := by
  let e : Expansion := ⟨[⟨"", ⟨"d/part", 1⟩⟩, ⟨"@\r", ⟨"d/part", 2⟩⟩, ⟨"", ⟨"d/main", 2⟩⟩,
    ⟨"", ⟨"d/part", 1⟩⟩, ⟨"@\r", ⟨"d/part", 2⟩⟩]⟩
  let d : Diagnostic := Token.Error.report ⟨.unrecognized '@', .point 1⟩
  have hFile : ofFile twiceFiles "d/main" = .ok e := by
    rw [ofFile_eq]
    cbv
  have hText : e.text = "\n@\r\n\n\n@\r" := by cbv
  have hTokens : Token.ofText e.text = .error ⟨.unrecognized '@', .point 1⟩ := by
    rw [hText, Token.ofText_eq]
    decide +kernel
  have hFailure : (compileFile twiceFiles ⟨false, false, false⟩ "d/main").result =
      .error (.source d e) := by
    simp only [compileFile, hFile, compileText, hTokens]
    rfl
  obtain ⟨-, -, hSplit, -, -, -, hReport⟩ := ofFile_splices hFile
  obtain ⟨d', origin, printed, returns, hSource, hOrigin, hLine, hReturns, -⟩ :=
    hReport _ _ hFailure
  cases hSource
  refine ⟨e, d, hFile, ?_, hFailure, origin, printed, returns, hOrigin, hLine, hReturns⟩
  rw [hSplit (by simp [e])]
  decide

end WasmCompiler
