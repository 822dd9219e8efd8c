import WasmCompiler.Proofs.IncludeGraph

/-! Where a report on a directive points. Lines are expanded with a running offset that counts every
line end as one byte. A carriage return before a newline is not counted, so the report points at the
start of the directive's line only if no line before it ends with both. -/

namespace WasmCompiler

namespace Text

variable {text front rest piece : List Char}

/-- The number of line ends that are a carriage return and a newline. -/
def pairedEnds : List Char → Nat
  | '\r' :: '\n' :: rest => pairedEnds rest + 1
  | _ :: rest => pairedEnds rest
  | [] => 0

/-- The paired ends of two texts are those of their parts, if no pair is cut. -/
theorem pairedEnds_append (hFront : ∀ c ∈ front.getLast?, c ≠ '\r') :
    pairedEnds (front ++ rest) = pairedEnds front + pairedEnds rest := by
  fun_induction pairedEnds front with
  | case1 front ih =>
      rw [List.cons_append, List.cons_append, pairedEnds, ih]
      · omega
      · intro c hC
        cases front with
        | nil => cases hC
        | cons d front => exact hFront c (by simpa using hC)
  | case2 c front hPair ih =>
      have hSplit : ∀ more, c = '\r' → front ++ rest = '\n' :: more → False := by
        intro more hC hMore
        cases front with
        | nil => exact hFront c rfl hC
        | cons d front => exact hPair front hC (by rw [(List.cons.inj hMore).1])
      rw [List.cons_append, pairedEnds.eq_2 _ _ hSplit, ih]
      intro d hD
      cases front with
      | nil => cases hD
      | cons e front => exact hFront d (by simpa using hD)
  | case3 => simp

theorem dropReturn_cons {c : Char} (hNe : piece ≠ []) :
    dropReturn (c :: piece) = c :: dropReturn piece := by
  rw [dropReturn, dropReturn, List.getLast?_cons_of_ne_nil hNe, List.dropLast_cons_of_ne_nil hNe]
  split <;> rfl

/-- A line is counted without the carriage return that ends it. -/
theorem byteLength_dropReturn (hPiece : '\n' ∉ piece) :
    byteLength (dropReturn piece) + 1 + pairedEnds (piece ++ ['\n']) =
      byteLength (piece ++ ['\n']) := by
  induction piece with
  | nil => rfl
  | cons c piece ih =>
      obtain ⟨-, hRest⟩ := not_or.1 (List.mem_cons.not.1 hPiece)
      cases piece with
      | nil =>
          by_cases hC : c = '\r'
          · subst hC
            rfl
          · have hPair : ∀ more, c = '\r' → ['\n'] = '\n' :: more → False := fun _ h _ => hC h
            have hKeep : dropReturn [c] = [c] := if_neg (by simpa using hC)
            have hNewline : '\n'.utf8Size = 1 := rfl
            rw [List.singleton_append, pairedEnds.eq_2 _ _ hPair, hKeep]
            simp [pairedEnds, hNewline]
      | cons d piece =>
          have hPair : ∀ more, c = '\r' → d :: piece ++ ['\n'] = '\n' :: more → False :=
            fun more _ hMore => hRest (by simp [(List.cons.inj hMore).1])
          rw [dropReturn_cons (by simp), List.cons_append, pairedEnds.eq_2 _ _ hPair,
            byteLength_cons, byteLength_cons, ← ih hRest]
          omega

/-- There are no paired ends exactly where no carriage return stands before a newline. -/
theorem pairedEnds_eq_zero_iff : pairedEnds text = 0 ↔ ¬['\r', '\n'] <:+: text := by
  fun_induction pairedEnds text with
  | case1 rest ih =>
      simp only [Nat.add_eq_zero_iff, Nat.one_ne_zero, and_false, false_iff, not_not]
      exact ⟨[], rest, rfl⟩
  | case2 c rest hPair ih =>
      rw [ih, List.infix_cons_iff, not_or, iff_and_self]
      rintro - ⟨more, hMore⟩
      obtain ⟨rfl, rfl⟩ := List.cons.inj hMore
      exact hPair more rfl rfl
  | case3 => simp

/-- The place where a line starts: the lines before it stand in `front`, each with its end. -/
structure StartsLine (text : List Char) (number : Nat) (front : List Char) : Prop where
  starts : front <+: text
  count : front.count '\n' + 1 = number
  ended : ∀ c ∈ front.getLast?, c = '\n'

/-- The lines of a text that are left after `front`, and the offset that is counted for them. -/
structure Leaves (text front : List Char) (number offset : Nat) (lines : List (List Char)) :
    Prop where
  starts : StartsLine text number front
  counted : offset + pairedEnds front = byteLength front
  left : ∃ rest, text = front ++ rest ∧ lines = Text.lines rest
  drop_eq : (Text.lines text).drop (number - 1) = lines

/-- At the start of a text all its lines are left. -/
theorem leaves_all (text : List Char) : Leaves text [] 1 0 (lines text) where
  starts := ⟨List.nil_prefix, rfl, nofun⟩
  counted := rfl
  left := ⟨text, rfl, rfl⟩
  drop_eq := rfl

/-- After a line that is not the last, the offset is again that of the start of a line, but for the
carriage returns. -/
theorem Leaves.next {number offset : Nat} {line : List Char} {others : List (List Char)}
    (h : Leaves text front number offset (line :: others)) (hOthers : others ≠ []) :
    ∃ front', Leaves text front' (number + 1) (offset + byteLength line + 1) others := by
  obtain ⟨⟨-, hCount, hEnded⟩, hOffset, ⟨rest, hText, hLines⟩, hDrop⟩ := h
  rcases line_cases rest with rfl | ⟨hNe, hLast⟩ | ⟨piece, rest, hPiece, rfl⟩
  · cases hLines
  · rw [lines_of_notMem hLast hNe] at hLines
    exact absurd (List.cons.inj hLines).2 hOthers
  · rw [lines_append_newline hPiece] at hLines
    obtain ⟨rfl, rfl⟩ := List.cons.inj hLines
    have hSplit : text = (front ++ (piece ++ ['\n'])) ++ rest := by simp [hText]
    refine ⟨front ++ (piece ++ ['\n']), ⟨⟨rest, hSplit.symm⟩, ?_, ?_⟩, ?_, ⟨rest, hSplit, rfl⟩, ?_⟩
    · rw [List.count_append, List.count_append, List.count_eq_zero_of_not_mem hPiece,
        List.count_singleton_self]
      omega
    · simp
    · have hLine := byteLength_dropReturn hPiece
      rw [pairedEnds_append fun c hC => by simp [hEnded c hC], byteLength_append]
      omega
    · exact (getElem?_of_drop_eq_cons (by omega) hDrop).2

end Text

/-- A text while it is expanded. Its includes are relative to its directory. The active files are
those being expanded, its own and those around it. -/
structure Source where
  name : String
  directory : String
  text : List Char
  active : List String

namespace Source

/-- A text that is not in a file. -/
def ofText (text directory : String) : Source :=
  ⟨Expansion.inputName, directory, text.toList, []⟩

/-- The path of what a directive names. -/
def path (u : Source) (target : List Char) : String :=
  String.ofList (Path.join u.directory.toList target)

/-- The file that a directive names, when it is expanded. -/
def entered (u : Source) (target : List Char) (file : SourceFile) : Source :=
  ⟨u.path target, String.ofList (Path.parent (u.path target).toList), file.text.toList,
    file.identity :: u.active⟩

/-- A directive of the first text is replaced by the second. -/
def Enters (files : Files) (u v : Source) : Prop :=
  ∃ line target file, line ∈ Text.lines u.text ∧ SourceLine.Names line target ∧
    files.read (u.path target) = .ok file ∧ file.identity ∉ u.active ∧ v = u.entered target file

/-- The errors of a line of a text. -/
inductive FailsAt (files : Files) (u : Source) (line : List Char) (site : Site) :
    IncludeError → Prop where
  | malformed (hLine : SourceLine.IsDirective line)
      (hNames : ∀ target, ¬SourceLine.Names line target) :
      FailsAt files u line site (.malformed site)
  | unreadable {target : List Char} {cause : FileError} (hNames : SourceLine.Names line target)
      (hRead : files.read (u.path target) = .error cause) :
      FailsAt files u line site (.unreadable (u.path target) (some site) cause)
  | cycle {target : List Char} {file : SourceFile} (hNames : SourceLine.Names line target)
      (hRead : files.read (u.path target) = .ok file) (hActive : file.identity ∈ u.active) :
      FailsAt files u line site (.cycle (u.path target) (some site))

/-- An error is that of a line of a text that is expanded, and this line starts after `front`. -/
structure Blames (files : Files) (root u : Source) (site : Site) (front : List Char)
    (e : IncludeError) : Prop where
  reached : Relation.ReflTransGen (Enters files) root u
  name : site.name = u.name
  fails : ∃ line, (Text.lines u.text)[site.line - 1]? = some line ∧ u.FailsAt files line site e
  starts : Text.StartsLine u.text site.line front

/-- A directive that fails is reported as such, at the offset that was counted. -/
theorem FailsAt.report {files : Files} {u : Source} {line : List Char} {site : Site}
    {e : IncludeError} (h : u.FailsAt files line site e) :
    e.report.category = .inclusion ∧ e.report.span = .point site.offset := by
  cases h <;> exact ⟨rfl, rfl⟩

theorem path_toList (u : Source) (target : List Char) :
    (u.path target).toList = Path.join u.directory.toList target := String.toList_ofList

section Run

variable {files : Files} {root : Source} {active : List String} {name directory : String}
  {number offset : Nat} {line : List Char} {lines : List (List Char)} {e : IncludeError}

/-- What a directive that cannot be expanded is blamed for. -/
theorem blames_of_failsAt {text front : List Char} {others : List (List Char)}
    (hReached : Relation.ReflTransGen (Enters files) root ⟨name, directory, text, active⟩)
    (hLeaves : Text.Leaves text front number offset (line :: others))
    (hFails : FailsAt files ⟨name, directory, text, active⟩ line ⟨name, number, offset⟩ e) :
    ∃ u site front', Blames files root u site front' e ∧
      site.offset + Text.pairedEnds front' = byteLength front' := by
  have hNumber : 0 < number := hLeaves.starts.count ▸ Nat.succ_pos _
  have hLine := (getElem?_of_drop_eq_cons hNumber hLeaves.drop_eq).1
  exact ⟨_, _, front, ⟨hReached, rfl, ⟨line, hLine, hFails⟩, hLeaves.starts⟩, hLeaves.counted⟩

/-- Without lines nothing fails. -/
theorem ne_nil_of_error
    (h : expandLines files active name directory number offset lines = .error e) : lines ≠ [] := by
  rintro rfl
  rw [expandLines] at h
  cases h

/-- An error of lines that are left is blamed on one of them, or on a line of a file that they
include. -/
theorem exists_blames : ∀ text front,
    Relation.ReflTransGen (Enters files) root ⟨name, directory, text, active⟩ →
    Text.Leaves text front number offset lines →
    expandLines files active name directory number offset lines = .error e →
    ∃ u site front', Blames files root u site front' e ∧
      site.offset + Text.pairedEnds front' = byteLength front' := by
  fun_induction expandLines files active name directory number offset lines with
  | case1 =>
      intro text front hReached hLeaves hError
      cases hError
  | case2 active name directory number offset line rest next hLine ih =>
      intro text front hReached hLeaves hError
      rcases bind_eq_error.1 hError with hRest | ⟨others, -, hKeep⟩
      · obtain ⟨front', hNext⟩ := hLeaves.next (ne_nil_of_error hRest)
        exact ih text front' hReached hNext hRest
      · cases hKeep
  | case3 active name directory number offset line rest hLine =>
      intro text front hReached hLeaves hError
      cases hError
      obtain ⟨hDirective, hNames⟩ := SourceLine.ofChars_eq_malformed_iff.1 hLine
      exact blames_of_failsAt hReached hLeaves (.malformed hDirective hNames)
  | case4 active name directory number offset line rest next target hLine path ihInner ih =>
      intro text front hReached hLeaves hError
      have hNames := SourceLine.ofChars_eq_directive_iff.1 hLine
      have hNumber : 0 < number := hLeaves.starts.count ▸ Nat.succ_pos _
      have hMem := List.mem_of_getElem? (getElem?_of_drop_eq_cons hNumber hLeaves.drop_eq).1
      rcases bind_eq_error.1 hError with hOpen | ⟨opened, hOpen, hError⟩
      · rcases files.openAt_cases active (String.ofList path) (some ⟨name, number, offset⟩) with
          ⟨cause, hRead, hFailed⟩ | ⟨file, hRead, hActive, hFailed⟩ | ⟨opened, -, hOpened⟩
        · cases hOpen.symm.trans hFailed
          exact blames_of_failsAt hReached hLeaves (.unreadable hNames hRead)
        · cases hOpen.symm.trans hFailed
          exact blames_of_failsAt hReached hLeaves (.cycle hNames hRead hActive)
        · cases hOpen.symm.trans hOpened
      · rcases bind_eq_error.1 hError with hInner | ⟨inner, -, hError⟩
        · -- The included text starts over, at its own first line.
          have hEnters : Enters files ⟨name, directory, text, active⟩
              (entered ⟨name, directory, text, active⟩ target opened.file) :=
            ⟨line, target, opened.file, hMem, hNames, Files.read_of_openAt hOpen, opened.fresh, rfl⟩
          rw [entered, path_toList] at hEnters
          exact ihInner opened _ [] (hReached.tail hEnters) (Text.leaves_all _) hInner
        · rcases bind_eq_error.1 hError with hRest | ⟨others, -, hKeep⟩
          · obtain ⟨front', hNext⟩ := hLeaves.next (ne_nil_of_error hRest)
            exact ih text front' hReached hNext hRest
          · cases hKeep

end Run

/-- An error of the expansion of a text is that of a directive. Its report points to the start of
the line of this directive in its own text exactly if no line before it ends with a carriage return
and a newline; each such line moves the point one byte to the front. -/
theorem include_error_place {files : Files} {text directory : String} {e : IncludeError}
    (h : Expansion.ofText files text directory = .error e) :
    ∃ u site front, Blames files (.ofText text directory) u site front e ∧
      e.report.category = .inclusion ∧ e.report.span = .point site.offset ∧
      site.offset + Text.pairedEnds front = byteLength front ∧
      (e.report.span = .point (byteLength front) ↔ ¬['\r', '\n'] <:+: front) := by
  rw [Expansion.ofText_eq] at h
  rcases bind_eq_error.1 h with hLines | ⟨lines, -, hLines⟩
  · obtain ⟨u, site, front, hBlames, hOffset⟩ :=
      @exists_blames files (.ofText text directory) _ _ _ _ _ _ _ text.toList [] .refl
        (Text.leaves_all _) hLines
    obtain ⟨line, -, hFails⟩ := hBlames.fails
    obtain ⟨hCategory, hSpan⟩ := hFails.report
    refine ⟨u, site, front, hBlames, hCategory, hSpan, hOffset, ?_⟩
    rw [hSpan, ← Text.pairedEnds_eq_zero_iff]
    simp only [Span.point, Span.mk.injEq, and_self]
    omega
  · cases hLines

/-- A file with lines that end in both ways, and a directive that names no file. -/
def mixedTree : FileTree where
  files := [(["w", "part"], "// é\r\n\n#include \"gone\"".toUTF8.toList)]
  directories := []
  current := ["w"]

/-- The offset of the directive counts the carriage return before it as no byte. -/
theorem expandLines_mixedTree :
    expandLines mixedTree.toFiles ["/w/part"] "part" "" 1 0
        (Text.lines "// é\r\n\n#include \"gone\"".toList) =
      .error (.unreadable "gone" (some ⟨"part", 3, 7⟩) .notFound) := by
  have hLines : Text.lines "// é\r\n\n#include \"gone\"".toList =
      ["// é".toList, [], "#include \"gone\"".toList] := by decide
  have hComment : SourceLine.ofChars "// é".toList = .plain := by decide
  have hEmpty : SourceLine.ofChars [] = .plain := by decide
  have hGone : SourceLine.ofChars "#include \"gone\"".toList = .directive "gone".toList := by
    decide
  have hPath : String.ofList (Path.join "".toList "gone".toList) = "gone" := by decide
  have hRead : mixedTree.toFiles.read "gone" = .error .notFound := by decide
  rw [hLines, expandLines]
  simp only [hComment]
  rw [expandLines]
  simp only [hEmpty]
  rw [expandLines]
  simp only [hGone, hPath, Files.openAt_of_error hRead]
  rfl

theorem ofText_mixedTree :
    Expansion.ofText mixedTree.toFiles "#include \"part\"" "" =
      .error (.unreadable "gone" (some ⟨"part", 3, 7⟩) .notFound) := by
  have hLines : Text.lines "#include \"part\"".toList = ["#include \"part\"".toList] := by
    decide
  have hPart : SourceLine.ofChars "#include \"part\"".toList = .directive "part".toList := by
    decide
  have hPath : String.ofList (Path.join "".toList "part".toList) = "part" := by decide
  have hParent : String.ofList (Path.parent (Path.join "".toList "part".toList)) = "" := by
    decide
  have hRead : mixedTree.toFiles.read "part" =
      .ok ⟨"/w/part", "// é\r\n\n#include \"gone\""⟩ := by cbv
  obtain ⟨opened, hOpen, hFile⟩ := @Files.openAt_of_notMem _ [] _
    (some ⟨Expansion.inputName, 1, 0⟩) _ hRead List.not_mem_nil
  rw [Expansion.ofText_eq, hLines, expandLines]
  simp only [hPart, hPath, hParent, hOpen]
  simp only [bind, Except.bind, hFile, expandLines_mixedTree]

theorem include_error_place_mixed : ∃ e u site front,
    Expansion.ofText mixedTree.toFiles "#include \"part\"" "" = .error e ∧
      Blames mixedTree.toFiles (.ofText "#include \"part\"" "") u site front e ∧
      e.report.span = .point 7 ∧ 7 + Text.pairedEnds front = byteLength front := by
  obtain ⟨u, site, front, hBlames, -, hSpan, hOffset, -⟩ := include_error_place ofText_mixedTree
  have hSeven : 7 = site.offset := congrArg Span.start hSpan
  exact ⟨_, u, site, front, ofText_mixedTree, hBlames, rfl, hSeven ▸ hOffset⟩

/-- The directive is on the second line, which starts at the eighth byte, and the report points to
the seventh. -/
theorem include_error_place_return : ∃ e : IncludeError,
    (∀ files directory, Expansion.ofText files "i32 a;\r\n#include lib.wl" directory = .error e) ∧
      e.report.span = .point 7 ∧
      Text.StartsLine "i32 a;\r\n#include lib.wl".toList 2 "i32 a;\r\n".toList ∧
      byteLength "i32 a;\r\n".toList = 8 := by
  have hLines : Text.lines "i32 a;\r\n#include lib.wl".toList =
      ["i32 a;".toList, "#include lib.wl".toList] := by decide
  have hPlain : SourceLine.ofChars "i32 a;".toList = .plain := by decide
  have hMalformed : SourceLine.ofChars "#include lib.wl".toList = .malformed := by decide
  have hLast : "i32 a;\r\n".toList.getLast? = some '\n' := by decide
  refine ⟨.malformed ⟨Expansion.inputName, 2, 7⟩, fun files directory => ?_, rfl,
    ⟨⟨"#include lib.wl".toList, by decide⟩, by decide, fun c hC => ?_⟩,
    by decide⟩
  rw [Expansion.ofText_eq, hLines, expandLines]
  simp only [hPlain]
  rw [expandLines]
  simp only [hMalformed]
  rfl
  exact Option.some.inj ((hC : _ = _).symm.trans hLast)

end Source

end WasmCompiler
