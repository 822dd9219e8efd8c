import WasmCompiler.Include

/-! Expansion without a state. The lines that a text contributes do not depend on the lines that are
written already, and the files being expanded are the same before it and after it. So an expansion
is a function from lines to lines, and the state only collects what it gives. -/

namespace WasmCompiler

/-- The lines of a text with its includes spliced in, from line `number` on, which starts at
`offset`. Included paths are relative to `directory`; the files in `active` are being expanded
around this one. -/
def expandLines (files : Files) (active : List String) (name directory : String)
    (number offset : Nat) (lines : List (List Char)) :
    Except IncludeError (List ExpandedLine) :=
  match lines with
  | [] => .ok []
  | line :: rest =>
    let next := offset + byteLength line + 1
    match SourceLine.ofChars line with
    | .plain => do
      let others ← expandLines files active name directory (number + 1) next rest
      return ⟨String.ofList line, ⟨name, number⟩⟩ :: others
    | .malformed => .error (.malformed ⟨name, number, offset⟩)
    | .directive target => do
      let path := Path.join directory.toList target
      let opened ← files.openAt active (String.ofList path) (some ⟨name, number, offset⟩)
      let inner ← expandLines files (opened.file.identity :: active) (String.ofList path)
        (String.ofList (Path.parent path)) 1 0 (Text.lines opened.file.text.toList)
      let others ← expandLines files active name directory (number + 1) next rest
      return inner ++ others
termination_by (files.others active, lines.length)
decreasing_by
  · exact .right _ (Nat.lt_succ_self _)
  · exact .left _ _ (files.others_cons_lt opened.mem opened.fresh)
  · exact .right _ (Nat.lt_succ_self _)

namespace Preprocessor

variable {files : Files} {name directory : String} {number offset : Nat}
  {lines more : List ExpandedLine}

/-- Writes lines. -/
def write (p : Preprocessor) (lines : List ExpandedLine) : Preprocessor :=
  ⟨p.stack, p.out ++ (lines.map ExpandedLine.text).toArray,
    p.origins ++ (lines.map ExpandedLine.origin).toArray, by simp [p.size_eq]⟩

theorem write_nil (p : Preprocessor) : p.write [] = p := by
  simp [write]

theorem write_write (p : Preprocessor) : (p.write lines).write more = p.write (lines ++ more) := by
  simp [write]

/-- Pushing a line writes that line. -/
theorem push_eq_write (p : Preprocessor) (line : ExpandedLine) :
    p.push line.text line.origin = p.write [line] := by
  simp [push, write]

/-- A file is entered and left again around its lines. -/
theorem leave_write_enter (p : Preprocessor) (identity : String) :
    ((p.enter identity).write lines).leave = p.write lines := rfl

/-- A value that is given without its proof was given with one. -/
theorem eq_ok_of_map_val {α : Type} {P : α → Prop} {x : Except IncludeError { a // P a }} {a : α}
    (h : x.map Subtype.val = .ok a) : ∃ ha, x = .ok ⟨a, ha⟩ := by
  cases x with
  | error e => cases h
  | ok b =>
    cases h
    exact ⟨b.property, rfl⟩

theorem eq_error_of_map_val {α : Type} {P : α → Prop} {x : Except IncludeError { a // P a }}
    {e : IncludeError} (h : x.map Subtype.val = .error e) : x = .error e := by
  cases x with
  | error e' =>
    cases h
    rfl
  | ok b => cases h

/-- The lines of a file are written after those that are there, if those of its text are. -/
theorem expandFile_eq_of_expand (p : Preprocessor) (path : String) (site : Option Site)
    {inner : Opened files p.stack → Except IncludeError (List ExpandedLine)}
    (hInner : ∀ opened, (expand files path (String.ofList (Path.parent path.toList)) 1 0
      (Text.lines opened.file.text.toList) (p.enter opened.file.identity)).map Subtype.val =
        (inner opened).map (p.enter opened.file.identity).write) :
    (p.expandFile files path site).map Subtype.val =
      (files.openAt p.stack path site >>= inner).map p.write := by
  rw [expandFile]
  cases files.openAt p.stack path site with
  | error e => rfl
  | ok opened =>
    have hOpened := hInner opened
    simp only [bind, Except.bind]
    cases hLines : inner opened with
    | error e =>
      rw [hLines] at hOpened
      rw [eq_error_of_map_val hOpened]
      rfl
    | ok lines =>
      rw [hLines] at hOpened
      obtain ⟨hStack, hRun⟩ := eq_ok_of_map_val hOpened
      rw [hRun]
      exact congrArg Except.ok (p.leave_write_enter opened.file.identity)

/-- The lines of a file and then those of the rest of a text are written one after the other. -/
theorem bind_expand_eq {p : Preprocessor} {file : Except IncludeError p.Balanced}
    {inner others : Except IncludeError (List ExpandedLine)} {rest : List (List Char)}
    (hFile : file.map Subtype.val = inner.map p.write)
    (hRest : ∀ after : p.Balanced, (after.val.expand files name directory number offset rest).map
      Subtype.val = others.map after.val.write) :
    Except.map Subtype.val (do
      let after ← file
      let finish ← after.val.expand files name directory number offset rest
      return (⟨finish.val, finish.property.trans after.property⟩ : p.Balanced)) =
    Except.map p.write (do
      let lines ← inner
      let more ← others
      return lines ++ more) := by
  cases inner with
  | error e =>
    rw [eq_error_of_map_val hFile]
    rfl
  | ok lines =>
    obtain ⟨hStack, hOk⟩ := eq_ok_of_map_val hFile
    have hFinish := hRest ⟨p.write lines, hStack⟩
    rw [hOk]
    simp only [bind, Except.bind]
    cases others with
    | error e =>
      rw [eq_error_of_map_val hFinish]
      rfl
    | ok more =>
      obtain ⟨hStack', hOk'⟩ := eq_ok_of_map_val hFinish
      rw [hOk']
      exact congrArg Except.ok (write_write p)

/-- The lines of a text are written after those that are there, and the files being expanded are as
before. -/
theorem expand_eq (p : Preprocessor) {active : List String} (hActive : p.stack = active)
    (texts : List (List Char)) :
    (p.expand files name directory number offset texts).map Subtype.val =
      (expandLines files active name directory number offset texts).map p.write := by
  fun_induction expandLines files active name directory number offset texts generalizing p with
  | case1 =>
    rw [expand]
    exact congrArg Except.ok p.write_nil.symm
  | case2 active name directory number offset line rest next hLine ih =>
    have hRest := ih (p.push (String.ofList line) ⟨name, number⟩) hActive
    rw [expand]
    simp only [hLine]
    refine Eq.trans hRest ?_
    cases expandLines files active name directory (number + 1) next rest with
    | error e => rfl
    | ok others =>
      have hPush := p.push_eq_write ⟨String.ofList line, ⟨name, number⟩⟩
      exact congrArg Except.ok ((congrArg (write · others) hPush).trans (write_write p))
  | case3 active name directory number offset line rest hLine =>
    rw [expand]
    simp only [hLine]
    rfl
  | case4 active name directory number offset line rest next target hLine path ihInner ih =>
    subst hActive
    have hFile := p.expandFile_eq_of_expand (String.ofList path) (some ⟨name, number, offset⟩)
      fun opened => by
        rw [String.toList_ofList]
        exact ihInner opened (p.enter opened.file.identity) rfl
    rw [expand]
    simp only [hLine]
    refine (bind_expand_eq hFile fun after => ih after.val after.property).trans ?_
    rw [bind_assoc]

/-- The lines that were written are those of the expansion. -/
theorem finish_start_write (lines : List ExpandedLine) : (start.write lines).finish = ⟨lines⟩ := by
  simp only [finish, write, start, Array.empty_append, List.zip_map', List.map_map]
  exact congrArg Expansion.mk (List.map_id lines)

/-- What was written is what the lines of a text give. -/
theorem map_finish {run : Except IncludeError start.Balanced}
    {lines : Except IncludeError (List ExpandedLine)}
    (h : run.map Subtype.val = lines.map start.write) :
    (run.map fun after => after.val.finish) = do
      let written ← lines
      return ⟨written⟩ := by
  cases lines with
  | error e =>
    rw [eq_error_of_map_val h]
    rfl
  | ok lines =>
    obtain ⟨hStack, hRun⟩ := eq_ok_of_map_val h
    rw [hRun]
    exact congrArg Except.ok (finish_start_write lines)

end Preprocessor

namespace Expansion

/-- The expansion of a file, line by line. -/
theorem ofFile_eq (files : Files) (path : String) : ofFile files path = do
    let opened ← files.openAt [] path none
    let lines ← expandLines files [opened.file.identity] path
      (String.ofList (Path.parent path.toList)) 1 0 (Text.lines opened.file.text.toList)
    return ⟨lines⟩ := by
  have hFile := Preprocessor.start.expandFile_eq_of_expand path none fun opened : Opened files [] =>
    (Preprocessor.start.enter opened.file.identity).expand_eq rfl
      (Text.lines opened.file.text.toList)
  exact (Preprocessor.map_finish hFile).trans (bind_assoc _ _ _)

/-- The expansion of a text, line by line. -/
theorem ofText_eq (files : Files) (text directory : String) : ofText files text directory = do
    let lines ← expandLines files [] inputName directory 1 0 (Text.lines text.toList)
    return ⟨lines⟩ :=
  Preprocessor.map_finish (Preprocessor.start.expand_eq rfl _)

end Expansion

end WasmCompiler
