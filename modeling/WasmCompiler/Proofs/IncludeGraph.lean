import Mathlib.Data.List.Perm.Subperm
import Mathlib.Logic.Relation
import WasmCompiler.Proofs.FilePaths
import WasmCompiler.Proofs.Splicing

/-! Which files include which, and how the expansion of a file ends. It always ends, and with a
cycle only at a directive that names a file that is being expanded around it. Where all that is
included can be read, it succeeds exactly if no file includes itself, directly or through others. -/

namespace WasmCompiler

section Expands

variable {files : Files} {active : List String} {name : String} {number offset : Nat}
  {lines : List (List Char)} {result result' : Except IncludeError (List ExpandedLine)}

/-- How the expansion of lines of the file `name` ends, from line `number` on, which starts at
`offset`. The files in `active` are being expanded around them. -/
inductive Expands (files : Files) : List String → String → Nat → Nat → List (List Char) →
    Except IncludeError (List ExpandedLine) → Prop where
  | nil {active : List String} {name : String} {number offset : Nat} :
      Expands files active name number offset [] (.ok [])
  | keep {active : List String} {name : String} {number offset : Nat} {line : List Char}
      {rest : List (List Char)} {result : Except IncludeError (List ExpandedLine)}
      (hLine : ¬SourceLine.IsDirective line)
      (hRest : Expands files active name (number + 1) (offset + byteLength line + 1) rest result) :
      Expands files active name number offset (line :: rest)
        (result.map (⟨String.ofList line, ⟨name, number⟩⟩ :: ·))
  | malformed {active : List String} {name : String} {number offset : Nat} {line : List Char}
      {rest : List (List Char)} (hLine : SourceLine.IsDirective line)
      (hNames : ∀ target, ¬SourceLine.Names line target) :
      Expands files active name number offset (line :: rest)
        (.error (.malformed ⟨name, number, offset⟩))
  | unreadable {active : List String} {name : String} {number offset : Nat}
      {line target : List Char} {rest : List (List Char)} {cause : FileError}
      (hLine : SourceLine.Names line target)
      (hRead : files.read (Path.included name target) = .error cause) :
      Expands files active name number offset (line :: rest)
        (.error (.unreadable (Path.included name target) (some ⟨name, number, offset⟩) cause))
  | cycle {active : List String} {name : String} {number offset : Nat} {line target : List Char}
      {rest : List (List Char)} {file : SourceFile} (hLine : SourceLine.Names line target)
      (hRead : files.read (Path.included name target) = .ok file)
      (hActive : file.identity ∈ active) :
      Expands files active name number offset (line :: rest)
        (.error (.cycle (Path.included name target) (some ⟨name, number, offset⟩)))
  | fail {active : List String} {name : String} {number offset : Nat} {line target : List Char}
      {rest : List (List Char)} {file : SourceFile} {e : IncludeError}
      (hLine : SourceLine.Names line target)
      (hRead : files.read (Path.included name target) = .ok file)
      (hFresh : file.identity ∉ active)
      (hInner : Expands files (file.identity :: active) (Path.included name target) 1 0
        (Text.lines file.text.toList) (.error e)) :
      Expands files active name number offset (line :: rest) (.error e)
  | splice {active : List String} {name : String} {number offset : Nat} {line target : List Char}
      {rest : List (List Char)} {file : SourceFile} {inner : List ExpandedLine}
      {result : Except IncludeError (List ExpandedLine)} (hLine : SourceLine.Names line target)
      (hRead : files.read (Path.included name target) = .ok file)
      (hFresh : file.identity ∉ active)
      (hInner : Expands files (file.identity :: active) (Path.included name target) 1 0
        (Text.lines file.text.toList) (.ok inner))
      (hRest : Expands files active name (number + 1) (offset + byteLength line + 1) rest result) :
      Expands files active name number offset (line :: rest) (result.map (inner ++ ·))

/-- How the expansion of a file ends. -/
inductive ExpandsFile (files : Files) (path : String) : Except IncludeError Expansion → Prop where
  | unreadable {cause : FileError} (hRead : files.read path = .error cause) :
      ExpandsFile files path (.error (.unreadable path none cause))
  | lines {file : SourceFile} {result : Except IncludeError (List ExpandedLine)}
      (hRead : files.read path = .ok file)
      (hLines : Expands files [file.identity] path 1 0 (Text.lines file.text.toList) result) :
      ExpandsFile files path (result.map Expansion.mk)

/-- A directive is malformed exactly if it names no target. -/
theorem SourceLine.ofChars_eq_malformed_iff {line : List Char} :
    ofChars line = .malformed ↔ IsDirective line ∧ ∀ target, ¬Names line target := by
  have hDirective : IsDirective line ↔ ofChars line ≠ .plain := by
    rw [Ne, ofChars_eq_plain_iff, not_not]
  simp only [hDirective, ← ofChars_eq_directive_iff]
  cases ofChars line <;> simp

/-- What opening a file finds: an error, a file that is being expanded, or another one. -/
theorem Files.openAt_cases (files : Files) (active : List String) (path : String)
    (site : Option Site) :
    (∃ cause, files.read path = .error cause ∧
      files.openAt active path site = .error (.unreadable path site cause)) ∨
    (∃ file, files.read path = .ok file ∧ file.identity ∈ active ∧
      files.openAt active path site = .error (.cycle path site)) ∨
    ∃ opened, files.read path = .ok opened.file ∧ files.openAt active path site = .ok opened := by
  fun_cases openAt files active path site with
  | case1 cause hRead => exact .inl ⟨cause, hRead, rfl⟩
  | case2 file hRead hActive => exact .inr (.inl ⟨file, hRead, hActive, rfl⟩)
  | case3 file hRead => exact .inr (.inr ⟨_, hRead, rfl⟩)

/-- A file that cannot be read is reported with the cause and the place of its directive. -/
theorem Files.openAt_of_error {path : String} {site : Option Site} {cause : FileError}
    (h : files.read path = .error cause) :
    files.openAt active path site = .error (.unreadable path site cause) := by
  rcases files.openAt_cases active path site with
    ⟨cause', hRead, hOpen⟩ | ⟨file, hRead, -⟩ | ⟨opened, hRead, -⟩
  · cases h.symm.trans hRead
    exact hOpen
  · cases h.symm.trans hRead
  · cases h.symm.trans hRead

/-- A file that is being expanded is reported as a cycle. -/
theorem Files.openAt_of_mem {path : String} {site : Option Site} {file : SourceFile}
    (h : files.read path = .ok file) (hActive : file.identity ∈ active) :
    files.openAt active path site = .error (.cycle path site) := by
  rcases files.openAt_cases active path site with
    ⟨cause', hRead, -⟩ | ⟨file, -, -, hOpen⟩ | ⟨opened, hRead, -⟩
  · cases h.symm.trans hRead
  · exact hOpen
  · cases h.symm.trans hRead
    exact absurd hActive opened.fresh

/-- Any other file that can be read is opened. -/
theorem Files.openAt_of_notMem {path : String} {site : Option Site} {file : SourceFile}
    (h : files.read path = .ok file) (hFresh : file.identity ∉ active) :
    ∃ opened, files.openAt active path site = .ok opened ∧ opened.file = file := by
  rcases files.openAt_cases active path site with
    ⟨cause', hRead, -⟩ | ⟨file', hRead, hActive, -⟩ | ⟨opened, hRead, hOpen⟩
  · cases h.symm.trans hRead
  · cases h.symm.trans hRead
    exact absurd hActive hFresh
  · cases h.symm.trans hRead
    exact ⟨opened, hOpen, rfl⟩

/-- A directive is expanded in three steps: the file is opened, its lines are expanded, and then the
lines after the directive. -/
theorem expandLines_of_names {line target : List Char} {rest : List (List Char)}
    (h : SourceLine.Names line target) :
    expandLines files active name (String.ofList (Path.parent name.toList)) number offset
        (line :: rest) = (do
      let opened ← files.openAt active (Path.included name target) (some ⟨name, number, offset⟩)
      let inner ← expandLines files (opened.file.identity :: active) (Path.included name target)
        (String.ofList (Path.parent (Path.included name target).toList)) 1 0
        (Text.lines opened.file.text.toList)
      let others ← expandLines files active name (String.ofList (Path.parent name.toList))
        (number + 1) (offset + byteLength line + 1) rest
      return inner ++ others) := by
  rw [expandLines]
  simp only [SourceLine.ofChars_eq_directive_iff.2 h, Path.included, String.toList_ofList]

/-- Expanding lines ends as the rules say. -/
theorem expands_expandLines {directory : String}
    (hDirectory : directory = String.ofList (Path.parent name.toList)) :
    Expands files active name number offset lines
      (expandLines files active name directory number offset lines) := by
  fun_induction expandLines files active name directory number offset lines with
  | case1 => exact .nil
  | case2 active name directory number offset line rest next hLine ih =>
      exact .keep (SourceLine.ofChars_eq_plain_iff.1 hLine) (ih hDirectory)
  | case3 active name directory number offset line rest hLine =>
      obtain ⟨hDirective, hNames⟩ := SourceLine.ofChars_eq_malformed_iff.1 hLine
      exact .malformed hDirective hNames
  | case4 active name directory number offset line rest next target hLine path ihInner ih =>
      have hNames := SourceLine.ofChars_eq_directive_iff.1 hLine
      have hPath : String.ofList path = Path.included name target := by
        simp only [path, Path.included, hDirectory, String.toList_ofList]
      rw [hPath] at ihInner ⊢
      rcases files.openAt_cases active (Path.included name target)
        (some ⟨name, number, offset⟩) with
        ⟨cause, hRead, hOpen⟩ | ⟨file, hRead, hActive, hOpen⟩ | ⟨opened, hRead, hOpen⟩
      · rw [hOpen]
        exact .unreadable hNames hRead
      · rw [hOpen]
        exact .cycle hNames hRead hActive
      · have hInner := ihInner opened (by rw [← hPath, String.toList_ofList])
        rw [hOpen]
        revert hInner
        change Expands files _ _ _ _ _ ?inner →
          Expands files active name number offset (line :: rest) (?inner >>= _)
        generalize expandLines files (opened.file.identity :: active) _ _ 1 0 _ = inner
        intro hInner
        cases inner with
        | error e => exact .fail hNames hRead opened.fresh hInner
        | ok inner => exact .splice hNames hRead opened.fresh hInner (ih hDirectory)

/-- The rules leave no choice. -/
theorem Expands.eq_expandLines (h : Expands files active name number offset lines result) :
    result = expandLines files active name (String.ofList (Path.parent name.toList)) number offset
      lines := by
  induction h with
  | nil => rw [expandLines]
  | keep hLine _ ih =>
      rw [expandLines, ih]
      simp only [SourceLine.ofChars_eq_plain_iff.2 hLine]
      rfl
  | malformed hLine hNames =>
      rw [expandLines, SourceLine.ofChars_eq_malformed_iff.2 ⟨hLine, hNames⟩]
  | unreadable hNames hRead =>
      rw [expandLines_of_names hNames, Files.openAt_of_error hRead]
      rfl
  | cycle hNames hRead hActive =>
      rw [expandLines_of_names hNames, Files.openAt_of_mem hRead hActive]
      rfl
  | fail hNames hRead hFresh _ ih =>
      obtain ⟨opened, hOpen, rfl⟩ := Files.openAt_of_notMem hRead hFresh
      rw [expandLines_of_names hNames, hOpen]
      simp only [bind, Except.bind, ← ih]
  | splice hNames hRead hFresh _ _ ihInner ih =>
      obtain ⟨opened, hOpen, rfl⟩ := Files.openAt_of_notMem hRead hFresh
      rw [expandLines_of_names hNames, hOpen]
      simp only [bind, Except.bind, ← ihInner, ← ih]
      rfl

/-- The rules give a file one result, which is that of its expansion. -/
theorem expandsFile_iff {path : String} {result : Except IncludeError Expansion} :
    ExpandsFile files path result ↔ result = Expansion.ofFile files path := by
  rw [Expansion.ofFile_eq]
  constructor
  · rintro (hRead | ⟨hRead, hLines⟩)
    · rw [Files.openAt_of_error hRead]
      rfl
    · obtain ⟨opened, hOpen, rfl⟩ := Files.openAt_of_notMem hRead List.not_mem_nil
      rw [hOpen, hLines.eq_expandLines]
      rfl
  · rintro rfl
    rcases files.openAt_cases [] path none with
      ⟨cause, hRead, hOpen⟩ | ⟨file, -, hActive, -⟩ | ⟨opened, hRead, hOpen⟩
    · rw [hOpen]
      exact .unreadable hRead
    · cases hActive
    · rw [hOpen]
      exact .lines hRead (expands_expandLines rfl)

end Expands

namespace Files

variable {files : Files} {main p q : String} {paths active : List String}

/-- A line of the file at one path names the other path. -/
def Includes (files : Files) (p q : String) : Prop :=
  ∃ file line target, files.read p = .ok file ∧ line ∈ Text.lines file.text.toList ∧
    SourceLine.Names line target ∧ q = Path.included p target

/-- The paths of the files that are being expanded, the innermost first, and the files that they
lead to. Each includes the one before it, and no file is among them twice. -/
inductive Nest (files : Files) (main : String) : List String → List String → Prop where
  | main {file : SourceFile} (hRead : files.read main = .ok file) :
      Nest files main [main] [file.identity]
  | enter {p q : String} {paths active : List String} {file : SourceFile}
      (hNest : Nest files main (p :: paths) active) (hIncludes : files.Includes p q)
      (hRead : files.read q = .ok file) (hFresh : file.identity ∉ active) :
      Nest files main (q :: p :: paths) (file.identity :: active)

/-- A path that is included by a line of the innermost file leads to a file that is being
expanded. -/
def ClosesNest (files : Files) (main path : String) (site : Option Site) : Prop :=
  ∃ p paths active file line target found number offset,
    files.Nest main (p :: paths) active ∧ site = some ⟨p, number, offset⟩ ∧
    files.read p = .ok file ∧ 0 < number ∧
    (Text.lines file.text.toList)[number - 1]? = some line ∧ SourceLine.Names line target ∧
    path = Path.included p target ∧ files.read path = .ok found ∧ found.identity ∈ active

/-- A path that the main file includes, directly or through others. -/
def Reaches (files : Files) (main p : String) : Prop := Relation.ReflTransGen files.Includes main p

/-- Of two files that the main file reaches, one includes the other. Files are told apart by their
identities. -/
def Links (files : Files) (main a b : String) : Prop :=
  ∃ p q f g, files.Reaches main p ∧ files.Includes p q ∧ files.read p = .ok f ∧
    files.read q = .ok g ∧ f.identity = a ∧ g.identity = b

/-- All that the main file reaches can be read, and every directive in it names something. -/
structure IsComplete (files : Files) (main : String) : Prop where
  read : ∀ p, files.Reaches main p → ∃ file, files.read p = .ok file
  names : ∀ p file line, files.Reaches main p → files.read p = .ok file →
    line ∈ Text.lines file.text.toList → SourceLine.IsDirective line →
    ∃ target, SourceLine.Names line target

/-- The innermost file of a nest is reached from the outermost. -/
theorem Nest.reaches (h : files.Nest main (p :: paths) active) : files.Reaches main p := by
  generalize hPaths : p :: paths = row at h
  induction h generalizing p paths with
  | main =>
      cases hPaths
      exact .refl
  | enter _ hIncludes _ _ ih =>
      cases hPaths
      exact .tail (ih rfl) hIncludes

/-- No more files are expanded inside one another than there are, however the paths grow. -/
theorem Nest.length_le (h : files.Nest main paths active) :
    paths.length ≤ files.identities.length := by
  have hActive : paths.length = active.length ∧ active.Nodup ∧ active ⊆ files.identities := by
    induction h with
    | main hRead => exact ⟨rfl, List.nodup_singleton _, by simpa using files.mem_of_read hRead⟩
    | enter _ _ hRead hFresh ih =>
        obtain ⟨hLength, hNodup, hSubset⟩ := ih
        refine ⟨?_, List.nodup_cons.2 ⟨hFresh, hNodup⟩, ?_⟩
        · rw [List.length_cons, hLength, List.length_cons]
        · exact List.cons_subset.2 ⟨files.mem_of_read hRead, hSubset⟩
  rw [hActive.1]
  exact (List.subperm_of_subset hActive.2.1 hActive.2.2).length_le

/-- Every file of a nest leads to the innermost one. -/
theorem Nest.links (h : files.Nest main (p :: paths) active) {f : SourceFile}
    (hRead : files.read p = .ok f) {a : String} (hA : a ∈ active) :
    Relation.ReflTransGen (files.Links main) a f.identity := by
  generalize hPaths : p :: paths = row at h
  induction h generalizing p paths f with
  | main hMain =>
      cases hPaths
      cases hRead.symm.trans hMain
      rw [List.mem_singleton.1 hA]
  | enter hNest hIncludes hFile _ ih =>
      cases hPaths
      cases hRead.symm.trans hFile
      rcases List.mem_cons.1 hA with rfl | hOuter
      · exact .refl
      · obtain ⟨g, line, target, hOuterRead, -⟩ := id hIncludes
        exact .tail (ih hOuterRead hOuter rfl)
          ⟨_, _, g, _, hNest.reaches, hIncludes, hOuterRead, hRead, rfl, rfl⟩

/-- A directive that closes a nest closes a cycle of files. -/
theorem ClosesNest.cycle {path : String} {site : Option Site}
    (h : files.ClosesNest main path site) :
    ∃ a, Relation.TransGen (files.Links main) a a := by
  obtain ⟨p, paths, active, file, line, target, found, number, offset, hNest, -, hRead, -, hLine,
    hNames, rfl, hFound, hActive⟩ := h
  have hIncludes : files.Includes p (Path.included p target) :=
    ⟨file, line, target, hRead, List.mem_of_getElem? hLine, hNames, rfl⟩
  exact ⟨found.identity, .tail' (hNest.links hRead hActive)
    ⟨p, _, file, found, hNest.reaches, hIncludes, hRead, hFound, rfl, rfl⟩⟩

end Files

section Errors

variable {files : Files} {active : List String} {name main : String} {number offset : Nat}
  {lines : List (List Char)} {result : Except IncludeError (List ExpandedLine)} {e : IncludeError}

theorem map_eq_error {ε α β : Type} {f : α → β} {x : Except ε α} {e : ε} :
    x.map f = .error e ↔ x = .error e := by
  cases x <;> simp [Except.map]

theorem map_eq_ok {ε α β : Type} {f : α → β} {x : Except ε α} {b : β} :
    x.map f = .ok b ↔ ∃ a, x = .ok a ∧ f a = b := by
  cases x <;> simp [Except.map]

/-- An expansion that ends with a cycle was stopped inside a nest, at a directive that names a file
of it. -/
theorem Expands.closesNest (h : Expands files active name number offset lines result)
    {paths : List String} (hNest : files.Nest main (name :: paths) active) {file : SourceFile}
    (hRead : files.read name = .ok file) (hNumber : 0 < number)
    (hLines : (Text.lines file.text.toList).drop (number - 1) = lines) {path : String}
    {site : Option Site} (hResult : result = .error (.cycle path site)) :
    files.ClosesNest main path site := by
  induction h generalizing paths file with
  | nil => cases hResult
  | keep _ _ ih =>
      have hRest := (getElem?_of_drop_eq_cons hNumber hLines).2
      exact ih hNest hRead (Nat.succ_pos _) hRest (map_eq_error.1 hResult)
  | malformed => cases hResult
  | unreadable => cases hResult
  | cycle hNames hFound hActive =>
      cases hResult
      have hLine := (getElem?_of_drop_eq_cons hNumber hLines).1
      exact ⟨_, _, _, _, _, _, _, _, _, hNest, rfl, hRead, hNumber, hLine, hNames, rfl, hFound,
        hActive⟩
  | fail hNames hFound hFresh _ ih =>
      have hLine := (getElem?_of_drop_eq_cons hNumber hLines).1
      have hIncludes : files.Includes _ _ :=
        ⟨file, _, _, hRead, List.mem_of_getElem? hLine, hNames, rfl⟩
      exact ih (hNest.enter hIncludes hFound hFresh) hFound Nat.one_pos rfl hResult
  | splice _ _ _ _ _ _ ih =>
      have hRest := (getElem?_of_drop_eq_cons hNumber hLines).2
      exact ih hNest hRead (Nat.succ_pos _) hRest (map_eq_error.1 hResult)

/-- Where all can be read and every directive names something, there is no other error. -/
theorem Expands.exists_cycle (h : Expands files active name number offset lines result)
    (hComplete : files.IsComplete main) (hReaches : files.Reaches main name) {file : SourceFile}
    (hRead : files.read name = .ok file) (hLines : lines ⊆ Text.lines file.text.toList)
    (hResult : result = .error e) : ∃ path site, e = .cycle path site := by
  induction h generalizing file with
  | nil => cases hResult
  | keep _ _ ih =>
      exact ih hReaches hRead (List.cons_subset.1 hLines).2 (map_eq_error.1 hResult)
  | malformed hLine hNames =>
      obtain ⟨target, hTarget⟩ :=
        hComplete.names _ _ _ hReaches hRead (List.cons_subset.1 hLines).1 hLine
      exact absurd hTarget (hNames target)
  | unreadable hNames hError =>
      have hIncludes : files.Includes _ _ :=
        ⟨file, _, _, hRead, (List.cons_subset.1 hLines).1, hNames, rfl⟩
      obtain ⟨found, hFound⟩ := hComplete.read _ (hReaches.tail hIncludes)
      cases hError.symm.trans hFound
  | cycle =>
      cases hResult
      exact ⟨_, _, rfl⟩
  | fail hNames hFound _ _ ih =>
      have hIncludes : files.Includes _ _ :=
        ⟨file, _, _, hRead, (List.cons_subset.1 hLines).1, hNames, rfl⟩
      exact ih (hReaches.tail hIncludes) hFound (List.Subset.refl _) hResult
  | splice _ _ _ _ _ _ ih =>
      exact ih hReaches hRead (List.cons_subset.1 hLines).2 (map_eq_error.1 hResult)

end Errors

section Success

variable {files : Files} {active : List String} {main p q : String}

/-- The file at a path is not being expanded, and its expansion inside `active` succeeds. -/
def Succeeds (files : Files) (active : List String) (path : String) : Prop :=
  ∃ file out, files.read path = .ok file ∧ file.identity ∉ active ∧
    Expands files (file.identity :: active) path 1 0 (Text.lines file.text.toList) (.ok out)

/-- If the lines of a file are expanded, so is each file that they include. -/
theorem Expands.succeeds_of_names {name : String} {number offset : Nat} {lines : List (List Char)}
    {result : Except IncludeError (List ExpandedLine)} {line target : List Char}
    (h : Expands files active name number offset lines result) (hLine : line ∈ lines)
    (hNames : SourceLine.Names line target) {out : List ExpandedLine} (hResult : result = .ok out) :
    Succeeds files active (Path.included name target) := by
  induction h generalizing out with
  | nil => cases hLine
  | keep hKeep _ ih =>
      obtain ⟨others, hOthers, -⟩ := map_eq_ok.1 hResult
      rcases List.mem_cons.1 hLine with rfl | hRest
      · exact absurd hNames.isDirective hKeep
      · exact ih hRest hOthers
  | malformed => cases hResult
  | unreadable => cases hResult
  | cycle => cases hResult
  | fail => cases hResult
  | splice hFirst hRead hFresh hInner _ _ ih =>
      obtain ⟨others, hOthers, -⟩ := map_eq_ok.1 hResult
      rcases List.mem_cons.1 hLine with rfl | hRest
      · cases hFirst.unique hNames
        exact ⟨_, _, hRead, hFresh, hInner⟩
      · exact ih hRest hOthers

/-- Every file that is reached from one that succeeds succeeds too. -/
theorem Succeeds.exists_of_reaches (h : Succeeds files [] main) (hReaches : files.Reaches main p) :
    ∃ active, Succeeds files active p := by
  induction hReaches with
  | refl => exact ⟨[], h⟩
  | tail _ hIncludes ih =>
      obtain ⟨active, file, out, hRead, -, hExpands⟩ := ih
      obtain ⟨file', line, target, hRead', hLine, hNames, rfl⟩ := hIncludes
      cases hRead.symm.trans hRead'
      exact ⟨_, hExpands.succeeds_of_names hLine hNames rfl⟩

/-- A walk along links is a walk into the files that are expanded, where those behind are active.
The paths differ from those of the links, but lead to the same files. -/
theorem Succeeds.exists_of_links (hLinkFree : files.IsLinkFree) (h : Succeeds files active p)
    {f : SourceFile} (hRead : files.read p = .ok f) {b : String}
    (hLinks : Relation.TransGen (files.Links main) f.identity b) :
    ∃ q g active', Succeeds files active' q ∧ files.read q = .ok g ∧ g.identity = b ∧
      f.identity ∈ active' := by
  have hStep {active : List String} {p : String} {f : SourceFile} {b : String}
      (h : Succeeds files active p) (hRead : files.read p = .ok f)
      (hLink : files.Links main f.identity b) :
      ∃ q g, Succeeds files (f.identity :: active) q ∧ files.read q = .ok g ∧ g.identity = b := by
    obtain ⟨f', out, hRead', -, hExpands⟩ := h
    cases hRead.symm.trans hRead'
    obtain ⟨p', q', f', g', -, ⟨f'', line, target, hRead'', hLine, hNames, rfl⟩, hRead', hFound',
      hSame, rfl⟩ := hLink
    cases hRead'.symm.trans hRead''
    rw [hLinkFree.text _ _ _ _ hRead' hRead hSame] at hLine
    have hSucceeds := hExpands.succeeds_of_names hLine hNames rfl
    obtain ⟨g, -, hFound, -⟩ := id hSucceeds
    exact ⟨_, g, hSucceeds, hFound,
      hLinkFree.target _ _ _ _ hRead hRead' hSame.symm target _ _ hFound hFound'⟩
  induction hLinks with
  | single hLink =>
      obtain ⟨q, g, hSucceeds, hFound, hIdentity⟩ := hStep h hRead hLink
      exact ⟨q, g, _, hSucceeds, hFound, hIdentity, List.mem_cons_self⟩
  | tail _ hLink ih =>
      obtain ⟨q, g, active', hSucceeds, hFound, rfl, hMem⟩ := ih
      obtain ⟨r, k, hSucceeds', hFound', hIdentity⟩ := hStep hSucceeds hFound hLink
      exact ⟨r, k, _, hSucceeds', hFound', hIdentity, List.mem_cons_of_mem _ hMem⟩

end Success

/-- The expansion of a file ends in one way, and no more files are expanded inside one another than
there are. It ends with a cycle only at a directive that names a file that is being expanded around
it. If all that the file reaches can be read, it succeeds exactly if no file includes itself,
directly or through others; a file that is included twice side by side does no harm. -/
theorem Expansion.ofFile_ends (files : Files) (main : String) :
    (∀ result, ExpandsFile files main result ↔ result = ofFile files main) ∧
    (∀ paths active, files.Nest main paths active → paths.length ≤ files.identities.length) ∧
    (∀ path site, ofFile files main = .error (.cycle path site) →
      files.ClosesNest main path site) ∧
    (files.IsLinkFree → files.IsComplete main →
      ((∃ e, ofFile files main = .ok e) ↔ ∀ a, ¬Relation.TransGen (files.Links main) a a)) := by
  have hCycle (path : String) (site : Option Site)
      (h : ofFile files main = .error (.cycle path site)) : files.ClosesNest main path site := by
    generalize hResult : ofFile files main = result at h
    cases expandsFile_iff.2 hResult.symm with
    | unreadable => cases h
    | lines hRead hLines =>
        exact hLines.closesNest (.main hRead) hRead Nat.one_pos rfl (map_eq_error.1 h)
  refine ⟨fun _ => expandsFile_iff, fun _ _ => Files.Nest.length_le, hCycle,
    fun hLinkFree hComplete => ⟨?_, fun hAcyclic => ?_⟩⟩
  · rintro ⟨e, hFile⟩ a hLinks
    generalize hResult : ofFile files main = result at hFile
    cases expandsFile_iff.2 hResult.symm with
    | unreadable => cases hFile
    | lines hRead hLines =>
        obtain ⟨out, rfl, -⟩ := map_eq_ok.1 hFile
        have hMain : Succeeds files [] main := ⟨_, out, hRead, List.not_mem_nil, hLines⟩
        obtain ⟨b, ⟨p, q, f, g, hReaches, -, hF, -, rfl, -⟩, -⟩ :=
          Relation.TransGen.head'_iff.1 hLinks
        obtain ⟨active, hSucceeds⟩ := hMain.exists_of_reaches hReaches
        obtain ⟨q, g, active', ⟨g', -, hG', hFresh, -⟩, hG, hSame, hMem⟩ :=
          hSucceeds.exists_of_links hLinkFree hF hLinks
        cases hG.symm.trans hG'
        exact hFresh (hSame ▸ hMem)
  · generalize hResult : ofFile files main = result
    cases expandsFile_iff.2 hResult.symm with
    | unreadable hError =>
        obtain ⟨file, hRead⟩ := hComplete.read main .refl
        cases hError.symm.trans hRead
    | @lines file result hRead hLines =>
        cases result with
        | ok out => exact ⟨⟨out⟩, rfl⟩
        | error e =>
            obtain ⟨path, site, rfl⟩ :=
              hLines.exists_cycle hComplete .refl hRead (List.Subset.refl _) rfl
            obtain ⟨a, hLinks⟩ := (hCycle path site hResult).cycle
            exact absurd hLinks (hAcyclic a)

/-- A file that includes another twice, once by a path that leaves its directory and comes back. -/
def detourTree : FileTree where
  files := [(["w", "main"], "#include \"part\"\n#include \"../w/part\"".toUTF8.toList),
    (["w", "part"], "x".toUTF8.toList)]
  directories := []
  current := ["w"]

theorem read_detourTree :
    detourTree.read "main" = .ok ⟨"/w/main", "#include \"part\"\n#include \"../w/part\""⟩ ∧
    detourTree.read "part" = .ok ⟨"/w/part", "x"⟩ ∧
    detourTree.read "../w/part" = .ok ⟨"/w/part", "x"⟩ := by
  decide +kernel

/-- Only the first file has directives, and both of them lead to the second. -/
theorem lines_detourTree {p : String} {file : SourceFile} {line : List Char}
    (hPath : p = "main" ∨ p = "part" ∨ p = "../w/part") (hRead : detourTree.read p = .ok file)
    (hLine : line ∈ Text.lines file.text.toList) :
    SourceLine.ofChars line = .plain ∨ p = "main" ∧
      (SourceLine.ofChars line = .directive "part".toList ∨
        SourceLine.ofChars line = .directive "../w/part".toList) := by
  obtain ⟨hMain, hPart, hDetour⟩ := read_detourTree
  rcases hPath with rfl | rfl | rfl
  · cases hMain.symm.trans hRead
    change line ∈ ["#include \"part\"".toList, "#include \"../w/part\"".toList] at hLine
    rcases List.mem_pair.1 hLine with rfl | rfl
    · exact .inr ⟨rfl, .inl (by decide)⟩
    · exact .inr ⟨rfl, .inr (by decide)⟩
  · cases hPart.symm.trans hRead
    cases List.mem_singleton.1 hLine
    exact .inl (by decide)
  · cases hDetour.symm.trans hRead
    cases List.mem_singleton.1 hLine
    exact .inl (by decide)

theorem includes_detourTree {p q : String} (hPath : p = "main" ∨ p = "part" ∨ p = "../w/part")
    (h : detourTree.toFiles.Includes p q) : p = "main" ∧ (q = "part" ∨ q = "../w/part") := by
  obtain ⟨file, line, target, hRead, hLine, hNames, rfl⟩ := h
  have hTarget := SourceLine.ofChars_eq_directive_iff.2 hNames
  rcases lines_detourTree hPath hRead hLine with hPlain | ⟨rfl, hPart | hDetour⟩
  · cases hPlain.symm.trans hTarget
  · cases hPart.symm.trans hTarget
    exact ⟨rfl, .inl (by decide)⟩
  · cases hDetour.symm.trans hTarget
    exact ⟨rfl, .inr (by decide)⟩

/-- These paths are all that are reached. -/
theorem reaches_detourTree {p : String} (h : detourTree.toFiles.Reaches "main" p) :
    p = "main" ∨ p = "part" ∨ p = "../w/part" := by
  induction h with
  | refl => exact .inl rfl
  | tail _ hIncludes ih => exact .inr (includes_detourTree ih hIncludes).2

/-- Every file that is reached can be read, and no directive is malformed. -/
theorem isComplete_detourTree : detourTree.toFiles.IsComplete "main" where
  read p hReaches := by
    obtain ⟨hMain, hPart, hDetour⟩ := read_detourTree
    rcases reaches_detourTree hReaches with rfl | rfl | rfl
    · exact ⟨_, hMain⟩
    · exact ⟨_, hPart⟩
    · exact ⟨_, hDetour⟩
  names p file line hReaches hRead hLine hDirective := by
    rcases lines_detourTree (reaches_detourTree hReaches) hRead hLine with
      hPlain | ⟨-, hPart | hDetour⟩
    · exact absurd hDirective (SourceLine.ofChars_eq_plain_iff.1 hPlain)
    · exact ⟨_, SourceLine.ofChars_eq_directive_iff.1 hPart⟩
    · exact ⟨_, SourceLine.ofChars_eq_directive_iff.1 hDetour⟩

/-- The only link is from the first file to the second, so there is no cycle. -/
theorem links_detourTree {a b : String} (h : detourTree.toFiles.Links "main" a b) :
    a = "/w/main" ∧ b = "/w/part" := by
  obtain ⟨hMain, hPart, hDetour⟩ := read_detourTree
  obtain ⟨p, q, f, g, hReaches, hIncludes, hF, hG, rfl, rfl⟩ := h
  obtain ⟨rfl, rfl | rfl⟩ := includes_detourTree (reaches_detourTree hReaches) hIncludes
  · cases hMain.symm.trans hF
    cases hPart.symm.trans hG
    exact ⟨rfl, rfl⟩
  · cases hMain.symm.trans hF
    cases hDetour.symm.trans hG
    exact ⟨rfl, rfl⟩

theorem Expansion.ofFile_ends_detour :
    detourTree.toFiles.IsLinkFree ∧ detourTree.toFiles.IsComplete "main" ∧
    (∀ a, ¬Relation.TransGen (detourTree.toFiles.Links "main") a a) ∧
    ∃ e, ofFile detourTree.toFiles "main" = .ok e := by
  have hLinkFree : detourTree.toFiles.IsLinkFree :=
    FileTree.isLinkFree_toFiles (by unfold FileTree.HasPlainNames; decide)
  have hAcyclic (a : String) : ¬Relation.TransGen (detourTree.toFiles.Links "main") a a := by
    intro hLinks
    obtain ⟨b, hFirst, -⟩ := Relation.TransGen.head'_iff.1 hLinks
    obtain ⟨c, -, hLast⟩ := Relation.TransGen.tail'_iff.1 hLinks
    have hSame := (links_detourTree hFirst).1.symm.trans (links_detourTree hLast).2
    exact absurd hSame (by decide)
  obtain ⟨-, -, -, hEnds⟩ := ofFile_ends detourTree.toFiles "main"
  exact ⟨hLinkFree, isComplete_detourTree, hAcyclic,
    (hEnds hLinkFree isComplete_detourTree).2 hAcyclic⟩

end WasmCompiler
