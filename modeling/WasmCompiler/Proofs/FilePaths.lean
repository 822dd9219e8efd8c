import WasmCompiler.Files.Tree
import WasmCompiler.Proofs.Splicing

/-! Paths through a tree of directories. The parts of a path that lead somewhere decide where it
leads, and the directory of a path is where its file stands; so a tree has no links, and what a file
includes does not hang on the path by which the file was reached. -/

namespace WasmCompiler

namespace Path

variable {path directory target : List Char}

/-- The parts of a path that lead somewhere. -/
def steps (path : List Char) : List (List Char) := (parts path).filter fun part => !isTrivial part

theorem parts_eq_splitOn (path : List Char) : parts path = path.splitOn '/' := by
  rw [parts, Text.fields_eq_splitOnP, List.splitOn_eq_splitOnP]

theorem slash_notMem_of_mem_parts {part : List Char} (h : part ∈ parts path) : '/' ∉ part := by
  intro hSlash
  exact absurd (Text.eq_false_of_mem_fields h '/' hSlash) (by decide)

/-- A path is its parts with slashes between them. -/
theorem intercalate_parts (path : List Char) : ['/'].intercalate (parts path) = path := by
  rw [parts_eq_splitOn, List.intercalate_splitOn]

/-- A slash separates the parts before it from those after it. -/
theorem parts_append (front back : List Char) :
    parts (front ++ '/' :: back) = parts front ++ parts back := by
  simp only [parts, Text.fields_eq_splitOnP]
  exact List.splitOnP_append_cons front back rfl

/-- A slash separates the steps before it from those after it. -/
theorem steps_append (front back : List Char) :
    steps (front ++ '/' :: back) = steps front ++ steps back := by
  rw [steps, parts_append, List.filter_append]
  rfl

theorem steps_slash (path : List Char) : steps ('/' :: path) = steps path :=
  steps_append [] path

/-- The steps of parts with slashes between them are the parts that are not trivial. -/
theorem steps_intercalate {row : List (List Char)} (h : ∀ part ∈ row, '/' ∉ part) :
    steps (['/'].intercalate row) = row.filter fun part => !isTrivial part := by
  by_cases hRow : row = []
  · subst hRow
    rfl
  · rw [steps, parts_eq_splitOn, List.splitOn_intercalate '/' h hRow]

/-- A relative path is taken after the steps of the directory. -/
theorem steps_join (hTarget : isAbsolute target = false) :
    steps (join directory target) = steps directory ++ steps target := by
  rw [join, hTarget, Bool.false_or]
  by_cases hEmpty : directory.isEmpty = true
  · rw [if_pos hEmpty, List.isEmpty_iff.1 hEmpty]
    rfl
  · rw [if_neg hEmpty]
    by_cases hSlash : (directory.getLast? == some '/') = true
    · rw [if_pos hSlash]
      obtain ⟨front, rfl⟩ := List.getLast?_eq_some_iff.1 (eq_of_beq hSlash)
      rw [List.append_assoc, List.singleton_append, steps_append, steps_append]
      simp [steps, parts, Text.fields, isTrivial]
    · rw [if_neg hSlash]
      exact steps_append directory target

/-- A relative path starts where the directory does. -/
theorem isAbsolute_join (hTarget : isAbsolute target = false) :
    isAbsolute (join directory target) = isAbsolute directory := by
  rw [join, hTarget, Bool.false_or]
  cases directory with
  | nil => exact hTarget
  | cons c directory =>
      simp only [List.isEmpty_cons, Bool.false_eq_true, if_false]
      split <;> rfl

/-- The trivial parts at the end are no steps. -/
theorem filter_dropTrivial (row : List (List Char)) :
    (dropTrivial row).filter (fun part => !isTrivial part) =
      row.filter fun part => !isTrivial part := by
  have hTail : (row.rtakeWhile isTrivial).filter (fun part => !isTrivial part) = [] := by
    rw [List.filter_eq_nil_iff]
    intro part hPart
    simp [List.mem_rtakeWhile_imp hPart]
  have hRow := congrArg (List.filter fun part => !isTrivial part)
    (@List.rdropWhile_append_rtakeWhile _ isTrivial row)
  rwa [List.filter_append, hTail, List.append_nil] at hRow

/-- A dot before a slash leads nowhere. -/
theorem steps_dot (h : ∀ c ∈ path.head?, c = '/') : steps ('.' :: path) = steps path := by
  cases path with
  | nil => rfl
  | cons c path =>
      obtain rfl := h c rfl
      exact (steps_append ['.'] path).trans (steps_slash path).symm

/-- A path starts at the root, with a dot of its own, or with neither. -/
theorem splitStart_cases (path : List Char) :
    (∃ rest, path = '/' :: rest ∧ splitStart path = (['/'], rest)) ∨
    (∃ rest, path = '.' :: rest ∧ splitStart path = (['.'], rest) ∧ ∀ c ∈ rest.head?, c = '/') ∨
    splitStart path = ([], path) ∧ isAbsolute path = false := by
  fun_cases splitStart path with
  | case1 => exact .inl ⟨_, rfl, rfl⟩
  | case2 => exact .inr (.inl ⟨[], rfl, rfl, by simp⟩)
  | case3 => exact .inr (.inl ⟨_, rfl, rfl, by simp⟩)
  | case4 _ hSlash =>
      refine .inr (.inr ⟨rfl, ?_⟩)
      cases path with
      | nil => rfl
      | cons c path =>
          have hC : c ≠ '/' := fun hEq => hSlash path (by rw [hEq])
          simpa [isAbsolute] using hC

/-- The start of a path has no steps. -/
theorem steps_splitStart (path : List Char) : steps (splitStart path).2 = steps path := by
  rcases splitStart_cases path with ⟨rest, rfl, hStart⟩ | ⟨rest, rfl, hStart, hHead⟩ | ⟨hStart, -⟩
  · rw [hStart, steps_slash]
  · rw [hStart, steps_dot hHead]
  · rw [hStart]

/-- The directory of a path that leads somewhere is written with parts before the last. -/
theorem parent_eq (h : steps path ≠ []) :
    ∃ row, parent path = (splitStart path).1 ++ ['/'].intercalate row ∧
      row <+: parts (splitStart path).2 ∧
      (row.filter fun part => !isTrivial part) = (steps path).dropLast := by
  have hKept : (dropTrivial (parts (splitStart path).2)).filter (fun part => !isTrivial part) =
      steps path := (filter_dropTrivial _).trans (steps_splitStart path)
  have hNe : dropTrivial (parts (splitStart path).2) ≠ [] := by
    intro hNil
    rw [hNil] at hKept
    exact h hKept.symm
  have hLast : ¬isTrivial ((dropTrivial (parts (splitStart path).2)).getLast hNe) = true :=
    List.rdropWhile_last_not isTrivial _ hNe
  refine ⟨dropTrivial (dropTrivial (parts (splitStart path).2)).dropLast, ?_, ?_, ?_⟩
  · simp only [parent]
  · exact ((List.rdropWhile_prefix isTrivial _).trans (List.dropLast_prefix _)).trans
      (List.rdropWhile_prefix isTrivial _)
  · rw [filter_dropTrivial, ← hKept]
    conv_rhs => rw [← List.dropLast_append_getLast hNe]
    rw [List.filter_append, List.filter_cons_of_pos (by simpa using hLast), List.filter_nil,
      List.dropLast_concat]

/-- A row of parts that starts another one is the start of the path. -/
theorem intercalate_mono {row row' : List (List Char)} (h : row <+: row') :
    ['/'].intercalate row <+: ['/'].intercalate row' := by
  obtain ⟨more, rfl⟩ := h
  induction row with
  | nil => exact List.nil_prefix
  | cons part row ih =>
      cases row with
      | nil =>
          cases more with
          | nil => exact List.prefix_rfl
          | cons next more =>
              rw [List.intercalate_singleton, List.singleton_append, List.intercalate_cons_cons,
                List.append_assoc]
              exact List.prefix_append _ _
      | cons next row =>
          rw [List.cons_append, List.cons_append, List.intercalate_cons_cons,
            List.intercalate_cons_cons]
          exact (List.prefix_append_right_inj _).2 ih

theorem head?_mono {α : Type} {row row' : List α} (h : row <+: row') :
    ∀ a ∈ row.head?, a ∈ row'.head? := by
  obtain ⟨more, rfl⟩ := h
  intro a hA
  rw [List.head?_append, Option.mem_def.1 hA]
  rfl

/-- The directory of a path leads to where the path leads before its last step. -/
theorem steps_parent (h : steps path ≠ []) :
    steps (parent path) = (steps path).dropLast ∧ isAbsolute (parent path) = isAbsolute path := by
  obtain ⟨row, hParent, hPrefix, hRow⟩ := parent_eq h
  have hSlash : ∀ part ∈ row, '/' ∉ part := fun part hPart =>
    slash_notMem_of_mem_parts (hPrefix.subset hPart)
  have hHead := head?_mono (intercalate_mono hPrefix)
  rw [intercalate_parts] at hHead
  rw [hParent, ← hRow, ← steps_intercalate hSlash]
  rcases splitStart_cases path with
    ⟨rest, rfl, hStart⟩ | ⟨rest, rfl, hStart, hRest⟩ | ⟨hStart, hAbs⟩
  · rw [hStart]
    exact ⟨steps_slash _, rfl⟩
  · rw [hStart] at hHead ⊢
    exact ⟨steps_dot fun c hC => hRest c (hHead c hC), rfl⟩
  · rw [hStart] at hHead ⊢
    refine ⟨rfl, ?_⟩
    rw [hAbs, List.nil_append]
    cases hFirst : (['/'].intercalate row).head? with
    | none => simp [isAbsolute, hFirst]
    | some c =>
        have hC : path.head? = some c := hHead c hFirst
        rwa [isAbsolute, hFirst, ← hC]

end Path

/-- The path that a directive of the file `name` leads to. -/
def Path.included (name : String) (target : List Char) : String :=
  String.ofList (join (parent name.toList) target)

/-- All paths to a file lead to the same text, and from the directories of these paths a name leads
to one file. A link to a directory would break the second. -/
structure Files.IsLinkFree (files : Files) : Prop where
  text : ∀ p q f g, files.read p = .ok f → files.read q = .ok g → f.identity = g.identity →
    f.text = g.text
  target : ∀ p q f g, files.read p = .ok f → files.read q = .ok g → f.identity = g.identity →
    ∀ target f' g', files.read (Path.included p target) = .ok f' →
      files.read (Path.included q target) = .ok g' → f'.identity = g'.identity

namespace FileTree

variable {tree : FileTree} {location dest : Location} {parts : List (List Char)}
  {part path : List Char}

/-- A walk goes on from where its first part leads. -/
theorem walk_append (tree : FileTree) (location : Location) (front back : List (List Char)) :
    tree.walk location (front ++ back) =
      tree.walk location front >>= fun mid => tree.walk mid back := by
  induction front generalizing location with
  | nil => rfl
  | cons part front ih =>
      rw [List.cons_append, walk, walk]
      cases tree.enter location part with
      | error e => rfl
      | ok next => exact ih next

/-- What a step does: it is made in a directory, and stays there, goes up, or goes into a file or
directory of that name. -/
theorem enter_eq_ok (h : tree.enter location part = .ok dest) :
    tree.isDirectory location = true ∧
      (Path.isTrivial part = true ∧ dest = location ∨
        Path.isTrivial part = false ∧ part = ['.', '.'] ∧ dest = location.dropLast ∨
        Path.isTrivial part = false ∧ part ≠ ['.', '.'] ∧
          dest = location ++ [String.ofList part]) := by
  revert h
  fun_cases enter tree location part with
  | case1 | case4 | case6 => rintro ⟨⟩
  | case2 hDirectory hTrivial =>
      rintro ⟨⟩
      exact ⟨by simpa using hDirectory, .inl ⟨hTrivial, rfl⟩⟩
  | case3 hDirectory hTrivial hUp =>
      rintro ⟨⟩
      rw [Bool.not_eq_true] at hTrivial
      exact ⟨by simpa using hDirectory, .inr (.inl ⟨hTrivial, hUp, rfl⟩)⟩
  | case5 hDirectory hTrivial hUp _ next =>
      intro h
      obtain rfl : next = dest := Except.ok.inj h
      rw [Bool.not_eq_true] at hTrivial
      exact ⟨by simpa using hDirectory, .inr (.inr ⟨hTrivial, hUp, rfl⟩)⟩

/-- The steps of a path lead where the path leads. -/
theorem walk_filter (h : tree.walk location parts = .ok dest) :
    tree.walk location (parts.filter fun part => !Path.isTrivial part) = .ok dest := by
  induction parts generalizing location with
  | nil => exact h
  | cons part parts ih =>
      obtain ⟨next, hEnter, hRest⟩ := bind_eq_ok.1 h
      rcases (enter_eq_ok hEnter).2 with ⟨hTrivial, rfl⟩ | ⟨hTrivial, -⟩ | ⟨hTrivial, -⟩
      · rw [List.filter_cons_of_neg (by simp [hTrivial])]
        exact ih hRest
      · rw [List.filter_cons_of_pos (by simp [hTrivial])]
        exact bind_eq_ok.2 ⟨next, hEnter, ih hRest⟩
      · rw [List.filter_cons_of_pos (by simp [hTrivial])]
        exact bind_eq_ok.2 ⟨next, hEnter, ih hRest⟩

/-- All that a location lies in are directories, and no name in it has a slash. -/
structure IsProper (tree : FileTree) (location : Location) : Prop where
  directories : ∀ outer, outer <+: location → outer ≠ location → tree.isDirectory outer = true
  names : ∀ name ∈ location, '/' ∉ name.toList

/-- A step from a proper location leads to a proper one. -/
theorem IsProper.enter (h : tree.IsProper location) (hPart : '/' ∉ part)
    (hEnter : tree.enter location part = .ok dest) : tree.IsProper dest := by
  obtain ⟨hDirectory, ⟨-, rfl⟩ | ⟨-, -, rfl⟩ | ⟨-, -, rfl⟩⟩ := enter_eq_ok hEnter
  · exact h
  · refine ⟨fun outer hOuter hNe => h.directories outer (hOuter.trans (List.dropLast_prefix _)) ?_,
      fun name hName => h.names name (List.dropLast_subset _ hName)⟩
    rintro rfl
    exact hNe (List.dropLast_prefix outer |>.eq_of_length_le hOuter.length_le).symm
  · refine ⟨fun outer hOuter hNe => ?_, fun name hName => ?_⟩
    · rcases List.prefix_concat_iff.1 hOuter with hEq | hPrefix
      · exact absurd hEq hNe
      · by_cases hSame : outer = location
        · rw [hSame, hDirectory]
        · exact h.directories outer hPrefix hSame
    · rcases List.mem_append.1 hName with hOld | hNew
      · exact h.names name hOld
      · rw [List.mem_singleton.1 hNew, String.toList_ofList]
        exact hPart

/-- So does a walk. -/
theorem IsProper.walk (h : tree.IsProper location) (hParts : ∀ part ∈ parts, '/' ∉ part)
    (hWalk : tree.walk location parts = .ok dest) : tree.IsProper dest := by
  induction parts generalizing location with
  | nil =>
      cases hWalk
      exact h
  | cons part parts ih =>
      obtain ⟨next, hEnter, hRest⟩ := bind_eq_ok.1 hWalk
      exact ih (h.enter (hParts part List.mem_cons_self) hEnter)
        (fun other hOther => hParts other (List.mem_cons_of_mem _ hOther)) hRest

/-- The names of the current directory have no slash. -/
def HasPlainNames (tree : FileTree) : Prop := ∀ name ∈ tree.current, '/' ∉ name.toList

theorem isDirectory_above_current (h : location <+: tree.current) :
    tree.isDirectory location = true := by
  simp [isDirectory, node?, List.isPrefixOf_iff_prefix.2 h]

/-- A path starts at a proper location. -/
theorem HasPlainNames.isProper_start (h : tree.HasPlainNames) (path : List Char) :
    tree.IsProper (tree.start path) := by
  rw [start]
  split
  · exact ⟨fun outer hOuter hNe => absurd (List.prefix_nil.1 hOuter) hNe, nofun⟩
  · exact ⟨fun outer hOuter _ => isDirectory_above_current hOuter, h⟩

theorem isDirectory_start (path : List Char) : tree.isDirectory (tree.start path) = true := by
  rw [start]
  split
  · exact isDirectory_above_current List.nil_prefix
  · exact isDirectory_above_current List.prefix_rfl

/-- A step to a file is a step to its name, from the directory that it stands in. -/
theorem walk_dropLast (h : tree.IsProper location) (hStart : tree.isDirectory location = true)
    (hParts : ∀ part ∈ parts, '/' ∉ part) (hNames : ∀ part ∈ parts, Path.isTrivial part = false)
    (hWalk : tree.walk location parts = .ok dest) (hFile : tree.isDirectory dest = false) :
    parts ≠ [] ∧ tree.walk location parts.dropLast = .ok dest.dropLast := by
  have hNe : parts ≠ [] := by
    rintro rfl
    cases hWalk
    cases hStart.symm.trans hFile
  refine ⟨hNe, ?_⟩
  rw [← List.dropLast_append_getLast hNe, walk_append] at hWalk
  obtain ⟨mid, hMid, hLast⟩ := bind_eq_ok.1 hWalk
  obtain ⟨next, hEnter, hNext⟩ := bind_eq_ok.1 hLast
  cases hNext
  have hProper := h.walk (fun part hPart => hParts part (List.dropLast_subset _ hPart)) hMid
  have hTrivial := hNames _ (List.getLast_mem hNe)
  obtain ⟨hDirectory, ⟨hTrivial', -⟩ | ⟨-, -, rfl⟩ | ⟨-, -, rfl⟩⟩ := enter_eq_ok hEnter
  · cases hTrivial.symm.trans hTrivial'
  · -- Above a directory stand directories only.
    exfalso
    cases mid with
    | nil => cases hDirectory.symm.trans hFile
    | cons name mid =>
        have hUp := hProper.directories _ (List.dropLast_prefix (name :: mid)) (by
          intro hEq
          have := congrArg List.length hEq
          simp at this)
        cases hUp.symm.trans hFile
  · rw [List.dropLast_concat, hMid]

/-- Where a path leads, if a file is read there. -/
structure LeadsTo (tree : FileTree) (path : List Char) (location : Location) : Prop where
  walk : tree.walk (tree.start path) (Path.steps path) = .ok location
  file : tree.isDirectory location = false
  proper : tree.IsProper location

/-- A file that is read stands where its path leads, and is told by that location. -/
theorem exists_leadsTo (hPlain : tree.HasPlainNames) {path : String} {file : SourceFile}
    (h : tree.read path = .ok file) :
    ∃ location contents, tree.LeadsTo path.toList location ∧
      tree.node? location = some (.file contents) ∧
      String.fromUTF8? ⟨contents.toArray⟩ = some file.text ∧ file.identity = identity location := by
  obtain ⟨location, contents, hResolve, hNode, hText, hIdentity⟩ := read_eq_ok h
  obtain ⟨-, -, hWalk⟩ := bind_eq_ok.1 hResolve
  refine ⟨location, contents, ⟨walk_filter hWalk, ?_, ?_⟩, hNode, hText, hIdentity⟩
  · simp [isDirectory, hNode]
  · exact (hPlain.isProper_start _).walk (fun _ => Path.slash_notMem_of_mem_parts) hWalk

/-- A location that is not the root is told by its path. -/
theorem identity_injective {location' : Location} (h : tree.IsProper location)
    (h' : tree.IsProper location') (hNe : location ≠ []) (hNe' : location' ≠ [])
    (hSame : identity location = identity location') : location = location' := by
  have hSplit {row : Location} (hRow : tree.IsProper row) (hNe : row ≠ []) :
      (identity row).toList.splitOn '/' = [] :: row.map String.toList := by
    have hParts := @List.splitOn_intercalate _ (row.map String.toList) _ _ '/'
      (by simpa using hRow.names) (by simpa using hNe)
    rw [identity, String.toList_append, String.toList_intercalate, List.splitOn_eq_splitOnP]
    change List.splitOnP _ ([] ++ '/' :: _) = _
    rw [List.splitOnP_append_cons _ _ rfl, ← List.splitOn_eq_splitOnP]
    exact congrArg ([] :: ·) hParts
  have hEq := hSplit h hNe
  rw [hSame, hSplit h' hNe', List.cons.injEq] at hEq
  exact (List.map_injective_iff.2 (fun _ _ => String.toList_inj.1) hEq.2).symm

/-- No file is the root. -/
theorem LeadsTo.ne_nil (h : tree.LeadsTo path location) : location ≠ [] := by
  rintro rfl
  cases (isDirectory_above_current List.nil_prefix).symm.trans h.file

/-- What is included from a path is found from the directory in which the file stands. -/
theorem LeadsTo.walk_included (hPlain : tree.HasPlainNames) (h : tree.LeadsTo path location)
    {target : List Char} (hTarget : Path.isAbsolute target = false) {dest : Location}
    (hDest : tree.LeadsTo (Path.join (Path.parent path) target) dest) :
    tree.walk location.dropLast (Path.steps target) = .ok dest := by
  have hParts : ∀ part ∈ Path.steps path, '/' ∉ part := fun part hPart =>
    Path.slash_notMem_of_mem_parts (List.mem_of_mem_filter hPart)
  have hNames : ∀ part ∈ Path.steps path, Path.isTrivial part = false := fun part hPart => by
    simpa using List.of_mem_filter hPart
  obtain ⟨hNe, hDirectory⟩ := walk_dropLast (hPlain.isProper_start path) (isDirectory_start path)
    hParts hNames h.walk h.file
  obtain ⟨hSteps, hAbsolute⟩ := Path.steps_parent hNe
  have hWalk := hDest.walk
  have hStart : tree.start (Path.join (Path.parent path) target) = tree.start path := by
    rw [start, Path.isAbsolute_join hTarget, hAbsolute, start]
  rw [hStart, Path.steps_join hTarget, hSteps, walk_append, hDirectory] at hWalk
  exact hWalk

/-- A tree of directories has no links, so one file has one directory whatever path leads to it. -/
theorem isLinkFree_toFiles (hPlain : tree.HasPlainNames) : tree.toFiles.IsLinkFree := by
  have hSame {p q : String} {f g : SourceFile} (hF : tree.read p = .ok f)
      (hG : tree.read q = .ok g) (hEq : f.identity = g.identity) :
      ∃ location, tree.LeadsTo p.toList location ∧ tree.LeadsTo q.toList location ∧
        f.text = g.text := by
    obtain ⟨location, contents, hLeads, hNode, hText, hIdentity⟩ := exists_leadsTo hPlain hF
    obtain ⟨location', contents', hLeads', hNode', hText', hIdentity'⟩ := exists_leadsTo hPlain hG
    rw [hIdentity, hIdentity'] at hEq
    cases identity_injective hLeads.proper hLeads'.proper hLeads.ne_nil hLeads'.ne_nil hEq
    cases hNode.symm.trans hNode'
    exact ⟨location, hLeads, hLeads', Option.some.inj (hText.symm.trans hText')⟩
  constructor
  · intro p q f g hF hG hEq
    obtain ⟨-, -, -, hText⟩ := hSame hF hG hEq
    exact hText
  · intro p q f g hF hG hEq target f' g' hF' hG'
    obtain ⟨location, hLeads, hLeads', -⟩ := hSame hF hG hEq
    cases hTarget : Path.isAbsolute target with
    | true =>
        have hJoin (path : String) : Path.included path target = String.ofList target := by
          rw [Path.included, Path.join, hTarget, Bool.true_or, if_pos rfl]
        rw [hJoin] at hF' hG'
        cases hF'.symm.trans hG'
        rfl
    | false =>
        obtain ⟨dest, -, hDest, -, -, hIdentity⟩ := exists_leadsTo hPlain hF'
        obtain ⟨dest', -, hDest', -, -, hIdentity'⟩ := exists_leadsTo hPlain hG'
        rw [Path.included, String.toList_ofList] at hDest hDest'
        have hWalk := hLeads.walk_included hPlain hTarget hDest
        have hWalk' := hLeads'.walk_included hPlain hTarget hDest'
        cases hWalk.symm.trans hWalk'
        rw [hIdentity, hIdentity']

end FileTree

end WasmCompiler
