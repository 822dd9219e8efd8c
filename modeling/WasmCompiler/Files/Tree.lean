import WasmCompiler.Files.Basic
import WasmCompiler.Files.Path
import WasmCompiler.Text.Span
import WasmCompiler.Wasm.Leb128

/-! Files and directories held in memory, and how paths lead through them. -/

namespace WasmCompiler

open Wasm

/-- A place in a tree of directories: the names that lead to it from the root. -/
abbrev Location := List String

/-- Files and directories, and the directory that relative paths start from. The root and the
current directory always exist. -/
structure FileTree where
  files : List (Location × Bytes)
  directories : List Location
  current : Location

namespace FileTree

/-- What stands at a location. -/
inductive Node where
  | directory
  | file (contents : Bytes)
  deriving DecidableEq, Repr

def node? (tree : FileTree) (location : Location) : Option Node :=
  if location = [] ∨ location.isPrefixOf tree.current ∨ tree.directories.contains location then
    some .directory
  else (tree.files.lookup location).map .file

def isDirectory (tree : FileTree) (location : Location) : Bool :=
  tree.node? location = some .directory

/-- The longest name of a file or directory, in bytes. -/
def maxName : Nat := 255

/-- The longest path, in bytes. -/
def maxPath : Nat := 4095

/-- One part of a path, looked up at a location. -/
def enter (tree : FileTree) (location : Location) (part : List Char) :
    Except FileError Location :=
  if !tree.isDirectory location then .error .notDirectory
  else if Path.isTrivial part then .ok location
  else if part = ['.', '.'] then .ok location.dropLast
  else if maxName < byteLength part then .error .nameTooLong
  else
    let next := location ++ [String.ofList part]
    if (tree.node? next).isSome then .ok next else .error .notFound

/-- The parts of a path in turn. -/
def walk (tree : FileTree) (location : Location) : List (List Char) → Except FileError Location
  | [] => .ok location
  | part :: parts => do
    let next ← tree.enter location part
    walk tree next parts

/-- What is wrong with a path before any part of it is looked up. -/
def checkPath (path : List Char) : Except FileError Unit :=
  if path.contains '\x00' then .error .nulInName
  else if path.isEmpty then .error .notFound
  else if maxPath < byteLength path then .error .nameTooLong
  else .ok ()

/-- The location that a path starts from. -/
def start (tree : FileTree) (path : List Char) : Location :=
  if Path.isAbsolute path then [] else tree.current

/-- The location that a path leads to. -/
def resolve (tree : FileTree) (path : List Char) : Except FileError Location := do
  checkPath path
  tree.walk (tree.start path) (Path.parts path)

/-- The path from the root to a location. -/
def identity (location : Location) : String := "/" ++ "/".intercalate location

/-- The file that a path leads to, as text. -/
def read (tree : FileTree) (path : String) : Except FileError SourceFile := do
  let location ← tree.resolve path.toList
  match tree.node? location with
  | none => .error .notFound
  | some .directory => .error .isDirectory
  | some (.file contents) =>
    match String.fromUTF8? ⟨contents.toArray⟩ with
    | none => .error .notUtf8
    | some text => .ok ⟨identity location, text⟩

theorem mem_of_lookup {α β : Type} [BEq α] [LawfulBEq α] {key : α} {value : β}
    {rows : List (α × β)} (h : rows.lookup key = some value) : (key, value) ∈ rows := by
  induction rows with
  | nil => simp at h
  | cons row rest ih =>
    obtain ⟨k, v⟩ := row
    rw [List.lookup_cons] at h
    cases hk : key == k with
    | true =>
      simp only [hk, Option.some.injEq] at h
      simp [eq_of_beq hk, h]
    | false =>
      simp only [hk] at h
      exact List.mem_cons_of_mem _ (ih h)

/-- What stands at a location as a file is one of the files. -/
theorem lookup_of_node? {tree : FileTree} {location : Location} {contents : Bytes}
    (h : tree.node? location = some (.file contents)) :
    tree.files.lookup location = some contents := by
  unfold node? at h
  split at h
  · cases h
  · obtain ⟨_, hf, ⟨⟩⟩ := Option.map_eq_some_iff.1 h
    exact hf

/-- What is read is the text of the file that the path leads to. -/
theorem read_eq_ok {tree : FileTree} {path : String} {file : SourceFile}
    (h : tree.read path = .ok file) :
    ∃ location contents, tree.resolve path.toList = .ok location ∧
      tree.node? location = some (.file contents) ∧
      String.fromUTF8? ⟨contents.toArray⟩ = some file.text ∧ file.identity = identity location := by
  unfold read at h
  cases hr : tree.resolve path.toList with
  | error e => simp [hr, bind, Except.bind] at h
  | ok location =>
    simp only [hr, bind, Except.bind] at h
    match hn : tree.node? location with
    | none => simp [hn] at h
    | some .directory => simp [hn] at h
    | some (.file contents) =>
      simp only [hn] at h
      cases ht : String.fromUTF8? ⟨contents.toArray⟩ with
      | none => simp [ht] at h
      | some text =>
        simp only [ht, Except.ok.injEq] at h
        subst h
        exact ⟨location, contents, rfl, hn, ht, rfl⟩

/-- Only the files of a tree can be read. -/
theorem identity_mem_of_read {tree : FileTree} {path : String} {file : SourceFile}
    (h : tree.read path = .ok file) : file.identity ∈ tree.files.map fun f => identity f.1 := by
  obtain ⟨location, contents, -, hn, -, hi⟩ := read_eq_ok h
  rw [hi]
  exact List.mem_map.2 ⟨(location, contents), mem_of_lookup (lookup_of_node? hn), rfl⟩

/-- The files of a tree by path. -/
def toFiles (tree : FileTree) : Files :=
  ⟨tree.files.map fun f => identity f.1, tree.read, identity_mem_of_read⟩

/-- The tree with a file at a location, in place of one that was there. -/
def put (tree : FileTree) (location : Location) (contents : Bytes) : FileTree :=
  { tree with
    files := tree.files.filter (fun f => f.1 ≠ location) ++ [(location, contents)] }

/-- Writing a file, which is created if its directory exists. A path that ends in a slash or a
dot names no file. -/
def write (tree : FileTree) (path : String) (contents : Bytes) : Except FileError FileTree := do
  checkPath path.toList
  let parts := Path.parts path.toList
  let last := parts.getLast?.getD []
  if last = ['.'] ∨ last = ['.', '.'] then
    let location ← tree.walk (tree.start path.toList) parts
    if tree.isDirectory location then .error .isDirectory else .error .notDirectory
  else
    let named := (parts.reverse.dropWhile List.isEmpty).reverse
    let directory ← tree.walk (tree.start path.toList) named.dropLast
    let name := named.getLast?.getD []
    if !tree.isDirectory directory then .error .notDirectory
    else if last.isEmpty then .error .isDirectory
    else if maxName < byteLength name then .error .nameTooLong
    else
      let location := directory ++ [String.ofList name]
      if tree.isDirectory location then .error .isDirectory
      else return tree.put location contents

/-- The tree with a file, or without contents a directory, at a path from its current
directory, and with the directories that lead there. -/
def add (tree : FileTree) (path : String) (contents : Option Bytes) : FileTree :=
  let location := tree.current ++
    ((Path.parts path.toList).filter fun part => !Path.isTrivial part).map String.ofList
  let parents := (List.range location.length).map fun count => location.take count
  match contents with
  | some bytes => { tree.put location bytes with directories := tree.directories ++ parents }
  | none => { tree with directories := tree.directories ++ parents ++ [location] }

/-- The files below the current directory of `after` that `before` does not hold, or holds with
other contents. -/
def changes (before after : FileTree) : List (String × Bytes) :=
  after.files.filterMap fun (location, contents) =>
    if after.current.isPrefixOf location ∧ before.files.lookup location ≠ some contents then
      some ("/".intercalate (location.drop after.current.length), contents)
    else none

end FileTree

end WasmCompiler
