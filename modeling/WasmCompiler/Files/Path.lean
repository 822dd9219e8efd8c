import WasmCompiler.Text.Fields

/-! Paths as text, with a slash between their parts. -/

namespace WasmCompiler.Path

/-- The parts of a path; two slashes in a row have an empty part between them. -/
def parts (path : List Char) : List (List Char) := Text.fields (· == '/') path

def isAbsolute (path : List Char) : Bool := path.head? == some '/'

/-- A path that is given relative to a directory. The empty directory is the current one. -/
def join (directory path : List Char) : List Char :=
  if isAbsolute path || directory.isEmpty then path
  else if directory.getLast? == some '/' then directory ++ path
  else directory ++ '/' :: path

/-- Whether a part stays in the directory that it is looked up in. -/
def isTrivial (part : List Char) : Bool := part.isEmpty || part == ['.']

/-- The parts without the trivial ones at the end. -/
def dropTrivial (parts : List (List Char)) : List (List Char) :=
  (parts.reverse.dropWhile isTrivial).reverse

/-- The slash of an absolute path, or the single dot that a path starts with, and the rest. -/
def splitStart (path : List Char) : List Char × List Char :=
  match path with
  | '/' :: rest => (['/'], rest)
  | ['.'] => (['.'], [])
  | '.' :: '/' :: rest => (['.'], '/' :: rest)
  | _ => ([], path)

/-- The directory of a path: the path without its last part and without what is trivial before
that. A path with no other part has the empty directory. -/
def parent (path : List Char) : List Char :=
  let (start, body) := splitStart path
  match dropTrivial (parts body) with
  | [] => []
  | kept => start ++ ['/'].intercalate (dropTrivial kept.dropLast)

end WasmCompiler.Path
