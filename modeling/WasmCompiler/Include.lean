import WasmCompiler.Diagnostic
import WasmCompiler.Files.Basic
import WasmCompiler.Files.Path

/-! Splicing included files into a text, line by line, with a record of where each line was
read. -/

namespace WasmCompiler

/-- The line of a directive: the name of its text, its number, and its offset in that text with
every line end counted as one byte. -/
structure Site where
  name : String
  line : Nat
  offset : Nat
  deriving DecidableEq, Repr

def Site.label (site : Site) : String := site.name ++ ":" ++ toString site.line

inductive IncludeError where
  | malformed (site : Site)
  | unreadable (path : String) (site : Option Site) (cause : FileError)
  | cycle (path : String) (site : Option Site)
  deriving DecidableEq, Repr

namespace IncludeError

def message : IncludeError → String
  | malformed site => site.label ++ ": malformed #include directive"
  | unreadable path none cause => "cannot read '" ++ path ++ "': " ++ cause.message
  | unreadable path (some site) cause =>
    "cannot read '" ++ path ++ "' included from " ++ site.label ++ ": " ++ cause.message
  | cycle path _ => "include cycle through '" ++ path ++ "'"

/-- The directive at fault. -/
def site? : IncludeError → Option Site
  | malformed site => some site
  | unreadable _ site _ => site
  | cycle _ site => site

/-- The report points at the directive in its own text. -/
def report (e : IncludeError) : Diagnostic :=
  ⟨.inclusion, e.message, .point ((e.site?.map Site.offset).getD 0)⟩

end IncludeError

/-- What a line of a text is. -/
inductive SourceLine where
  | plain
  | directive (target : List Char)
  | malformed
  deriving DecidableEq, Repr

namespace SourceLine

def keyword : List Char := ['#', 'i', 'n', 'c', 'l', 'u', 'd', 'e']

/-- The text between two quotes, which is not empty and has no quotes in it. -/
def quoted? (text : List Char) : Option (List Char) :=
  match text with
  | '"' :: rest =>
    if rest.getLast? = some '"' ∧ rest.dropLast ≠ [] ∧ '"' ∉ rest.dropLast then
      some rest.dropLast
    else none
  | _ => none

/-- A line that starts with the keyword, blanks apart, is a directive. -/
def ofChars (line : List Char) : SourceLine :=
  let text := Text.trimStart line
  if keyword.isPrefixOf text then
    match quoted? (Text.trim (text.drop keyword.length)) with
    | some target => directive target
    | none => malformed
  else plain

end SourceLine

/-- Where a line was read: the path of its file and its number, counted from one. -/
structure LineOrigin where
  file : String
  line : Nat
  deriving DecidableEq, Repr

/-- A line of an expanded text. -/
structure ExpandedLine where
  text : String
  origin : LineOrigin
  deriving DecidableEq, Repr

/-- A text with its includes spliced in. -/
structure Expansion where
  lines : List ExpandedLine
  deriving DecidableEq, Repr

namespace Expansion

def text (e : Expansion) : String := "\n".intercalate (e.lines.map ExpandedLine.text)

/-- Where a line of the text was read. Lines are counted from one. -/
def origin? (e : Expansion) (line : Nat) : Option LineOrigin :=
  if line = 0 then none else (e.lines[line - 1]?).map ExpandedLine.origin

end Expansion

/-- A file that was opened for an include, and is not among the files that include it. -/
structure Opened (files : Files) (active : List String) where
  file : SourceFile
  mem : file.identity ∈ files.identities
  fresh : file.identity ∉ active

/-- The file at a path, unless it is being expanded already. -/
def Files.openAt (files : Files) (active : List String) (path : String) (site : Option Site) :
    Except IncludeError (Opened files active) :=
  match h : files.read path with
  | .error cause => .error (.unreadable path site cause)
  | .ok file =>
    if ha : file.identity ∈ active then .error (.cycle path site)
    else .ok ⟨file, files.mem_of_read h, ha⟩

/-- How far an expansion has come: the files that are being expanded, innermost first, and the lines
that it has written, with the place where each of them was read. -/
structure Preprocessor where
  stack : List String
  out : Array String
  origins : Array LineOrigin
  size_eq : out.size = origins.size

namespace Preprocessor

/-- Nothing is being expanded and nothing is written. -/
def start : Preprocessor := ⟨[], #[], #[], rfl⟩

/-- Writes a line. -/
def push (p : Preprocessor) (text : String) (origin : LineOrigin) : Preprocessor :=
  ⟨p.stack, p.out.push text, p.origins.push origin,
    by rw [Array.size_push, Array.size_push, p.size_eq]⟩

/-- Starts on a file inside the one being expanded. -/
def enter (p : Preprocessor) (identity : String) : Preprocessor :=
  { p with stack := identity :: p.stack }

/-- Goes back to the file around the one being expanded. -/
def leave (p : Preprocessor) : Preprocessor := { p with stack := p.stack.tail }

/-- The lines that were written. -/
def finish (p : Preprocessor) : Expansion :=
  ⟨(p.out.toList.zip p.origins.toList).map fun line => ⟨line.1, line.2⟩⟩

/-- A state in which the same files are being expanded as in `p`. -/
abbrev Balanced (p : Preprocessor) := { after : Preprocessor // after.stack = p.stack }

/-- Leaving a file gives back the stack from before it was entered. -/
theorem stack_leave_of_enter {p after : Preprocessor} {identity : String}
    (h : after.stack = (p.enter identity).stack) : after.leave.stack = p.stack := by
  rw [leave, h, enter, List.tail_cons]

mutual

/-- Writes the lines of the file at a path, which the directive at `site` names. -/
def expandFile (files : Files) (path : String) (site : Option Site) (p : Preprocessor) :
    Except IncludeError p.Balanced := do
  let opened ← files.openAt p.stack path site
  let inner ← expand files path (String.ofList (Path.parent path.toList)) 1 0
    (Text.lines opened.file.text.toList) (p.enter opened.file.identity)
  return ⟨inner.val.leave, stack_leave_of_enter inner.property⟩
termination_by (files.others p.stack, 0)
decreasing_by exact .left _ _ (files.others_cons_lt opened.mem opened.fresh)

/-- Writes the lines of a text with its includes spliced in, from line `number` on, which starts at
`offset`. Included paths are relative to `directory`. -/
def expand (files : Files) (name directory : String) (number offset : Nat)
    (lines : List (List Char)) (p : Preprocessor) : Except IncludeError p.Balanced :=
  match lines with
  | [] => .ok ⟨p, rfl⟩
  | line :: rest =>
    let next := offset + byteLength line + 1
    match SourceLine.ofChars line with
    | .plain =>
      expand files name directory (number + 1) next rest
        (p.push (String.ofList line) ⟨name, number⟩)
    | .malformed => .error (.malformed ⟨name, number, offset⟩)
    | .directive target => do
      let path := String.ofList (Path.join directory.toList target)
      let inner ← expandFile files path (some ⟨name, number, offset⟩) p
      let after ← expand files name directory (number + 1) next rest inner.val
      return ⟨after.val, after.property.trans inner.property⟩
termination_by (files.others p.stack, lines.length)
decreasing_by
  · exact .right _ (Nat.lt_succ_self _)
  · exact .right _ (Nat.succ_pos _)
  · rw [inner.property]
    exact .right _ (Nat.lt_succ_self _)

end

end Preprocessor

namespace Expansion

/-- The expansion of a file. -/
def ofFile (files : Files) (path : String) : Except IncludeError Expansion :=
  (Preprocessor.start.expandFile files path none).map fun after => after.val.finish

/-- What a text that is not in a file is called. -/
def inputName : String := "<input>"

/-- The expansion of a text whose includes are relative to `directory`. -/
def ofText (files : Files) (text directory : String) : Except IncludeError Expansion :=
  (Preprocessor.start.expand files inputName directory 1 0 (Text.lines text.toList)).map
    fun after => after.val.finish

end Expansion

end WasmCompiler
