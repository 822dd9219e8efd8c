import WasmCompiler.Text.Position

/-! Reports about a source text: what kind of rule was broken, the wording, and the place. -/

namespace WasmCompiler

/-- The rules that a source text can break. -/
inductive Category where
  | lexical
  | grammatical
  | semantic
  | emission
  | inclusion
  | internal
  deriving DecidableEq, Repr

/-- The name of a category at the head of a report. -/
def Category.name : Category → String
  | .lexical => "lex error"
  | .grammatical => "syntax error"
  | .semantic => "semantic error"
  | .emission => "emit error"
  | .inclusion => "include error"
  | .internal => "internal error"

/-- One report. Work on a text stops at the first. -/
structure Diagnostic where
  category : Category
  message : String
  span : Span
  deriving DecidableEq, Repr

/-- The report of a located cause, given its category and wording. -/
def Located.report {Cause : Type} (category : Cause → Category) (message : Cause → String)
    (e : Located Cause) : Diagnostic :=
  ⟨category e.cause, message e.cause, e.span⟩

/-- Where a line of text was read: a file, if one is known, and a line number in it. -/
structure Origin where
  file : Option String
  line : Nat
  deriving DecidableEq, Repr

namespace Diagnostic

/-- The report without its place. -/
def summary (d : Diagnostic) : String := d.category.name ++ ": " ++ d.message

/-- The position at which a report points. -/
def position (d : Diagnostic) (text : String) : Position :=
  .ofOffset text.toList d.span.start

/-- The report with the line that it is about. `originOf` says where each line of `text` was
read, and the excerpt is labelled with that place. -/
def renderWith (d : Diagnostic) (text : String) (originOf : Nat → Origin) : String :=
  let excerpt := Excerpt.ofSpan text d.span
  let origin := originOf excerpt.position.line
  let file :=
    match origin.file with
    | some path => path ++ ":"
    | none => ""
  let place := file ++ toString origin.line ++ ":" ++ toString excerpt.position.column
  d.summary ++ "\n --> " ++ place ++ "\n" ++ excerpt.line ++ "\n" ++ excerpt.caret

/-- The report on a text that was read as a whole, from `path` if it is given. -/
def render (d : Diagnostic) (text : String) (path : Option String) : String :=
  d.renderWith text fun line => ⟨path, line⟩

end Diagnostic

end WasmCompiler
