import WasmCompiler.Include
import WasmCompiler.Tree.Outline
import WasmCompiler.Tree.Parser
import WasmCompiler.Typing.Checker
import WasmCompiler.Wasm.Lowering
import WasmCompiler.Wasm.TextFormat

/-! From a source text to the bytes of a module, with views of what lies between on request. -/

namespace WasmCompiler

open Wasm

/-- The views that are asked for: the tokens, the tree, and the module as text. -/
structure Dumps where
  tokens : Bool
  tree : Bool
  text : Bool
  deriving DecidableEq, Repr

/-- The views that were made, in order, and how compiling ended. A view that was made before a
failure is kept. -/
structure Compilation (ε : Type) where
  dumps : List String
  result : Except ε Bytes

namespace Compilation

/-- A compilation after a view that was made before the rest of it, if one was. -/
def after {ε : Type} (dump : Option String) (c : Compilation ε) : Compilation ε :=
  ⟨dump.toList ++ c.dumps, c.result⟩

def failed {ε : Type} (error : ε) : Compilation ε := ⟨[], .error error⟩

end Compilation

/-- The module of a program, if it keeps all the rules. -/
def Program.toModule (program : Program) : Except Diagnostic Module := do
  let symbols ← program.check.mapError TypeError.report
  (program.lower symbols).mapError EmitError.report

def Wasm.Module.compile (dumps : Dumps) (m : Module) : Compilation Diagnostic :=
  if dumps.text then
    match m.text with
    | .error e => .failed e.report
    | .ok text => ⟨[text], .ok m.encode⟩
  else ⟨[], .ok m.encode⟩

def Program.compile (dumps : Dumps) (program : Program) : Compilation Diagnostic :=
  match program.toModule with
  | .error d => .failed d
  | .ok m => m.compile dumps

/-- The result of compiling a program is that of compiling its module, whatever is shown on the way.
-/
theorem Program.result_compile (dumps : Dumps) (program : Program) :
    (program.compile dumps).result = program.toModule >>= fun m => (m.compile dumps).result := by
  rw [compile]
  cases program.toModule <;> rfl

/-- Compiling a text without includes. -/
def compileText (dumps : Dumps) (source : String) : Compilation Diagnostic :=
  match Token.ofText source with
  | .error e => .failed (Token.Error.report e)
  | .ok tokens =>
    .after (if dumps.tokens then some (Token.listing source tokens) else none) <|
      match Program.ofTokens tokens with
      | .error e => .failed (GrammarError.report e)
      | .ok program =>
        .after (if dumps.tree then some program.outline else none) (program.compile dumps)

/-- The result of compiling a text with tokens is that of compiling the program of the tokens. -/
theorem result_compileText {dumps : Dumps} {source : String} {tokens : List Token}
    (h : Token.ofText source = .ok tokens) :
    (compileText dumps source).result =
      (Program.ofTokens tokens).mapError GrammarError.report >>= fun program =>
        (program.compile dumps).result := by
  simp only [compileText, h, Compilation.after]
  cases Program.ofTokens tokens <;> rfl

/-- A text of which each stage succeeds is compiled to its module, whatever is asked for. -/
theorem result_compileText_of_toModule {dumps : Dumps} {source text : String}
    {tokens : List Token} {program : Program} {m : Module}
    (hTokens : Token.ofText source = .ok tokens)
    (hParse : Program.ofTokens tokens = .ok program) (hModule : program.toModule = .ok m)
    (hText : m.text = .ok text) : (compileText dumps source).result = .ok m.encode := by
  rw [result_compileText hTokens, hParse]
  change (program.compile dumps).result = _
  rw [Program.result_compile, hModule]
  change (m.compile dumps).result = _
  simp only [Module.compile, hText]
  split <;> rfl

/-- Why a file was not compiled: its includes, or the text that they were spliced into. -/
inductive Failure where
  | inclusion (error : IncludeError)
  | source (diagnostic : Diagnostic) (expansion : Expansion)

namespace Failure

def diagnostic : Failure → Diagnostic
  | inclusion error => error.report
  | source d _ => d

/-- The report for the reader, with the line it is about where that line was read. A report on
an include names its file itself. -/
def render : Failure → String
  | inclusion error => error.report.summary
  | source d expansion =>
    d.renderWith expansion.text fun line =>
      match expansion.origin? line with
      | some origin => ⟨some origin.file, origin.line⟩
      | none => ⟨none, line⟩

end Failure

/-- Compiling a file with what it includes. -/
def compileFile (files : Files) (dumps : Dumps) (path : String) : Compilation Failure :=
  match Expansion.ofFile files path with
  | .error e => .failed (.inclusion e)
  | .ok expansion =>
    let compiled := compileText dumps expansion.text
    ⟨compiled.dumps, compiled.result.mapError (.source · expansion)⟩

end WasmCompiler
