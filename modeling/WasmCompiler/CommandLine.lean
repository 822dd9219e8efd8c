import WasmCompiler.Compilation
import WasmCompiler.Files.Tree

/-! The command line: what its arguments ask for, and what is printed and written. -/

namespace WasmCompiler.CommandLine

open Wasm

/-- The options and flags that have been given. -/
structure Settings where
  input : Option String
  output : Option String
  dumps : Dumps
  deriving DecidableEq, Repr

/-- Why reading the arguments stopped before the end. -/
inductive Stop where
  | usage
  | help
  | version
  deriving DecidableEq, Repr

namespace Settings

def initial : Settings := ⟨none, none, ⟨false, false, false⟩⟩

/-- The options that take a value. -/
inductive Valued where
  | input | output
  deriving DecidableEq, Repr

/-- An option with its value. It may be given once, and its value may not be empty. -/
def give (s : Settings) (option : Valued) (value : String) : Except Stop Settings :=
  if value = "" then .error .usage
  else
    match option with
    | .input => if s.input.isSome then .error .usage else .ok { s with input := some value }
    | .output => if s.output.isSome then .error .usage else .ok { s with output := some value }

/-- A flag by its name. It may be given once. -/
def raise (s : Settings) (flag : String) : Except Stop Settings :=
  if flag = "tree" then
    if s.dumps.tree then .error .usage else .ok { s with dumps := { s.dumps with tree := true } }
  else if flag = "tokens" then
    if s.dumps.tokens then .error .usage
    else .ok { s with dumps := { s.dumps with tokens := true } }
  else if flag = "wat" then
    if s.dumps.text then .error .usage else .ok { s with dumps := { s.dumps with text := true } }
  else if flag = "help" then .error .help
  else if flag = "version" then .error .version
  else .error .usage

end Settings

/-- What one argument says. -/
inductive Argument where
  | valued (option : Settings.Valued) (attached : Option String)
  | flag (name : String)
  | terminator
  | malformed
  deriving DecidableEq, Repr

namespace Argument

/-- The option or flag of a long name, with the value after an equals sign. -/
def ofLong (name : List Char) (attached : Option String) : Argument :=
  match String.ofList name with
  | "input" => valued .input attached
  | "output" => valued .output attached
  | flagName => if attached.isSome then malformed else flag flagName

/-- The value that stands in the same argument as a short option; an equals sign may stand
before it. -/
def attached? (rest : List Char) : Option String :=
  match rest with
  | [] => none
  | '=' :: value => some (String.ofList value)
  | value => some (String.ofList value)

/-- The flags for which one dash is as good as two. -/
def oneDashFlags : List String := ["-tree", "-tokens", "-wat"]

def ofText (text : String) : Argument :=
  if oneDashFlags.contains text then flag (String.ofList (text.toList.drop 1))
  else
    match text.toList with
    | ['-', '-'] => terminator
    | '-' :: '-' :: long =>
      match long.span (· ≠ '=') with
      | (name, _ :: value) => ofLong name (some (String.ofList value))
      | (name, []) => ofLong name none
    | '-' :: 'i' :: rest => valued .input (attached? rest)
    | '-' :: 'o' :: rest => valued .output (attached? rest)
    | '-' :: 'h' :: _ => flag "help"
    | '-' :: 'V' :: _ => flag "version"
    | _ => malformed

/-- Whether a text can be the value of an option in the argument before it. A single dash can,
any other text with a dash first cannot. -/
def canBeValue (text : String) : Bool :=
  match text.toList with
  | ['-'] => true
  | '-' :: _ => false
  | _ => true

end Argument

/-- The settings that arguments give, in turn. Nothing may follow a terminator. -/
def readFrom (s : Settings) : List String → Except Stop Settings
  | [] => .ok s
  | [arg] =>
    match Argument.ofText arg with
    | .valued option (some value) => s.give option value
    | .valued _ none => .error .usage
    | .flag name => s.raise name
    | .terminator => .ok s
    | .malformed => .error .usage
  | arg :: next :: rest =>
    match Argument.ofText arg with
    | .valued option (some value) => do
      let s ← s.give option value
      readFrom s (next :: rest)
    | .valued option none =>
      if Argument.canBeValue next then do
        let s ← s.give option next
        readFrom s rest
      else .error .usage
    | .flag name => do
      let s ← s.raise name
      readFrom s (next :: rest)
    | .terminator => .error .usage
    | .malformed => .error .usage

/-- What is to be compiled. -/
structure Job where
  input : String
  output : Option String
  dumps : Dumps
  deriving DecidableEq, Repr

/-- The job that arguments describe. An input is needed. -/
def Job.ofArgs (args : List String) : Except Stop Job := do
  let s ← readFrom .initial args
  match s.input with
  | some input => return ⟨input, s.output, s.dumps⟩
  | none => .error .usage

def versionText : String := "wasmc 0.1.0\n"

def helpText : String :=
  "Compile a source file to a WebAssembly module\n" ++
  "\n" ++
  "Usage: wasmc [OPTIONS] --input <input>\n" ++
  "\n" ++
  "Options:\n" ++
  "  -i, --input <input>    source file to compile\n" ++
  "  -o, --output <output>  where to write the .wasm module\n" ++
  "      --tree             print the syntax tree\n" ++
  "      --tokens           print the token stream\n" ++
  "      --wat              print the module in text format\n" ++
  "  -h, --help             Print help\n" ++
  "  -V, --version          Print version\n"

def usageText : String :=
  "error: invalid arguments\n\nUsage: wasmc [OPTIONS] --input <input>\n\n" ++
  "For more information, try '--help'.\n"

/-- What a run prints, and its exit code. -/
structure Outcome where
  exit : Nat
  stdout : String
  stderr : String
  deriving DecidableEq, Repr

/-- How a run goes on after compiling: it is over, or a module has to be written first. -/
inductive Plan where
  | finish (outcome : Outcome)
  | write (stdout : String) (path : String) (contents : Bytes)

namespace Plan

def ofJob (files : Files) (job : Job) : Plan :=
  let compiled := compileFile files job.dumps job.input
  let stdout := String.join compiled.dumps
  match compiled.result, job.output with
  | .error failure, _ => finish ⟨1, stdout, failure.render ++ "\n"⟩
  | .ok _, none => finish ⟨0, stdout, ""⟩
  | .ok bytes, some path => write stdout path bytes

/-- What the arguments of the program ask for. -/
def ofArgs (files : Files) (args : List String) : Plan :=
  match Job.ofArgs args with
  | .error .help => finish ⟨0, helpText, ""⟩
  | .error .version => finish ⟨0, versionText, ""⟩
  | .error .usage => finish ⟨2, "", usageText⟩
  | .ok job => ofJob files job

/-- The outcome once the module has been written, or could not be. -/
def written (stdout path : String) : Except FileError Unit → Outcome
  | .ok () => ⟨0, stdout, ""⟩
  | .error e => ⟨1, stdout, "error: failed to write " ++ path ++ ": " ++ e.message ++ "\n"⟩

end Plan

/-- A run in a tree of files, and the tree after it. -/
def run (tree : FileTree) (args : List String) : Outcome × FileTree :=
  match Plan.ofArgs tree.toFiles args with
  | .finish outcome => (outcome, tree)
  | .write stdout path contents =>
    match tree.write path contents with
    | .ok after => (Plan.written stdout path (.ok ()), after)
    | .error e => (Plan.written stdout path (.error e), tree)

end WasmCompiler.CommandLine
