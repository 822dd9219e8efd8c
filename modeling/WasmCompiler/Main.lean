import WasmCompiler.CommandLine

/-! The program: its arguments, the files that it reads as they are asked for, and what it
prints and writes. -/

namespace WasmCompiler

open CommandLine

/-- The files that have been read so far, by path. -/
abbrev Snapshot := List (String × Except FileError SourceFile)

namespace Snapshot

def identities (snapshot : Snapshot) : List String :=
  snapshot.filterMap fun row =>
    match row.2 with
    | .ok file => some file.identity
    | .error _ => none

def read (snapshot : Snapshot) (path : String) : Except FileError SourceFile :=
  (snapshot.lookup path).getD (.error .notFound)

/-- Only the files of a snapshot can be read from it. -/
theorem mem_identities_of_read {snapshot : Snapshot} {path : String} {file : SourceFile}
    (h : snapshot.read path = .ok file) : file.identity ∈ snapshot.identities := by
  unfold read at h
  cases hl : snapshot.lookup path with
  | none => simp [hl] at h
  | some row =>
    simp only [hl, Option.getD_some] at h
    subst h
    exact List.mem_filterMap.2 ⟨_, FileTree.mem_of_lookup hl, rfl⟩

def toFiles (snapshot : Snapshot) : Files :=
  ⟨snapshot.identities, snapshot.read, mem_identities_of_read⟩

/-- The path that a compilation asked for and the snapshot does not hold. -/
def missing? (snapshot : Snapshot) (input : String) : Option String :=
  match Expansion.ofFile snapshot.toFiles input with
  | .error (.unreadable path _ _) =>
    if (snapshot.lookup path).isSome then none else some path
  | _ => none

end Snapshot

/-- Whether a failed call gave an error number, with either sign. -/
def hasCode (given : UInt32) (code : UInt32) : Bool := given == code || given == 0 - code

def FileError.ofSystem : IO.Error → FileError
  | .noFileOrDirectory .. => .notFound
  | .inappropriateType _ code _ => if hasCode code 21 then .isDirectory else .notDirectory
  | .invalidArgument _ code details =>
    if hasCode code 36 then .nameTooLong else .other details
  | .permissionDenied .. => .other "Permission denied (os error 13)"
  | e => .other (toString e)

/-- Reading one file from the disk. -/
def readFromDisk (path : String) : IO (Except FileError SourceFile) := do
  if path.toList.contains '\x00' then return .error .nulInName
  try
    let contents ← IO.FS.readBinFile path
    let identity ← IO.FS.realPath path
    match String.fromUTF8? contents with
    | some text => return .ok ⟨identity.toString, text⟩
    | none => return .error .notUtf8
  catch e => return .error (.ofSystem e)

/-- The snapshot with every file that compiling `input` asks for. -/
partial def load (snapshot : Snapshot) (input : String) : IO Snapshot := do
  match snapshot.missing? input with
  | none => return snapshot
  | some path => load (snapshot ++ [(path, ← readFromDisk path)]) input

def finish (outcome : Outcome) : IO UInt32 := do
  IO.print outcome.stdout
  IO.eprint outcome.stderr
  return UInt32.ofNat outcome.exit

end WasmCompiler

open WasmCompiler CommandLine in
def main (args : List String) : IO UInt32 := do
  let snapshot ←
    match Job.ofArgs args with
    | .ok job => load [] job.input
    | .error _ => pure []
  match Plan.ofArgs snapshot.toFiles args with
  | .finish outcome => finish outcome
  | .write stdout path contents =>
    try
      IO.FS.writeBinFile path ⟨contents.toArray⟩
      finish (Plan.written stdout path (.ok ()))
    catch e => finish (Plan.written stdout path (.error (.ofSystem e)))
