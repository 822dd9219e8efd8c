/-! What a compiler needs from a file system: reading a path as text, and telling whether two
paths lead to one file. -/

namespace WasmCompiler

/-- Why a file could not be read or written. -/
inductive FileError where
  | notFound
  | notDirectory
  | isDirectory
  | nameTooLong
  | nulInName
  | notUtf8
  | other (text : String)
  deriving DecidableEq, Repr

def FileError.message : FileError → String
  | .notFound => "No such file or directory (os error 2)"
  | .notDirectory => "Not a directory (os error 20)"
  | .isDirectory => "Is a directory (os error 21)"
  | .nameTooLong => "File name too long (os error 36)"
  | .nulInName => "file name contained an unexpected NUL byte"
  | .notUtf8 => "stream did not contain valid UTF-8"
  | .other text => text

/-- A file that was read. All paths to one file give it the same identity. -/
structure SourceFile where
  identity : String
  text : String
  deriving DecidableEq, Repr

/-- The files that paths lead to. There are finitely many. -/
structure Files where
  identities : List String
  read : String → Except FileError SourceFile
  mem_of_read : ∀ {path : String} {file : SourceFile}, read path = .ok file →
    file.identity ∈ identities

/-- A row has fewer items that satisfy `p` than items that satisfy `q`, if `p` is the stronger
and one of them satisfies `q` only. -/
theorem countP_lt_countP {α : Type} {p q : α → Bool} {row : List α} {x : α}
    (hpq : ∀ y, p y = true → q y = true) (hx : x ∈ row) (hq : q x = true) (hp : p x = false) :
    row.countP p < row.countP q := by
  induction row with
  | nil => simp at hx
  | cons y ys ih =>
    have hle : ys.countP p ≤ ys.countP q := List.countP_mono_left fun z _ => hpq z
    rcases List.mem_cons.1 hx with rfl | hy
    · rw [List.countP_cons_of_neg (by simp [hp]), List.countP_cons_of_pos hq]
      omega
    · have hlt := ih hy
      by_cases hpy : p y = true
      · rw [List.countP_cons_of_pos hpy, List.countP_cons_of_pos (hpq y hpy)]
        omega
      · rw [List.countP_cons_of_neg hpy]
        exact Nat.lt_of_lt_of_le hlt (List.sublist_cons_self y ys).countP_le

namespace Files

/-- The number of files that are not among `active`. -/
def others (files : Files) (active : List String) : Nat :=
  files.identities.countP fun identity => decide (identity ∉ active)

/-- One more active file leaves fewer others. -/
theorem others_cons_lt (files : Files) {active : List String} {identity : String}
    (hm : identity ∈ files.identities) (ha : identity ∉ active) :
    files.others (identity :: active) < files.others active :=
  countP_lt_countP (by simp) hm (by simpa using ha) (by simp)

end Files

end WasmCompiler
