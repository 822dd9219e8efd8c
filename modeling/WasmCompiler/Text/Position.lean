import WasmCompiler.Text.Slice

/-! Lines and columns of a text, for showing a place in it to a reader. The offsets at which the
lines start are found once, and the line of a place is found among them by halving. -/

namespace WasmCompiler

/-- A place in a text, both numbers counted from one. Columns count characters. -/
structure Position where
  line : Nat
  column : Nat
  deriving DecidableEq, Repr

section Search

variable {α : Type}

/-- The search for the last value that satisfies `test` among `size` values from `base` on. The
first is taken to satisfy it until no other is left. The result counts the values up to it. -/
def searchLast (test : α → Bool) (row : Array α) (base size : Nat) (hSize : 0 < size)
    (hRow : base + size ≤ row.size) : Nat :=
  if hMore : 1 < size then
    if test row[base + size / 2] then
      searchLast test row (base + size / 2) (size - size / 2) (by omega) (by omega)
    else searchLast test row base (size - size / 2) (by omega) (by omega)
  else if test row[base] then base + 1
  else base
termination_by size

/-- The number of values before the first that does not satisfy `test`, in a row in which no later
one does. -/
def partitionPoint (test : α → Bool) (row : Array α) : Nat :=
  if hSize : 0 < row.size then searchLast test row 0 row.size hSize (by omega) else 0

/-- A search ends within the row. -/
theorem searchLast_le (test : α → Bool) (row : Array α) (base size : Nat) (hSize : 0 < size)
    (hRow : base + size ≤ row.size) : searchLast test row base size hSize hRow ≤ row.size := by
  fun_induction searchLast test row base size hSize hRow with
  | case1 _ _ _ _ _ _ ih => exact ih
  | case2 _ _ _ _ _ _ ih => exact ih
  | case3 => omega
  | case4 => omega

theorem partitionPoint_le (test : α → Bool) (row : Array α) :
    partitionPoint test row ≤ row.size := by
  by_cases hSize : 0 < row.size
  · rw [partitionPoint, dif_pos hSize]
    exact searchLast_le ..
  · rw [partitionPoint, dif_neg hSize]
    exact Nat.zero_le _

end Search

namespace Text

/-- The offsets at which a character stands in a text that starts at `offset`. -/
def offsetsOf (mark : Char) (offset : Nat) : List Char → List Nat
  | [] => []
  | c :: rest =>
    if c = mark then offset :: offsetsOf mark (offset + c.utf8Size) rest
    else offsetsOf mark (offset + c.utf8Size) rest

/-- The offset of the first character of each line. -/
def lineStarts (text : List Char) : List Nat := 0 :: (offsetsOf '\n' 0 text).map (· + 1)

/-- The text without the characters at its end that satisfy `isTail`. -/
def trimEndMatches (isTail : Char → Bool) (text : List Char) : List Char :=
  (text.reverse.dropWhile isTail).reverse

/-- A mark under a column of a line. Tabs are kept so that the mark lines up. -/
def caretUnder (line : List Char) (column : Nat) : List Char :=
  (line.take (column - 1)).map (fun c => if c = '\t' then '\t' else ' ') ++ ['^']

end Text

/-- A text with the offsets at which its lines start. -/
structure IndexedText where
  text : List Char
  lineStarts : Array Nat
  lineStarts_eq : lineStarts.toList = Text.lineStarts text

namespace IndexedText

def ofChars (text : List Char) : IndexedText := ⟨text, (Text.lineStarts text).toArray, rfl⟩

def ofText (text : String) : IndexedText := ofChars text.toList

/-- The first line always starts. -/
theorem size_lineStarts_pos (s : IndexedText) : 0 < s.lineStarts.size := by
  rw [← Array.length_toList, s.lineStarts_eq]
  exact Nat.succ_pos _

/-- The index of the line of an offset is that of the last line that starts there or before. -/
def lineIndex (s : IndexedText) (offset : Nat) : Fin s.lineStarts.size :=
  ⟨partitionPoint (· ≤ offset) s.lineStarts - 1,
    have hLe := partitionPoint_le (fun start => decide (start ≤ offset)) s.lineStarts
    have hPos := s.size_lineStarts_pos
    by omega⟩

/-- The position of a byte offset. An offset past the end is the end; one inside a character is
the first column of its line. -/
def lineCol (s : IndexedText) (offset : Nat) : Position :=
  let offset := min offset (byteLength s.text)
  let index := s.lineIndex offset
  let start := s.lineStarts[index]
  ⟨index + 1, ((Text.slice? start offset s.text).map List.length).getD 0 + 1⟩

/-- The characters of a line, counted from one, without the newline and the carriage returns
that end it. Line zero is the first line; a line past the last is empty. -/
def lineText (s : IndexedText) (line : Nat) : List Char :=
  match s.lineStarts[line - 1]? with
  | none => []
  | some start =>
    let stop := (s.lineStarts[line - 1 + 1]?).getD (byteLength s.text)
    Text.trimEndMatches (['\n', '\r'].contains ·) ((Text.slice? start stop s.text).getD [])

/-- A mark under a column of a line of the text. -/
def caretLine (s : IndexedText) (line column : Nat) : List Char :=
  Text.caretUnder (s.lineText line) column

end IndexedText

/-- The position of a byte offset in a text. -/
def Position.ofOffset (text : List Char) (offset : Nat) : Position :=
  (IndexedText.ofChars text).lineCol offset

/-- A line of a text, as it is shown. -/
def Text.lineAt (text : List Char) (line : Nat) : List Char :=
  (IndexedText.ofChars text).lineText line

/-- The line of a text that holds a place, with the place marked under it. -/
structure Excerpt where
  position : Position
  line : String
  caret : String
  deriving DecidableEq, Repr

/-- The excerpt that shows where a span starts. -/
def Excerpt.ofSpan (text : String) (span : Span) : Excerpt :=
  let source := IndexedText.ofText text
  let position := source.lineCol span.start
  ⟨position, String.ofList (source.lineText position.line),
    String.ofList (source.caretLine position.line position.column)⟩

end WasmCompiler
