/-! Cutting a text at separators: fields, words and lines. -/

namespace WasmCompiler.Text

/-- The pieces between the characters that satisfy `isSeparator`. There is always one piece
more than there are separators, so a text without any is its own single field. -/
def fields (isSeparator : Char → Bool) : List Char → List (List Char)
  | [] => [[]]
  | c :: rest =>
    if isSeparator c then [] :: fields isSeparator rest
    else
      match fields isSeparator rest with
      | [] => [[c]]
      | field :: others => (c :: field) :: others

theorem fields_ne_nil (isSeparator : Char → Bool) (text : List Char) :
    fields isSeparator text ≠ [] := by
  cases text with
  | nil => simp [fields]
  | cons c rest =>
    rw [fields]
    split
    · simp
    · split <;> simp

theorem fields_cons_of_pos {p : Char → Bool} {c : Char} (rest : List Char) (h : p c = true) :
    fields p (c :: rest) = [] :: fields p rest := by
  rw [fields, if_pos h]

/-- A character that is no separator is added to the first field. -/
theorem exists_fields_cons_of_neg {p : Char → Bool} {c : Char} (rest : List Char)
    (h : p c = false) : ∃ field others, fields p rest = field :: others ∧
      fields p (c :: rest) = (c :: field) :: others := by
  rw [fields, if_neg (by simp [h])]
  cases hRest : fields p rest with
  | nil => exact absurd hRest (fields_ne_nil p rest)
  | cons field others => exact ⟨field, others, rfl, rfl⟩

/-- The code point ranges with the Unicode property White_Space. -/
def blankRanges : List (Nat × Nat) :=
  [(0x9, 0xD), (0x20, 0x20), (0x85, 0x85), (0xA0, 0xA0), (0x1680, 0x1680), (0x2000, 0x200A),
    (0x2028, 0x2029), (0x202F, 0x202F), (0x205F, 0x205F), (0x3000, 0x3000)]

/-- Whether a character has the property White_Space. -/
def isBlank (c : Char) : Bool :=
  blankRanges.any fun range => range.1 ≤ c.toNat && c.toNat ≤ range.2

/-- The text without its leading blanks. -/
def trimStart (text : List Char) : List Char := text.dropWhile isBlank

/-- The text without its trailing blanks. -/
def trimEnd (text : List Char) : List Char := (text.reverse.dropWhile isBlank).reverse

/-- The text without the blanks at its two ends. -/
def trim (text : List Char) : List Char := trimEnd (trimStart text)

/-- The maximal runs of characters that are not blank. -/
def words (text : List Char) : List (List Char) :=
  (fields isBlank text).filter fun word => !word.isEmpty

/-- A line without the one carriage return that may stand before its newline. -/
def dropReturn (line : List Char) : List Char :=
  if line.getLast? = some '\r' then line.dropLast else line

/-- The lines of a text. A newline, or a carriage return and a newline, ends a line; what
follows the last newline is a line only if it is not empty, and keeps its carriage returns. -/
def lines (text : List Char) : List (List Char) :=
  let pieces := fields (· == '\n') text
  let last := pieces.getLast?.getD []
  pieces.dropLast.map dropReturn ++ if last.isEmpty then [] else [last]

end WasmCompiler.Text
