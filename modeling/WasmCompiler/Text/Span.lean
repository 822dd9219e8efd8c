/-! Ranges of UTF-8 bytes in a text, and values tied to such a range. -/

namespace WasmCompiler

/-- The bytes from offset `start` up to but not including offset `stop`. -/
structure Span where
  start : Nat
  stop : Nat
  deriving DecidableEq, Repr, Inhabited

/-- The empty range at one offset. -/
def Span.point (offset : Nat) : Span := ⟨offset, offset⟩

/-- A cause together with the range of text that shows it. -/
structure Located (Cause : Type) where
  cause : Cause
  span : Span
  deriving DecidableEq, Repr

/-- The number of bytes that the characters take in UTF-8. -/
def byteLength : List Char → Nat
  | [] => 0
  | c :: chars => c.utf8Size + byteLength chars

@[simp] theorem byteLength_nil : byteLength [] = 0 := rfl

@[simp] theorem byteLength_cons (c : Char) (chars : List Char) :
    byteLength (c :: chars) = c.utf8Size + byteLength chars := rfl

@[simp] theorem byteLength_append (front back : List Char) :
    byteLength (front ++ back) = byteLength front + byteLength back := by
  induction front with
  | nil => simp
  | cons c front ih => simp [ih, Nat.add_assoc]

end WasmCompiler
