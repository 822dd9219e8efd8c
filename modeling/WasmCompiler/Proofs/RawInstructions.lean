import WasmCompiler.Proofs.Decoding
import WasmCompiler.Proofs.Numerals
import WasmCompiler.Proofs.Splicing

/-! Instructions that are written out in a program. Whole numbers are encoded with a sign, also
where they are decoded without one; both give the same number as long as the last group that is read
has a bit to spare. -/

namespace WasmCompiler

namespace Text

/-- Some characters, of which none is blank. -/
structure IsWord (word : List Char) : Prop where
  ne_nil : word ≠ []
  notBlank : ∀ c ∈ word, isBlank c = false

theorem isWord_of_check {word : List Char} (h : (word.isEmpty || word.any isBlank) = false) :
    IsWord word := by
  rw [Bool.or_eq_false_iff, List.isEmpty_eq_false_iff, List.any_eq_false] at h
  exact ⟨h.1, fun c hC => Bool.eq_false_iff.2 (h.2 c hC)⟩

/-- A text of some words, with blanks between them and any blanks around them. -/
inductive IsSpaced : List Char → List (List Char) → Prop
  | nil : IsSpaced [] []
  | blank {c : Char} {text : List Char} {ws : List (List Char)} (hC : isBlank c = true)
      (hText : IsSpaced text ws) : IsSpaced (c :: text) ws
  | last {word : List Char} (hWord : IsWord word) : IsSpaced word [word]
  | word {word text : List Char} {c : Char} {ws : List (List Char)} (hWord : IsWord word)
      (hC : isBlank c = true) (hText : IsSpaced text ws) :
      IsSpaced (word ++ c :: text) (word :: ws)

/-- A blank separates the words before it from those after it. -/
theorem words_append {c : Char} (hC : isBlank c = true) (front back : List Char) :
    words (front ++ c :: back) = words front ++ words back := by
  simp only [words, fields_eq_splitOnP]
  rw [List.splitOnP_append_cons front back hC, List.filter_append]

theorem IsWord.words_eq {word : List Char} (h : IsWord word) : words word = [word] := by
  have hFields : word.splitOnP isBlank = [word] :=
    List.splitOnP_eq_singleton (by simpa using h.notBlank)
  simp [words, fields_eq_splitOnP, hFields, h.ne_nil]

/-- Words with blanks between them are read back as words. -/
theorem IsSpaced.words_eq {text : List Char} {ws : List (List Char)} (h : IsSpaced text ws) :
    words text = ws := by
  induction h with
  | nil => rfl
  | blank hC _ ih => exact (words_append hC [] _).trans ih
  | last hWord => exact hWord.words_eq
  | word hWord hC _ ih =>
      rw [words_append hC, hWord.words_eq, ih]
      rfl

end Text

namespace Number

/-- The integers as they are written in base ten: digits after a sign or none. -/
inductive IsInteger : List Char → Int → Prop
  | plain {ds : List Char} (hDs : IsDigits ds) : IsInteger ds (Nat.ofDigitChars 10 ds 0)
  | plus {ds : List Char} (hDs : IsDigits ds) : IsInteger ('+' :: ds) (Nat.ofDigitChars 10 ds 0)
  | minus {ds : List Char} (hDs : IsDigits ds) :
      IsInteger ('-' :: ds) (-(Nat.ofDigitChars 10 ds 0 : Int))

/-- An integer that is spelled out is read as itself. -/
theorem IsInteger.readInt?_eq {word : List Char} {n : Int} (h : IsInteger word n) :
    readInt? 10 word = some n := by
  cases h with
  | plain hDs =>
      have hNat := readNat?_of_isDigit hDs.ne_nil hDs.isDigit
      obtain ⟨c, rest, rfl, hC⟩ := hDs.exists_cons
      simp [readInt?, splitSign_of_isDigit hC, hNat]
  | plus hDs | minus hDs =>
      simp [readInt?, splitSign, readNat?_of_isDigit hDs.ne_nil hDs.isDigit]

/-- An integer that fits 64 bits is read as one of 64 bits. -/
theorem readInt64?_of_readInt? {base : Nat} {word : List Char} {n : Int}
    (h : readInt? base word = some n) (hLow : -2 ^ 63 ≤ n) (hHigh : n < 2 ^ 63) :
    ∃ v : Int64, readInt64? base word = some v ∧ v.toInt = n := by
  refine ⟨Int64.ofInt n, ?_, Int64.toInt_ofInt_of_le hLow hHigh⟩
  rw [readInt64?, h, Option.bind_some, if_pos ⟨hLow, hHigh⟩]

/-- The integer of 32 bits that has the same lowest 32 bits as `n`. -/
structure WrapsTo (n v : Int) : Prop where
  low : -2 ^ 31 ≤ v
  high : v < 2 ^ 31
  modEq : v ≡ n [ZMOD 2 ^ 32]

/-- An integer wraps to one number of 32 bits. -/
theorem WrapsTo.unique {n v w : Int} (hV : WrapsTo n v) (hW : WrapsTo n w) : v = w := by
  have hMod := hV.modEq.trans hW.modEq.symm
  rw [Int.ModEq] at hMod
  have hLow := hV.low
  have hHigh := hV.high
  have hLow' := hW.low
  have hHigh' := hW.high
  omega

/-- Cutting an integer to 32 bits wraps it. -/
theorem wrapsTo_toInt32 (x : Int64) : WrapsTo x.toInt x.toInt32.toInt where
  low := x.toInt32.le_toInt
  high := x.toInt32.toInt_lt
  modEq := by
    rw [Int64.toInt_toInt32]
    exact Int.bmod_emod

end Number

namespace Wasm

open Number

theorem Leb128.signed_zero : signed 0 = [0] := by simp [signed]

theorem Opcode.mem_all (op : Opcode) : op ∈ all := by
  cases op <;> decide

/-- An instruction is found by its name, so no two share one. -/
theorem Opcode.ofMnemonic?_mnemonic (op : Opcode) : ofMnemonic? op.mnemonic = some op := by
  -- over the whole table at once, so that each name is unfolded once
  have hAll : (all.all fun op => ofMnemonic? op.mnemonic == some op) = true := by decide
  exact beq_iff_eq.1 (List.all_eq_true.1 hAll op (mem_all op))

namespace Operand

/-- A word after a dollar sign is no number. -/
theorem read?_dollar (op : Opcode) (name : List Char) : read? op ('$' :: name) = none := by
  have hInt : readInt64? 10 ('$' :: name) = none := by
    simp [readInt64?, readInt?, splitSign, readNat?, continueDigits?, digitValue?]
  have hNumeral : Numeral.read? ('$' :: name) = none := by
    simp [Numeral.read?, splitSign, Magnitude.read?, Decimal.read?, readNat?]
  unfold read?
  split
  · simp [Single.read?, hNumeral]
  · simp [Double.read?, hNumeral]
  · simp [hInt]
  · simp [hInt]

/-- An operand that needs no variables is read whatever the variables are. -/
theorem read_of_read? {op : Opcode} {word : List Char} {operand : Operand}
    (h : read? op word = some operand) (locals : Locals) : read locals op word = .ok operand := by
  unfold read
  split
  · rw [read?_dollar] at h
    cases h
  · rw [h]

/-- A word that is no operand is an error, unless it names a variable. -/
theorem read_eq_error {op : Opcode} {word : List Char} (hDollar : ∀ name, word ≠ '$' :: name)
    (h : read? op word = none) (locals : Locals) :
    read locals op word = .error (.badOperand op.mnemonic (String.ofList word)) := by
  unfold read
  split
  · exact absurd rfl (hDollar _)
  · rw [h]

/-- A constant of 32 bits is read from a signed or an unsigned number, and encoded as a signed one.
-/
theorem read?_i32Const {word : List Char} {n v : Int} (hWord : IsInteger word n)
    (hLow : -2 ^ 31 ≤ n) (hHigh : n < 2 ^ 32) (hV : WrapsTo n v) :
    ∃ operand, read? .i32Const word = some operand ∧ operand.encode = Leb128.signed v := by
  obtain ⟨x, hX, rfl⟩ := readInt64?_of_readInt? hWord.readInt?_eq (by omega) (by omega)
  refine ⟨.int32 x.toInt32, ?_, congrArg Leb128.signed ((wrapsTo_toInt32 x).unique hV)⟩
  simp only [read?, hX, Option.bind_some]
  rw [if_pos ⟨hLow, hHigh⟩]

end Operand

/-- One word is read as one operand. -/
theorem readOperands_one {locals : Locals} {op : Opcode} {word : List Char} {operand : Operand}
    (h : Operand.read locals op word = .ok operand) :
    readOperands locals op [word] = .ok [operand] := by
  simp only [readOperands, h]
  rfl

/-- The first word names the instruction and the others are its operands. -/
theorem RawInstr.read_eq {op : Opcode} {text : String} {ws : List (List Char)}
    (hText : Text.IsSpaced text.toList (op.mnemonic.toList :: ws)) (locals : Locals) :
    RawInstr.read locals text = (readOperands locals op ws).map (⟨op, ·⟩) := by
  simp only [RawInstr.read, hText.words_eq, String.ofList_toList, Opcode.ofMnemonic?_mnemonic]

end Wasm

end WasmCompiler
