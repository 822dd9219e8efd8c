import WasmCompiler.Proofs.Decoding
import WasmCompiler.Proofs.NearestNumbers
import WasmCompiler.Proofs.Numerals
import WasmCompiler.Wasm.TextFormat

/-! The line of an instruction, in the words of the format: the name of its byte and its operand,
after two blanks for each block around it. Of a number with a point the digits are fixed by what
they are read back as. -/

namespace WasmCompiler

open Wasm Number

section Names

/-- Comparisons of whole numbers, after their test for zero. -/
def Wasm.wholeComparisons : List String :=
  ["eqz", "eq", "ne", "lt_s", "lt_u", "gt_s", "gt_u", "le_s", "le_u", "ge_s", "ge_u"]

def Wasm.wholeArithmetic : List String :=
  ["clz", "ctz", "popcnt", "add", "sub", "mul", "div_s", "div_u", "rem_s", "rem_u", "and", "or",
    "xor", "shl", "shr_s", "shr_u"]

def Wasm.floatComparisons : List String := ["eq", "ne", "lt", "gt", "le", "ge"]

def Wasm.floatArithmetic : List String :=
  ["abs", "neg", "ceil", "floor", "trunc", "nearest", "sqrt", "add", "sub", "mul", "div"]

/-- The names of instructions in runs of bytes that follow each other, each with its first byte.
Access to memory is left out. -/
def Wasm.nameRuns : List (Nat × List String) :=
  [(0x00, ["unreachable", "nop", "block", "loop", "if", "else"]), (0x0B, ["end", "br", "br_if"]),
    (0x0F, ["return", "call"]), (0x1A, ["drop", "select"]),
    (0x20, ["local.get", "local.set", "local.tee"]),
    (0x41, ["i32.const", "i64.const", "f32.const", "f64.const"]),
    (0x45, wholeComparisons.map ("i32." ++ ·)), (0x50, wholeComparisons.map ("i64." ++ ·)),
    (0x5B, floatComparisons.map ("f32." ++ ·)), (0x61, floatComparisons.map ("f64." ++ ·)),
    (0x67, wholeArithmetic.map ("i32." ++ ·)), (0x79, wholeArithmetic.map ("i64." ++ ·)),
    (0x8B, floatArithmetic.map ("f32." ++ ·)), (0x99, floatArithmetic.map ("f64." ++ ·)),
    (0xA7, ["i32.wrap_i64", "i32.trunc_f32_s", "i32.trunc_f32_u", "i32.trunc_f64_s",
      "i32.trunc_f64_u", "i64.extend_i32_s", "i64.extend_i32_u", "i64.trunc_f32_s",
      "i64.trunc_f32_u", "i64.trunc_f64_s", "i64.trunc_f64_u", "f32.convert_i32_s",
      "f32.convert_i32_u", "f32.convert_i64_s", "f32.convert_i64_u", "f32.demote_f64",
      "f64.convert_i32_s", "f64.convert_i32_u", "f64.convert_i64_s", "f64.convert_i64_u",
      "f64.promote_f32"])]

/-- The name of the instruction with a byte. -/
def Wasm.nameOf? (byte : UInt8) : Option String :=
  nameRuns.findSome? fun run =>
    if run.1 ≤ byte.toNat then run.2[byte.toNat - run.1]? else none

/-- Instructions that do not access memory are called what the format calls them. -/
theorem Wasm.Opcode.nameOf?_formatByte {op : Opcode} (hArg : op.immediate ≠ .memArg)
    (hIndex : op.immediate ≠ .memoryIndex) : nameOf? op.formatByte = some op.mnemonic := by
  cases op <;> first | exact absurd rfl hArg | exact absurd rfl hIndex | rfl

end Names

section Numbers

namespace Number.Format

/-- A text for a number without its sign: a word for infinity, or digits, with or without a point,
to which no other number of 64 bits is nearer than the one with this value. -/
inductive WritesMagnitude (f : Format) (pattern : Nat) : List Char → Prop where
  | infinity (h : pattern = f.infinity) : WritesMagnitude f pattern ['i', 'n', 'f']
  | whole {digits : List Char} {wide : Nat} (hFinite : pattern < f.infinity)
      (hSame : double.value wide = f.value pattern) (hDigits : IsDigits digits)
      (hNear : double.IsNearest (Nat.ofDigitChars 10 digits 0 : Nat) wide) :
      WritesMagnitude f pattern digits
  | point {whole fraction : List Char} {wide : Nat} (hFinite : pattern < f.infinity)
      (hSame : double.value wide = f.value pattern) (hWhole : IsDigits whole)
      (hFraction : IsDigits fraction)
      (hNear : double.IsNearest (Decimal.ofPoint whole fraction).value wide) :
      WritesMagnitude f pattern (whole ++ '.' :: fraction)

/-- A text for the number with the given bits: with a minus sign if it has one, and a word of its
own if it is no number. -/
inductive Writes (f : Format) (bits : Nat) : List Char → Prop where
  | nan (h : f.infinity < bits % f.signBit) : Writes f bits ['n', 'a', 'n']
  | plus {text : List Char} (hSign : bits < f.signBit)
      (h : f.WritesMagnitude (bits % f.signBit) text) : Writes f bits text
  | minus {text : List Char} (hSign : f.signBit ≤ bits)
      (h : f.WritesMagnitude (bits % f.signBit) text) : Writes f bits ('-' :: text)

variable {f g : Format} {pattern wide : Nat} {text : List Char}

theorem value_ofPoint_zero (whole : List Char) :
    (Decimal.ofPoint whole ['0']).value = (Nat.ofDigitChars 10 whole 0 : Nat) := by
  rw [value_ofPoint, Nat.ofDigitChars_append, ← List.replicate_one,
    Nat.ofDigitChars_replicate_zero]
  push_cast
  simp

/-- A decimal that is rounded to a number is written out as a text for it. -/
theorem writesMagnitude_positional {d : Decimal} (hFinite : pattern < double.infinity)
    (hRound : double.roundDecimal d = pattern) :
    double.WritesMagnitude pattern d.positional := by
  have hNear : double.IsNearest d.value pattern := by
    rw [← hRound]
    exact roundDecimal_isNearest isWithinReach_double d
  obtain ⟨coefficient, exponent⟩ := d
  cases exponent with
  | ofNat zeros =>
      have hText := isPointText_ofNat coefficient zeros
      rw [← hText.value_eq, value_ofPoint_zero] at hNear
      exact .whole hFinite rfl hText.isDigits_whole hNear
  | negSucc n =>
      have hText := isPointText_negSucc coefficient n rfl
      rw [← hText.value_eq] at hNear
      exact .point hFinite rfl hText.isDigits_whole hText.isDigits_fraction hNear

/-- A magnitude is written as its shortest decimal, or as what is not finite. -/
theorem writesMagnitude_magnitudeText (h : pattern ≤ double.infinity) :
    double.WritesMagnitude pattern (Double.magnitudeText pattern) := by
  rcases h.lt_or_eq with hFinite | rfl
  · obtain ⟨d, hText, hRound⟩ := Double.exists_positional hFinite
    rw [hText]
    exact writesMagnitude_positional hFinite hRound
  · exact .infinity rfl

/-- A number is written as one with 64 bits that is the same. -/
theorem WritesMagnitude.of_same (h : double.WritesMagnitude wide text)
    (hFinite : pattern < f.infinity ↔ wide < double.infinity)
    (hInfinite : wide = double.infinity → pattern = f.infinity)
    (hSame : wide < double.infinity → double.value wide = f.value pattern) :
    f.WritesMagnitude pattern text := by
  cases h with
  | infinity hWide => exact .infinity (hInfinite hWide)
  | whole hLess hValue hDigits hNear =>
      exact .whole (hFinite.2 hLess) (hValue.trans (hSame hLess)) hDigits hNear
  | point hLess hValue hWhole hFraction hNear =>
      exact .point (hFinite.2 hLess) (hValue.trans (hSame hLess)) hWhole hFraction hNear

/-- The fraction of a number is rounded to the number itself in a format that has it. -/
theorem round_fraction (hFinite : wide < g.infinity) (hSame : g.value wide = f.value pattern) :
    (if (f.fraction pattern).1 = 0 then 0
      else g.roundFraction (f.fraction pattern).1 (f.fraction pattern).2) = wide := by
  have hDen : 0 < (f.fraction pattern).2 := scaleByTwo_pos Nat.one_pos _
  have hValue : ((f.fraction pattern).1 : ℚ) / (f.fraction pattern).2 = g.value wide := by
    rw [f.fraction_value, hSame]
  rcases Nat.eq_zero_or_pos wide with rfl | hPos
  · rw [value_zero, div_eq_zero_iff] at hValue
    rw [if_pos]
    exact_mod_cast hValue.resolve_right (by exact_mod_cast hDen.ne')
  · have hNum : (f.fraction pattern).1 ≠ 0 := by
      intro hZero
      rw [hZero, Nat.cast_zero, zero_div] at hValue
      exact (g.value_pos hPos).ne hValue
    rw [if_neg hNum, g.roundFraction_of_value hPos hFinite hDen hValue]

/-- What is no number with 32 bits is none with 64 bits. -/
theorem quiet_bounds {payload : Nat} (h : payload < 2 ^ 52) :
    double.infinity < (double.infinity + payload ||| 2 ^ 51) ∧
      (double.infinity + payload ||| 2 ^ 51) < double.signBit := by
  have hInfinity : double.infinity = 2 ^ 63 - 2 ^ 52 := by decide
  have hSign : double.signBit = 2 ^ 63 := by decide
  rw [hInfinity, hSign]
  refine ⟨lt_of_le_of_ne ?_ ?_, Nat.or_lt_two_pow (by omega) (by decide)⟩
  · exact (Nat.le_add_right _ payload).trans Nat.left_le_or
  · -- the bit that marks what is no number is not set in infinity
    intro hEq
    have hClear : Nat.testBit (2 ^ 63 - 2 ^ 52) 51 = false := by decide
    have hSet : Nat.testBit (2 ^ 51) 51 = true := by decide
    rw [hEq, Nat.testBit_or, hSet, Bool.or_true] at hClear
    cases hClear

/-- A number of 32 bits as one of 64 bits has the same sign, and is the same number if it is one. -/
theorem exists_convert_single (bits : Nat) :
    ∃ wide < double.signBit, single.convert double bits =
        double.withSign (decide (single.signBit ≤ bits)) wide ∧
      (bits % single.signBit < single.infinity → wide < double.infinity ∧
        double.value wide = single.value (bits % single.signBit)) ∧
      (bits % single.signBit = single.infinity → wide = double.infinity) ∧
      (single.infinity < bits % single.signBit → double.infinity < wide) := by
  have hMod : bits % single.signBit < single.signBit := Nat.mod_lt _ (by decide)
  generalize hPattern : bits % single.signBit = pattern at hMod
  simp only [convert, hPattern]
  rcases lt_trichotomy pattern single.infinity with hLess | rfl | hMore
  · obtain ⟨wide, hWide, hSame⟩ := exists_value_eq_single hLess
    refine ⟨wide, hWide.trans (by decide), ?_, fun _ => ⟨hWide, hSame⟩, fun h => absurd h hLess.ne,
      fun h => absurd h hLess.not_gt⟩
    rw [if_pos hLess, round_fraction hWide hSame]
  · refine ⟨double.infinity, by decide, ?_, fun h => absurd h (lt_irrefl _), fun _ => rfl,
      fun h => absurd h (lt_irrefl _)⟩
    rw [if_neg (lt_irrefl _), if_pos rfl]
  · have hPayload : (pattern - single.infinity) * Nat.pow 2 52 / Nat.pow 2 23 < 2 ^ 52 := by
      have hInfinity : single.infinity = 2 ^ 31 - 2 ^ 23 := by decide
      have hSign : single.signBit = 2 ^ 31 := by decide
      rw [hInfinity, Nat.div_lt_iff_lt_mul (by decide), Nat.pow_eq, Nat.pow_eq]
      omega
    obtain ⟨hAbove, hBelow⟩ := quiet_bounds hPayload
    refine ⟨_, hBelow, ?_, fun h => absurd h hMore.not_gt, fun h => absurd h hMore.ne',
      fun _ => hAbove⟩
    rw [if_neg hMore.not_gt, if_neg hMore.ne']
    rfl

end Number.Format

open Number.Format

/-- A number is written with the sign and the magnitude that the printer sees. -/
theorem Wasm.writes_floatText {f : Format} {bits : Nat} {x : Double}
    (hSign : x.negative = decide (f.signBit ≤ bits))
    (hNan : x.isNan = true → f.infinity < bits % f.signBit)
    (hText : x.magnitude ≤ double.infinity →
      f.WritesMagnitude (bits % f.signBit) (Double.magnitudeText x.magnitude)) :
    f.Writes bits (floatText x).toList := by
  rw [floatText]
  by_cases hIsNan : x.isNan = true
  · rw [if_pos hIsNan]
    exact .nan (hNan hIsNan)
  · have hMagnitude := hText (by simpa [Double.isNan] using hIsNan)
    rw [if_neg hIsNan, Double.text, if_neg hIsNan, String.toList_ofList]
    by_cases hMinus : f.signBit ≤ bits
    · rw [hSign, if_pos (decide_eq_true hMinus)]
      exact .minus hMinus hMagnitude
    · rw [hSign, if_neg (by simpa using hMinus)]
      exact .plus (not_le.1 hMinus) hMagnitude

/-- A number of 64 bits is written as itself. -/
theorem Number.Double.writes_floatText (x : Double) :
    double.Writes x.bits.toNat (floatText x).toList :=
  Wasm.writes_floatText rfl of_decide_eq_true writesMagnitude_magnitudeText

/-- Numbers of 32 bits are widened before they are written, which does not change them. -/
theorem Number.Single.writes_floatText (x : Single) :
    single.Writes x.bits.toNat (floatText x.toDouble).toList := by
  obtain ⟨wide, hWide, hConvert, hFinite, hInfinite, hNan⟩ := exists_convert_single x.bits.toNat
  have hSignBit : double.signBit = 2 ^ 63 := by decide
  have hBits : x.toDouble.bits.toNat =
      double.withSign (decide (single.signBit ≤ x.bits.toNat)) wide := by
    rw [toDouble, hConvert]
    refine UInt64.toNat_ofNat_of_lt' ?_
    rw [withSign]
    split <;> rw [UInt64.size] <;> omega
  have hMagnitude : x.toDouble.magnitude = wide := by
    rw [Double.magnitude, hBits, withSign]
    split
    · rw [Nat.add_mod_left, Nat.mod_eq_of_lt hWide]
    · exact Nat.mod_eq_of_lt hWide
  refine Wasm.writes_floatText ?_ (fun h => ?_) fun h => ?_
  · rw [Double.negative, hBits, withSign]
    by_cases hSign : single.signBit ≤ x.bits.toNat
    · simp [hSign]
    · simp [hSign, hWide]
  · rw [Double.isNan, hMagnitude, decide_eq_true_eq] at h
    by_contra hLe
    rcases (not_lt.1 hLe).lt_or_eq with hLess | hEq
    · exact absurd h (hFinite hLess).1.not_gt
    · exact absurd h (hInfinite hEq).not_gt
  · rw [hMagnitude] at h ⊢
    have hNumber : x.bits.toNat % single.signBit ≤ single.infinity :=
      not_lt.1 fun hMore => absurd (hNan hMore) h.not_gt
    refine (writesMagnitude_magnitudeText h).of_same ⟨fun hLess => (hFinite hLess).1, fun hLess =>
      ?_⟩ (fun hEq => ?_) fun hLess => ?_
    · exact hNumber.lt_of_ne fun hEq => hLess.ne (hInfinite hEq)
    · exact hNumber.eq_of_not_lt fun hLess => (hFinite hLess).1.ne hEq
    · exact (hFinite (hNumber.lt_of_ne fun hEq => hLess.ne (hInfinite hEq))).2

end Numbers

section Lines

/-- The text of an operand. An index and a whole number are written in base ten; a block without a
result has no text. -/
inductive Wasm.Argument.IsWritten : Argument → String → Prop where
  | none : IsWritten .none ""
  | block : IsWritten (.block .none) ""
  | index {n : Nat} : IsWritten (.index n) (" " ++ toString n)
  | int {v : Int} : IsWritten (.int v) (" " ++ toString v)
  | f32 {x : Single} {text : List Char} (h : Format.single.Writes x.bits.toNat text) :
      IsWritten (.f32 x) (" " ++ String.ofList text)
  | f64 {x : Double} {text : List Char} (h : Format.double.Writes x.bits.toNat text) :
      IsWritten (.f64 x) (" " ++ String.ofList text)

/-- The line of an instruction inside `depth` blocks: four blanks and two for each block, the name
that goes with its first byte, and its operand. -/
def Wasm.Instr.IsLineOf (depth : Nat) (i : Instr) (line : String) : Prop :=
  ∃ byte rest name operand, i.encode = byte :: rest ∧ nameOf? byte = some name ∧
    i.arg.IsWritten operand ∧
    line = String.ofList (List.replicate (4 + 2 * depth) ' ') ++ name ++ operand ++ "\n"

/-- The operand of an instruction that can be encoded is written as it is printed. -/
theorem Wasm.Instr.Encodable.isWritten {i : Instr} (h : i.Encodable) :
    i.arg.IsWritten i.arg.text := by
  obtain ⟨op, arg⟩ := i
  cases arg with
  | none => exact .none
  | block result =>
      cases result with
      | none => exact .block
      | some result => cases hOp : op.immediate <;> simp [Encodable, hOp] at h
  | index n => exact .index
  | int v => exact .int
  | f32 x =>
      have hText := Argument.IsWritten.f32 x.writes_floatText
      rwa [String.ofList_toList] at hText
  | f64 x =>
      have hText := Argument.IsWritten.f64 x.writes_floatText
      rwa [String.ofList_toList] at hText
  | memArg | memory => cases hOp : op.immediate <;> simp [Encodable, hOp] at h

/-- Every instruction that can be encoded is printed on its line. -/
theorem Wasm.Instr.Encodable.isLineOf {i : Instr} (h : i.Encodable) (depth : Nat) :
    i.IsLineOf depth (i.line depth) := by
  have hMemory : i.op.immediate ≠ .memArg ∧ i.op.immediate ≠ .memoryIndex := by
    constructor
    · intro hOp
      simp [Encodable, hOp] at h
    · intro hOp
      simp [Encodable, hOp] at h
  have hBlanks : "    " ++ String.ofList (List.replicate (2 * depth) ' ') =
      String.ofList (List.replicate (4 + 2 * depth) ' ') := by
    rw [List.replicate_add, String.ofList_append]
    rfl
  refine ⟨i.op.formatByte, i.arg.encode, i.op.mnemonic, i.arg.text, rfl,
    Opcode.nameOf?_formatByte hMemory.1 hMemory.2, h.isWritten, ?_⟩
  rw [line, hBlanks]

end Lines

end WasmCompiler
