import WasmCompiler.Proofs.IntegerLiterals
import WasmCompiler.Proofs.NearestNumbers

/-! Numbers with a point from their digits to the code. A literal is rounded to 64 bits when it is
read and to 32 bits when it is lowered, while a constant that is written out as an instruction is
rounded to 32 bits at once. The two differ where the first rounding ends halfway between two numbers
of 32 bits and hides on which side of that point the literal was. -/

namespace WasmCompiler

open Wasm Number

namespace Number.Format

section Twice

/-- A number `q` and a number `c` that stands for it. This one is halfway between two numbers of the
format, and `q` is on the side of the one with the odd pattern. -/
def IsMisled (f : Format) (q c : ℚ) : Prop :=
  ∃ k < f.infinity, c = f.midpoint k ∧ if k % 2 = 0 then c < q else q < c

variable {f g : Format} {q c : ℚ} {first near twice : Nat}

/-- Rounding twice is rounding once, as long as the first rounding does not mislead the second. The
first does not leap over the points where the second decides. -/
theorem isNearest_of_not_isMisled
    (hMid : ∀ k < g.infinity, ∃ p ≤ f.infinity, f.value p = g.midpoint k)
    (hFirst : f.IsNearest q first) (hNear : g.IsNearest q near)
    (h : ¬g.IsMisled q (f.value first)) : g.IsNearest (f.value first) near := by
  have hBetween := hNear.isBetween
  refine IsBetween.isNearest ⟨hNear.le_infinity, fun k hK => ?_, fun k hK hSame => ?_,
    fun hFinite => ?_, fun hFinite hSame => ?_⟩
  · have hLe := hNear.le_infinity
    obtain ⟨p, hP, hValue⟩ := hMid k (by omega)
    rw [← hValue]
    exact hFirst.value_le hP (hValue ▸ hBetween.low k hK)
  · by_contra hOdd
    have hLe := hNear.le_infinity
    have hLess : g.midpoint k < q :=
      lt_of_le_of_ne (hBetween.low k hK) fun hTie => hOdd (hBetween.low_even k hK hTie)
    refine h ⟨k, by omega, hSame.symm, ?_⟩
    rwa [if_pos (by omega), ← hSame]
  · obtain ⟨p, hP, hValue⟩ := hMid near hFinite
    rw [← hValue]
    exact hFirst.le_value hP (hValue ▸ hBetween.high hFinite)
  · by_contra hOdd
    have hLess : q < g.midpoint near :=
      lt_of_le_of_ne (hBetween.high hFinite) fun hTie => hOdd (hBetween.high_even hFinite hTie)
    refine h ⟨near, hFinite, hSame, ?_⟩
    rwa [if_neg hOdd, hSame]

/-- A point halfway between two numbers is rounded to the even one. -/
theorem isNearest_midpoint {k : Nat} (hK : k < f.infinity) :
    f.IsNearest (f.midpoint k) (if k % 2 = 0 then k else k + 1) := by
  have hMono := f.midpoint_strictMono.monotone
  split_ifs with hEven
  · refine IsBetween.isNearest ⟨hK.le, fun j hJ => hMono (by omega), fun _ _ _ => hEven,
      fun _ => le_rfl, fun _ _ => hEven⟩
  · refine IsBetween.isNearest ⟨hK, fun j hJ => hMono (by omega), fun _ _ _ => by omega,
      fun _ => hMono (by omega), fun _ _ => by omega⟩

/-- Where the first rounding misleads the second, another number results. -/
theorem ne_of_isMisled (hNear : f.IsNearest q near) (hTwice : f.IsNearest c twice)
    (h : f.IsMisled q c) : twice ≠ near := by
  obtain ⟨k, hK, rfl, hSide⟩ := h
  have hEven := hTwice.unique (isNearest_midpoint hK)
  rintro rfl
  split_ifs at hSide hEven
  · subst hEven
    exact absurd (hNear.isBetween.high hK) (not_le.2 hSide)
  · exact absurd (hNear.isBetween.low k hEven) (not_le.2 hSide)

/-- Rounding twice gives the nearest number exactly if the first rounding does not mislead the
second. -/
theorem twice_eq_near_iff
    (hMid : ∀ k < g.infinity, ∃ p ≤ f.infinity, f.value p = g.midpoint k)
    (hFirst : f.IsNearest q first) (hNear : g.IsNearest q near)
    (hTwice : g.IsNearest (f.value first) twice) :
    twice = near ↔ ¬g.IsMisled q (f.value first) :=
  ⟨fun hSame hMisled => ne_of_isMisled hNear hTwice hMisled hSame,
    fun h => hTwice.unique (isNearest_of_not_isMisled hMid hFirst hNear h)⟩

end Twice

section Midpoints

/-- The points halfway between numbers of 32 bits are numbers of 64 bits. -/
theorem exists_value_eq_midpoint_single {k : Nat} (hK : k < single.infinity) :
    ∃ pattern ≤ double.infinity, double.value pattern = single.midpoint k := by
  obtain ⟨e, count, -, -, hCount, hDecode⟩ := single.exists_units k
  have hMid : single.midpoint k = (2 * count + 1 : Nat) * 2 ^ (single.minExponent + e - 1) := by
    rw [midpoint_eq, value, hDecode, zpow_sub_one₀ two_ne_zero]
    push_cast
    ring
  have hFraction : single.fractionBits = 23 := rfl
  have hExponent : single.minExponent = -149 := rfl
  obtain ⟨pattern, hPattern⟩ := @double.exists_value_eq (2 * count + 1)
    (single.minExponent + e - 1) (by omega)
    (by rw [hFraction] at hCount; change _ < 2 ^ 53; omega)
    (by rw [hExponent]; change (-1074 : Int) + 52 ≤ _; omega)
  refine ⟨pattern, (lt_infinity_double_of_value ?_).le, hPattern.trans hMid.symm⟩
  rw [hPattern, ← hMid]
  exact ((single.midpoint_lt_value_succ k).trans_le (single.value_strictMono.monotone hK)).le

end Midpoints

end Number.Format

namespace Lexical

/-- The number that digits before and after a point write. -/
def pointValue (whole fraction : List Char) : ℚ :=
  value 10 whole + value 10 fraction / 10 ^ fraction.length

theorem IsRun.isDigits {digits : List Char} (h : IsRun IsDigit digits) : IsDigits digits :=
  ⟨h.some, fun c hC => isDigit_iff.2 (h.all c hC)⟩

theorem isRun_of_check {digits : List Char}
    (h : (!digits.isEmpty && digits.all Char.isDigit) = true) : IsRun IsDigit digits := by
  rw [Bool.and_eq_true, Bool.not_eq_true', List.isEmpty_eq_false_iff, List.all_eq_true] at h
  exact ⟨h.1, fun c hC => isDigit_iff.1 (h.2 c hC)⟩

/-- Digits are read as their value. -/
theorem ofDigitChars_eq {digits : List Char} (h : ∀ c ∈ digits, IsDigit c) (start : Nat) :
    Nat.ofDigitChars 10 digits start = start * 10 ^ digits.length + value 10 digits := by
  have hRead := continueDigits?_of_isDigit (fun c hC => isDigit_iff.2 (h c hC)) start
  rw [continueDigits?_eq fun c hC => (h c hC).digit_lt] at hRead
  exact (Option.some.inj hRead).symm

/-- A decimal is the value of its digits, divided by the power of ten that its point stands for. -/
theorem value_ofPoint_eq {whole fraction : List Char} (hWhole : IsRun IsDigit whole)
    (hFraction : IsRun IsDigit fraction) :
    (Decimal.ofPoint whole fraction).value = pointValue whole fraction := by
  rw [value_ofPoint, Nat.ofDigitChars_append, ofDigitChars_eq hWhole.all,
    ofDigitChars_eq hFraction.all, pointValue]
  push_cast
  field_simp
  ring

end Lexical

section Constants

/-- The instruction that has a number of 32 bits as its constant, written out. -/
def floatConstantText (text : List Char) : String := "f32.const " ++ String.ofList text

theorem isSpaced_floatConstantText {text : List Char} (h : Text.IsWord text) :
    Text.IsSpaced (floatConstantText text).toList [Opcode.f32Const.mnemonic.toList, text] := by
  have hWord : Text.IsWord Opcode.f32Const.mnemonic.toList :=
    Text.isWord_of_check (by decide)
  have hName : "f32.const ".toList = Opcode.f32Const.mnemonic.toList ++ [' '] := by decide
  rw [floatConstantText, String.toList_append, hName, String.toList_ofList, List.append_assoc]
  exact .word hWord rfl (.last h)

/-- The raw instruction of a constant is the number that its text is read as. -/
theorem Wasm.RawInstr.read_floatConstantText {text : List Char} {x : Single}
    (hWord : Text.IsWord text) (hRead : Single.read? text = some x) (locals : Locals) :
    RawInstr.read locals (floatConstantText text) = .ok ⟨.f32Const, [.f32 x]⟩ := by
  have hOperand : Operand.read? .f32Const text = some (.f32 x) := by
    rw [Operand.read?, hRead, Option.map_some]
  rw [RawInstr.read_eq (isSpaced_floatConstantText hWord),
    readOperands_one (Operand.read_of_read? hOperand locals)]
  rfl

theorem isWord_point {whole fraction : List Char} (hWhole : Lexical.IsRun Lexical.IsDigit whole)
    (hFraction : Lexical.IsRun Lexical.IsDigit fraction) :
    Text.IsWord (whole ++ '.' :: fraction) := by
  have hDigit {c : Char} (hC : Lexical.IsDigit c) : Text.isBlank c = false := by
    have hNat := toNat_of_isDigit (Lexical.isDigit_iff.2 hC)
    exact Scan.isBlank_eq_false (by omega) (by omega)
  refine ⟨by simp, fun c hC => ?_⟩
  rcases List.mem_append.1 hC with hC | hC
  · exact hDigit (hWhole.all c hC)
  · rcases List.mem_cons.1 hC with rfl | hC
    · decide
    · exact hDigit (hFraction.all c hC)

/-- Numbers that fit some bytes differ exactly if their bytes do. -/
theorem littleEndian_inj {count a b : Nat} (hA : a < 256 ^ count) (hB : b < 256 ^ count) :
    littleEndian count a = littleEndian count b ↔ a = b := by
  refine ⟨fun hSame => ?_, congrArg _⟩
  have hRead := @readLittleEndian?_littleEndian count a hA []
  rw [hSame, readLittleEndian?_littleEndian hB] at hRead
  simpa using hRead.symm

end Constants

section Literals

variable {whole fraction : List Char}

/-- A number with a point is read as the number of 64 bits that it rounds to. -/
theorem Literal.read?_point (hWhole : Lexical.IsRun Lexical.IsDigit whole)
    (hFraction : Lexical.IsRun Lexical.IsDigit fraction) :
    Literal.read? (whole ++ '.' :: fraction) = some (.float
      ⟨UInt64.ofNat (Format.double.roundDecimal (.ofPoint whole fraction))⟩) := by
  rw [Literal.read?_of_isText (.point hWhole.isDigits hFraction.isDigits), if_pos (by simp),
    Double.read?_point hWhole.isDigits hFraction.isDigits]
  rfl

/-- It rounds to the nearest number of the format. -/
theorem Lexical.isNearest_pointValue {f : Format} (hReach : f.IsWithinReach)
    (hWhole : IsRun IsDigit whole) (hFraction : IsRun IsDigit fraction) :
    f.IsNearest (pointValue whole fraction) (f.roundDecimal (.ofPoint whole fraction)) := by
  rw [← value_ofPoint_eq hWhole hFraction]
  exact Format.roundDecimal_isNearest hReach _

/-- A number of 64 bits is converted to the nearest number of 32 bits. -/
theorem bits_toSingle {first : Nat} (h : first ≤ Format.double.infinity) :
    (Double.toSingle ⟨UInt64.ofNat first⟩).bits.toNat =
        Format.double.convert Format.single first ∧
      Format.single.IsNearest (Format.double.value first)
        (Format.double.convert Format.single first) := by
  have hLarge : Format.single.value Format.single.infinity ≤
      Format.double.value Format.double.infinity := by
    rw [Format.value_infinity_single, Format.value_infinity_double]
    exact zpow_le_zpow_right₀ one_le_two (by decide)
  have hNearest := Format.convert_isNearest (by decide) (by decide) hLarge h
  have hFirst : (UInt64.ofNat first).toNat = first :=
    UInt64.toNat_ofNat_of_lt' (h.trans_lt (by decide))
  refine ⟨?_, hNearest⟩
  rw [Double.toSingle, hFirst]
  exact UInt32.toNat_ofNat_of_lt' (hNearest.le_infinity.trans_lt (by decide))

theorem encode_f32Const (x : Single) : Code.encode (.ofInstrs [⟨.f32Const, .f32 x⟩]) =
    Opcode.f32Const.byte :: littleEndian 4 x.bits.toNat := by
  simp [Code.encode, Code.ofInstrs, Item.encode, Instr.encode, Argument.encode,
    Opcode.formatByte_eq_byte]

/-- The constant of a literal is rounded twice, and the one that is written out as an instruction
once, to the nearest number. They are the same exactly if the first rounding does not mislead the
second. -/
theorem float_literal_code (hWhole : Lexical.IsRun Lexical.IsDigit whole)
    (hFraction : Lexical.IsRun Lexical.IsDigit fraction) :
    ∃ (v : Literal) (code : List Instr) (r : RawInstr) (first near twice : Nat),
      Literal.read? (whole ++ '.' :: fraction) = some v ∧
      (∀ s scope, (Expr.number s v).lower scope = .ok (code, .f32)) ∧
      (∀ locals, RawInstr.read locals (floatConstantText (whole ++ '.' :: fraction)) = .ok r) ∧
      Code.encode (.ofInstrs code) = Opcode.f32Const.byte :: littleEndian 4 twice ∧
      r.encode = Opcode.f32Const.byte :: littleEndian 4 near ∧
      Format.single.IsNearest (Lexical.pointValue whole fraction) near ∧
      Format.double.IsNearest (Lexical.pointValue whole fraction) first ∧
      Format.single.IsNearest (Format.double.value first) twice ∧
      (Code.encode (.ofInstrs code) = r.encode ↔
        ¬Format.single.IsMisled (Lexical.pointValue whole fraction)
          (Format.double.value first)) := by
  have hFirst := Lexical.isNearest_pointValue Format.isWithinReach_double hWhole hFraction
  have hNear := Lexical.isNearest_pointValue Format.isWithinReach_single hWhole hFraction
  obtain ⟨hBits, hTwice⟩ := bits_toSingle hFirst.le_infinity
  have hSmall {pattern : Nat} (h : pattern ≤ Format.single.infinity) : pattern < 256 ^ 4 :=
    h.trans_lt (by decide)
  have hNearBits := UInt32.toNat_ofNat_of_lt' (hSmall hNear.le_infinity)
  have hCode := encode_f32Const
    (Double.toSingle ⟨UInt64.ofNat (Format.double.roundDecimal (.ofPoint whole fraction))⟩)
  rw [hBits] at hCode
  have hRaw : RawInstr.encode ⟨.f32Const, [.f32 ⟨UInt32.ofNat
      (Format.single.roundDecimal (.ofPoint whole fraction))⟩]⟩ = Opcode.f32Const.byte ::
        littleEndian 4 (Format.single.roundDecimal (.ofPoint whole fraction)) := by
    simp [RawInstr.encode, Operand.encode, hNearBits]
  refine ⟨_, [⟨.f32Const, .f32 (Double.toSingle _)⟩], _, _, _, _,
    Literal.read?_point hWhole hFraction, fun s scope => rfl,
    RawInstr.read_floatConstantText (isWord_point hWhole hFraction)
      (Single.read?_point hWhole.isDigits hFraction.isDigits),
    hCode, hRaw, hNear, hFirst, hTwice, ?_⟩
  rw [hCode, hRaw, List.cons_inj_right,
    littleEndian_inj (hSmall hTwice.le_infinity) (hSmall hNear.le_infinity)]
  exact Format.twice_eq_near_iff (fun k => Format.exists_value_eq_midpoint_single) hFirst hNear
    hTwice

/-- The digits after the point of a literal that is a little more than `1 + 2⁻²⁴`, the point halfway
from one to the next number of 32 bits. -/
def midwayFraction : List Char := "0000000596046447753906250000001".toList

/-- The number is rounded to one that lies halfway between two numbers of 32 bits. -/
theorem read?_midway :
    Literal.read? ('1' :: '.' :: midwayFraction) = some (.float ⟨0x3FF0000010000000⟩) ∧
      ∀ locals, RawInstr.read locals (floatConstantText ('1' :: '.' :: midwayFraction)) =
        .ok ⟨.f32Const, [.f32 ⟨0x3F800001⟩]⟩ := by
  have hWord : Text.IsWord ('1' :: '.' :: midwayFraction) :=
    Text.isWord_of_check (by decide)
  exact ⟨by decide, RawInstr.read_floatConstantText hWord (by decide)⟩

/-- The first rounding of this literal misleads the second. -/
theorem float_literal_code_misled : ∃ first,
    Format.double.IsNearest (Lexical.pointValue ['1'] midwayFraction) first ∧
      Format.single.IsMisled (Lexical.pointValue ['1'] midwayFraction)
        (Format.double.value first) := by
  have hWhole : Lexical.IsRun Lexical.IsDigit ['1'] := Lexical.isRun_of_check (by decide)
  have hFraction : Lexical.IsRun Lexical.IsDigit midwayFraction :=
    Lexical.isRun_of_check (by decide)
  obtain ⟨v, code, r, first, near, twice, hRead, hCode, hRaw, -, -, -, hFirst, -, hIff⟩ :=
    float_literal_code hWhole hFraction
  obtain ⟨hRead', hRaw'⟩ := read?_midway
  cases hRead.symm.trans hRead'
  cases (hRaw .empty).symm.trans (hRaw' .empty)
  cases hCode (.point 0) ⟨.empty, .empty⟩
  refine ⟨first, hFirst, not_not.1 fun h => ?_⟩
  exact absurd (hIff.2 h) (by decide)

/-- The literal loses what is beyond the halfway point in the first rounding, and becomes one in the
second. Written out as an instruction it is the next number. -/
theorem float_literal_code_differs :
    ∃ (v : Literal) (code : List Instr) (r : RawInstr),
      Literal.read? ('1' :: '.' :: midwayFraction) = some v ∧
      (∀ s scope, (Expr.number s v).lower scope = .ok (code, .f32)) ∧
      (∀ locals, RawInstr.read locals (floatConstantText ('1' :: '.' :: midwayFraction)) = .ok r) ∧
      Code.encode (.ofInstrs code) = [0x43, 0x00, 0x00, 0x80, 0x3F] ∧
      r.encode = [0x43, 0x01, 0x00, 0x80, 0x3F] := by
  obtain ⟨hRead, hRaw⟩ := read?_midway
  exact ⟨_, [⟨.f32Const, .f32 ⟨0x3F800000⟩⟩], _, hRead, fun s scope => rfl, hRaw,
    by decide, by decide⟩

end Literals

end WasmCompiler
