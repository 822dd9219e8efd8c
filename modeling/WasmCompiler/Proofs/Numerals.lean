import Mathlib.Data.List.TakeWhile
import WasmCompiler.Proofs.Decimals

/-! Number literals as text. A literal that can be written without a sign is written as digits,
or as digits on both sides of a point, and is read back from them. -/

namespace WasmCompiler

open Number

/-- At least one character, all of them digits. -/
structure IsDigits (cs : List Char) : Prop where
  ne_nil : cs ≠ []
  isDigit : ∀ c ∈ cs, c.isDigit = true

namespace IsDigits

variable {cs ds : List Char}

theorem exists_cons (h : IsDigits cs) : ∃ c rest, cs = c :: rest ∧ c.isDigit = true := by
  obtain ⟨c, rest, rfl⟩ := List.exists_cons_of_ne_nil h.ne_nil
  exact ⟨c, rest, rfl, h.isDigit c List.mem_cons_self⟩

theorem append (h : IsDigits cs) (hDs : ∀ c ∈ ds, c.isDigit = true) : IsDigits (cs ++ ds) :=
  ⟨by simp [h.ne_nil], fun c hC => (List.mem_append.1 hC).elim (h.isDigit c) (hDs c)⟩

theorem digitsOf (n : Nat) : IsDigits (digitsOf n) :=
  ⟨Nat.toDigits_ne_nil, fun _ => isDigit_of_mem_digitsOf⟩

theorem notMem (h : IsDigits cs) {c : Char} (hC : c.isDigit = false) : c ∉ cs :=
  fun hMem => Bool.false_ne_true (hC.symm.trans (h.isDigit c hMem))

end IsDigits

namespace Number

/-- The decimal of digits before and after a point. -/
def Decimal.ofPoint (whole fraction : List Char) : Decimal :=
  ⟨Nat.ofDigitChars 10 (whole ++ fraction) 0, 0 - (fraction.length : Int)⟩

/-- Digits with a point among them are read as a decimal. -/
theorem Decimal.read?_point {whole fraction : List Char} (hWhole : IsDigits whole)
    (hFraction : IsDigits fraction) :
    Decimal.read? (whole ++ '.' :: fraction) = some (.ofPoint whole fraction) := by
  have hPoint : ¬ ('.'.isDigit = true) := by decide
  have hTake : (whole ++ '.' :: fraction).takeWhile Char.isDigit = whole := by
    rw [List.takeWhile_append_of_pos hWhole.isDigit, List.takeWhile_cons_of_neg hPoint,
      List.append_nil]
  have hDrop : (whole ++ '.' :: fraction).dropWhile Char.isDigit = '.' :: fraction := by
    rw [List.dropWhile_append_of_pos hWhole.isDigit, List.dropWhile_cons_of_neg hPoint]
  have hTake' : fraction.takeWhile Char.isDigit = fraction :=
    List.takeWhile_eq_self_iff.2 hFraction.isDigit
  have hDrop' : fraction.dropWhile Char.isDigit = [] :=
    List.dropWhile_eq_nil_iff.2 hFraction.isDigit
  have hAll := hWhole.append hFraction.isDigit
  simp only [read?, hTake, hDrop, hTake', hDrop', readNat?_of_isDigit hAll.ne_nil hAll.isDigit,
    readExponent?]
  rfl

theorem toLower_of_isDigit {c : Char} (h : c.isDigit = true) : c.toLower = c := by
  unfold Char.toLower
  rw [dif_neg]
  rintro ⟨hLow, -⟩
  have hHigh : c.val ≤ '9'.val := by
    simp only [Char.isDigit, Bool.and_eq_true, decide_eq_true_eq] at h
    exact h.2
  exact absurd (UInt32.le_trans hLow hHigh) (by decide)

/-- A number that starts with a digit has no sign. -/
theorem splitSign_of_isDigit {c : Char} (hC : c.isDigit = true) (rest : List Char) :
    splitSign (c :: rest) = (false, c :: rest) := by
  refine splitSign.eq_3 _ (fun _ hEq => ?_) (fun _ hEq => ?_)
  · cases hEq
    cases hC
  · cases hEq
    cases hC

/-- A text that starts with a digit has no sign, and is no word. -/
theorem Numeral.read?_of_isDigit {c : Char} {rest : List Char} (hC : c.isDigit = true)
    {d : Decimal} (hRead : Decimal.read? (c :: rest) = some d) :
    Numeral.read? (c :: rest) = some ⟨false, .finite d⟩ := by
  have hNe {other : Char} (hOther : other.isDigit = false) : c ≠ other := by
    rintro rfl
    exact Bool.false_ne_true (hOther.symm.trans hC)
  have hWord : Magnitude.read? (c :: rest) = some (.finite d) := by
    simp [Magnitude.read?, toLower_of_isDigit hC, hNe (rfl : 'i'.isDigit = false),
      hNe (rfl : 'n'.isDigit = false), hRead]
  simp [Numeral.read?, splitSign_of_isDigit hC, hWord]

/-- As a numeral they are positive and finite. -/
theorem Numeral.read?_point {whole fraction : List Char} (hWhole : IsDigits whole)
    (hFraction : IsDigits fraction) :
    Numeral.read? (whole ++ '.' :: fraction) =
      some ⟨false, .finite (.ofPoint whole fraction)⟩ := by
  have hRead := Decimal.read?_point hWhole hFraction
  obtain ⟨c, rest, rfl, hC⟩ := hWhole.exists_cons
  exact Numeral.read?_of_isDigit hC hRead

/-- As a number of 64 bits they are rounded once. -/
theorem Double.read?_point {whole fraction : List Char} (hWhole : IsDigits whole)
    (hFraction : IsDigits fraction) :
    Double.read? (whole ++ '.' :: fraction) =
      some ⟨UInt64.ofNat (Format.double.roundDecimal (.ofPoint whole fraction))⟩ := by
  rw [Double.read?, Numeral.read?_point hWhole hFraction]
  rfl

/-- As a number of 32 bits they are rounded once. -/
theorem Single.read?_point {whole fraction : List Char} (hWhole : IsDigits whole)
    (hFraction : IsDigits fraction) :
    Single.read? (whole ++ '.' :: fraction) =
      some ⟨UInt32.ofNat (Format.single.roundDecimal (.ofPoint whole fraction))⟩ := by
  rw [Single.read?, Numeral.read?_point hWhole hFraction]
  rfl

/-- The point divides by a power of ten. -/
theorem value_ofPoint (whole fraction : List Char) :
    (Decimal.ofPoint whole fraction).value =
      (Nat.ofDigitChars 10 (whole ++ fraction) 0 : ℚ) / 10 ^ fraction.length := by
  rw [Decimal.value, Decimal.ofPoint, zero_sub, zpow_neg, zpow_natCast, div_eq_mul_inv]

theorem ofDigitChars_digitsOf (n : Nat) : Nat.ofDigitChars 10 (digitsOf n) 0 = n :=
  Nat.ofDigitChars_ten_toDigits

/-- A text of digits and a point, and the decimal that it writes. -/
structure IsPointText (text : List Char) (d : Decimal) (whole fraction : List Char) : Prop where
  eq_append : text = whole ++ '.' :: fraction
  isDigits_whole : IsDigits whole
  isDigits_fraction : IsDigits fraction
  value_eq : (Decimal.ofPoint whole fraction).value = d.value

/-- A whole number is written with its zeros and a zero after the point. -/
theorem isPointText_ofNat (coefficient zeros : Nat) :
    IsPointText (digitsOf coefficient ++ List.replicate zeros '0' ++ ['.', '0'])
      ⟨coefficient, .ofNat zeros⟩ (digitsOf coefficient ++ List.replicate zeros '0') ['0'] := by
  have hZeros : ∀ c ∈ List.replicate zeros '0', c.isDigit = true := fun c hC => by
    rw [List.eq_of_mem_replicate hC]
    rfl
  refine ⟨rfl, (IsDigits.digitsOf coefficient).append hZeros, ⟨by simp, by simp⟩, ?_⟩
  rw [value_ofPoint, ← List.replicate_one, Nat.ofDigitChars_append, Nat.ofDigitChars_append,
    Nat.ofDigitChars_replicate_zero, Nat.ofDigitChars_replicate_zero, ofDigitChars_digitsOf,
    List.length_replicate]
  simp only [Decimal.value, Int.ofNat_eq_natCast, zpow_natCast]
  push_cast
  field_simp

/-- A fraction is written with as many zeros in front as it needs to have a digit before the point.
-/
theorem isPointText_negSucc (coefficient n : Nat) {padded : List Char} (hPadded : padded =
    List.replicate (n + 2 - (digitsOf coefficient).length) '0' ++ digitsOf coefficient) :
    IsPointText (padded.take (padded.length - (n + 1)) ++
        '.' :: padded.drop (padded.length - (n + 1)))
      ⟨coefficient, .negSucc n⟩ (padded.take (padded.length - (n + 1)))
      (padded.drop (padded.length - (n + 1))) := by
  have hLength : n + 2 ≤ padded.length := by
    rw [hPadded, List.length_append, List.length_replicate]
    omega
  have hDigits : ∀ c ∈ padded, c.isDigit = true := fun c hC => by
    rw [hPadded, List.mem_append] at hC
    rcases hC with hC | hC
    · rw [List.eq_of_mem_replicate hC]
      rfl
    · exact isDigit_of_mem_digitsOf hC
  have hFraction : (padded.drop (padded.length - (n + 1))).length = n + 1 := by
    rw [List.length_drop]
    omega
  refine ⟨rfl, ⟨?_, fun c hC => hDigits c (List.mem_of_mem_take hC)⟩,
    ⟨?_, fun c hC => hDigits c (List.mem_of_mem_drop hC)⟩, ?_⟩
  · rw [← List.length_pos_iff, List.length_take]
    omega
  · rw [← List.length_pos_iff, hFraction]
    exact Nat.succ_pos n
  · rw [value_ofPoint, List.take_append_drop, hFraction, hPadded, Nat.ofDigitChars_append,
      Nat.ofDigitChars_replicate_zero, Nat.mul_zero, ofDigitChars_digitsOf]
    simp [Decimal.value, zpow_negSucc, div_eq_mul_inv]

/-- The text of a decimal with a point, which is added to a whole number. -/
theorem Decimal.exists_isPointText (d : Decimal) : ∃ whole fraction, IsPointText
    (if d.positional.contains '.' then d.positional else d.positional ++ ['.', '0'])
    d whole fraction := by
  obtain ⟨coefficient, exponent⟩ := d
  cases exponent with
  | ofNat zeros =>
      have hText := isPointText_ofNat coefficient zeros
      have hNoPoint : ¬ (digitsOf coefficient ++ List.replicate zeros '0').contains '.' = true := by
        simpa using hText.isDigits_whole.notMem (rfl : '.'.isDigit = false)
      rw [positional, if_neg hNoPoint]
      exact ⟨_, _, hText⟩
  | negSucc n =>
      have hText := isPointText_negSucc coefficient n rfl
      have hPoint : (positional ⟨coefficient, .negSucc n⟩).contains '.' = true := by
        simp [positional]
      rw [if_pos hPoint]
      exact ⟨_, _, hText⟩

/-- The text of a finite number without its sign is that of a decimal that is rounded to it. -/
theorem Double.exists_positional {pattern : Nat} (hFinite : pattern < Format.double.infinity) :
    ∃ d : Decimal, magnitudeText pattern = d.positional ∧
      Format.double.roundDecimal d = pattern := by
  rw [magnitudeText, if_pos hFinite]
  by_cases hZero : pattern = 0
  · exact ⟨⟨0, 0⟩, if_pos hZero, by simp [Format.roundDecimal, hZero]⟩
  · exact ⟨_, if_neg hZero, Format.roundDecimal_shortest (Nat.pos_of_ne_zero hZero) hFinite⟩

end Number

namespace Literal

/-- A number that has a text without a sign. -/
def IsPlain : Literal → Prop
  | int value => 0 ≤ value.toInt
  | float value => value.bits.toNat < Format.double.infinity

/-- Digits, or digits on both sides of a point. -/
inductive IsText : List Char → Prop where
  | whole {cs : List Char} (h : IsDigits cs) : IsText cs
  | point {whole fraction : List Char} (hWhole : IsDigits whole) (hFraction : IsDigits fraction) :
      IsText (whole ++ '.' :: fraction)

/-- A number that is written starts with a digit. -/
theorem IsText.exists_cons {cs : List Char} (h : IsText cs) :
    ∃ c rest, cs = c :: rest ∧ c.isDigit = true := by
  cases h with
  | whole hDigits => exact hDigits.exists_cons
  | point hWhole _ =>
      obtain ⟨c, rest, rfl, hC⟩ := hWhole.exists_cons
      exact ⟨c, _, List.cons_append, hC⟩

/-- No letter of another base stands after the first digit. -/
theorem IsText.append_ne {cs rest : List Char} (h : IsText cs) {c : Char} {tail : List Char}
    (hDigit : c.isDigit = false) (hPoint : c ≠ '.') (hRest : rest.head? ≠ some c) :
    cs ++ rest ≠ '0' :: c :: tail := by
  have hWhole {whole after : List Char} (hDigits : IsDigits whole)
      (hAfter : after.head? ≠ some c) : whole ++ after ≠ '0' :: c :: tail := by
    obtain ⟨d, ds, rfl, -⟩ := hDigits.exists_cons
    intro hEq
    cases ds with
    | nil =>
        cases (List.cons.inj hEq).2
        exact hAfter rfl
    | cons e es =>
        cases (List.cons.inj (List.cons.inj hEq).2).1
        exact hDigits.notMem hDigit (by simp)
  cases h with
  | whole h => exact hWhole h hRest
  | point h _ =>
      rw [List.append_assoc]
      exact hWhole h (by simpa using Ne.symm hPoint)

/-- A number that is written is read in base ten, with a fraction if it has a point. -/
theorem read?_of_isText {text : List Char} (h : IsText text) :
    read? text = if text.contains '.' then (Double.read? text).map float
      else (readInt64? 10 text).map int := by
  have hSecond {c : Char} {tail : List Char} (hDigit : c.isDigit = false) (hPoint : c ≠ '.') :
      text ≠ '0' :: c :: tail := by
    simpa using @IsText.append_ne text [] h c tail hDigit hPoint nofun
  exact read?.eq_5 text (fun _ => hSecond rfl (by decide)) (fun _ => hSecond rfl (by decide))
    (fun _ => hSecond rfl (by decide)) (fun _ => hSecond rfl (by decide))

/-- A finite number is written as a decimal that rounds to it. -/
theorem exists_floatText {x : Double} (h : x.bits.toNat < Format.double.infinity) :
    ∃ whole fraction, (floatText x).toList = whole ++ '.' :: fraction ∧ IsDigits whole ∧
      IsDigits fraction ∧
      Format.double.roundDecimal (.ofPoint whole fraction) = x.bits.toNat := by
  have hLess : x.bits.toNat < Format.double.signBit := h.trans_le (by decide)
  have hMagnitude : x.magnitude = x.bits.toNat := Nat.mod_eq_of_lt hLess
  have hNan : x.isNan = false := by simp [Double.isNan, hMagnitude, h.le]
  have hSign : x.negative = false := by simp [Double.negative, hLess]
  obtain ⟨d, hText, hRound⟩ := Double.exists_positional h
  obtain ⟨whole, fraction, hPoint⟩ := d.exists_isPointText
  refine ⟨whole, fraction, ?_, hPoint.isDigits_whole, hPoint.isDigits_fraction, ?_⟩
  · rw [← hPoint.eq_append, floatText]
    simp only [Double.text, hNan, hSign, hMagnitude, hText, String.toList_ofList,
      Bool.false_eq_true, if_false]
    cases d.positional.contains '.' with
    | true => simp
    | false => simp
  · rw [← hRound]
    exact Format.double.roundDecimal_congr hPoint.value_eq

/-- An integer is printed as its digits. -/
theorem toList_print_int {v : Int64} (h : 0 ≤ v.toInt) :
    (int v).print.toList = digitsOf v.toInt.toNat := by
  obtain ⟨n, hN⟩ := Int.eq_ofNat_of_zero_le h
  rw [print, hN]
  exact Nat.toList_repr

/-- An integer is read back from its digits. -/
theorem readInt64?_digitsOf {v : Int64} (h : 0 ≤ v.toInt) :
    readInt64? 10 (digitsOf v.toInt.toNat) = some v := by
  have hDigits := IsDigits.digitsOf v.toInt.toNat
  have hNat := readNat?_of_isDigit hDigits.ne_nil hDigits.isDigit
  rw [ofDigitChars_digitsOf] at hNat
  obtain ⟨c, rest, hText, hC⟩ := hDigits.exists_cons
  have hRead : readInt? 10 (digitsOf v.toInt.toNat) = some v.toInt := by
    rw [hText] at hNat ⊢
    have hCast : ((v.toInt.toNat : Nat) : Int) = v.toInt := Int.toNat_of_nonneg h
    simp only [readInt?, splitSign_of_isDigit hC, hNat]
    exact congrArg some hCast
  have hLow := v.le_toInt
  have hHigh := v.toInt_lt
  rw [readInt64?, hRead, Option.bind_some, if_pos ⟨by omega, by omega⟩, Int64.ofInt_toInt]

/-- A number is printed as one that can be written. -/
theorem isText_print {l : Literal} (h : l.IsPlain) : IsText l.print.toList := by
  cases l with
  | int v =>
      rw [toList_print_int h]
      exact .whole (.digitsOf _)
  | float x =>
      obtain ⟨whole, fraction, hText, hWhole, hFraction, -⟩ := exists_floatText h
      rw [print, hText]
      exact .point hWhole hFraction

/-- A literal is read back from its text. -/
theorem read?_print {l : Literal} (h : l.IsPlain) : read? l.print.toList = some l := by
  rw [read?_of_isText (isText_print h)]
  cases l with
  | int v =>
      have hNoPoint : ¬ (digitsOf v.toInt.toNat).contains '.' = true := by
        simpa using (IsDigits.digitsOf v.toInt.toNat).notMem (rfl : '.'.isDigit = false)
      rw [toList_print_int h, if_neg hNoPoint, readInt64?_digitsOf h]
      rfl
  | float x =>
      obtain ⟨whole, fraction, hText, hWhole, hFraction, hRound⟩ := exists_floatText h
      rw [print, hText, if_pos (by simp), Double.read?_point hWhole hFraction, hRound,
        UInt64.ofNat_toNat]
      rfl

/-- Whether a number is not infinite, and is one. -/
def IsFinite : Literal → Prop
  | int _ => True
  | float value => value.magnitude < Format.double.infinity

/-- An integer that is read without a sign is not negative. -/
theorem nonneg_of_readInt64? {base : Nat} {cs : List Char} {v : Int64} (hMinus : '-' ∉ cs)
    (h : readInt64? base cs = some v) : 0 ≤ v.toInt := by
  have hSign : (splitSign cs).1 = false := by
    fun_cases splitSign cs with
    | case1 => simp at hMinus
    | case2 => rfl
    | case3 => rfl
  obtain ⟨value, hValue, h⟩ := Option.bind_eq_some_iff.1 h
  have hNonneg : 0 ≤ value := by
    simp only [readInt?, hSign, Bool.false_eq_true, if_false, Option.map_eq_some_iff,
      Option.bind_eq_bind, Option.bind_eq_some_iff, Option.pure_def, Option.some.injEq] at hValue
    obtain ⟨_, ⟨m, -, rfl⟩, rfl⟩ := hValue
    exact Int.natCast_nonneg m
  by_cases hRange : -0x8000000000000000 ≤ value ∧ value < 0x8000000000000000
  · rw [if_pos hRange] at h
    cases h
    rw [Int64.toInt_ofInt_of_le (by omega) (by omega)]
    exact hNonneg
  · rw [if_neg hRange] at h
    cases h

/-- A number that is read without a sign has its sign bit clear. -/
theorem ofNumeral_lt_signBit {n : Numeral} (h : n.negative = false) :
    Format.double.ofNumeral n < Format.double.signBit := by
  have hInfinity : Format.double.infinity < Format.double.signBit := by decide
  have hRound (d : Decimal) : Format.double.roundDecimal d ≤ Format.double.infinity := by
    fun_cases Format.roundDecimal Format.double d with
    | case1 => exact Nat.zero_le _
    | case2 => exact Nat.le_refl _
    | case3 => exact Nat.min_le_right _ _
    | case4 => exact Nat.min_le_right _ _
  rw [Format.ofNumeral, h]
  cases n.magnitude with
  | finite d => exact (hRound d).trans_lt hInfinity
  | infinity => exact hInfinity
  | nan => decide

/-- The numbers that are written without a sign are plain, unless they are too large. -/
theorem isPlain_of_read? {c : Char} {cs : List Char} {l : Literal} (hC : c.isDigit = true)
    (hMinus : '-' ∉ cs) (hRead : read? (c :: cs) = some l) (hFinite : l.IsFinite) :
    l.IsPlain := by
  have hInt {base : Nat} {digits : List Char} (hDigits : '-' ∉ digits)
      (h : (readInt64? base digits).map int = some l) : l.IsPlain := by
    obtain ⟨v, hV, rfl⟩ := Option.map_eq_some_iff.1 h
    exact nonneg_of_readInt64? hDigits hV
  have hTail {d e : Char} {digits : List Char} (hText : c :: cs = d :: e :: digits) :
      '-' ∉ digits := by
    cases hText
    exact fun hMem => hMinus (List.mem_cons_of_mem _ hMem)
  generalize hText : c :: cs = text at hRead
  revert hRead
  fun_cases read? text with
  | case1 digits | case2 digits | case3 digits | case4 digits => exact hInt (hTail hText)
  | case5 _ hPoint =>
      rw [if_pos hPoint]
      intro hRead
      obtain ⟨x, hX, rfl⟩ := Option.map_eq_some_iff.1 hRead
      obtain ⟨n, hN, rfl⟩ := Option.map_eq_some_iff.1 hX
      have hSign : n.negative = false := by
        rw [← hText, Numeral.read?, splitSign_of_isDigit hC] at hN
        obtain ⟨magnitude, -, rfl⟩ := Option.map_eq_some_iff.1 hN
        rfl
      have hLess := ofNumeral_lt_signBit hSign
      have hBits : (Double.ofNumeral n).bits.toNat = Format.double.ofNumeral n :=
        UInt64.toNat_ofNat_of_lt' (hLess.trans (by decide))
      simp only [IsFinite, Double.magnitude, hBits, Nat.mod_eq_of_lt hLess] at hFinite
      rw [IsPlain, hBits]
      exact hFinite
  | case6 _ hPoint =>
      rw [if_neg hPoint]
      refine hInt ?_
      rw [← hText]
      rintro (_ | ⟨_, hMem⟩)
      · simp at hC
      · exact hMinus hMem

end Literal

end WasmCompiler
