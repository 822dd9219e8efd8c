import WasmCompiler.Proofs.FloatLiterals

/-! Numbers that are read from a text, printed and read again. Whole numbers and the finite numbers
with a point come back bit by bit, however they were written. A number with a point can be too large
for 64 bits. It is then read as infinity, and infinity is printed as a word. -/

namespace WasmCompiler

open Number Lexical

section Overflow

/-- Above this point a number is nearest to infinity. -/
theorem Number.Format.midpoint_largest_double {largest : Nat}
    (hLargest : Format.double.infinity = largest + 1) :
    Format.double.midpoint largest = 2 ^ 1024 - 2 ^ 970 := by
  have hInfinity : Format.double.infinity = 0x7FF0000000000000 := by decide
  have hDecode : (Format.double.decode largest).2 = 971 := by
    rw [show largest = 0x7FEFFFFFFFFFFFFF by omega]
    decide
  have hHalf : (2 : ℚ) ^ (971 : Int) / 2 = 2 ^ 970 := by
    rw [zpow_ofNat, show (2 : ℚ) ^ 971 = 2 ^ 970 * 2 from pow_succ 2 970]
    exact mul_div_cancel_right₀ _ two_ne_zero
  rw [midpoint_eq_sub, ← hLargest, value_infinity_double, hDecode, hHalf, zpow_ofNat]

/-- A number with a point that is at least halfway from the largest number of 64 bits to the next
power of two. -/
def Lexical.IsTooLarge (text : List Char) : Prop :=
  ∃ whole fraction, IsRun IsDigit whole ∧ IsRun IsDigit fraction ∧
    text = whole ++ '.' :: fraction ∧ 2 ^ 1024 - 2 ^ 970 ≤ pointValue whole fraction

/-- A number with a point is read as the nearest one, and this is infinity if it is too large. -/
theorem Lexical.read?_pointValue {whole fraction : List Char} (hWhole : IsRun IsDigit whole)
    (hFraction : IsRun IsDigit fraction) :
    ∃ pattern ≤ Format.double.infinity,
      Literal.read? (whole ++ '.' :: fraction) = some (.float ⟨UInt64.ofNat pattern⟩) ∧
        (pattern = Format.double.infinity ↔ 2 ^ 1024 - 2 ^ 970 ≤ pointValue whole fraction) := by
  have hNearest := isNearest_pointValue Format.isWithinReach_double hWhole hFraction
  obtain ⟨largest, hLargest⟩ : ∃ largest, Format.double.infinity = largest + 1 :=
    Nat.exists_eq_succ_of_ne_zero (by decide)
  refine ⟨_, hNearest.le_infinity, Literal.read?_point hWhole hFraction, ?_⟩
  rw [hNearest.eq_infinity_iff (by decide) hLargest, Format.midpoint_largest_double hLargest]

/-- A number with a point is finite exactly if it is below the point above which it rounds to
infinity. -/
theorem Lexical.isFinite_point_iff {whole fraction : List Char} {v : Literal}
    (hWhole : IsRun IsDigit whole) (hFraction : IsRun IsDigit fraction)
    (hRead : Literal.read? (whole ++ '.' :: fraction) = some v) :
    v.IsFinite ↔ pointValue whole fraction < 2 ^ 1024 - 2 ^ 970 := by
  obtain ⟨pattern, hLe, hFloat, hInfinity⟩ := read?_pointValue hWhole hFraction
  cases hRead.symm.trans hFloat
  have hBits : (UInt64.ofNat pattern).toNat = pattern :=
    UInt64.toNat_ofNat_of_lt' (hLe.trans_lt (by decide))
  have hMagnitude : (⟨UInt64.ofNat pattern⟩ : Double).magnitude = pattern := by
    rw [Double.magnitude, hBits]
    exact Nat.mod_eq_of_lt (hLe.trans_lt (by decide))
  rw [Literal.IsFinite, hMagnitude]
  exact ⟨fun hLess => not_le.1 fun hLarge => hLess.ne (hInfinity.2 hLarge),
    fun hSmall => lt_of_le_of_ne hLe fun hEq => hSmall.not_ge (hInfinity.1 hEq)⟩

/-- A number is read as a finite one exactly if it is not too large. -/
theorem Lexical.isFinite_iff {text : List Char} {v : Literal} (hNumber : IsNumber text)
    (hRead : Literal.read? text = some v) : v.IsFinite ↔ ¬IsTooLarge text := by
  constructor
  · rintro hFinite ⟨whole, fraction, hWhole, hFraction, rfl, hLarge⟩
    exact ((isFinite_point_iff hWhole hFraction hRead).1 hFinite).not_ge hLarge
  · intro hSmall
    have hInt {n : Nat} (hWhole : IsWhole text n) : v.IsFinite := by
      obtain ⟨base, digits, hInt, -⟩ := hWhole.exists_readInt?
      rw [hRead] at hInt
      obtain ⟨i, -, rfl⟩ := Option.map_eq_some_iff.1 hInt.symm
      trivial
    cases hNumber with
    | hex hX hDigits => exact hInt (.hex hX hDigits)
    | binary hB hDigits => exact hInt (.binary hB hDigits)
    | whole hDigits => exact hInt (.decimal hDigits)
    | point hWhole hFraction =>
        exact (isFinite_point_iff hWhole hFraction hRead).2 <| not_le.1 fun hLarge =>
          hSmall ⟨_, _, hWhole, hFraction, rfl, hLarge⟩

end Overflow

section Printing

/-- A number token is spelled as a number. -/
theorem Lexical.Writes.isNumber {s : List Char} {text : String} (h : Writes s (.number, text)) :
    IsNumber s ∧ text = String.ofList s := by
  generalize hL : ((.number, text) : Lexeme) = l at h
  cases h with
  | str => cases hL
  | number hNumber =>
      cases hL
      exact ⟨hNumber, rfl⟩
  | word _ _ hWord =>
      cases hL
      have hWords : ∀ entry ∈ Token.Kind.words, entry.2 ≠ .number := by decide
      exact absurd rfl (hWords _ hWord)
  | name => cases hL
  | mark hMark =>
      cases hL
      have hMarks : ∀ mark ∈ Token.Kind.marks, mark.2 ≠ .number := by decide
      exact absurd rfl (hMarks _ hMark)

/-- The text of a number token is a number of the grammar. -/
theorem Lexical.Tokenizes.isNumber {offset : Nat} {pieces : List Piece} {ts : List Token}
    (h : Tokenizes offset pieces ts) :
    ∀ t ∈ ts, t.kind = .number → IsNumber t.text.toList := by
  induction h with
  | nil => exact List.forall_mem_nil _
  | cons _ _ hWrites _ ih =>
      refine List.forall_mem_cons.2 ⟨?_, ih⟩
      rintro rfl
      obtain ⟨hNumber, rfl⟩ := hWrites.isNumber
      rwa [String.toList_ofList]

/-- A number that can be written is the only token of its text. -/
theorem exists_ofText_of_isText {text : List Char} (h : Literal.IsText text) :
    ∃ t, Token.ofText (String.ofList text) = .ok [t] ∧ t.kind = .number ∧ t.text.toList = text := by
  obtain ⟨ts, hTokens, hLexemes⟩ := @Scan.Reads.number text [] [] h trivial .nil 0
  obtain ⟨t, ts, rfl, hLexeme, hNil⟩ := List.map_eq_cons_iff.1 hLexemes
  obtain rfl := List.map_eq_nil_iff.1 hNil
  obtain ⟨hKind, hText⟩ := Prod.mk.inj hLexeme
  rw [List.append_nil] at hTokens
  refine ⟨t, ?_, hKind, by rw [hText, String.toList_ofList]⟩
  rw [Token.ofText_eq, Scan.ofText, String.toList_ofList, hTokens]

/-- A text that is a single number, with its value. -/
def IsSoleNumber (text : String) (v : Literal) : Prop :=
  ∃ t, Token.ofText text = .ok [t] ∧ t.kind = .number ∧ Literal.read? t.text.toList = some v

/-- A plain number is the only token of its text, and reads back as itself. -/
theorem Literal.IsPlain.isSoleNumber {v : Literal} (h : v.IsPlain) : IsSoleNumber v.print v := by
  obtain ⟨t, hTokens, hKind, hText⟩ := exists_ofText_of_isText (Literal.isText_print h)
  rw [String.ofList_toList] at hTokens
  exact ⟨t, hTokens, hKind, by rw [hText, Literal.read?_print h]⟩

/-- Infinity, which is no number of a program. -/
def Literal.infinity : Literal := .float ⟨UInt64.ofNat Format.double.infinity⟩

theorem Literal.print_infinity : Literal.infinity.print = "inf.0" := by decide

/-- The word is read as a name, and no spelling starts with the point after it. -/
theorem ofText_inf : Token.ofText "inf.0" = .error ⟨.unrecognized '.', .point 3⟩ := by
  have hName : (Scan.ofText "inf.0").next = (.ok ⟨.ident, "inf", ⟨0, 3⟩⟩, ⟨3, ['.', '0']⟩) := by
    rw [Scan.next, Scan.skipGaps_of_zero (by decide)]
    decide
  have hPoint : Scan.next ⟨3, ['.', '0']⟩ =
      (.error ⟨.unrecognized '.', .point 3⟩, ⟨3, ['.', '0']⟩) := by
    rw [Scan.next, Scan.skipGaps_of_zero (by decide)]
    decide
  rw [Token.ofText_eq, Scan.tokens_eq, hName]
  dsimp only
  rw [if_neg (by decide), Scan.tokens_eq, hPoint]
  rfl

variable {source : String} {tokens : List Token} {t : Token} {v : Literal}

/-- A number of a program is printed as a number with the same value, bit by bit, exactly if it is
not too large. If it is, what is printed is not even cut into tokens. -/
theorem printed_number_reads_back_iff (hTokens : Token.ofText source = .ok tokens)
    (hMem : t ∈ tokens) (hKind : t.kind = .number)
    (hRead : Literal.read? t.text.toList = some v) (s : Span) :
    (IsSoleNumber (Expr.number s v).print v ↔ ¬IsTooLarge t.text.toList) ∧
      (IsTooLarge t.text.toList → v = .infinity ∧ (Expr.number s v).print = "inf.0" ∧
        Token.ofText (Expr.number s v).print = .error ⟨.unrecognized '.', .point 3⟩) := by
  obtain ⟨_, _, -, hTokenizes⟩ := exists_splits_of_ofText hTokens
  have hFinite := isFinite_iff (hTokenizes.isNumber t hMem hKind) hRead
  have hLarge (h : IsTooLarge t.text.toList) : v = .infinity := by
    obtain ⟨whole, fraction, hWhole, hFraction, hText, hLarge⟩ := h
    obtain ⟨pattern, -, hFloat, hInfinity⟩ := read?_pointValue hWhole hFraction
    rw [← hText, hRead, hInfinity.2 hLarge] at hFloat
    exact Option.some.inj hFloat
  have hPrint (h : IsTooLarge t.text.toList) : (Expr.number s v).print = "inf.0" := by
    rw [hLarge h]
    exact Literal.print_infinity
  refine ⟨⟨?_, fun hSmall => ?_⟩, fun h => ⟨hLarge h, hPrint h, by rw [hPrint h, ofText_inf]⟩⟩
  · rintro ⟨_, hSole, -⟩ h
    rw [hPrint h, ofText_inf] at hSole
    cases hSole
  · have hPlain := (Token.covers_of_ofText hTokens t hMem).literal hKind v hRead
    exact (hPlain (hFinite.2 hSmall)).isSoleNumber

theorem isRun_digitsOf (n : Nat) : IsRun IsDigit (digitsOf n) :=
  ⟨(IsDigits.digitsOf n).ne_nil, fun c hC => isDigit_iff.1 ((IsDigits.digitsOf n).isDigit c hC)⟩

theorem value_digitsOf (n : Nat) : value 10 (digitsOf n) = n := by
  have hValue := ofDigitChars_eq (isRun_digitsOf n).all 0
  rw [ofDigitChars_digitsOf] at hValue
  omega

theorem cast_pow_sub_pow {m n : Nat} (h : m < n) :
    ((2 ^ n - 2 ^ m - 1 : Nat) : ℚ) + 1 = 2 ^ n - 2 ^ m := by
  have hLess := Nat.pow_lt_pow_right Nat.one_lt_two h
  rw [← Nat.cast_add_one, Nat.sub_add_cancel (Nat.sub_pos_of_lt hLess), Nat.cast_sub hLess.le]
  push_cast
  rfl

/-- The last whole number before those that are too large. -/
def lastWhole : Nat := 2 ^ 1024 - 2 ^ 970 - 1

theorem lastWhole_add_one : (lastWhole : ℚ) + 1 = 2 ^ 1024 - 2 ^ 970 :=
  cast_pow_sub_pow (by decide)

/-- With a fraction this number is still printed as it can be read. -/
theorem printed_number_reads_back_iff_last : ∃ t v,
    Token.ofText (String.ofList (digitsOf lastWhole ++ ".9".toList)) = .ok [t] ∧
      t.kind = .number ∧ Literal.read? t.text.toList = some v ∧
      IsSoleNumber (Expr.number t.span v).print v := by
  have hWhole := isRun_digitsOf lastWhole
  have hNine : IsRun IsDigit ['9'] := isRun_of_check (by decide)
  obtain ⟨pattern, -, hRead, -⟩ := read?_pointValue hWhole hNine
  obtain ⟨t, hTokens, hKind, hText⟩ :=
    exists_ofText_of_isText (.point hWhole.isDigits hNine.isDigits)
  have hLess : pointValue (digitsOf lastWhole) ['9'] < 2 ^ 1024 - 2 ^ 970 := by
    rw [← lastWhole_add_one, pointValue, value_digitsOf]
    have hDigit : value 10 ['9'] = 9 := by decide
    exact add_lt_add_right (by norm_num [hDigit]) _
  have hSmall := (isFinite_iff (.point hWhole hNine) hRead).1
    ((isFinite_point_iff hWhole hNine hRead).2 hLess)
  rw [← hText] at hRead hSmall
  exact ⟨t, _, hTokens, hKind, hRead,
    (printed_number_reads_back_iff hTokens (List.mem_singleton_self _) hKind hRead _).1.2 hSmall⟩

/-- A power of ten beyond them is printed as a word. -/
theorem printed_number_overflows : ∃ t v,
    Token.ofText (String.ofList (digitsOf (10 ^ 309) ++ ".0".toList)) = .ok [t] ∧
      t.kind = .number ∧ Literal.read? t.text.toList = some v ∧
      (Expr.number t.span v).print = "inf.0" ∧ ¬IsSoleNumber (Expr.number t.span v).print v := by
  have hWhole := isRun_digitsOf (10 ^ 309)
  have hZero : IsRun IsDigit ['0'] := isRun_of_check (by decide)
  obtain ⟨pattern, -, hRead, hInfinity⟩ := read?_pointValue hWhole hZero
  obtain ⟨t, hTokens, hKind, hText⟩ :=
    exists_ofText_of_isText (.point hWhole.isDigits hZero.isDigits)
  have hLarge : 2 ^ 1024 - 2 ^ 970 ≤ pointValue (digitsOf (10 ^ 309)) ['0'] := by
    have hLess : lastWhole + 1 ≤ 10 ^ 309 := by decide +kernel
    rw [← lastWhole_add_one, pointValue, value_digitsOf, ← Nat.cast_add_one]
    exact (Nat.cast_le.2 hLess).trans (le_add_of_nonneg_right (by positivity))
  rw [← hText, hInfinity.2 hLarge] at hRead
  refine ⟨t, _, hTokens, hKind, hRead, Literal.print_infinity, ?_⟩
  rintro ⟨_, hSole, -⟩
  rw [Expr.print, ← Literal.infinity, Literal.print_infinity, ofText_inf] at hSole
  cases hSole

end Printing

end WasmCompiler
