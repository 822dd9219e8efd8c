import Mathlib.Data.Nat.Digits.Lemmas
import WasmCompiler.Proofs.BinaryFormat
import WasmCompiler.Proofs.Layout
import WasmCompiler.Proofs.RawInstructions
import WasmCompiler.Proofs.ReturnStatements
import WasmCompiler.Proofs.Scanning

/-! Whole numbers from their digits to the code. A number that is returned is in the bytes of the
module with its value modulo 2³², in the code of its own `return`, and is the same there as one that
is written out as an instruction. One that is too large for 32 bits is refused by both, and the
larger it is, the earlier. -/

namespace WasmCompiler

open Wasm Number

namespace Lexical

/-- The value of a digit of a base up to sixteen. -/
def digit (c : Char) : Nat :=
  if c ≤ '9' then c.toNat - '0'.toNat
  else if c ≤ 'F' then c.toNat - 'A'.toNat + 10
  else c.toNat - 'a'.toNat + 10

/-- The number that digits write in a base, of which the first is the highest. -/
def value (base : Nat) (digits : List Char) : Nat := Nat.ofDigits base (digits.reverse.map digit)

/-- The spellings of whole numbers, with their values. -/
inductive IsWhole : List Char → Nat → Prop where
  | hex {x : Char} {digits : List Char} (hX : x = 'x' ∨ x = 'X')
      (hDigits : IsRun IsHexDigit digits) : IsWhole ('0' :: x :: digits) (value 16 digits)
  | binary {b : Char} {digits : List Char} (hB : b = 'b' ∨ b = 'B')
      (hDigits : IsRun IsBinaryDigit digits) : IsWhole ('0' :: b :: digits) (value 2 digits)
  | decimal {digits : List Char} (hDigits : IsRun IsDigit digits) :
      IsWhole digits (value 10 digits)

/-- The first digit counts for as many places as there are digits after it. -/
theorem value_cons (base : Nat) (c : Char) (cs : List Char) :
    value base (c :: cs) = digit c * base ^ cs.length + value base cs := by
  rw [value, List.reverse_cons, List.map_append, Nat.ofDigits_append, List.length_map,
    List.length_reverse, List.map_singleton, Nat.ofDigits_singleton, ← value]
  ring

theorem toNat_of_isHexDigit {c : Char} (h : IsHexDigit c) :
    (48 ≤ c.toNat ∧ c.toNat ≤ 57) ∨ (97 ≤ c.toNat ∧ c.toNat ≤ 102) ∨
      (65 ≤ c.toNat ∧ c.toNat ≤ 70) := h

theorem digit_eq (c : Char) : digit c = if c.toNat ≤ 57 then c.toNat - 48
    else if c.toNat ≤ 70 then c.toNat - 65 + 10 else c.toNat - 97 + 10 := rfl

/-- A digit of a base is read as its value. -/
theorem digitValue?_eq {base : Nat} {c : Char} (hC : IsHexDigit c) (hBase : digit c < base) :
    digitValue? base c = some (digit c) := by
  have hLe (d : Char) : c ≤ d ↔ c.toNat ≤ d.toNat := Iff.rfl
  have hGe (d : Char) : d ≤ c ↔ d.toNat ≤ c.toNat := Iff.rfl
  have hValue : (if '0' ≤ c ∧ c ≤ '9' then some (c.toNat - '0'.toNat)
      else if 'a' ≤ c ∧ c ≤ 'z' then some (c.toNat - 'a'.toNat + 10)
      else if 'A' ≤ c ∧ c ≤ 'Z' then some (c.toNat - 'A'.toNat + 10)
      else none) = some (digit c) := by
    simp only [digit_eq, hLe, hGe, Char.reduceToNat]
    rcases toNat_of_isHexDigit hC with hNat | hNat | hNat
    · rw [if_pos hNat, if_pos hNat.2]
    · rw [if_neg (by omega), if_pos (by omega), if_neg (by omega), if_neg (by omega)]
    · rw [if_neg (by omega), if_neg (by omega), if_pos (by omega), if_neg (by omega),
        if_pos hNat.2]
  simp only [digitValue?, hValue]
  simpa using hBase

/-- Digits are read on from what was read before, which they shift. -/
theorem continueDigits?_eq {base : Nat} {cs : List Char}
    (h : ∀ c ∈ cs, IsHexDigit c ∧ digit c < base) (start : Nat) :
    continueDigits? base start cs = some (start * base ^ cs.length + value base cs) := by
  induction cs generalizing start with
  | nil => simp [continueDigits?, value]
  | cons c cs ih =>
      obtain ⟨⟨hC, hBase⟩, hCs⟩ := List.forall_mem_cons.1 h
      rw [continueDigits?, digitValue?_eq hC hBase]
      simp only
      rw [ih hCs, value_cons, List.length_cons]
      congr 1
      ring

/-- Digits of a base are read as their value. -/
theorem readInt?_eq {base : Nat} {digits : List Char} (hSome : digits ≠ [])
    (h : ∀ c ∈ digits, IsHexDigit c ∧ digit c < base) :
    readInt? base digits = some (value base digits : Int) := by
  have hNat : readNat? base digits = some (value base digits) := by
    rw [readNat?, if_neg (by simpa using hSome), continueDigits?_eq h, Nat.zero_mul, Nat.zero_add]
  have hSign : splitSign digits = (false, digits) := by
    unfold splitSign
    split
    · have hC := (h '-' List.mem_cons_self).1
      simp [IsHexDigit, IsDigit] at hC
    · have hC := (h '+' List.mem_cons_self).1
      simp [IsHexDigit, IsDigit] at hC
    · rfl
  simp [readInt?, hSign, hNat]

theorem IsDigit.digit_lt {c : Char} (h : IsDigit c) : IsHexDigit c ∧ digit c < 10 := by
  have hNat : 48 ≤ c.toNat ∧ c.toNat ≤ 57 := h
  refine ⟨.inl h, ?_⟩
  rw [digit_eq, if_pos hNat.2]
  omega

theorem IsHexDigit.digit_lt {c : Char} (h : IsHexDigit c) : digit c < 16 := by
  have hNat := toNat_of_isHexDigit h
  rw [digit_eq]
  split
  · omega
  · split <;> omega

theorem IsBinaryDigit.digit_lt {c : Char} (h : IsBinaryDigit c) : IsHexDigit c ∧ digit c < 2 := by
  rcases h with rfl | rfl
  · exact ⟨.inl ⟨by decide, by decide⟩, by decide⟩
  · exact ⟨.inl ⟨by decide, by decide⟩, by decide⟩

/-- A whole number is read in its base, with its value. -/
theorem IsWhole.exists_readInt? {text : List Char} {n : Nat} (h : IsWhole text n) :
    ∃ base digits, Literal.read? text = (readInt64? base digits).map .int ∧
      readInt? base digits = some (n : Int) := by
  cases h with
  | @hex x digits hX hDigits =>
      refine ⟨16, digits, ?_, readInt?_eq hDigits.some fun c hC =>
        ⟨hDigits.all c hC, (hDigits.all c hC).digit_lt⟩⟩
      rcases hX with rfl | rfl <;> rfl
  | @binary b digits hB hDigits =>
      refine ⟨2, digits, ?_, readInt?_eq hDigits.some fun c hC => (hDigits.all c hC).digit_lt⟩
      rcases hB with rfl | rfl <;> rfl
  | decimal hDigits =>
      have hText : IsDigits text := ⟨hDigits.some, fun c hC => isDigit_iff.2 (hDigits.all c hC)⟩
      refine ⟨10, text, ?_, readInt?_eq hDigits.some fun c hC => (hDigits.all c hC).digit_lt⟩
      rw [Literal.read?_of_isText (.whole hText),
        if_neg (by simpa using hText.notMem (rfl : '.'.isDigit = false))]

/-- A whole number that fits 64 bits is read as an integer. -/
theorem IsWhole.exists_read? {text : List Char} {n : Nat} (h : IsWhole text n) (hN : n < 2 ^ 63) :
    ∃ v : Int64, Literal.read? text = some (.int v) ∧ v.toInt = n := by
  obtain ⟨base, digits, hRead, hValue⟩ := h.exists_readInt?
  obtain ⟨v, hV, hInt⟩ := readInt64?_of_readInt? hValue (by omega) (by omega)
  exact ⟨v, by rw [hRead, hV, Option.map_some], hInt⟩

/-- One that does not fit is not read. -/
theorem IsWhole.read?_eq_none {text : List Char} {n : Nat} (h : IsWhole text n)
    (hN : 2 ^ 63 ≤ n) : Literal.read? text = none := by
  obtain ⟨base, digits, hRead, hValue⟩ := h.exists_readInt?
  rw [hRead, readInt64?, hValue, Option.bind_some, if_neg (by omega), Option.map_none]

theorem Tokenizes.kind_ne {offset : Nat} {pieces : List Piece} {ts : List Token}
    (h : Tokenizes offset pieces ts) : ∀ t ∈ ts, t.kind ≠ .eof := by
  induction h with
  | nil => exact List.forall_mem_nil _
  | cons _ _ hWrites _ ih => exact List.forall_mem_cons.2 ⟨hWrites.kind_ne, ih⟩

/-- The tokens of a text do not include the end. -/
theorem kind_ne_of_ofText {text : String} {ts : List Token} (h : Token.ofText text = .ok ts) :
    ∀ t ∈ ts, t.kind ≠ .eof := by
  obtain ⟨_, _, -, hTokenizes⟩ := exists_splits_of_ofText h
  exact hTokenizes.kind_ne

end Lexical

section WrittenOut

/-- The instruction that has a number as its constant, written out. -/
def constantText (n : Nat) : String := "i32.const " ++ toString n

theorem isWord_digitsOf (n : Nat) : Text.IsWord (digitsOf n) := by
  refine ⟨(IsDigits.digitsOf n).ne_nil, fun c hC => ?_⟩
  have hNat := toNat_of_isDigit ((IsDigits.digitsOf n).isDigit c hC)
  simp only [Text.isBlank, Text.blankRanges, List.any_cons, List.any_nil, Bool.or_false,
    Bool.or_eq_false_iff, Bool.and_eq_false_iff, decide_eq_false_iff_not]
  omega

/-- The text of a constant is its name and its number, with a blank between them. -/
theorem isSpaced_constantText (n : Nat) :
    Text.IsSpaced (constantText n).toList [Opcode.i32Const.mnemonic.toList, digitsOf n] := by
  have hWord : Text.IsWord Opcode.i32Const.mnemonic.toList :=
    Text.isWord_of_check (by decide)
  have hName : "i32.const ".toList = Opcode.i32Const.mnemonic.toList ++ [' '] := by decide
  have hText : (constantText n).toList = Opcode.i32Const.mnemonic.toList ++ ' ' :: digitsOf n := by
    rw [constantText, String.toList_append, hName, List.append_assoc]
    exact congrArg (_ ++ ' ' :: ·) Nat.toList_repr
  rw [hText]
  exact .word hWord rfl (.last (isWord_digitsOf n))

theorem isInteger_digitsOf (n : Nat) : IsInteger (digitsOf n) n := by
  have h := IsInteger.plain (IsDigits.digitsOf n)
  rwa [ofDigitChars_digitsOf] at h

/-- The raw statement of a constant is its instruction, with the number wrapped to 32 bits. -/
theorem Stmt.lower_raw_constantText {n : Nat} {v : Int} (hN : n < 2 ^ 32) (hV : WrapsTo n v) :
    ∃ r : RawInstr, r.encode = 0x41 :: Leb128.signed v ∧
      ∀ (s : Span) (scope : Scope), (Stmt.raw s (constantText n)).lower scope = .ok [.raw r] := by
  obtain ⟨operand, hRead, hBytes⟩ :=
    Operand.read?_i32Const (isInteger_digitsOf n) (by omega) (by omega) hV
  refine ⟨⟨.i32Const, [operand]⟩, by simp [RawInstr.encode, hBytes, Opcode.byte], fun s scope => ?_⟩
  rw [Stmt.lower, RawInstr.read_eq (isSpaced_constantText n),
    readOperands_one (Operand.read_of_read? hRead scope.locals)]
  rfl

/-- A constant with more than 32 bits is no operand, whether or not it has more than 64. -/
theorem Wasm.Operand.read?_i32Const_large {n : Nat} (hN : 2 ^ 32 ≤ n) :
    Operand.read? .i32Const (digitsOf n) = none := by
  have hInt := (isInteger_digitsOf n).readInt?_eq
  by_cases hWide : n < 2 ^ 63
  · obtain ⟨v, hV, hValue⟩ := readInt64?_of_readInt? hInt (by omega) (by omega)
    simp only [Operand.read?, hV, Option.bind_some]
    rw [if_neg (by omega)]
  · have hNone : readInt64? 10 (digitsOf n) = none := by
      rw [readInt64?, hInt, Option.bind_some, if_neg (by omega)]
    simp only [Operand.read?, hNone, Option.bind_none]

/-- The raw statement of a constant that does not fit 32 bits is an error. -/
theorem Stmt.lower_raw_constantText_large {n : Nat} (hN : 2 ^ 32 ≤ n) (s : Span) (scope : Scope) :
    ∃ e, (Stmt.raw s (constantText n)).lower scope = .error e ∧
      (EmitError.report e).category = .emission := by
  have hDigits := IsDigits.digitsOf n
  have hDollar : ∀ name, digitsOf n ≠ '$' :: name := by
    intro name hText
    exact hDigits.notMem (rfl : '$'.isDigit = false) (by simp [hText])
  have hOperand := Operand.read_eq_error hDollar (Operand.read?_i32Const_large hN) scope.locals
  have hRead : RawInstr.read scope.locals (constantText n) =
      .error (.badOperand Opcode.i32Const.mnemonic (String.ofList (digitsOf n))) := by
    rw [RawInstr.read_eq (isSpaced_constantText n), readOperands, hOperand]
    rfl
  refine ⟨⟨.badOperand Opcode.i32Const.mnemonic (String.ofList (digitsOf n)), s⟩, ?_, rfl⟩
  rw [Stmt.lower, hRead]
  rfl

end WrittenOut

section Returned

/-- The code of a `return` of a constant. -/
def returning (v : Int32) : Code := Code.ofInstrs [.i32Const v, .plain .ret]

/-- The bytes of a `return` of a constant that has the given bytes. -/
def returnedConstant (immediate : Bytes) : Bytes := 0x41 :: (immediate ++ [0x0F])

/-- A module, and the same with another constant in the place of zero where function number `i`
returns it between `front` and `back`. -/
def Wasm.Module.ReturnsInstead (m : Module) (i : Nat) (front immediate back : Bytes)
    (m' : Module) : Prop :=
  ∃ locals, m.code[i]? = some ⟨locals, front ++ returnedConstant [0] ++ back⟩ ∧
    m' = { m with code := m.code.set i ⟨locals, front ++ returnedConstant immediate ++ back⟩ }

/-- The instructions that return the other number are in the bytes of the other module. -/
theorem Wasm.Module.ReturnsInstead.infix_encode {m m' : Module} {i : Nat}
    {front immediate back : Bytes} (h : m.ReturnsInstead i front immediate back m') :
    front ++ 0x41 :: immediate ++ 0x0F :: back <:+: m'.encode := by
  obtain ⟨locals, hAt, rfl⟩ := h
  have hMem : ⟨locals, front ++ returnedConstant immediate ++ back⟩ ∈
      m.code.set i ⟨locals, front ++ returnedConstant immediate ++ back⟩ :=
    List.mem_set (List.getElem?_eq_some_iff.1 hAt).1 _
  have hCode := Module.code_infix_encode (m := { m with code := m.code.set i _ }) hMem
  simpa [returnedConstant] using hCode

/-- A `return` of a number, at no place. -/
def Stmt.retNumber (value : Literal) : Stmt := .ret (.point 0) (.number (.point 0) value)

/-- The code of a returned constant is the constant and a return. -/
theorem encode_returning (v : Int32) :
    Code.encode (returning v) = returnedConstant (Leb128.signed v.toInt) := by
  simp [Code.encode, returning, Code.ofInstrs, Item.encode, Instr.encode, Instr.i32Const,
    Instr.plain, Argument.encode, returnedConstant, Opcode.formatByte]

theorem Wasm.Code.encode_append (code code' : Code) :
    encode (code ++ code') = code.encode ++ code'.encode := List.flatMap_append

/-- A number that fits 32 bits without a sign has the type of 32 bits. -/
theorem Literal.check_int {v : Int64} (hLow : 0 ≤ v.toInt) (hHigh : v.toInt < 2 ^ 32) (s : Span) :
    (Literal.int v).check s = .ok .i32 := by
  rw [Literal.check, if_neg (by omega)]

/-- Numbers that fit in 32 bits can stand for each other where they are returned. -/
theorem Stmt.interchangeable_retNumber {v w : Int64} (hV : 0 ≤ v.toInt ∧ v.toInt < 2 ^ 32)
    (hW : 0 ≤ w.toInt ∧ w.toInt < 2 ^ 32) :
    Interchangeable (retNumber (.int v)) (retNumber (.int w)) (returning v.toInt32)
      (returning w.toInt32) where
  check_eq ctx locals := by
    simp only [retNumber, Stmt.check, Expr.check, Literal.check_int hV.1 hV.2,
      Literal.check_int hW.1 hW.2, Expr.span]
  checkTop_eq _ := rfl
  isRet_eq := rfl
  lower_old _ := rfl
  lower_new _ := rfl

/-- The tokens of a program with `n` statements. -/
def ParsesAs (row : List Lexeme) (n : Nat) : Prop :=
  ∃ tokens p, tokens.map Token.lexeme = row ∧ Program.ofTokens tokens = .ok p ∧ p.length = n

/-- A `return` of a number between other tokens is in function number `i`, and `k` others come
before it there: the tokens before it are those of `i` functions and the first of another, which
goes on with the `return` and ends after it. -/
def ReturnsIn (before : List Lexeme) (text : String) (after : List Lexeme) (i k : Nat) : Prop :=
  ∃ earlier inside rest later, before = earlier ++ inside ∧ after = rest ++ later ∧
    ParsesAs earlier i ∧
    ParsesAs (inside ++ (.kwReturn, "return") :: (.number, text) :: (.semicolon, ";") :: rest) 1 ∧
    (inside.map Prod.fst).count .kwReturn = k

namespace Program

variable {p : Program} {tokens : List Token} {before after : List Lexeme} {text : String}

/-- The whole numbers of a program that keeps the rules have at most 32 bits. -/
theorem lt_of_check {symbols : Symbols} (hCheck : p.check = .ok symbols) {i : Nat} {stmt : Stmt}
    (hAt : p[i]? = some stmt) {s : Span} {v : Int64} (hMem : Expr.number s (.int v) ∈ stmt.exprs) :
    v.toInt < 2 ^ 32 := by
  obtain ⟨f, hF, -⟩ := check_getElem? hCheck hAt
  obtain ⟨t, hType⟩ := hasType_of_mem_exprs hCheck hAt hF hMem
  cases hType with
  | number hLit =>
      cases hLit with
      | int _ hHigh => omega

/-- The tokens of a `return` of a number, and what is before and after them. -/
theorem exists_tokens_of_lexemes (h : tokens.map Token.lexeme =
      before ++ (.kwReturn, "return") :: (.number, text) :: (.semicolon, ";") :: after) :
    ∃ front word number semicolon back, tokens = front ++ word :: number :: semicolon :: back ∧
      front.map Token.lexeme = before ∧ word.lexeme = (.kwReturn, "return") ∧
      number.lexeme = (.number, text) ∧ semicolon.lexeme = (.semicolon, ";") ∧
      back.map Token.lexeme = after := by
  obtain ⟨front, rest, rfl, hFront, hRest⟩ := List.map_eq_append_iff.1 h
  obtain ⟨word, rest, rfl, hWord, hRest⟩ := List.map_eq_cons_iff.1 hRest
  obtain ⟨number, rest, rfl, hNumber, hRest⟩ := List.map_eq_cons_iff.1 hRest
  obtain ⟨semicolon, back, rfl, hEnd, hBack⟩ := List.map_eq_cons_iff.1 hRest
  exact ⟨front, word, number, semicolon, back, rfl, hFront, hWord, hNumber, hEnd, hBack⟩

/-- Tokens that derive a program are parsed as one, wherever they stand. -/
theorem parsesAs_of_derives {u : List Token} {q : Program} (h : Grammar.DerivesAll u q) :
    ParsesAs (u.map Token.lexeme) q.length := by
  obtain ⟨p, hParse, rfl⟩ := exists_ofTokens_of_derives h
  exact ⟨u, p, rfl, hParse, by simp [eraseSpans, Stmt.eraseAllSpans_eq_map]⟩

/-- The keywords of return statements are counted among the lexemes as among the tokens. -/
theorem count_kwReturn (u : List Token) :
    ((u.map Token.lexeme).map Prod.fst).count .kwReturn = Grammar.returnWords u := by
  rw [List.count, List.countP_map, List.countP_map]
  rfl

/-- A number that is returned stands in one function and can be read, and a program with another
number there is the same otherwise. -/
theorem exists_replaces (hParse : ofTokens tokens = .ok p) (hEof : ∀ t ∈ tokens, t.kind ≠ .eof)
    (hReturn : tokens.map Token.lexeme =
      before ++ (.kwReturn, "return") :: (.number, text) :: (.semicolon, ";") :: after) :
    ∃ i k stmt value, ReturnsIn before text after i k ∧ p.eraseSpans[i]? = some stmt ∧
      Literal.read? text.toList = some value ∧
      ∀ tokens' text' value', tokens'.map Token.lexeme =
          before ++ (.kwReturn, "return") :: (.number, text') :: (.semicolon, ";") :: after →
        Literal.read? text'.toList = some value' →
        ∃ p' stmt', ofTokens tokens' = .ok p' ∧ p'.eraseSpans = p.eraseSpans.set i stmt' ∧
          Stmt.Replaces (Stmt.retNumber value) (Stmt.retNumber value') k stmt stmt' := by
  have hDerives := derives_of_ofTokens hEof hParse
  obtain ⟨front, word, number, semicolon, back, rfl, hFront, hWord, hNumber, hEnd, hBack⟩ :=
    exists_tokens_of_lexemes hReturn
  have hWordKind : word.kind = .kwReturn := congrArg Prod.fst hWord
  have hEndKind : semicolon.kind = .semicolon := congrArg Prod.fst hEnd
  obtain ⟨i, takes, stmt, earlier, inside, _, later, rfl, hRest, hEarlier, hAt, hStmt, hLater⟩ :=
    hDerives.exists_cut rfl
  obtain ⟨rest, rfl, rfl⟩ := hStmt.exists_rest hWordKind hEndKind hRest
  obtain ⟨value, hValue, hOther⟩ :=
    hStmt.replaces_number hWordKind (congrArg Prod.fst hNumber) hEndKind
  rw [show number.text = text from congrArg Prod.snd hNumber] at hValue
  have hLength : (p.eraseSpans.take i).length = i := by
    rw [List.length_take, Nat.min_eq_left (List.getElem?_eq_some_iff.1 hAt).1.le]
  refine ⟨i, Grammar.returnWords inside, stmt, value, ⟨earlier.map Token.lexeme,
    inside.map Token.lexeme, rest.map Token.lexeme, later.map Token.lexeme, ?_, ?_, ?_, ?_,
    count_kwReturn inside⟩, hAt, hValue, fun tokens' text' value' hReturn' hValue' => ?_⟩
  · rw [← hFront, List.map_append]
  · rw [← hBack, List.map_append]
  · exact hLength ▸ parsesAs_of_derives hEarlier
  · have hOne := parsesAs_of_derives (.cons hStmt .nil)
    simpa [hWord, hNumber, hEnd] using hOne
  · let other : Token := ⟨.number, text', .point 0⟩
    obtain ⟨stmt', hStmt', hReplaces⟩ := hOther other value' rfl hValue'
    obtain ⟨r, hR, hErased⟩ :=
      exists_ofTokens_of_derives (hEarlier.append (.cons hStmt' hLater))
    have hLexemes : (earlier ++ (inside ++ word :: other :: semicolon :: rest ++ later)).map
        Token.lexeme = tokens'.map Token.lexeme := by
      rw [hReturn', ← hFront, ← hBack]
      simp [hWord, hEnd]
      rfl
    obtain ⟨p', hP', hErase⟩ := exists_ok_of_observe (ofTokens_alike hLexemes) hR
    refine ⟨p', stmt', hP', ?_, hReplaces⟩
    rw [← hErase, hErased, List.set_eq_take_append_cons_drop,
      if_pos (List.getElem?_eq_some_iff.1 hAt).1]

/-- The module of a program does not depend on its spans. -/
theorem toModule_eraseSpans {m : Module} (p : Program) :
    p.eraseSpans.toModule = .ok m ↔ p.toModule = .ok m := by
  constructor
  · intro h
    obtain ⟨_, hModule, rfl⟩ := exists_ok_of_observe (toModule_alike p.eraseSpans_eraseSpans) h
    exact hModule
  · intro h
    obtain ⟨_, hModule, rfl⟩ :=
      exists_ok_of_observe (toModule_alike p.eraseSpans_eraseSpans.symm) h
    exact hModule

/-- The places of a program do not matter for the code of its functions. -/
theorem HasCode.of_eraseSpans {i : Nat} {code : Code} (h : p.eraseSpans.HasCode i code) :
    p.HasCode i code := by
  obtain ⟨erased, _, type, name, _, _, hErased, hStmt, g, locals, hG, hLocals, hCode⟩ := h
  obtain ⟨symbols, hCheck, hTables⟩ :=
    exists_ok_of_observe (check_alike p.eraseSpans_eraseSpans) hErased
  rw [eraseSpans, Stmt.eraseAllSpans_eq_map, List.getElem?_map, Option.map_eq_some_iff] at hStmt
  obtain ⟨stmt, hAt, hStmt⟩ := hStmt
  cases stmt with
  | function s _ _ params body =>
      cases hStmt
      have hAgree := Symbols.agree_signatures hTables.symm
      rcases hAgree.get?_cases name with ⟨-, hNone⟩ | ⟨f, g', hF, hG', -, hRet⟩
      · cases hNone.symm.trans hG
      · obtain rfl := Option.some.inj (hG'.symm.trans hG)
        obtain ⟨_, hLowered, rfl⟩ := exists_ok_of_observe
          (Function.lowerCode_eraseSpans hAgree locals g'.ret body).symm hCode
        exact ⟨symbols, s, type, name, params, body, hCheck, hAt, f, locals, hF,
          (Symbols.locals?_eq hTables.symm name).trans hLocals, by rwa [hRet]⟩
  | var | branch | loop | ret | raw | eval => cases hStmt

/-- The constant of a `return` is all that changes with the number that is returned. -/
theorem exists_returnsInstead {p' : Program} {m : Module} {i k : Nat} {stmt stmt' : Stmt}
    {x : Int64} (hParse : ofTokens tokens = .ok p) (hModule : p.toModule = .ok m)
    (hAt : p.eraseSpans[i]? = some stmt) (hSet : p'.eraseSpans = p.eraseSpans.set i stmt')
    (hReplaces : Stmt.Replaces (Stmt.retNumber (.int 0)) (Stmt.retNumber (.int x)) k stmt stmt')
    (hX : 0 ≤ x.toInt ∧ x.toInt < 2 ^ 32) :
    ∃ front back m', front.returns = k ∧ p.HasCode i (front ++ returning 0 ++ back) ∧
      p'.HasCode i (front ++ returning x.toInt32 ++ back) ∧ p'.toModule = .ok m' ∧
      m.ReturnsInstead i front.encode (Leb128.signed x.toInt32.toInt) back.encode m' := by
  have hSame := @Stmt.interchangeable_retNumber 0 x (by decide) hX
  have hShape : Stmt.isShapedAll p.eraseSpans = true :=
    (Stmt.isShapedAll_eraseAllSpans p).trans (isShapedAll_of_ofTokens hParse)
  obtain ⟨locals, _, _, ⟨front, back, hFront, rfl, rfl⟩, hCode, hCode', hBody, hModule'⟩ :=
    toModule_of_replaces hSame hAt hReplaces
      (Stmt.isShapedAll_iff.1 hShape stmt (List.mem_of_getElem? hAt))
      ((toModule_eraseSpans p).2 hModule)
  rw [← hSet] at hCode' hModule'
  refine ⟨front, back, _, hFront, hCode.of_eraseSpans, hCode'.of_eraseSpans,
    (toModule_eraseSpans p').1 hModule', locals, ?_, ?_⟩
  · have hZero : (Int64.toInt32 0).toInt = 0 := by decide
    rw [hBody, Code.encode_append, Code.encode_append, encode_returning, hZero,
      Leb128.signed_zero]
  · rw [Code.encode_append, Code.encode_append, encode_returning]

/-- A program is refused if it has a number with more than 32 bits. -/
theorem toModule_error_of_large {i : Nat} {stmt : Stmt} {v : Int64}
    (hAt : p.eraseSpans[i]? = some stmt)
    (hMem : Expr.number (.point 0) (.int v) ∈ stmt.exprs) (hV : 2 ^ 32 ≤ v.toInt) :
    ∃ d, p.toModule = .error d ∧ d.category = .semantic := by
  cases hCheck : p.check with
  | ok symbols =>
      obtain ⟨_, hErased, -⟩ :=
        exists_ok_of_observe (check_alike p.eraseSpans_eraseSpans.symm) hCheck
      exact absurd (lt_of_check hErased hAt hMem) (by omega)
  | error e =>
      refine ⟨TypeError.report e, ?_, rfl⟩
      rw [toModule, hCheck]
      rfl

/-- The numbers of a compiled module fit if the module does. -/
theorem fits_of_toModule {m : Module} (h : p.toModule = .ok m)
    (hLength : m.encode.length < 2 ^ 32) : m.Fits := by
  simp only [toModule, bind_eq_ok, mapError_eq_ok] at h
  obtain ⟨symbols, -, hLower⟩ := h
  obtain ⟨hTypes, -, hFuncs, hMemory, hExports⟩ := lower_eq_ok hLower
  have hSection (s : Section) (hS : s ∈ m.sections) : s.contents.length < 2 ^ 32 :=
    (Module.length_contents_lt hS).trans hLength
  have hCount : m.types.length < 2 ^ 32 :=
    (length_le_vector (by simp [FuncType.encode])).trans_lt (hSection _ List.mem_cons_self)
  refine ⟨fun n hN => ?_, ?_, fun e hE => ?_, hSection⟩
  · rw [hFuncs, List.mem_range] at hN
    exact hN.trans hCount
  · rw [hMemory]
    exact ⟨by decide, by decide⟩
  · rw [hExports, List.mem_append, List.mem_mapIdx, List.mem_singleton] at hE
    rcases hE with ⟨i, hI, rfl⟩ | rfl
    · rw [hTypes.length_eq] at hI
      exact hI.trans hCount
    · decide

end Program

section Sources

variable {dumps : Dumps} {source : String} {tokens : List Token}

/-- A text is compiled exactly if its tokens are a program that has a module, and to the bytes of
that. -/
theorem compileText_eq_ok (hDumps : dumps.text = false)
    (hTokens : Token.ofText source = .ok tokens) {bytes : Bytes} :
    (compileText dumps source).result = .ok bytes ↔
      ∃ p m, Program.ofTokens tokens = .ok p ∧ p.toModule = .ok m ∧ m.encode = bytes := by
  simp [result_compileText hTokens, Program.result_compile, bind_eq_ok, mapError_eq_ok,
    Module.compile, hDumps]

/-- A program without a module fails with the error of the program. -/
theorem compileText_error_of_toModule {p : Program} {d : Diagnostic}
    (hTokens : Token.ofText source = .ok tokens) (hParse : Program.ofTokens tokens = .ok p)
    (hModule : p.toModule = .error d) : (compileText dumps source).result = .error d := by
  rw [result_compileText hTokens, hParse]
  change (p.compile dumps).result = _
  rw [Program.result_compile, hModule]
  rfl

/-- The tokens of a source are those of a `return` of a number, with others before and after. -/
def Returns (source : String) (before : List Lexeme) (text : String) (after : List Lexeme) :
    Prop :=
  ∃ tokens, Token.ofText source = .ok tokens ∧ tokens.map Token.lexeme =
    before ++ (.kwReturn, "return") :: (.number, text) :: (.semicolon, ";") :: after

/-- What is no literal breaks the grammar where it is returned. -/
theorem Returns.compileText_error {before after : List Lexeme} {text : String}
    (h : Returns source before text after) (hText : Literal.read? text.toList = none) :
    ∃ d, (compileText dumps source).result = .error d ∧ d.category = .grammatical := by
  obtain ⟨tokens, hTokens, hReturn⟩ := h
  cases hParse : Program.ofTokens tokens with
  | ok p =>
      obtain ⟨_, _, _, _, -, -, hRead, -⟩ :=
        Program.exists_replaces hParse (Lexical.kind_ne_of_ofText hTokens) hReturn
      cases hText.symm.trans hRead
  | error e =>
      refine ⟨GrammarError.report e, ?_, rfl⟩
      rw [result_compileText hTokens, hParse]
      rfl

/-- A source is compiled to a module in which function number `i` has the given code. -/
def HasFunction (source : String) (m : Wasm.Module) (i : Nat) (code : Code) : Prop :=
  ∃ tokens p, Token.ofText source = .ok tokens ∧ Program.ofTokens tokens = .ok p ∧
    p.toModule = .ok m ∧ p.HasCode i code

end Sources

/-- A whole number where a program could return zero. With up to 32 bits it is the constant of that
`return`, modulo 2³² and with its sign: the function that the `return` is in has the constant after
as many returns as the tokens have before it, among the bytes of the module, from which the module
can be read back. Its bytes are those of the constant written out as an instruction. With up to 63
bits the rules refuse it, with more the grammar; written out as an instruction it has no code in
both cases. -/
theorem returned_number_reaches_code {dumps : Dumps} (hDumps : dumps.text = false)
    {source source' : String} {before after : List Lexeme} {text : List Char} {n : Nat}
    {bytes : Bytes} (hZero : Returns source before "0" after)
    (hCompiles : (compileText dumps source).result = .ok bytes)
    (hNumber : Returns source' before (String.ofList text) after)
    (hText : Lexical.IsWhole text n) :
    (n < 2 ^ 32 → ∃ (i : Nat) (m m' : Wasm.Module) (front back : Code) (bytes' immediate : Bytes)
        (v : Int32),
      ReturnsIn before "0" after i front.returns ∧
      HasFunction source m i (front ++ returning 0 ++ back) ∧
      HasFunction source' m' i (front ++ returning v ++ back) ∧
      m.ReturnsInstead i front.encode immediate back.encode m' ∧
      bytes = m.encode ∧ (compileText dumps source').result = .ok bytes' ∧ bytes' = m'.encode ∧
      front.encode ++ 0x41 :: immediate ++ 0x0F :: back.encode <:+: bytes' ∧
      (bytes'.length < 2 ^ 32 → Module.ofBytes? bytes' = some m') ∧
      WrapsTo n v.toInt ∧ (∀ w, WrapsTo n w → w = v.toInt) ∧
      (∀ rest, Leb128.readSigned? 32 (immediate ++ rest) = some (v.toInt, rest)) ∧
      ∃ r : RawInstr, r.encode = 0x41 :: immediate ∧
        ∀ s scope, (Stmt.raw s (constantText n)).lower scope = .ok [.raw r]) ∧
    (2 ^ 32 ≤ n → n < 2 ^ 63 →
      ∃ d, (compileText dumps source').result = .error d ∧ d.category = .semantic) ∧
    (2 ^ 63 ≤ n →
      ∃ d, (compileText dumps source').result = .error d ∧ d.category = .grammatical) ∧
    (2 ^ 32 ≤ n → ∀ s scope, ∃ e, (Stmt.raw s (constantText n)).lower scope = .error e ∧
      (EmitError.report e).category = .emission) := by
  obtain ⟨tokens, hTokens, hReturn⟩ := hZero
  obtain ⟨p, m, hParse, hModule, rfl⟩ := (compileText_eq_ok hDumps hTokens).1 hCompiles
  obtain ⟨i, k, stmt, value, hPlace, hAt, hValue, hOther⟩ :=
    Program.exists_replaces hParse (Lexical.kind_ne_of_ofText hTokens) hReturn
  obtain rfl : value = .int 0 := by
    have hZero : Literal.read? "0".toList = some (.int 0) := by decide +kernel
    exact Option.some.inj (hValue.symm.trans hZero)
  -- as long as the number can be read, there is a tree that differs from the first in it only
  have hTree (hN : n < 2 ^ 63) : ∃ tokens' x p' stmt', Token.ofText source' = .ok tokens' ∧
      Int64.toInt x = n ∧ Program.ofTokens tokens' = .ok p' ∧
      p'.eraseSpans = p.eraseSpans.set i stmt' ∧
      Stmt.Replaces (Stmt.retNumber (.int 0)) (Stmt.retNumber (.int x)) k stmt stmt' := by
    obtain ⟨tokens', hTokens', hReturn'⟩ := hNumber
    obtain ⟨x, hRead, hX⟩ := hText.exists_read? hN
    obtain ⟨p', stmt', hParse', hSet, hReplaces⟩ :=
      hOther tokens' _ (.int x) hReturn' (by rwa [String.toList_ofList])
    exact ⟨tokens', x, p', stmt', hTokens', hX, hParse', hSet, hReplaces⟩
  refine ⟨fun hN => ?_, fun hLow hHigh => ?_, fun hN => ?_, fun hN s scope =>
    Stmt.lower_raw_constantText_large hN s scope⟩
  · obtain ⟨tokens', x, p', stmt', hTokens', hX, hParse', hSet, hReplaces⟩ := hTree (by omega)
    obtain ⟨front, back, m', rfl, hCode, hCode', hModule', hInstead⟩ :=
      Program.exists_returnsInstead hParse hModule hAt hSet hReplaces ⟨by omega, by omega⟩
    have hWraps : WrapsTo n x.toInt32.toInt := hX ▸ wrapsTo_toInt32 x
    exact ⟨i, m, m', front, back, m'.encode, _, x.toInt32, hPlace,
      ⟨tokens, p, hTokens, hParse, hModule, hCode⟩,
      ⟨tokens', p', hTokens', hParse', hModule', hCode'⟩, hInstead, rfl,
      (compileText_eq_ok hDumps hTokens').2 ⟨p', m', hParse', hModule', rfl⟩, rfl,
      hInstead.infix_encode,
      fun hLength => Module.ofBytes?_of_fits (Program.fits_of_toModule hModule' hLength),
      hWraps, fun w hW => hW.unique hWraps,
      @Leb128.readSigned?_signed 32 _ hWraps.low hWraps.high,
      Stmt.lower_raw_constantText hN hWraps⟩
  · obtain ⟨tokens', x, p', stmt', hTokens', hX, hParse', hSet, hReplaces⟩ := hTree hHigh
    have hAt' : p'.eraseSpans[i]? = some stmt' := by
      rw [hSet, List.getElem?_set_self (List.getElem?_eq_some_iff.1 hAt).1]
    have hMem : Expr.number (.point 0) (.int x) ∈ stmt'.exprs :=
      hReplaces.mem_exprs List.mem_cons_self
    obtain ⟨d, hError, hCategory⟩ := Program.toModule_error_of_large hAt' hMem (by omega)
    exact ⟨d, compileText_error_of_toModule hTokens' hParse' hError, hCategory⟩
  · exact hNumber.compileText_error (by rw [String.toList_ofList, hText.read?_eq_none hN])

/-- The program `i32 f() { return 0; }`. -/
def zeroText : String := "i32 f() \x7b return 0; \x7d"

/-- The same with all 32 bits set in what is returned. -/
def onesText : String := "i32 f() \x7b return 0xFFFFFFFF; \x7d"

/-- The tokens of such a program, with a number that ends at `stop`. -/
def returnTokens (text : String) (stop : Nat) : List Token :=
  [⟨.type, "i32", ⟨0, 3⟩⟩, ⟨.ident, "f", ⟨4, 5⟩⟩, ⟨.lparen, "(", ⟨5, 6⟩⟩, ⟨.rparen, ")", ⟨6, 7⟩⟩,
    ⟨.lbrace, "\x7b", ⟨8, 9⟩⟩, ⟨.kwReturn, "return", ⟨10, 16⟩⟩, ⟨.number, text, ⟨17, stop⟩⟩,
    ⟨.semicolon, ";", ⟨stop, stop + 1⟩⟩, ⟨.rbrace, "\x7d", ⟨stop + 2, stop + 3⟩⟩]

def zeroProgram : Program :=
  [.function ⟨0, 21⟩ "i32" "f" [] [.ret ⟨10, 19⟩ (.number ⟨17, 18⟩ (.int 0))]]

def zeroModule : Wasm.Module :=
  ⟨[⟨[], [.i32]⟩], [0], compiledMemory, [⟨"f", .func, 0⟩, ⟨memoryExport, .memory, 0⟩],
    [⟨[], returnedConstant [0]⟩]⟩

/-- The largest number with 32 bits is the constant minus one. -/
theorem returned_number_reaches_code_ones :
    ∃ (i : Nat) (m' : Wasm.Module) (front back : Code) (immediate bytes' : Bytes),
      ReturnsIn (((returnTokens "0" 18).take 5).map Token.lexeme) "0" [(.rbrace, "\x7d")] i
        front.returns ∧
      HasFunction zeroText zeroModule i (front ++ returning 0 ++ back) ∧
      HasFunction onesText m' i (front ++ returning (-1) ++ back) ∧
      (compileText ⟨false, false, false⟩ onesText).result = .ok bytes' ∧
      front.encode ++ 0x41 :: immediate ++ 0x0F :: back.encode <:+: bytes' ∧
      Leb128.readSigned? 32 immediate = some (-1, []) := by
  let front := ((returnTokens "0" 18).take 5).map Token.lexeme
  have hTokens : Token.ofText zeroText = .ok (returnTokens "0" 18) := by
    rw [Token.ofText_eq]
    decide +kernel
  have hTokens' : Token.ofText onesText = .ok (returnTokens "0xFFFFFFFF" 27) := by
    rw [Token.ofText_eq]
    decide +kernel
  have hZero : Returns zeroText front "0" [(.rbrace, "\x7d")] := ⟨_, hTokens, rfl⟩
  have hOnes : Returns onesText front (String.ofList ('0' :: 'x' :: List.replicate 8 'F'))
      [(.rbrace, "\x7d")] := ⟨_, hTokens', by decide +kernel⟩
  have hText : Lexical.IsWhole ('0' :: 'x' :: List.replicate 8 'F') (2 ^ 32 - 1) := by
    have hValue : Lexical.value 16 (List.replicate 8 'F') = 2 ^ 32 - 1 := by
      simp [Lexical.value, Lexical.digit, Nat.ofDigits_cons]
    rw [← hValue]
    exact .hex (.inl rfl) ⟨by simp, by simp [Lexical.IsHexDigit, Lexical.IsDigit]⟩
  have hParse : Program.ofTokens (returnTokens "0" 18) = .ok zeroProgram := by cbv
  have hModule : zeroProgram.toModule = .ok zeroModule := by cbv
  have hCompiles : (compileText ⟨false, false, false⟩ zeroText).result = .ok zeroModule.encode :=
    (compileText_eq_ok rfl hTokens).2 ⟨zeroProgram, zeroModule, hParse, hModule, rfl⟩
  have hSmall : 2 ^ 32 - 1 < 2 ^ 32 := by decide
  obtain ⟨i, m, m', front, back, bytes', immediate, v, hPlace, hOld, hNew, -, -, hResult, -, hInfix,
    -, -, hUnique, hRead, -⟩ :=
      (returned_number_reaches_code rfl hZero hCompiles hOnes hText).1 hSmall
  have hMinusOne : (-1 : Int32).toInt = -1 := by decide
  have hV : v = -1 := Int32.toInt_inj.1
    ((hUnique (-1) ⟨by decide, by decide, by decide⟩).symm.trans hMinusOne.symm)
  subst hV
  obtain rfl : m = zeroModule := by
    obtain ⟨_, _, hT, hP, hM, -⟩ := hOld
    cases hT.symm.trans hTokens
    cases hP.symm.trans hParse
    exact Except.ok.inj (hM.symm.trans hModule)
  exact ⟨i, m', front, back, immediate, bytes', hPlace, hOld, hNew, hResult, hInfix,
    by simpa using hRead []⟩

end Returned

end WasmCompiler
