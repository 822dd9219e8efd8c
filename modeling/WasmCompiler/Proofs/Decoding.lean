import WasmCompiler.Proofs.Emission
import WasmCompiler.Proofs.Machine

/-! The bytes of compiled code can be read back: what a program is lowered to is what the machine
runs. -/

namespace WasmCompiler

open Wasm

namespace Wasm.Leb128

theorem toNat_toUInt8 {n : Nat} (hN : n < 256) : n.toUInt8.toNat = n := by
  simpa using hN

/-- An integer that fits is read back from its variable-length bytes. -/
theorem readUnsigned?_unsigned {bits n : Nat} (hN : n < 2 ^ bits) (rest : Bytes) :
    readUnsigned? bits (unsigned n ++ rest) = some (n, rest) := by
  fun_induction unsigned n generalizing bits with
  | case1 n hSmall =>
      have hByte := toNat_toUInt8 (show n < 256 by omega)
      simpa [readUnsigned?, hByte, hSmall] using fun _ => hN
  | case2 n hLarge ih =>
      have hByte := toNat_toUInt8 (show n % 128 + 128 < 256 by omega)
      have hBits : 7 < bits := by
        by_contra hFew
        have : 2 ^ bits ≤ 2 ^ 7 := Nat.pow_le_pow_right (by omega) (by omega)
        omega
      have hRest : n / 128 < 2 ^ (bits - 7) := by
        obtain ⟨more, rfl⟩ := Nat.exists_eq_add_of_lt hBits
        rw [show 7 + more + 1 = 7 + (more + 1) by omega, pow_add] at hN
        rw [show 7 + more + 1 - 7 = more + 1 by omega]
        omega
      rw [List.cons_append, readUnsigned?, if_neg (by omega), hByte, if_neg (by omega), ih hRest]
      simp only [Option.map_some, Option.some.injEq, Prod.mk.injEq, and_true]
      omega

/-- A number fits in seven bits for each of its bytes. -/
theorem lt_two_pow_length_unsigned (n : Nat) : n < 2 ^ (7 * (unsigned n).length) := by
  fun_induction unsigned n with
  | case1 n hSmall => simpa using hSmall
  | case2 n hLarge ih =>
      rw [List.length_cons, Nat.mul_add, pow_add]
      omega

/-- So is a signed one. -/
theorem readSigned?_signed {bits : Nat} {n : Int} (hLow : -2 ^ (bits - 1) ≤ n)
    (hHigh : n < 2 ^ (bits - 1)) (rest : Bytes) :
    readSigned? bits (signed n ++ rest) = some (n, rest) := by
  fun_induction signed n generalizing bits with
  | case1 n hSmall =>
      have hByte := toNat_toUInt8 (show (n % 128).toNat < 256 by omega)
      have hGroup : lastGroup (n % 128).toNat.toUInt8 = n := by
        rw [lastGroup, hByte]
        split <;> omega
      have hPow : ((Nat.pow 2 (bits - 1) : Nat) : Int) = 2 ^ (bits - 1) := by simp
      have hLast : (n % 128).toNat < 128 ∧ -2 ^ (bits - 1) ≤ n ∧ n < 2 ^ (bits - 1) :=
        ⟨by omega, hLow, hHigh⟩
      simp only [List.cons_append, List.nil_append, readSigned?, hGroup, hByte, hPow,
        if_pos hLast, if_pos hLast.1, ite_self]
  | case2 n hLarge ih =>
      have hByte := toNat_toUInt8 (show (n % 128).toNat + 128 < 256 by omega)
      have hBits : 7 < bits := by
        by_contra hFew
        have : (2 : Int) ^ (bits - 1) ≤ 2 ^ 6 := pow_le_pow_right₀ (by omega) (by omega)
        omega
      obtain ⟨more, rfl⟩ := Nat.exists_eq_add_of_lt hBits
      have hSplit : (2 : Int) ^ (7 + more + 1 - 1) = 128 * 2 ^ more := by
        rw [show 7 + more + 1 - 1 = 7 + more by omega, pow_add]
        rfl
      have hMore : 7 + more + 1 - 7 - 1 = more := by omega
      rw [hSplit] at hLow hHigh
      have hRest := @ih (7 + more + 1 - 7) (by rw [hMore]; omega) (by rw [hMore]; omega)
      rw [List.cons_append, readSigned?, if_neg (by omega), hByte, if_neg (by omega), hRest]
      simp only [Option.map_some, Option.some.injEq, Prod.mk.injEq, and_true]
      omega

end Wasm.Leb128

/-- A number is read back from its bytes of fixed count. -/
theorem Wasm.readLittleEndian?_littleEndian {count n : Nat} (hN : n < 256 ^ count)
    (rest : Bytes) : readLittleEndian? count (littleEndian count n ++ rest) = some (n, rest) := by
  induction count generalizing n with
  | zero =>
      have : n = 0 := by simpa using hN
      simp [this, littleEndian, readLittleEndian?]
  | succ count ih =>
      have hByte := Leb128.toNat_toUInt8 (show n % 256 < 256 by omega)
      rw [pow_succ] at hN
      rw [littleEndian, List.cons_append, readLittleEndian?, ih (show n / 256 < _ by omega), hByte]
      simp only [Option.map_some, Option.some.injEq, Prod.mk.injEq, and_true]
      omega

/-- An instruction is found again by its byte, so no two share one. -/
theorem Wasm.Opcode.ofByte?_byte (op : Opcode) : ofByte? op.byte = some op := by
  cases op <;> decide +kernel

/-- What is written for an instruction is the byte by which it is read. -/
theorem Wasm.Opcode.formatByte_eq_byte (op : Opcode) : op.formatByte = op.byte := by
  cases op <;> rfl

theorem Wasm.Opcode.ofByte?_formatByte (op : Opcode) : ofByte? op.formatByte = some op := by
  rw [formatByte_eq_byte, ofByte?_byte]

namespace Wasm.Instr

/-- The operands of an instruction have the shape that its opcode asks for, and its constant is
in range. -/
def Encodable (i : Instr) : Prop :=
  match i.op.immediate, i.arg with
  | .none, .none => True
  | .blockType, .block none => True
  | .index, .index _ => True
  | .int, .int v =>
    if i.op = .i32Const then -2 ^ 31 ≤ v ∧ v < 2 ^ 31 else -2 ^ 63 ≤ v ∧ v < 2 ^ 63
  | .f32, .f32 _ => True
  | .f64, .f64 _ => True
  | _, _ => False

/-- The operands of an instruction are read back from their bytes. -/
theorem Encodable.readWide?_arg {i : Instr} (h : i.Encodable) (rest : Bytes) :
    Argument.readWide? i.op (i.arg.encode ++ rest) = some (i.arg, rest) := by
  revert h
  fun_cases Encodable i with
  | case1 hArg hOp => simp [hArg, Argument.readWide?, hOp, Argument.read?, Argument.encode]
  | case2 hArg hOp =>
      simp [hArg, Argument.readWide?, hOp, Argument.read?, Argument.encode, emptyBlock]
  | case3 n hArg hOp =>
      intro
      have hBits : n < 2 ^ (7 * (Leb128.unsigned n ++ rest).length) :=
        (Leb128.lt_two_pow_length_unsigned n).trans_le
          (Nat.pow_le_pow_right (by omega) (by rw [List.length_append]; omega))
      rw [hArg, Argument.readWide?, if_pos hOp, Argument.encode,
        Leb128.readUnsigned?_unsigned hBits]
      rfl
  | case4 v hArg hOp hConst =>
      rintro ⟨hLow, hHigh⟩
      simp only [hArg, Argument.readWide?, hOp, Argument.read?, Argument.encode, reduceCtorEq,
        if_false]
      rw [if_pos hConst, @Leb128.readSigned?_signed 32 v hLow hHigh]
      rfl
  | case5 v hArg hOp hConst =>
      rintro ⟨hLow, hHigh⟩
      simp only [hArg, Argument.readWide?, hOp, Argument.read?, Argument.encode, reduceCtorEq,
        if_false]
      rw [if_neg hConst, @Leb128.readSigned?_signed 64 v hLow hHigh]
      rfl
  | case6 v hArg hOp =>
      have hBits : v.bits.toNat < 256 ^ 4 := v.bits.toNat_lt
      simp [hArg, Argument.readWide?, hOp, Argument.read?, Argument.encode,
        readLittleEndian?_littleEndian hBits]
  | case7 v hArg hOp =>
      have hBits : v.bits.toNat < 256 ^ 8 := v.bits.toNat_lt
      simp [hArg, Argument.readWide?, hOp, Argument.read?, Argument.encode,
        readLittleEndian?_littleEndian hBits]
  | case8 => exact False.elim

/-- An instruction is read back from its bytes. -/
theorem Encodable.readWide?_encode {i : Instr} (h : i.Encodable) (rest : Bytes) :
    readWide? (i.encode ++ rest) = some (i, rest) := by
  simp [readWide?, encode, Opcode.ofByte?_formatByte, h.readWide?_arg]

end Wasm.Instr

/-- All of some instructions can be encoded. -/
def Wasm.AllEncodable (is : List Instr) : Prop := ∀ i ∈ is, i.Encodable

@[simp] theorem Wasm.allEncodable_nil : AllEncodable [] := List.forall_mem_nil _

@[simp] theorem Wasm.allEncodable_cons {i : Instr} {is : List Instr} :
    AllEncodable (i :: is) ↔ i.Encodable ∧ AllEncodable is :=
  List.forall_mem_cons

@[simp] theorem Wasm.allEncodable_append {is js : List Instr} :
    AllEncodable (is ++ js) ↔ AllEncodable is ∧ AllEncodable js :=
  List.forall_mem_append

/-- An instruction is decoded before the ones that follow it. -/
theorem Wasm.decode?_encode_append {i : Instr} (h : i.Encodable) (rest : Bytes) :
    decode? (i.encode ++ rest) = (decode? rest).map fun is => i :: is := by
  have hRead := h.readWide?_encode rest
  generalize hBytes : i.encode ++ rest = bytes at hRead
  fun_cases decode? bytes with
  | case1 => cases hBytes
  | case2 byte tail hNone => cases hRead.symm.trans hNone
  | case3 byte tail j others hSome =>
      cases hRead.symm.trans hSome
      rfl

theorem Wasm.Code.encode_ofInstrs_append (is js : List Instr) :
    encode (ofInstrs (is ++ js)) = encode (ofInstrs is) ++ encode (ofInstrs js) := by
  rw [ofInstrs, List.map_append]
  exact List.flatMap_append

/-- Instructions are read back from their bytes. -/
theorem Wasm.decode?_encode {is : List Instr} (hIs : AllEncodable is) :
    decode? (Code.encode (Code.ofInstrs is)) = some is := by
  induction is with
  | nil => simp [Code.ofInstrs, Code.encode, decode?]
  | cons i is ih =>
      obtain ⟨hHead, hTail⟩ := allEncodable_cons.1 hIs
      have hBytes : Code.encode (Code.ofInstrs (i :: is)) =
          i.encode ++ Code.encode (Code.ofInstrs is) := rfl
      rw [hBytes, decode?_encode_append hHead, ih hTail]
      rfl

theorem Wasm.Instr.encodable_plain {op : Opcode} (h : op.immediate = .none) :
    (Instr.plain op).Encodable := by
  simp [Encodable, plain, h]

theorem Wasm.Instr.encodable_i32Const (v : Int32) : (Instr.i32Const v).Encodable :=
  ⟨v.le_toInt, v.toInt_lt⟩

/-- The constant that negation multiplies by can be encoded. -/
theorem Wasm.Instr.encodable_of_minusOne? {stored : ValType} {i : Instr}
    (h : minusOne? stored = some i) : i.Encodable := by
  cases stored <;> simp only [minusOne?, Option.some.injEq, reduceCtorEq] at h <;> subst h <;>
    simp [Encodable, Opcode.immediate]

section Emitted

variable {fs : List Callable} {Γ : Env} {r : Ty}

/-- The constant of a number can be encoded. -/
theorem Literal.encodable_lower (v : Literal) : v.lower.1.Encodable := by
  cases v with
  | int v => exact Instr.encodable_i32Const _
  | float v => trivial

mutual

/-- The code of an expression can be encoded, instruction by instruction. -/
theorem Expr.Emits.encodable : ∀ {e : Expr} {t : Ty} {is : List Instr},
    e.Emits fs Γ t is → AllEncodable is
  | _, _, _, .ident _ => by simp [Instr.localGet, Instr.Encodable, Opcode.immediate]
  | _, _, _, .number _ => by simp [Literal.encodable_lower]
  | _, _, _, .bool => by simp [Instr.encodable_i32Const]
  | _, _, _, .assign _ hValue => by
      simp [hValue.encodable, Instr.localSet, Instr.Encodable, Opcode.immediate]
  | _, _, _, .binary hLeft hRight _ hCode => by
      simp [hLeft.encodable, hRight.encodable,
        Instr.encodable_plain (BinaryOp.isOperator_of_opcode? hCode).immediate]
  | _, _, _, .plus hOperand _ => hOperand.encodable
  | _, _, _, .neg hOperand _ _ hOne hMul => by
      simp [hOperand.encodable, Instr.encodable_of_minusOne? hOne,
        Instr.encodable_plain (BinaryOp.isOperator_of_opcode? hMul).immediate]
  | _, _, _, .not hOperand => by
      simp [hOperand.encodable, Instr.encodable_i32Const, @Instr.encodable_plain .i32Xor rfl]
  | _, _, _, @Expr.Emits.cast _ _ _ _ _ _ source stored _ hOperand _ _ _ => by
      refine allEncodable_append.2 ⟨hOperand.encodable, ?_⟩
      cases hCode : conversion? source stored with
      | none => simp
      | some opcode => simp [Instr.encodable_plain (isOperator_of_conversion? hCode).immediate]
  | _, _, _, .call _ hArgs => by
      simp [hArgs.encodable, Instr.call, Instr.Encodable, Opcode.immediate]

theorem Expr.AllEmit.encodable : ∀ {es : List Expr} {ts : List Ty} {is : List Instr},
    AllEmit fs Γ es ts is → AllEncodable is
  | _, _, _, .nil => by simp
  | _, _, _, .cons hHead hTail => allEncodable_append.2 ⟨hHead.encodable, hTail.encodable⟩

end

theorem Wasm.Instr.encodable_ifOp : Instr.ifOp.Encodable := trivial

theorem Wasm.Instr.encodable_loop : Instr.loop.Encodable := trivial

theorem Wasm.Instr.encodable_br (depth : Nat) : (Instr.br depth).Encodable := trivial

mutual

/-- So can the code of a statement. -/
theorem Stmt.Emits.encodable : ∀ {s : Stmt} {is : List Instr},
    s.Emits fs Γ r is → AllEncodable is
  | _, _, .var => by simp
  | _, _, .varInit _ hInit => by
      simp [hInit.encodable, Instr.localSet, Instr.Encodable, Opcode.immediate]
  | _, _, .branch hChain => hChain.encodable
  | _, _, .loop hCond hBody => by
      simp [hCond.encodable, hBody.encodable, Instr.encodable_loop, Instr.encodable_ifOp,
        Instr.encodable_br, @Instr.encodable_plain .endOp rfl]
  | _, _, .ret hValue => by simp [hValue.encodable, @Instr.encodable_plain .ret rfl]
  | _, _, .eval hExpr _ => by simp [hExpr.encodable, @Instr.encodable_plain .drop rfl]
  | _, _, .evalVoid hExpr => hExpr.encodable

theorem Stmt.AllEmit.encodable : ∀ {ss : List Stmt} {is : List Instr},
    AllEmit fs Γ r ss is → AllEncodable is
  | _, _, .nil => by simp
  | _, _, .cons hHead hTail => allEncodable_append.2 ⟨hHead.encodable, hTail.encodable⟩

theorem Stmt.ChainEmits.encodable : ∀ {conds : List Expr} {blocks : List (List Stmt)}
    {is : List Instr}, ChainEmits fs Γ r conds blocks is → AllEncodable is
  | _, _, _, .last hCond hBlock => by
      simp [hCond.encodable, hBlock.encodable, Instr.encodable_ifOp,
        @Instr.encodable_plain .endOp rfl]
  | _, _, _, .orElse hCond hBlock hOther => by
      simp [hCond.encodable, hBlock.encodable, hOther.encodable, Instr.encodable_ifOp,
        @Instr.encodable_plain .endOp rfl, @Instr.encodable_plain .elseOp rfl]
  | _, _, _, .more hCond hBlock hMore => by
      simp [hCond.encodable, hBlock.encodable, hMore.encodable, Instr.encodable_ifOp,
        @Instr.encodable_plain .endOp rfl, @Instr.encodable_plain .elseOp rfl]

end

end Emitted

end WasmCompiler
