import WasmCompiler.Proofs.Emission
import WasmCompiler.Proofs.Machine
import WasmCompiler.Proofs.Meaning

/-! The instructions of operators, literals and casts compute what the language says. -/

namespace WasmCompiler

open Number Wasm

/-- How a value is stored. -/
def Value.encode : Value → Val
  | i32 v => .i32 v
  | i64 v => .i64 v
  | f32 v => .f32 v
  | f64 v => .f64 v
  | bool b => .i32 (ofBool b)

theorem truth_eq (b : Bool) : truth b = .i32 (Value.ofBool b) := rfl

section Words

variable {w : Nat} (a b : BitVec w)

/-- Adding words is adding integers and cutting the sum to the width. -/
theorem ofInt_toInt_add : BitVec.ofInt w (a.toInt + b.toInt) = a + b := by
  apply BitVec.eq_of_toInt_eq
  rw [BitVec.toInt_ofInt, BitVec.toInt_add]

theorem ofInt_toInt_sub : BitVec.ofInt w (a.toInt - b.toInt) = a - b := by
  apply BitVec.eq_of_toInt_eq
  rw [BitVec.toInt_ofInt, BitVec.toInt_sub]

theorem ofInt_toInt_mul : BitVec.ofInt w (a.toInt * b.toInt) = a * b := by
  apply BitVec.eq_of_toInt_eq
  rw [BitVec.toInt_ofInt, BitVec.toInt_mul]

theorem ofInt_toInt_tdiv : BitVec.ofInt w (a.toInt.tdiv b.toInt) = a.sdiv b := by
  apply BitVec.eq_of_toInt_eq
  rw [BitVec.toInt_ofInt, BitVec.toInt_sdiv]

theorem decide_toInt_eq : decide (a.toInt = b.toInt) = (a == b) := by
  rw [Bool.eq_iff_iff, decide_eq_true_iff, beq_iff_eq, BitVec.toInt_inj]

/-- Division of words traps where it does in the machine: by zero, and where the quotient does not
fit. -/
theorem onWords_div (hWidth : 1 < w) : BinaryOp.div.onWords a b = divS a b := by
  have hZero : b.toInt = 0 ↔ b = 0 := by
    rw [← BitVec.toInt_inj, BitVec.ofNat_eq_ofNat, BitVec.toInt_zero]
  have hMin : a.toInt = -2 ^ (w - 1) ↔ a = .intMin w := by
    rw [← BitVec.toInt_inj, BitVec.toInt_intMin_of_pos (by omega)]
  have hOne : b.toInt = -1 ↔ b = -1 := by
    rw [← BitVec.toInt_inj, BitVec.ofNat_eq_ofNat, BitVec.neg_one_eq_allOnes,
      BitVec.toInt_allOnes, if_pos (by omega)]
  simp only [BinaryOp.onWords, divS, hZero, hMin, hOne, ofInt_toInt_tdiv, ite_or]

end Words

/-- A run that gives a value of a type, and one that puts it before the operands. -/
abbrev Pushes (t : Ty) (s : List Val) : Run Value → Run (List Val) → Prop :=
  Run.Rel fun v stack => v.type = t ∧ stack = v.encode :: s

/-- A quotient and the trap in its place. -/
theorem pushes_div {w : Nat} (hWidth : 1 < w) (value : BitVec w → Value) (val : BitVec w → Val)
    {t : Ty} (hType : ∀ q, (value q).type = t) (hVal : ∀ q, (value q).encode = val q)
    (a b : BitVec w) (s : List Val) :
    Pushes t s (do return value (← BinaryOp.div.onWords a b))
      (do return val (← divS a b) :: s) := by
  rw [onWords_div a b hWidth]
  unfold divS
  split_ifs with hZero hMin
  · exact .trap
  · exact .trap
  · exact .done ⟨hType _, by rw [hVal]⟩

namespace BinaryOp

variable {op : BinaryOp} {r : Ty} {opcode : Opcode} {span : Span} (s : List Val)

/-- The instruction of an operator pushes what the operator gives, on words of 32 bits. -/
theorem pushes_i32 (hCode : op.opcode? .i32 = some opcode)
    (hCheck : op.check .i32 .i32 span = .ok r) (a b : BitVec 32) :
    Pushes r s (op.apply (.i32 a) (.i32 b)) (opcode.apply (.i32 b :: .i32 a :: s)) := by
  cases op <;> cases hCode <;> cases hCheck
  case div => exact pushes_div (by decide) Value.i32 Val.i32 (fun _ => rfl) (fun _ => rfl) a b s
  all_goals refine .done ⟨rfl, congrArg (· :: s) ?_⟩
  all_goals simp [truth_eq, Value.encode, holds, ofInt_toInt_add, ofInt_toInt_sub,
    ofInt_toInt_mul, decide_toInt_eq, BitVec.slt, BitVec.sle, bne]

/-- So it does on words of 64 bits. -/
theorem pushes_i64 (hCode : op.opcode? .i64 = some opcode)
    (hCheck : op.check .i64 .i64 span = .ok r) (a b : BitVec 64) :
    Pushes r s (op.apply (.i64 a) (.i64 b)) (opcode.apply (.i64 b :: .i64 a :: s)) := by
  cases op <;> cases hCode <;> cases hCheck
  case div => exact pushes_div (by decide) Value.i64 Val.i64 (fun _ => rfl) (fun _ => rfl) a b s
  all_goals refine .done ⟨rfl, congrArg (· :: s) ?_⟩
  all_goals simp [truth_eq, Value.encode, holds, ofInt_toInt_add, ofInt_toInt_sub,
    ofInt_toInt_mul, decide_toInt_eq, BitVec.slt, BitVec.sle, bne]

/-- So it does on numbers of 32 bits. -/
theorem pushes_f32 (hCode : op.opcode? .f32 = some opcode)
    (hCheck : op.check .f32 .f32 span = .ok r) (a b : Single) :
    Pushes r s (op.apply (.f32 a) (.f32 b)) (opcode.apply (.f32 b :: .f32 a :: s)) := by
  cases op <;> cases hCode <;> cases hCheck <;> exact .done ⟨rfl, rfl⟩

/-- So it does on numbers of 64 bits. -/
theorem pushes_f64 (hCode : op.opcode? .f64 = some opcode)
    (hCheck : op.check .f64 .f64 span = .ok r) (a b : Double) :
    Pushes r s (op.apply (.f64 a) (.f64 b)) (opcode.apply (.f64 b :: .f64 a :: s)) := by
  cases op <;> cases hCode <;> cases hCheck <;> exact .done ⟨rfl, rfl⟩

/-- So it does on truth values, as zero and one. -/
theorem pushes_bool (hCode : op.opcode? .bool = some opcode)
    (hCheck : op.check .bool .bool span = .ok r) (a b : Bool) :
    Pushes r s (op.apply (.bool a) (.bool b))
      (opcode.apply (.i32 (Value.ofBool b) :: .i32 (Value.ofBool a) :: s)) := by
  cases op <;> cases hCode <;> cases hCheck <;> refine .done ⟨rfl, congrArg (· :: s) ?_⟩ <;>
    cases a <;> cases b <;> rfl

/-- The instruction of an operator computes it, for operands of the type that it is made for. -/
theorem pushes_apply {t : Ty} (hOp : op.HasType t r) (hCode : op.opcode? t = some opcode)
    {left right : Value} (hLeft : left.type = t) (hRight : right.type = t) :
    Pushes r s (op.apply left right) (opcode.apply (right.encode :: left.encode :: s)) := by
  have hCheck : op.check t t (.point 0) = .ok r := BinaryOp.check_eq_ok.2 ⟨rfl, hOp⟩
  subst hLeft
  cases left with
  | i32 a =>
      cases right <;> cases hRight
      exact pushes_i32 s hCode hCheck a _
  | i64 a =>
      cases right <;> cases hRight
      exact pushes_i64 s hCode hCheck a _
  | f32 a =>
      cases right <;> cases hRight
      exact pushes_f32 s hCode hCheck a _
  | f64 a =>
      cases right <;> cases hRight
      exact pushes_f64 s hCode hCheck a _
  | bool a =>
      cases right <;> cases hRight
      exact pushes_bool s hCode hCheck a _

end BinaryOp

/-- Multiplying a word by minus one negates it. -/
theorem mul_ofInt_neg_one {w : Nat} (a : BitVec w) :
    a * BitVec.ofInt w (-1) = BitVec.ofInt w (-a.toInt) := by
  rw [BitVec.ofInt_neg, BitVec.ofInt_neg, BitVec.ofInt_toInt]
  simp

/-- Multiplying by minus one negates, for numbers of all types. -/
theorem UnaryOp.pushes_neg {t : Ty} {stored : ValType} {minusOne : Instr} {mul : Opcode}
    (hStored : t.storage? = some stored) (hNum : t ∈ [.i32, .i64, .f32, .f64])
    (hOne : Instr.minusOne? stored = some minusOne) (hMul : BinaryOp.opcode? .mul t = some mul)
    {v : Value} (hType : v.type = t) (s : List Val) :
    ∃ one : Val, (∀ call f, minusOne.step call f = .done (.next ⟨f.locals, one :: f.stack⟩)) ∧
      Pushes t s (UnaryOp.neg.apply v) (mul.apply (one :: v.encode :: s)) := by
  subst hType
  cases v with
  | i32 a =>
      cases hStored
      cases hOne
      cases hMul
      have hMinus := congrArg (fun q => Val.i32 q :: s) (mul_ofInt_neg_one a)
      exact ⟨_, fun _ _ => rfl, .done ⟨rfl, hMinus⟩⟩
  | i64 a =>
      cases hStored
      cases hOne
      cases hMul
      have hMinus := congrArg (fun q => Val.i64 q :: s) (mul_ofInt_neg_one a)
      exact ⟨_, fun _ _ => rfl, .done ⟨rfl, hMinus⟩⟩
  | f32 a =>
      cases hStored
      cases hOne
      cases hMul
      have hMinus := congrArg (fun q => Val.f32 q :: s) (Single.mul_minusOne a)
      exact ⟨_, fun _ _ => rfl, .done ⟨rfl, hMinus⟩⟩
  | f64 a =>
      cases hStored
      cases hOne
      cases hMul
      have hMinus := congrArg (fun q => Val.f64 q :: s) (Double.mul_minusOne a)
      exact ⟨_, fun _ _ => rfl, .done ⟨rfl, hMinus⟩⟩
  | bool b => simp [Value.type] at hNum

/-- A whole number that fits, and the trap in its place. -/
theorem pushes_orTrap {w : Nat} (value : BitVec w → Value) {t : Ty}
    (hType : ∀ q, (value q).type = t) (word : Option (BitVec w)) (s : List Val) :
    Pushes t s (do return value (← Run.orTrap word))
      (do return (value (← Run.orTrap word)).encode :: s) := by
  cases word with
  | none => exact .trap
  | some q => exact .done ⟨hType q, rfl⟩

/-- Cutting a word keeps the integer up to its lower bits. -/
theorem setWidth_eq_ofInt (a : BitVec 64) : a.setWidth 32 = BitVec.ofInt 32 a.toInt :=
  (BitVec.signExtend_eq_setWidth_of_le a (by decide)).symm

/-- The instruction of a cast, if it needs one, converts a value. -/
theorem Value.pushes_cast {t target : Ty} {source stored : ValType}
    (hSource : t.storage? = some source) (hStored : target.storage? = some stored)
    (hBool : target = .bool → t = .bool) {v : Value} (hType : v.type = t) (s : List Val) :
    Pushes target s (v.cast target)
      (match conversion? source stored with
        | some op => op.apply (v.encode :: s)
        | none => .done (v.encode :: s)) := by
  subst hType
  cases v with
  | i32 a =>
      cases hSource
      cases target <;> cases hStored
      case i32.refl.bool.refl => cases hBool rfl
      all_goals exact .done ⟨rfl, rfl⟩
  | i64 a =>
      cases hSource
      cases target <;> cases hStored
      case i64.refl.bool.refl => cases hBool rfl
      case i64.refl.i32.refl =>
        exact .done ⟨rfl, congrArg (fun q => Val.i32 q :: s) (setWidth_eq_ofInt a)⟩
      all_goals exact .done ⟨rfl, rfl⟩
  | f32 a =>
      cases hSource
      cases target <;> cases hStored
      case f32.refl.bool.refl => cases hBool rfl
      case f32.refl.i32.refl => exact pushes_orTrap Value.i32 (fun _ => rfl) (a.word? 32) s
      case f32.refl.i64.refl => exact pushes_orTrap Value.i64 (fun _ => rfl) (a.word? 64) s
      all_goals exact .done ⟨rfl, rfl⟩
  | f64 a =>
      cases hSource
      cases target <;> cases hStored
      case f64.refl.bool.refl => cases hBool rfl
      case f64.refl.i32.refl => exact pushes_orTrap Value.i32 (fun _ => rfl) (a.word? 32) s
      case f64.refl.i64.refl => exact pushes_orTrap Value.i64 (fun _ => rfl) (a.word? 64) s
      all_goals exact .done ⟨rfl, rfl⟩
  | bool b =>
      cases hSource
      cases target <;> cases hStored <;> exact .done ⟨rfl, rfl⟩

/-- The code of a truth value is negated by its lowest bit. -/
theorem Value.ofBool_xor_one (b : Bool) : ofBool b ^^^ 1 = ofBool !b := by
  cases b <;> rfl

/-- The constant of a truth value pushes its code. -/
theorem Instr.step_i32Const_bool (b : Bool) (call : Calls) (f : Frame) :
    (Instr.i32Const (if b then 1 else 0)).step call f =
      .done (.next ⟨f.locals, (Value.bool b).encode :: f.stack⟩) := by
  cases b <;> rfl

/-- The constant of a number pushes the number. -/
theorem Literal.step_lower (v : Literal) (call : Calls) (f : Frame) :
    v.lower.1.step call f = .done (.next ⟨f.locals, v.value.encode :: f.stack⟩) := by
  cases v with
  | int v =>
      have hBits : BitVec.ofInt 32 v.toInt32.toInt = BitVec.ofInt 32 v.toInt := by
        apply BitVec.eq_of_toInt_eq
        simp
      exact congrArg (fun q => Run.done (Signal.next ⟨f.locals, .i32 q :: f.stack⟩)) hBits
  | float v => rfl

theorem Literal.type_value {v : Literal} {t : Ty} (h : v.HasType t) : v.value.type = t := by
  cases h <;> rfl

end WasmCompiler
