import WasmCompiler.Proofs.FloatArithmetic
import WasmCompiler.Proofs.Run
import WasmCompiler.Tree.Basic
import WasmCompiler.Typing.Ty

/-! The meaning of programs, read off their trees. Whole numbers are words that count with a
sign and wrap around; truth values are values of their own. -/

namespace WasmCompiler

open Number

/-- A value of the language. -/
inductive Value where
  | i32 (value : BitVec 32)
  | i64 (value : BitVec 64)
  | f32 (value : Single)
  | f64 (value : Double)
  | bool (value : Bool)
  deriving DecidableEq, Repr

namespace Value

def type : Value → Ty
  | i32 _ => .i32
  | i64 _ => .i64
  | f32 _ => .f32
  | f64 _ => .f64
  | bool _ => .bool

/-- What a variable of a type holds before it is set. -/
def zero? : Ty → Option Value
  | .i32 => some (i32 0)
  | .i64 => some (i64 0)
  | .f32 => some (f32 ⟨0⟩)
  | .f64 => some (f64 ⟨0⟩)
  | .bool => some (bool false)
  | .void => none

end Value

namespace BinaryOp

/-- Whether an operator compares two values. -/
def isComparison (op : BinaryOp) : Bool := op.isRelational || op.isEquality

/-- The comparison of two integers. -/
def holds (op : BinaryOp) (a b : Int) : Bool :=
  match op with
  | lt => decide (a < b)
  | le => decide (a ≤ b)
  | gt => decide (b < a)
  | ge => decide (b ≤ a)
  | eq => decide (a = b)
  | ne => decide (a ≠ b)
  | _ => false

/-- An operator on whole numbers. Results wrap around, and division is exact or cut off towards
zero; it has no result if the divisor is zero or the quotient does not fit. -/
def onWords {w : Nat} (op : BinaryOp) (a b : BitVec w) : Run (BitVec w) :=
  match op with
  | add => .done (.ofInt w (a.toInt + b.toInt))
  | sub => .done (.ofInt w (a.toInt - b.toInt))
  | mul => .done (.ofInt w (a.toInt * b.toInt))
  | div =>
    if b.toInt = 0 ∨ (a.toInt = -2 ^ (w - 1) ∧ b.toInt = -1) then .trap
    else .done (.ofInt w (a.toInt.tdiv b.toInt))
  | bitAnd => .done (a &&& b)
  | bitOr => .done (a ||| b)
  | _ => .stuck

/-- An operator on the patterns of numbers with a point. -/
def onPatterns? : BinaryOp → Option (Format → Nat → Nat → Nat)
  | add => some Format.add
  | sub => some Format.sub
  | mul => some Format.mul
  | div => some Format.div
  | _ => none

/-- A comparison of numbers with a point, given what compares them by their place. What is not
a number differs from everything, and is not related to anything else. -/
def holdsBy (op : BinaryOp) (compare : (Int → Int → Bool) → Bool) : Bool :=
  match op with
  | ne => !compare (holds eq)
  | _ => compare op.holds

/-- An operator on truth values. -/
def onBools : BinaryOp → Bool → Bool → Run Bool
  | and, a, b => .done (a && b)
  | or, a, b => .done (a || b)
  | eq, a, b => .done (a == b)
  | ne, a, b => .done (a != b)
  | _, _, _ => .stuck

def apply (op : BinaryOp) (l r : Value) : Run Value :=
  match l, r with
  | .i32 a, .i32 b =>
    if op.isComparison then .done (.bool (op.holds a.toInt b.toInt))
    else do return .i32 (← op.onWords a b)
  | .i64 a, .i64 b =>
    if op.isComparison then .done (.bool (op.holds a.toInt b.toInt))
    else do return .i64 (← op.onWords a b)
  | .f32 a, .f32 b =>
    if op.isComparison then .done (.bool (op.holdsBy fun holds => a.compare holds b))
    else
      match op.onPatterns? with
      | some g => .done (.f32 (Single.lift g a b))
      | none => .stuck
  | .f64 a, .f64 b =>
    if op.isComparison then .done (.bool (op.holdsBy fun holds => a.compare holds b))
    else
      match op.onPatterns? with
      | some g => .done (.f64 (Double.lift g a b))
      | none => .stuck
  | .bool a, .bool b => do return .bool (← op.onBools a b)
  | _, _ => .stuck

end BinaryOp

def UnaryOp.apply : UnaryOp → Value → Run Value
  | plus, .i32 a => .done (.i32 a)
  | plus, .i64 a => .done (.i64 a)
  | plus, .f32 a => .done (.f32 a)
  | plus, .f64 a => .done (.f64 a)
  | neg, .i32 a => .done (.i32 (.ofInt 32 (-a.toInt)))
  | neg, .i64 a => .done (.i64 (.ofInt 64 (-a.toInt)))
  | neg, .f32 a => .done (.f32 a.neg)
  | neg, .f64 a => .done (.f64 a.neg)
  | not, .bool a => .done (.bool !a)
  | _, _ => .stuck

namespace Value

/-- The number that stands for a truth value. -/
def ofBool (b : Bool) : BitVec 32 := if b then 1 else 0

/-- The conversion of a number to another type of numbers. Whole numbers keep their lowest bits,
numbers with a point are rounded, and a number with a point that has no whole number in the
range of the type has no result. -/
def convert : Value → Ty → Run Value
  | i32 a, .i32 => .done (i32 a)
  | i32 a, .i64 => .done (i64 (.ofInt 64 a.toInt))
  | i32 a, .f32 => .done (f32 (.ofInt a.toInt))
  | i32 a, .f64 => .done (f64 (.ofInt a.toInt))
  | i64 a, .i32 => .done (i32 (.ofInt 32 a.toInt))
  | i64 a, .i64 => .done (i64 a)
  | i64 a, .f32 => .done (f32 (.ofInt a.toInt))
  | i64 a, .f64 => .done (f64 (.ofInt a.toInt))
  | f32 a, .i32 => do return i32 (← Run.orTrap (a.word? 32))
  | f32 a, .i64 => do return i64 (← Run.orTrap (a.word? 64))
  | f32 a, .f32 => .done (f32 a)
  | f32 a, .f64 => .done (f64 a.toDouble)
  | f64 a, .i32 => do return i32 (← Run.orTrap (a.word? 32))
  | f64 a, .i64 => do return i64 (← Run.orTrap (a.word? 64))
  | f64 a, .f32 => .done (f32 a.toSingle)
  | f64 a, .f64 => .done (f64 a)
  | _, _ => .stuck

/-- The cast of a value. A truth value is cast to a number as zero or one; there is no rule for
the cast of a number to a truth value. -/
def cast (v : Value) (target : Ty) : Run Value :=
  match v, target with
  | bool b, .bool => .done (bool b)
  | bool b, target => convert (i32 (ofBool b)) target
  | v, target => convert v target

end Value

/-- The value of a literal. A whole number keeps its lowest 32 bits. -/
def Literal.value : Literal → Value
  | .int v => .i32 (.ofInt 32 v.toInt)
  | .float v => .f32 v.toSingle

/-- What the variables of a function hold. -/
abbrev Store := String → Option Value

def Store.set (store : Store) (x : String) (v : Value) : Store :=
  fun y => if y = x then some v else store y

namespace Expr

/-- What functions do: their result, if they have one, for given arguments. -/
abbrev Calls := String → List Value → Run (Option Value)

mutual

/-- The value of an expression, if it has one, and the variables after it. Operands and
arguments are evaluated from left to right, all of them. -/
def eval (call : Calls) (store : Store) : Expr → Run (Option Value × Store)
  | ident _ x => do
    let v ← Run.need (store x)
    return (some v, store)
  | number _ v => .done (some v.value, store)
  | bool _ b => .done (some (.bool b), store)
  | str _ _ => .stuck
  | assign _ x e => do
    let (v, store) ← eval call store e
    let v ← Run.need v
    return (none, store.set x v)
  | binary _ op a b => do
    let (l, store) ← eval call store a
    let (r, store) ← eval call store b
    let l ← Run.need l
    let r ← Run.need r
    let v ← op.apply l r
    return (some v, store)
  | unary _ op e => do
    let (v, store) ← eval call store e
    let v ← Run.need v
    let v ← op.apply v
    return (some v, store)
  | cast _ type e => do
    let (v, store) ← eval call store e
    let v ← Run.need v
    let target ← Run.need (Ty.ofName? type)
    let v ← v.cast target
    return (some v, store)
  | Expr.call _ f args => do
    let (vs, store) ← evalArgs call store args
    let result ← call f vs
    return (result, store)

def evalArgs (call : Calls) (store : Store) : List Expr → Run (List Value × Store)
  | [] => .done ([], store)
  | e :: es => do
    let (v, store) ← eval call store e
    let v ← Run.need v
    let (vs, store) ← evalArgs call store es
    return (v :: vs, store)

end

/-- The truth value of a condition. -/
def test (call : Calls) (store : Store) (cond : Expr) : Run (Bool × Store) := do
  let (v, store) ← cond.eval call store
  match v with
  | some (.bool b) => return (b, store)
  | _ => .stuck

end Expr

/-- Where a statement leaves its function: after it, or by returning. -/
inductive Flow where
  | next (store : Store)
  | ret (value : Option Value)

/-- What follows a statement, unless it returns. -/
def Flow.andThen (rest : Store → Run Flow) : Flow → Run Flow
  | next store => rest store
  | ret v => .done (ret v)

/-- A loop that goes round while its test holds, at most as often as the bound says. -/
def whileRounds (test : Store → Run (Bool × Store)) (body : Store → Run Flow) :
    Nat → Store → Run Flow
  | 0, _ => .timeout
  | bound + 1, store => do
    let (goOn, store) ← test store
    if goOn then (← body store).andThen (whileRounds test body bound)
    else return .next store

namespace Stmt

mutual

/-- What a statement does. A variable without an initial value is left as it is. -/
def exec (call : Expr.Calls) (bound : Nat) : Stmt → Store → Run Flow
  | function _ _ _ _ _, _ => .stuck
  | var decl, store =>
    match decl.init with
    | none => .done (.next store)
    | some e => do
      let (v, store) ← e.eval call store
      let v ← Run.need v
      return .next (store.set decl.name v)
  | branch _ conds blocks, store => execChain call bound conds blocks store
  | loop _ cond body, store =>
    whileRounds (fun store => cond.test call store) (execAll call bound body) bound store
  | ret _ e, store => do
    let (v, _) ← e.eval call store
    return .ret v
  | raw _ _, _ => .stuck
  | eval _ e, store => do
    let (_, store) ← e.eval call store
    return .next store

def execAll (call : Expr.Calls) (bound : Nat) : List Stmt → Store → Run Flow
  | [], store => .done (.next store)
  | s :: ss, store => do (← exec call bound s store).andThen (execAll call bound ss)

/-- The first block whose condition holds, or else the block without a condition. -/
def execChain (call : Expr.Calls) (bound : Nat) :
    List Expr → List (List Stmt) → Store → Run Flow
  | cond :: conds, block :: blocks, store => do
    let (holds, store) ← cond.test call store
    if holds then execAll call bound block store else execChain call bound conds blocks store
  | [], block :: _, store => execAll call bound block store
  | [], [], store => .done (.next store)
  | _ :: _, [], _ => .stuck

end

mutual

/-- The variables that a statement declares, also in its blocks. -/
def declared : Stmt → List Declaration
  | function _ _ _ _ _ | ret _ _ | raw _ _ | eval _ _ => []
  | var decl => [decl]
  | branch _ _ blocks => declaredBlocks blocks
  | loop _ _ body => declaredAll body

def declaredAll : List Stmt → List Declaration
  | [] => []
  | s :: ss => declared s ++ declaredAll ss

def declaredBlocks : List (List Stmt) → List Declaration
  | [] => []
  | b :: bs => declaredAll b ++ declaredBlocks bs

end

end Stmt

/-- A function of a program. -/
structure Definition where
  ret : String
  params : List Declaration
  body : List Stmt

def Stmt.definition? (name : String) : Stmt → Option Definition
  | function _ type f params body => if f = name then some ⟨type, params, body⟩ else none
  | _ => none

namespace Definition

/-- The variables when a function is entered: its parameters hold the arguments, and all that
it declares hold zero. -/
def entry (d : Definition) (args : List Value) : Store := fun x =>
  match ((d.params.map Declaration.name).zip args).lookup x with
  | some v => some v
  | none =>
    ((Stmt.declaredAll d.body).find? fun decl => decl.name == x).bind fun decl =>
      (Ty.ofName? decl.type).bind Value.zero?

/-- A function for given arguments. A function with a result has to return it. -/
def run (d : Definition) (call : Expr.Calls) (bound : Nat) (args : List Value) :
    Run (Option Value) :=
  if args.length ≠ d.params.length then .stuck
  else do
    match ← Stmt.execAll call bound d.body (d.entry args) with
    | .ret v => return v
    | .next _ => if Ty.ofName? d.ret = some .void then return none else .trap

end Definition

namespace Program

def definition? (p : Program) (name : String) : Option Definition :=
  p.findSome? (Stmt.definition? name)

/-- The call of a function by its name. -/
def call (p : Program) : Nat → Expr.Calls
  | 0, _, _ => .timeout
  | bound + 1, name, args =>
    match p.definition? name with
    | some d => d.run (p.call bound) bound args
    | none => .stuck

end Program

section Bounds

variable {call more : Expr.Calls} {n m : Nat}

/-- Functions under a larger bound. -/
def Expr.Calls.Extend (call more : Expr.Calls) : Prop := ∀ f vs, (call f vs).Extends (more f vs)

namespace Expr

mutual

/-- An expression does the same where the calls in it are only bounded less. -/
theorem eval_extends (hCall : call.Extend more) : ∀ (e : Expr) (store : Store),
    (e.eval call store).Extends (e.eval more store)
  | ident _ _, _ | number _ _, _ | bool _ _, _ | str _ _, _ => by
      simp only [eval]
      exact .same
  | assign _ _ e, store | unary _ _ e, store | cast _ _ e, store => by
      simp only [eval]
      exact (eval_extends hCall e store).bind fun _ => .same
  | binary _ _ a b, store => by
      simp only [eval]
      refine (eval_extends hCall a store).bind fun left => ?_
      exact (eval_extends hCall b left.2).bind fun _ => .same
  | Expr.call _ f args, store => by
      simp only [eval]
      refine (evalArgs_extends hCall args store).bind fun values => ?_
      exact (hCall f values.1).bind fun _ => .same

theorem evalArgs_extends (hCall : call.Extend more) : ∀ (es : List Expr) (store : Store),
    (evalArgs call store es).Extends (evalArgs more store es)
  | [], _ => by
      simp only [evalArgs]
      exact .same
  | e :: es, store => by
      simp only [evalArgs]
      refine (eval_extends hCall e store).bind fun first => ?_
      refine Run.Extends.same.bind fun _ => ?_
      exact (evalArgs_extends hCall es first.2).bind fun _ => .same

end

theorem test_extends (hCall : call.Extend more) (cond : Expr) (store : Store) :
    (cond.test call store).Extends (cond.test more store) :=
  (eval_extends hCall cond store).bind fun _ => .same

end Expr

/-- What follows a statement is extended where it runs. -/
theorem Flow.andThen_extends {rest rest' : Store → Run Flow}
    (hRest : ∀ store, (rest store).Extends (rest' store)) (flow : Flow) :
    (flow.andThen rest).Extends (flow.andThen rest') := by
  cases flow with
  | next store => exact hRest store
  | ret v => exact .same

/-- More rounds only extend a loop. -/
theorem whileRounds_extends {test test' : Store → Run (Bool × Store)}
    {body body' : Store → Run Flow} (hTest : ∀ store, (test store).Extends (test' store))
    (hBody : ∀ store, (body store).Extends (body' store)) (hBound : n ≤ m) (store : Store) :
    (whileRounds test body n store).Extends (whileRounds test' body' m store) := by
  induction n generalizing m store with
  | zero => exact .timeout
  | succ n ih =>
      obtain ⟨m, rfl⟩ := Nat.exists_eq_succ_of_ne_zero (by omega : m ≠ 0)
      refine (hTest store).bind fun result => ?_
      obtain ⟨goOn, after⟩ := result
      cases goOn with
      | false => exact .same
      | true =>
          exact (hBody after).bind fun flow =>
            flow.andThen_extends fun store => ih (by omega) store

namespace Stmt

mutual

/-- A larger bound only extends a statement. -/
theorem exec_extends (hCall : call.Extend more) (hBound : n ≤ m) : ∀ (s : Stmt) (store : Store),
    (s.exec call n store).Extends (s.exec more m store)
  | function _ _ _ _ _, _ | raw _ _, _ => by
      simp only [exec]
      exact .same
  | var decl, store => by
      simp only [exec]
      split
      · exact .same
      · exact (Expr.eval_extends hCall _ store).bind fun _ => .same
  | branch _ conds blocks, store => by
      simp only [exec]
      exact execChain_extends hCall hBound conds blocks store
  | loop _ cond body, store => by
      simp only [exec]
      exact whileRounds_extends (Expr.test_extends hCall cond) (execAll_extends hCall hBound body)
        hBound store
  | ret _ e, store | eval _ e, store => by
      simp only [exec]
      exact (Expr.eval_extends hCall e store).bind fun _ => .same

theorem execAll_extends (hCall : call.Extend more) (hBound : n ≤ m) :
    ∀ (ss : List Stmt) (store : Store),
      (execAll call n ss store).Extends (execAll more m ss store)
  | [], _ => by
      simp only [execAll]
      exact .same
  | s :: ss, store => by
      simp only [execAll]
      exact (exec_extends hCall hBound s store).bind fun flow =>
        flow.andThen_extends (execAll_extends hCall hBound ss)

/-- A larger bound only extends a chain of branches. -/
theorem execChain_extends (hCall : call.Extend more) (hBound : n ≤ m) :
    ∀ (conds : List Expr) (blocks : List (List Stmt)) (store : Store),
      (execChain call n conds blocks store).Extends (execChain more m conds blocks store)
  | cond :: conds, block :: blocks, store => by
      simp only [execChain]
      refine (Expr.test_extends hCall cond store).bind fun result => ?_
      obtain ⟨holds, after⟩ := result
      cases holds with
      | true => exact execAll_extends hCall hBound block after
      | false => exact execChain_extends hCall hBound conds blocks after
  | [], block :: _, store => by
      simp only [execChain]
      exact execAll_extends hCall hBound block store
  | [], [], _ | _ :: _, [], _ => by
      simp only [execChain]
      exact .same

end

end Stmt

/-- A larger bound only extends a call. -/
theorem Program.call_extends (p : Program) (hBound : n ≤ m) (name : String) (args : List Value) :
    (p.call n name args).Extends (p.call m name args) := by
  induction n generalizing m name args with
  | zero => exact .timeout
  | succ n ih =>
      obtain ⟨m, rfl⟩ := Nat.exists_eq_succ_of_ne_zero (by omega : m ≠ 0)
      simp only [call]
      cases p.definition? name with
      | none => exact .same
      | some d =>
          simp only [Definition.run]
          split
          · exact .same
          · refine (Stmt.execAll_extends (fun f vs => ih (by omega) f vs) (by omega) d.body
              _).bind fun _ => .same

end Bounds

end WasmCompiler
