import WasmCompiler.Compilation
import WasmCompiler.Proofs.LoweringAgreement
import WasmCompiler.Proofs.SourceRanges

/-! The places that checking and lowering blame. Both walk over the tree of a program, and whatever
they fail with shows the range of a node: the one that they are at, or one below it. -/

namespace WasmCompiler

/-- A computation whose errors are all of one kind. -/
def FailsOnly {ε α : Type} (P : ε → Prop) (x : Except ε α) : Prop := ∀ e, x = .error e → P e

namespace FailsOnly

variable {ε α β : Type} {P Q : ε → Prop} {x y : Except ε α}

theorem ok {a : α} : FailsOnly P (.ok a) := by
  intro e h
  cases h

theorem error {e : ε} (h : P e) : FailsOnly P (.error e : Except ε α) := by
  intro e' hError
  cases hError
  exact h

/-- A computation after another one fails only as one of the two does. -/
theorem bind {next : α → Except ε β} (h : FailsOnly P x) (hNext : ∀ a, FailsOnly P (next a)) :
    FailsOnly P (x >>= next) := by
  intro e hError
  rcases bind_eq_error.1 hError with hFirst | ⟨a, -, hSecond⟩
  · exact h e hFirst
  · exact hNext a e hSecond

theorem ite {c : Prop} [Decidable c] (h : FailsOnly P x) (h' : FailsOnly P y) :
    FailsOnly P (if c then x else y) := by
  split
  · exact h
  · exact h'

theorem mono (h : FailsOnly P x) (hPQ : ∀ e, P e → Q e) : FailsOnly Q x :=
  fun e hError => hPQ e (h e hError)

end FailsOnly

/-- The range is that of a node, or of one below it. -/
inductive Node.Bears : Node → Span → Prop where
  | self {n : Node} : Bears n n.span
  | child {n m : Node} {s : Span} (hMem : m ∈ n.children) (h : Bears m s) : Bears n s

/-- The nodes of a chain of branches are its conditions and the statements of its blocks. -/
theorem Node.mem_chain {n : Node} {conds : List Expr} {blocks : List (List Stmt)} :
    n ∈ chain conds blocks ↔ n ∈ conds.map expr ∨ n ∈ blocks.flatten.map stmt := by
  fun_induction chain conds blocks with
  | case1 cond conds block blocks ih =>
      rw [List.mem_cons, List.mem_append, ih, List.flatten_cons, List.map_append, List.mem_append,
        List.map_cons, List.mem_cons]
      tauto
  | case2 => exact List.mem_append

/-- A computation whose errors show one of the nodes, or a node below one of them. -/
def Blames {ε α : Type} (ns : List Node) (x : Except (Located ε) α) : Prop :=
  FailsOnly (fun e => ∃ n ∈ ns, n.Bears e.span) x

namespace Blames

variable {ε α β : Type} {n : Node} {ns ms : List Node} {x y : Except (Located ε) α}

/-- An error that bears the span of a node is blamed on that node. -/
theorem self (h : FailsOnly (fun e => e.span = n.span) x) : Blames [n] x :=
  h.mono fun e hSpan => ⟨n, List.mem_cons_self, by rw [hSpan]; exact .self⟩

theorem mono (h : Blames ns x) (hSub : ns ⊆ ms) : Blames ms x :=
  FailsOnly.mono h fun _ ⟨n, hMem, hBears⟩ => ⟨n, hSub hMem, hBears⟩

/-- What shows nodes right below a node shows one below that node. -/
theorem below (h : Blames ns x) (hSub : ns ⊆ n.children) : Blames [n] x :=
  FailsOnly.mono h fun _ ⟨_, hMem, hBears⟩ => ⟨n, List.mem_cons_self, .child (hSub hMem) hBears⟩

/-- Blame on a child of a node is blame on the node. -/
theorem child {m : Node} (h : Blames [m] x) (hMem : m ∈ n.children) : Blames [n] x :=
  h.below (by simpa using hMem)

theorem ok {a : α} : Blames ns (.ok a : Except (Located ε) α) := FailsOnly.ok

/-- An error that is thrown with the span of a node is blamed on it. -/
theorem throw {cause : ε} : Blames [n] (.error ⟨cause, n.span⟩ : Except (Located ε) α) :=
  self (FailsOnly.error rfl)

/-- Where each of two steps blames some nodes, both in turn blame them. -/
theorem bind {next : α → Except (Located ε) β} (h : Blames ns x) (hNext : ∀ a, Blames ns (next a)) :
    Blames ns (x >>= next) := FailsOnly.bind h hNext

theorem ite {c : Prop} [Decidable c] (h : Blames ns x) (h' : Blames ns y) :
    Blames ns (if c then x else y) := FailsOnly.ite h h'

end Blames

section Checking

/-- The name of a type is resolved, or the error bears the span that was given with it. -/
theorem Ty.resolve_fails (name : String) (s : Span) :
    FailsOnly (fun e => e.span = s) (resolve name s) := by
  unfold resolve
  split
  · exact .ok
  · exact .error rfl

theorem Locals.typeOf_fails (l : Locals) (name : String) (s : Span) :
    FailsOnly (fun e => e.span = s) (l.typeOf name s) := by
  unfold typeOf
  split
  · exact .ok
  · exact .error rfl

/-- A number that is too large is an error at its own span. -/
theorem Literal.check_fails (s : Span) (value : Literal) :
    FailsOnly (fun e => e.span = s) (value.check s) := by
  cases value with
  | int value => exact .ite (.error rfl) .ok
  | float value => exact .ok

/-- Operands that do not fit an operator are an error at the span of the operation. -/
theorem BinaryOp.check_fails (op : BinaryOp) (lhs rhs : Ty) (s : Span) :
    FailsOnly (fun e => e.span = s) (op.check lhs rhs s) :=
  .ite (.error rfl) <| .ite (.error rfl) <| .ite (.ite (.error rfl) .ok) <| .ite .ok <|
    .ite (.error rfl) <| .ite .ok .ok

/-- An operand that does not fit an operator is an error at the span of the operation. -/
theorem UnaryOp.check_fails (op : UnaryOp) (type : Ty) (s : Span) :
    FailsOnly (fun e => e.span = s) (op.check type s) := by
  cases op with
  | not => exact .ite (.error rfl) .ok
  | plus | neg => exact .ite .ok (.error rfl)

variable {signatures : Signatures} {locals : Locals}

mutual

/-- An expression without a type has a part whose span the error bears. -/
theorem Expr.blames_check : ∀ e : Expr, Blames [.expr e] (e.check signatures locals)
  | .ident s name => by
      rw [Expr.check]
      exact .self (locals.typeOf_fails name s)
  | .number s value => by
      rw [Expr.check]
      exact .self (value.check_fails s)
  | .bool s value => by
      rw [Expr.check]
      exact .ok
  | .str s text => by
      rw [Expr.check]
      exact .throw
  | .assign s target value => by
      have hValue := Expr.blames_check value
      rw [Expr.check]
      apply Blames.bind (.self (locals.typeOf_fails target s))
      intro type
      apply Blames.bind (hValue.child List.mem_cons_self)
      intro found
      exact .ite (.child .throw List.mem_cons_self) .ok
  | .binary s op lhs rhs => by
      have hLeft := Expr.blames_check lhs
      have hRight := Expr.blames_check rhs
      rw [Expr.check]
      apply Blames.bind (hLeft.child List.mem_cons_self)
      intro left
      apply Blames.bind (hRight.child (List.mem_cons_of_mem _ List.mem_cons_self))
      intro right
      exact .self (op.check_fails left right s)
  | .unary s op operand => by
      have hOperand := Expr.blames_check operand
      rw [Expr.check]
      apply Blames.bind (hOperand.child List.mem_cons_self)
      intro type
      exact .self (op.check_fails type s)
  | .cast s type operand => by
      have hOperand := Expr.blames_check operand
      have hType : Blames [.expr (.cast s type operand)] (Ty.resolve type s) :=
        .self (Ty.resolve_fails type s)
      rw [Expr.check]
      exact .ite (.bind (hOperand.child List.mem_cons_self) fun _ => hType) hType
  | .call s callee args => by
      rw [Expr.check]
      cases Signature.find? signatures callee with
      | none => exact .throw
      | some signature =>
          have hArgs := Expr.blames_checkArgs callee 1 args signature.params
          apply Blames.ite .throw
          apply Blames.bind (.below hArgs (List.Subset.refl _))
          intro _
          exact .ok

/-- An argument of the wrong type is blamed, or a part of an argument. -/
theorem Expr.blames_checkArgs (callee : String) (index : Nat) : ∀ (args : List Expr)
    (wants : List Ty),
    Blames (args.map .expr) (Expr.checkArgs signatures locals callee index args wants)
  | arg :: args, want :: wants => by
      have hArg := Expr.blames_check arg
      have hArgs := Expr.blames_checkArgs callee (index + 1) args wants
      have hHere : [Node.expr arg] ⊆ (arg :: args).map .expr := by simp
      rw [Expr.checkArgs]
      apply Blames.bind (hArg.mono hHere)
      intro found
      exact .ite (.mono .throw hHere) (hArgs.mono (List.subset_cons_self _ _))
  | [], _ => by
      rw [Expr.checkArgs]
      · exact .ok
      · simp
  | _ :: _, [] => by
      rw [Expr.checkArgs]
      · exact .ok
      · simp

end

/-- A condition that is no truth value is blamed itself. -/
theorem Expr.blames_checkCondition (cond : Expr) :
    Blames [.expr cond] (cond.checkCondition signatures locals) := by
  apply Blames.bind cond.blames_check
  intro found
  exact .ite .throw .ok

theorem Expr.blames_checkConditions (conds : List Expr) :
    Blames (conds.map .expr) (Expr.checkConditions signatures locals conds) := by
  induction conds with
  | nil => exact .ok
  | cons cond conds ih =>
      rw [Expr.checkConditions]
      apply Blames.bind (cond.blames_checkCondition.mono (by simp))
      intro _
      exact ih.mono (List.subset_cons_self _ _)

variable {ctx : Context}

/-- A variable whose declaration fails is blamed, or a part of its first value. -/
theorem Declaration.blames_check (d : Declaration) :
    Blames [.stmt (.var d)] (d.check ctx locals) := by
  rw [Declaration.check]
  apply Blames.ite .throw
  apply Blames.bind (.self (Ty.resolve_fails d.type d.span))
  intro type
  apply Blames.ite .throw
  cases hInit : d.init with
  | none => exact .ok
  | some init =>
      have hMem : Node.expr init ∈ (Node.stmt (.var d)).children := by
        simp [Node.children, Node.init, hInit]
      apply Blames.bind (.child init.blames_check hMem)
      intro found
      exact .ite (.child .throw hMem) .ok

/-- A parameter that cannot be declared is blamed itself. -/
theorem Declaration.blames_checkParam (d : Declaration) :
    Blames [.param d] (d.checkParam locals) := by
  apply Blames.bind (.self (Ty.resolve_fails d.type d.span))
  intro type
  apply Blames.ite .throw
  apply Blames.ite .throw
  cases locals.declare ⟨d.name, type, true⟩ with
  | none => exact .throw
  | some declared => exact .ok

theorem Declaration.blames_checkParams (ds : List Declaration) (locals : Locals) :
    Blames (ds.map .param) (Declaration.checkParams locals ds) := by
  induction ds generalizing locals with
  | nil => exact .ok
  | cons d ds ih =>
      rw [Declaration.checkParams]
      apply Blames.bind (d.blames_checkParam.mono (by simp))
      intro locals
      exact (ih locals).mono (List.subset_cons_self _ _)

namespace Stmt

mutual

/-- A statement that fails to check has a part whose span the error bears. -/
theorem blames_check : ∀ (s : Stmt) (locals : Locals), Blames [.stmt s] (s.check ctx locals)
  | .function s type name params body, locals => by
      rw [check]
      exact .throw
  | .var d, locals => by
      rw [check]
      exact d.blames_check
  | .branch s conds blocks, locals => by
      have hConds : conds.map .expr ⊆ (Node.stmt (.branch s conds blocks)).children :=
        fun _ hMem => Node.mem_chain.2 (.inl hMem)
      have hBlocks : blocks.flatten.map .stmt ⊆ (Node.stmt (.branch s conds blocks)).children :=
        fun _ hMem => Node.mem_chain.2 (.inr hMem)
      have hAll := blames_checkBlocks blocks locals
      rw [check]
      apply Blames.bind (.below (Expr.blames_checkConditions conds) hConds)
      intro _
      exact .below hAll hBlocks
  | .loop s cond body, locals => by
      have hBody := blames_checkAll body locals
      rw [check]
      apply Blames.bind (.child cond.blames_checkCondition List.mem_cons_self)
      intro _
      exact .below hBody (List.subset_cons_self _ _)
  | .ret s value, locals => by
      rw [check]
      apply Blames.bind (.child value.blames_check List.mem_cons_self)
      intro found
      exact .ite (.child .throw List.mem_cons_self) .ok
  | .raw s text, locals => by
      rw [check]
      exact .ok
  | .eval s e, locals => by
      rw [check]
      apply Blames.bind (.child e.blames_check List.mem_cons_self)
      intro _
      exact .ok

theorem blames_checkAll : ∀ (ss : List Stmt) (locals : Locals),
    Blames (ss.map .stmt) (checkAll ctx locals ss)
  | [], locals => by
      rw [checkAll]
      exact .ok
  | s :: ss, locals => by
      have hFirst := blames_check s locals
      rw [checkAll]
      apply Blames.bind (hFirst.mono (by simp))
      intro locals
      exact (blames_checkAll ss locals).mono (List.subset_cons_self _ _)

theorem blames_checkBlocks : ∀ (blocks : List (List Stmt)) (locals : Locals),
    Blames (blocks.flatten.map .stmt) (checkBlocks ctx locals blocks)
  | [], locals => by
      rw [checkBlocks]
      exact .ok
  | block :: blocks, locals => by
      have hFirst := blames_checkAll block locals
      rw [checkBlocks, List.flatten_cons, List.map_append]
      apply Blames.bind (hFirst.mono (List.subset_append_left _ _))
      intro locals
      exact (blames_checkBlocks blocks locals).mono (List.subset_append_right _ _)

end

/-- A function that fails to check is blamed, or a parameter or statement of it. -/
theorem blames_checkFunction (symbols : Symbols) (s : Span) (type name : String)
    (params : List Declaration) (body : List Stmt) :
    Blames [.stmt (.function s type name params body)]
      (checkFunction symbols s type name params body) := by
  rw [checkFunction]
  apply Blames.ite .throw
  apply Blames.ite .throw
  apply Blames.bind (.self (Ty.resolve_fails type s))
  intro ret
  apply Blames.bind (.below (Declaration.blames_checkParams params .empty)
    (List.subset_append_left _ _))
  intro start
  apply Blames.bind (.below (blames_checkAll body start) (List.subset_append_right _ _))
  intro locals
  exact .ok

/-- Outside of functions, what is not a function is blamed itself. -/
theorem blames_checkTop (symbols : Symbols) (s : Stmt) :
    Blames [.stmt s] (checkTop symbols s) := by
  cases s with
  | function s type name params body => exact blames_checkFunction symbols s type name params body
  | var | branch | loop | ret | raw => exact .throw
  | eval s e => cases e <;> exact .throw

end Stmt

/-- What a program is refused for shows a node of it. -/
theorem Program.blames_checkFrom (p : Program) (symbols : Symbols) :
    Blames (p.map .stmt) (p.checkFrom symbols) := by
  induction p generalizing symbols with
  | nil => exact .ok
  | cons s p ih =>
      rw [checkFrom]
      apply Blames.bind ((s.blames_checkTop symbols).mono (by simp))
      intro symbols
      exact (ih symbols).mono (List.subset_cons_self _ _)

end Checking

section Lowering

open Wasm

/-- A type without storage is an internal error at the span that was given with it. -/
theorem Ty.storage_fails (type : Ty) (s : Span) : FailsOnly
    (fun e => e.span = s ∧ e.cause.category = .internal) (type.storage s) := by
  unfold storage
  split
  · exact .ok
  · exact .error ⟨rfl, rfl⟩

/-- A name without a slot is an error at the span that was given with it. -/
theorem Scope.slot_fails (scope : Scope) (name : String) (s : Span) :
    FailsOnly (fun e => e.span = s) (scope.slot name s) := by
  unfold slot
  split
  · exact .ok
  · exact .error rfl

theorem BinaryOp.lower_fails (op : BinaryOp) (type : Ty) (s : Span) :
    FailsOnly (fun e => e.span = s) (op.lower type s) := by
  unfold lower
  split
  · exact .error rfl
  · exact .ok

theorem UnaryOp.lower_fails (op : UnaryOp) (type : Ty) (s : Span) :
    FailsOnly (fun e => e.span = s) (op.lower type s) := by
  cases op with
  | plus => exact .ok
  | not => exact .ite .ok (.error rfl)
  | neg =>
      refine .ite (.bind ((type.storage_fails s).mono fun _ h => h.1) fun stored => ?_) (.error rfl)
      split
      · exact .ok
      · exact .error rfl

/-- A cast that cannot be lowered is an error at its own span. -/
theorem Ty.lowerCast_fails (source : Ty) (target : String) (s : Span) :
    FailsOnly (fun e => e.span = s) (source.lowerCast target s) := by
  unfold lowerCast
  split
  · exact .error rfl
  · split
    · exact .ok
    · exact .error rfl

variable {scope : Scope}

mutual

/-- An expression that cannot be lowered has a part whose span the error bears. -/
theorem Expr.blames_lower : ∀ e : Expr, Blames [.expr e] (e.lower scope)
  | .ident s name => by
      rw [Expr.lower]
      exact .bind (.self (scope.slot_fails name s)) fun _ => .ok
  | .number s value => by
      rw [Expr.lower]
      exact .ok
  | .bool s value => by
      rw [Expr.lower]
      exact .ok
  | .str s text => by
      rw [Expr.lower]
      exact .throw
  | .assign s target value => by
      have hValue := Expr.blames_lower value
      rw [Expr.lower]
      apply Blames.bind (hValue.child List.mem_cons_self)
      intro code
      exact .bind (.self (scope.slot_fails target s)) fun _ => .ok
  | .binary s op lhs rhs => by
      have hLeft := Expr.blames_lower lhs
      have hRight := Expr.blames_lower rhs
      rw [Expr.lower]
      apply Blames.bind (hLeft.child List.mem_cons_self)
      intro left
      apply Blames.bind (hRight.child (List.mem_cons_of_mem _ List.mem_cons_self))
      intro right
      exact .bind (.self (op.lower_fails left.2 s)) fun _ => .ok
  | .unary s op operand => by
      have hOperand := Expr.blames_lower operand
      rw [Expr.lower]
      apply Blames.bind (hOperand.child List.mem_cons_self)
      intro value
      exact .bind (.self (op.lower_fails value.2 s)) fun _ => .ok
  | .cast s target operand => by
      have hOperand := Expr.blames_lower operand
      rw [Expr.lower]
      apply Blames.bind (hOperand.child List.mem_cons_self)
      intro value
      exact .bind (.self (value.2.lowerCast_fails target s)) fun _ => .ok
  | .call s callee args => by
      have hArgs := Expr.blames_lowerArgs args
      rw [Expr.lower]
      apply Blames.bind (.below hArgs (List.Subset.refl _))
      intro code
      split
      · exact .ok
      · exact .throw

theorem Expr.blames_lowerArgs : ∀ args : List Expr,
    Blames (args.map .expr) (Expr.lowerArgs scope args)
  | [] => by
      rw [Expr.lowerArgs]
      exact .ok
  | arg :: args => by
      have hArg := Expr.blames_lower arg
      have hArgs := Expr.blames_lowerArgs args
      rw [Expr.lowerArgs]
      apply Blames.bind (hArg.mono (by simp))
      intro first
      exact .bind (hArgs.mono (List.subset_cons_self _ _)) fun _ => .ok

end

namespace Stmt

mutual

/-- A statement that cannot be lowered has a part whose span the error bears. -/
theorem blames_lower : ∀ s : Stmt, Blames [.stmt s] (s.lower scope)
  | .function s type name params body => by
      rw [lower]
      exact .throw
  | .var d => by
      rw [lower]
      cases hInit : d.init with
      | none => exact .ok
      | some init =>
          have hMem : Node.expr init ∈ (Node.stmt (.var d)).children := by
            simp [Node.children, Node.init, hInit]
          apply Blames.bind (.child init.blames_lower hMem)
          intro value
          exact .bind (.self (scope.slot_fails d.name d.span)) fun _ => .ok
  | .branch s conds blocks => by
      have hChain := blames_lowerChain [] conds blocks
      rw [lower]
      exact .bind (.below hChain (List.Subset.refl _)) fun _ => .ok
  | .loop s cond body => by
      have hBody := blames_lowerAll body
      rw [lower]
      apply Blames.bind (.child cond.blames_lower List.mem_cons_self)
      intro test
      exact .bind (.below hBody (List.subset_cons_self _ _)) fun _ => .ok
  | .ret s value => by
      rw [lower]
      exact .bind (.child value.blames_lower List.mem_cons_self) fun _ => .ok
  | .raw s text => by
      rw [lower]
      split
      · exact .ok
      · exact .throw
  | .eval s e => by
      rw [lower]
      exact .bind (.child e.blames_lower List.mem_cons_self) fun _ => .ok

theorem blames_lowerAll : ∀ ss : List Stmt, Blames (ss.map .stmt) (lowerAll scope ss)
  | [] => by
      rw [lowerAll]
      exact .ok
  | s :: ss => by
      have hFirst := blames_lower s
      have hRest := blames_lowerAll ss
      rw [lowerAll]
      apply Blames.bind (hFirst.mono (by simp))
      intro first
      exact .bind (hRest.mono (List.subset_cons_self _ _)) fun _ => .ok

/-- A chain of branches blames its conditions and the statements of its blocks. -/
theorem blames_lowerChain (link : List Instr) : ∀ (conds : List Expr) (blocks : List (List Stmt)),
    Blames (Node.chain conds blocks) (lowerChain scope link conds blocks)
  | cond :: conds, block :: blocks => by
      have hBlock := blames_lowerAll block
      have hRest := blames_lowerChain [.plain .elseOp] conds blocks
      rw [lowerChain, Node.chain]
      apply Blames.bind (cond.blames_lower.mono (by simp))
      intro test
      apply Blames.bind (hBlock.mono (by simp))
      intro code
      exact .bind (hRest.mono (by simp)) fun _ => .ok
  | [], block :: blocks => by
      have hBlock := blames_lowerAll block
      rw [lowerChain]
      refine .bind (hBlock.mono fun n hMem => Node.mem_chain.2 (.inr ?_)) fun _ => .ok
      rw [List.flatten_cons, List.map_append]
      exact List.mem_append_left _ hMem
  | conds, [] => by
      rw [lowerChain]
      exact .ok

end

end Stmt

namespace Function

/-- Only a type without storage fails, and that is an internal error. -/
theorem storages_fails (s : Span) (types : List Ty) : FailsOnly
    (fun e => e.span = s ∧ e.cause.category = .internal) (storages s types) := by
  induction types with
  | nil => exact .ok
  | cons type types ih =>
      apply FailsOnly.bind (type.storage_fails s)
      intro first
      exact .bind ih fun _ => .ok

/-- The types of functions fail only by an internal error, wherever it is placed. -/
theorem lowerTypes_fails (signatures : List Signature) :
    FailsOnly (fun e => e.cause.category = .internal) (lowerTypes signatures) := by
  induction signatures with
  | nil => exact .ok
  | cons signature signatures ih =>
      apply FailsOnly.bind ((storages_fails signature.span signature.params).mono fun _ h => h.2)
      intro params
      exact .bind ih fun _ => .ok

/-- A function that cannot be lowered is blamed, or a statement of it. -/
theorem blames_lower (symbols : Symbols) (s : Span) (type name : String)
    (params : List Declaration) (body : List Stmt) :
    Blames [.stmt (.function s type name params body)] (lower symbols s name body) := by
  fun_cases lower symbols s name body with
  | case1 signature locals =>
      have hBody : Blames [.stmt (.function s type name params body)]
          (lowerCode ⟨symbols.signatures, locals⟩ signature.ret body) :=
        .bind (.below (Stmt.blames_lowerAll body) (List.subset_append_right _ _)) fun _ => .ok
      apply Blames.bind hBody
      intro code
      exact .bind (.self ((storages_fails s _).mono fun _ h => h.1)) fun _ => .ok
  | case2 => exact .throw

end Function

namespace Program

/-- Lowering the functions of a program blames them or their parts. -/
theorem blames_lowerFrom (symbols : Symbols) (index : Nat) (p : Program) :
    Blames (p.map .stmt) (p.lowerFrom symbols index) := by
  have hHead : ∀ (s : Stmt) (ss : List Stmt), [Node.stmt s] ⊆ (s :: ss).map .stmt := by simp
  fun_induction lowerFrom symbols index p with
  | case1 => exact .ok
  | case2 index s type name params body stmts _ ih =>
      apply Blames.bind ((Function.blames_lower symbols s type name params body).mono (hHead _ _))
      intro first
      exact .bind (ih.mono (List.subset_cons_self _ _)) fun _ => .ok
  | case3 index s type name params body stmts =>
      exact .mono .throw (hHead (.function s type name params body) stmts)
  | case4 index stmt stmts => exact .mono .throw (hHead stmt stmts)

variable {p : Program}

/-- If a checked program has no code, then the error shows a node. -/
theorem bears_of_lower {symbols : Symbols} (hCheck : p.check = .ok symbols)
    {e : Located EmitError} (h : p.lower symbols = .error e) :
    ∃ n ∈ p.map Node.stmt, n.Bears e.span := by
  -- What goes wrong with the tables is internal, and a checked program shows nothing internal.
  have hEmission := (noCode_of_lower hCheck h).1
  rcases bind_eq_error.1 h with hTypes | ⟨types, -, h⟩
  · have hInternal := Function.lowerTypes_fails symbols.signatures.entries e hTypes
    cases hEmission.symm.trans hInternal
  · rcases bind_eq_error.1 h with hCode | ⟨code, -, h⟩
    · exact blames_lowerFrom symbols 0 p e hCode
    · by_cases hCount : code.length = symbols.signatures.entries.length
      · rw [if_neg (not_not.2 hCount)] at h
        cases h
      · rw [if_pos hCount] at h
        cases h
        cases hEmission

/-- A span that a node of a program bears is that of a node of the program. -/
theorem hasNode_of_bears {n : Node} {s : Span} (hNode : p.HasNode n) (h : n.Bears s) :
    ∃ m, p.HasNode m ∧ m.span = s := by
  induction h with
  | self => exact ⟨_, hNode, rfl⟩
  | child hMem _ ih => exact ih (hNode.child hMem)

/-- Compiling a program fails where its check does, or after that where lowering it does. -/
theorem toModule_eq_error {d : Diagnostic} : p.toModule = .error d ↔
    (∃ e, p.check = .error e ∧ TypeError.report e = d) ∨
    ∃ symbols, p.check = .ok symbols ∧
      ∃ e, p.lower symbols = .error e ∧ EmitError.report e = d := by
  simp only [toModule, bind_eq_error, mapError_eq_error, mapError_eq_ok]

/-- What a program is refused for, or has no code for, shows a node of it. -/
theorem exists_hasNode_of_toModule {d : Diagnostic} (h : p.toModule = .error d) :
    (d.category = .semantic ∨ d.category = .emission) ∧ ∃ n, p.HasNode n ∧ n.span = d.span := by
  have hNodes : ∀ s, (∃ n ∈ p.map Node.stmt, n.Bears s) → ∃ n, p.HasNode n ∧ n.span = s := by
    rintro s ⟨n, hMem, hBears⟩
    obtain ⟨stmt, hStmt, rfl⟩ := List.mem_map.1 hMem
    exact hasNode_of_bears (.top hStmt) hBears
  rcases toModule_eq_error.1 h with ⟨e, hCheck, rfl⟩ | ⟨symbols, hCheck, e, hLower, rfl⟩
  · exact ⟨.inl rfl, hNodes _ (p.blames_checkFrom .empty e hCheck)⟩
  · exact ⟨.inr (noCode_of_lower hCheck hLower).1, hNodes _ (bears_of_lower hCheck hLower)⟩

end Program

end Lowering

end WasmCompiler
