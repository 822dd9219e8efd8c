import Mathlib
import WasmCompiler.Compilation
import WasmCompiler.Proofs.Functions
import WasmCompiler.Proofs.InstructionText
import WasmCompiler.Proofs.StatementReading

/-! The text of a module shows the code of its functions. Each body is read back from its bytes, and
what is printed is what was emitted: one line to an instruction, with its name and its operand, as
deep as its blocks. -/

namespace WasmCompiler

open Wasm Number

/-- A text that is one line: it has a line break at its end and no other. -/
def IsLine (text : String) : Prop := ∃ cs, text.toList = cs ++ ['\n'] ∧ '\n' ∉ cs

section Lines

theorem newline_notMem_append {s t : String} (hS : '\n' ∉ s.toList) (hT : '\n' ∉ t.toList) :
    '\n' ∉ (s ++ t).toList := by
  rw [String.toList_append, List.mem_append, not_or]
  exact ⟨hS, hT⟩

theorem newline_notMem_toString (n : Nat) : '\n' ∉ (toString n).toList := by
  have hDigits : '\n' ∉ Nat.toDigits 10 n := (IsDigits.digitsOf n).notMem rfl
  simpa using hDigits

theorem newline_notMem_toString_int (v : Int) : '\n' ∉ (toString v).toList := by
  cases v with
  | ofNat n => exact newline_notMem_toString n
  | negSucc n => exact newline_notMem_append (by decide) (newline_notMem_toString (n + 1))

/-- A decimal is written with digits, a point and a sign, and so without a line break. -/
theorem Number.Decimal.newline_notMem_positional (d : Decimal) : '\n' ∉ d.positional := by
  obtain ⟨whole, fraction, hText⟩ := d.exists_isPointText
  have hWhole : '\n' ∉ whole := hText.isDigits_whole.notMem rfl
  have hFraction : '\n' ∉ fraction := hText.isDigits_fraction.notMem rfl
  have hPoint : '\n' ∉ whole ++ '.' :: fraction := by simp [hWhole, hFraction]
  rw [← hText.eq_append] at hPoint
  intro hMem
  apply hPoint
  split
  · exact hMem
  · exact List.mem_append_left _ hMem

theorem Number.Double.newline_notMem_magnitudeText (pattern : Nat) :
    '\n' ∉ magnitudeText pattern := by
  unfold magnitudeText
  split
  · split
    · decide
    · exact Decimal.newline_notMem_positional _
  · decide

/-- The text of a number is without a line break, also that of one that is not finite. -/
theorem Wasm.newline_notMem_floatText (x : Double) : '\n' ∉ (floatText x).toList := by
  fun_cases floatText x with
  | case1 => decide
  | case2 hNan =>
      rw [Double.text, if_neg hNan, String.toList_ofList]
      split <;> simp [Double.newline_notMem_magnitudeText]

theorem Wasm.ResultType.newline_notMem_name (t : ResultType) : '\n' ∉ t.name.toList := by
  cases t with
  | indexed index =>
      exact newline_notMem_append
        (newline_notMem_append (by decide) (newline_notMem_toString index)) (by decide)
  | _ => decide

/-- The text of operands is without a line break. -/
theorem Wasm.Argument.newline_notMem_text (arg : Argument) : '\n' ∉ arg.text.toList := by
  have hSpace : '\n' ∉ " ".toList := by decide
  cases arg with
  | none => exact List.not_mem_nil
  | block result =>
      cases result with
      | none => exact List.not_mem_nil
      | some result =>
          exact newline_notMem_append (newline_notMem_append (by decide)
            result.newline_notMem_name) (by decide)
  | index n => exact newline_notMem_append hSpace (newline_notMem_toString n)
  | memArg align offset =>
      exact newline_notMem_append (newline_notMem_append (newline_notMem_append (by decide)
        (newline_notMem_toString offset)) (by decide)) (newline_notMem_toString _)
  | memory reserved => exact List.not_mem_nil
  | int value => exact newline_notMem_append hSpace (newline_notMem_toString_int value)
  | f32 value => exact newline_notMem_append hSpace (newline_notMem_floatText _)
  | f64 value => exact newline_notMem_append hSpace (newline_notMem_floatText value)

/-- Every instruction is shown on one line. -/
theorem Wasm.Instr.isLine_line (depth : Nat) (i : Instr) : IsLine (i.line depth) := by
  have hOp : '\n' ∉ i.op.mnemonic.toList := by cases i.op <;> decide
  refine ⟨"    ".toList ++ List.replicate (2 * depth) ' ' ++ i.op.mnemonic.toList ++
    i.arg.text.toList, ?_, ?_⟩
  · simp [line]
  · simp [hOp, i.arg.newline_notMem_text]

end Lines

namespace Wasm

/-- Instructions with the number of blocks around each of them. An `else` and an `end` stand where
the instruction stands that opens their block, and every block is closed. -/
inductive Indented : Nat → List (Nat × Instr) → Prop where
  | nil {d : Nat} : Indented d []
  | append {d : Nat} {xs ys : List (Nat × Instr)} (hXs : Indented d xs) (hYs : Indented d ys) :
      Indented d (xs ++ ys)
  | single {d : Nat} {i : Instr} (hOp : i.op ∉ [.block, .loop, .ifOp, .elseOp, .endOp]) :
      Indented d [(d, i)]
  | block {d : Nat} {i : Instr} {xs : List (Nat × Instr)} (hOp : i.op ∈ [.block, .loop, .ifOp])
      (hXs : Indented (d + 1) xs) : Indented d ((d, i) :: (xs ++ [(d, .plain .endOp)]))
  | branchElse {d : Nat} {i : Instr} {xs ys : List (Nat × Instr)} (hOp : i.op = .ifOp)
      (hXs : Indented (d + 1) xs) (hYs : Indented (d + 1) ys) :
      Indented d ((d, i) :: (xs ++ ((d, .plain .elseOp) :: (ys ++ [(d, .plain .endOp)]))))

/-- The lines of instructions with their depths. -/
def linesOf (xs : List (Nat × Instr)) : List String := xs.map fun x => x.2.line x.1

/-- The bytes of instructions with their depths. -/
def bytesOf (xs : List (Nat × Instr)) : Bytes := Code.encode (Code.ofInstrs (xs.map Prod.snd))

/-- An index of an instruction is a number of 32 bits. -/
def Instr.IndexFits (i : Instr) : Prop := ∀ n, i.arg = .index n → n < 2 ^ 32

theorem Instr.Encodable.exists_index {i : Instr} (h : i.Encodable)
    (hOp : i.op.immediate = .index) : ∃ n, i.arg = .index n := by
  cases hArg : i.arg <;> simp [Encodable, hOp, hArg] at h ⊢

/-- An instruction that was encoded is read back, if its index fits. -/
theorem Instr.Encodable.read?_encode {i : Instr} (h : i.Encodable) (hIndex : i.IndexFits)
    (rest : Bytes) : Instr.read? (i.encode ++ rest) = some (i, rest) := by
  have hArg : Argument.read? i.op (i.arg.encode ++ rest) = some (i.arg, rest) := by
    by_cases hOp : i.op.immediate = .index
    · obtain ⟨n, hArg⟩ := h.exists_index hOp
      have hRead := @Leb128.readUnsigned?_unsigned 32 n (hIndex n hArg) rest
      simp [Argument.read?, hOp, hArg, Argument.encode, hRead]
    · have hWide := h.readWide?_arg rest
      rwa [Argument.readWide?, if_neg hOp] at hWide
  simp [read?, encode, Opcode.ofByte?_formatByte, hArg]

/-- The instructions that neither open nor close a block. -/
theorem Opcode.opens_eq_false_iff {op : Opcode} : op.opens = false ∧ op.closes = false ↔
    op ∉ [.block, .loop, .ifOp, .elseOp, .endOp] := by
  cases op <;> decide

/-- Bytes are listed as lines, from a depth to a depth, whatever follows them. -/
def Lists (d d' : Nat) (bytes : Bytes) (ls : List String) : Prop :=
  ∀ offset rest, ∃ offset', Instr.lines offset d (bytes ++ rest) =
    (Instr.lines offset' d' rest).map (ls ++ ·)

namespace Lists

theorem nil (d : Nat) : Lists d d [] [] := by
  intro offset rest
  refine ⟨offset, ?_⟩
  rw [List.nil_append]
  cases Instr.lines offset d rest <;> rfl

/-- Bytes are listed after the bytes before them, from the depth that these lead to. -/
theorem append {d d' d'' : Nat} {bytes bytes' : Bytes} {ls ls' : List String}
    (h : Lists d d' bytes ls) (h' : Lists d' d'' bytes' ls') :
    Lists d d'' (bytes ++ bytes') (ls ++ ls') := by
  intro offset rest
  obtain ⟨mid, hFirst⟩ := h offset (bytes' ++ rest)
  obtain ⟨last, hSecond⟩ := h' mid rest
  refine ⟨last, ?_⟩
  rw [List.append_assoc, hFirst, hSecond]
  cases Instr.lines last d'' rest with
  | error e => rfl
  | ok ls'' => simp [Except.map]

/-- The depth after an instruction, given its own. -/
theorem instr {i : Instr} {d inner : Nat} (hI : i.Encodable) (hIndex : i.IndexFits)
    (hDepth : i.depthOf? d = some inner) :
    Lists d (if i.op.opens then inner + 1 else inner) i.encode [i.line inner] := by
  intro offset rest
  have hRead := hI.read?_encode hIndex rest
  have hBytes : (i.encode ++ rest).isEmpty = false := by simp [Instr.encode]
  generalize i.encode ++ rest = bytes at hRead hBytes ⊢
  fun_cases Instr.lines offset d bytes with
  | case1 hEmpty => cases hBytes.symm.trans hEmpty
  | case2 _ hNone => cases hNone.symm.trans hRead
  | case3 _ j tail hSome hNone =>
      cases hSome.symm.trans hRead
      cases hNone.symm.trans hDepth
  | case4 _ j tail hSome depth hInner =>
      cases hSome.symm.trans hRead
      cases hInner.symm.trans hDepth
      exact ⟨_, rfl⟩

/-- An instruction that opens a block is shown outside of it, and what follows is inside. -/
theorem opening {i : Instr} {d : Nat} (hI : i.Encodable) (hIndex : i.IndexFits)
    (hOp : i.op ∈ [.block, .loop, .ifOp]) : Lists d (d + 1) i.encode [i.line d] := by
  have hOps : ∀ op ∈ [Opcode.block, .loop, .ifOp], op.opens = true ∧ op.closes = false := by decide
  obtain ⟨hOpens, hCloses⟩ := hOps i.op hOp
  have hInstr := @instr i d d hI hIndex (by simp [Instr.depthOf?, hCloses])
  rwa [hOpens, if_pos rfl] at hInstr

/-- An instruction without a block is shown at the depth that it stands at. -/
theorem single {i : Instr} {d : Nat} (hI : i.Encodable) (hIndex : i.IndexFits)
    (hOp : i.op ∉ [.block, .loop, .ifOp, .elseOp, .endOp]) : Lists d d i.encode [i.line d] := by
  obtain ⟨hOpens, hCloses⟩ := Opcode.opens_eq_false_iff.2 hOp
  have hInstr := @instr i d d hI hIndex (by simp [Instr.depthOf?, hCloses])
  rwa [hOpens, if_neg (by simp)] at hInstr

/-- An `else` is shown at the depth of the instruction that opened its block. -/
theorem elseOp (d : Nat) :
    Lists (d + 1) (d + 1) (Instr.plain .elseOp).encode [(Instr.plain .elseOp).line d] :=
  @instr (.plain .elseOp) (d + 1) d (Instr.encodable_plain rfl) nofun rfl

/-- An `end` is shown at the depth of the instruction that opened its block, and closes it. -/
theorem endOp (d : Nat) :
    Lists (d + 1) d (Instr.plain .endOp).encode [(Instr.plain .endOp).line d] :=
  @instr (.plain .endOp) (d + 1) d (Instr.encodable_plain rfl) nofun rfl

end Lists

@[simp] theorem bytesOf_nil : bytesOf [] = [] := rfl

@[simp] theorem bytesOf_cons (x : Nat × Instr) (xs : List (Nat × Instr)) :
    bytesOf (x :: xs) = x.2.encode ++ bytesOf xs := rfl

@[simp] theorem bytesOf_append (xs ys : List (Nat × Instr)) :
    bytesOf (xs ++ ys) = bytesOf xs ++ bytesOf ys := by
  rw [bytesOf, List.map_append, Code.encode_ofInstrs_append]
  rfl

@[simp] theorem linesOf_nil : linesOf [] = [] := rfl

@[simp] theorem linesOf_cons (x : Nat × Instr) (xs : List (Nat × Instr)) :
    linesOf (x :: xs) = x.2.line x.1 :: linesOf xs := rfl

@[simp] theorem linesOf_append (xs ys : List (Nat × Instr)) :
    linesOf (xs ++ ys) = linesOf xs ++ linesOf ys := List.map_append

/-- Instructions are listed with their depths, and at the end as many blocks are open as at the
start. -/
theorem Indented.lists {d : Nat} {xs : List (Nat × Instr)} (h : Indented d xs)
    (hXs : ∀ x ∈ xs, x.2.Encodable ∧ x.2.IndexFits) : Lists d d (bytesOf xs) (linesOf xs) := by
  induction h with
  | @nil d => exact .nil d
  | append _ _ ihXs ihYs =>
      rw [List.forall_mem_append] at hXs
      rw [bytesOf_append, linesOf_append]
      exact (ihXs hXs.1).append (ihYs hXs.2)
  | @single d i hOp =>
      obtain ⟨hI, hIndex⟩ := hXs (d, i) List.mem_cons_self
      exact (Lists.single hI hIndex hOp).append (.nil d)
  | @block d i xs hOp _ ih =>
      rw [List.forall_mem_cons, List.forall_mem_append] at hXs
      obtain ⟨⟨hI, hIndex⟩, hInner, -⟩ := hXs
      have hBody := (ih hInner).append (.endOp d)
      simpa using (Lists.opening hI hIndex hOp).append hBody
  | @branchElse d i xs ys hOp _ _ ihXs ihYs =>
      simp only [List.forall_mem_cons, List.forall_mem_append] at hXs
      obtain ⟨⟨hI, hIndex⟩, hYes, -, hNo, -⟩ := hXs
      have hElse := (Lists.elseOp d).append ((ihYs hNo).append (.endOp d))
      have hBody := (ihXs hYes).append hElse
      simpa using (Lists.opening hI hIndex (by simp [hOp])).append hBody

/-- A whole body is listed line by line. -/
theorem Indented.lines_eq {xs : List (Nat × Instr)} (h : Indented 0 xs)
    (hXs : ∀ x ∈ xs, x.2.Encodable ∧ x.2.IndexFits) :
    Instr.lines 0 0 (bytesOf xs) = .ok (linesOf xs) := by
  obtain ⟨offset, hLines⟩ := h.lists hXs 0 []
  have hNil : Instr.lines offset 0 [] = .ok [] := by rw [Instr.lines, List.isEmpty_nil, if_pos rfl]
  rw [List.append_nil, hNil] at hLines
  simpa [Except.map] using hLines

/-- Instructions that can be listed at any depth, with indices that fit. -/
structure Listable (is : List Instr) : Prop where
  indented : ∀ d, ∃ xs, xs.map Prod.snd = is ∧ Indented d xs
  indices : ∀ i ∈ is, i.IndexFits

/-- An instruction that neither opens nor closes a block, with an index that fits. -/
structure Instr.Stands (i : Instr) : Prop where
  op : i.op ∉ [.block, .loop, .ifOp, .elseOp, .endOp]
  index : i.IndexFits

/-- All of some instructions stand on their own. -/
def AllStand (is : List Instr) : Prop := ∀ i ∈ is, i.Stands

@[simp] theorem allStand_nil : AllStand [] := List.forall_mem_nil _

@[simp] theorem allStand_cons {i : Instr} {is : List Instr} :
    AllStand (i :: is) ↔ i.Stands ∧ AllStand is :=
  List.forall_mem_cons

@[simp] theorem allStand_append {is js : List Instr} :
    AllStand (is ++ js) ↔ AllStand is ∧ AllStand js :=
  List.forall_mem_append

namespace Listable

/-- Code after code that closes all its blocks closes all its blocks. -/
theorem append {is js : List Instr} (hIs : Listable is) (hJs : Listable js) :
    Listable (is ++ js) where
  indented d := by
    obtain ⟨xs, rfl, hXs⟩ := hIs.indented d
    obtain ⟨ys, rfl, hYs⟩ := hJs.indented d
    exact ⟨xs ++ ys, List.map_append, hXs.append hYs⟩
  indices := List.forall_mem_append.2 ⟨hIs.indices, hJs.indices⟩

/-- Code without blocks can be listed. -/
theorem of_allStand {is : List Instr} (h : AllStand is) : Listable is where
  indented d := by
    induction is with
    | nil => exact ⟨[], rfl, .nil⟩
    | cons i is ih =>
        obtain ⟨hI, hIs⟩ := allStand_cons.1 h
        obtain ⟨xs, rfl, hXs⟩ := ih hIs
        exact ⟨(d, i) :: xs, rfl, (Indented.single hI.op).append hXs⟩
  indices i hI := (h i hI).index

/-- A block around code that can be listed can be listed. -/
theorem block {i : Instr} {is : List Instr} (hOp : i.op ∈ [.block, .loop, .ifOp])
    (hIndex : i.IndexFits) (hIs : Listable is) : Listable (i :: (is ++ [.plain .endOp])) where
  indented d := by
    obtain ⟨xs, rfl, hXs⟩ := hIs.indented (d + 1)
    exact ⟨_, by simp, .block hOp hXs⟩
  indices := by
    have hEnd : ∀ j ∈ [Instr.plain .endOp], j.IndexFits := by simp [Instr.IndexFits, Instr.plain]
    exact List.forall_mem_cons.2 ⟨hIndex, List.forall_mem_append.2 ⟨hIs.indices, hEnd⟩⟩

/-- So can two blocks with an `else` between them. -/
theorem branchElse {is js : List Instr} (hIs : Listable is) (hJs : Listable js) :
    Listable (.ifOp :: (is ++ (.plain .elseOp :: (js ++ [.plain .endOp])))) where
  indented d := by
    obtain ⟨xs, rfl, hXs⟩ := hIs.indented (d + 1)
    obtain ⟨ys, rfl, hYs⟩ := hJs.indented (d + 1)
    exact ⟨_, by simp, @Indented.branchElse d .ifOp _ _ rfl hXs hYs⟩
  indices := by
    have hIf : Instr.ifOp.IndexFits := nofun
    have hElse : (Instr.plain .elseOp).IndexFits := nofun
    have hEnd : ∀ j ∈ [Instr.plain .endOp], j.IndexFits := by simp [Instr.IndexFits, Instr.plain]
    refine List.forall_mem_cons.2 ⟨hIf, List.forall_mem_append.2 ⟨hIs.indices, ?_⟩⟩
    exact List.forall_mem_cons.2 ⟨hElse, List.forall_mem_append.2 ⟨hJs.indices, hEnd⟩⟩

end Listable

end Wasm

section Emitted

variable {fs : List Callable} {Γ : Env} {r : Ty}

theorem Wasm.Opcode.IsOperator.stands {op : Opcode} (h : op.IsOperator) :
    (Instr.plain op).Stands :=
  ⟨Opcode.opens_eq_false_iff.1 ⟨h.opens, h.closes⟩, nofun⟩

/-- The constant of a number stands on its own. -/
theorem Literal.stands_lower (v : Literal) : v.lower.1.Stands := by
  cases v <;> exact ⟨Opcode.opens_eq_false_iff.1 ⟨rfl, rfl⟩, nofun⟩

theorem Wasm.Instr.stands_minusOne? {stored : ValType} {i : Instr}
    (h : minusOne? stored = some i) : i.Stands := by
  cases stored <;> cases h <;> exact ⟨by decide, nofun⟩

theorem Wasm.Instr.stands_index {op : Opcode} {n : Nat}
    (hOp : op ∉ [.block, .loop, .ifOp, .elseOp, .endOp]) (hN : n < 2 ^ 32) :
    Stands ⟨op, .index n⟩ := by
  refine ⟨hOp, fun m hM => ?_⟩
  cases hM
  exact hN

theorem Wasm.Instr.stands_i32Const (v : Int32) : (i32Const v).Stands :=
  ⟨Opcode.opens_eq_false_iff.1 ⟨rfl, rfl⟩, nofun⟩

/-- The access to a variable has an index that fits, if there are not too many variables. -/
theorem Wasm.Instr.stands_slot {x : String × Ty} {slot : Nat} (hVars : Γ.length ≤ 2 ^ 32)
    (hAt : Γ[slot]? = some x) : (localGet slot).Stands ∧ (localSet slot).Stands := by
  have hSlot : slot < 2 ^ 32 := (List.getElem?_eq_some_iff.1 hAt).1.trans_le hVars
  exact ⟨stands_index (by decide) hSlot, stands_index (by decide) hSlot⟩

/-- A call has an index that fits, if there are not too many functions. -/
theorem Wasm.Instr.stands_call {f : Callable} {index : Nat} (hFuns : fs.length ≤ 2 ^ 32)
    (hAt : fs[index]? = some f) : (call index).Stands :=
  stands_index (by decide) ((List.getElem?_eq_some_iff.1 hAt).1.trans_le hFuns)

mutual

/-- The code of an expression has no blocks. -/
theorem Expr.Emits.allStand (hFuns : fs.length ≤ 2 ^ 32) (hVars : Γ.length ≤ 2 ^ 32) :
    ∀ {e : Expr} {t : Ty} {is : List Instr}, e.Emits fs Γ t is → AllStand is
  | _, _, _, .ident hVar => by simp [(Instr.stands_slot hVars hVar).1]
  | _, _, _, .number _ => by simp [Literal.stands_lower]
  | _, _, _, .bool => by simp [Instr.stands_i32Const]
  | _, _, _, .assign hVar hValue => by
      simp [hValue.allStand hFuns hVars, (Instr.stands_slot hVars hVar).2]
  | _, _, _, .binary hLeft hRight _ hCode => by
      simp [hLeft.allStand hFuns hVars, hRight.allStand hFuns hVars,
        (BinaryOp.isOperator_of_opcode? hCode).stands]
  | _, _, _, .plus hOperand _ => hOperand.allStand hFuns hVars
  | _, _, _, .neg hOperand _ _ hOne hMul => by
      simp [hOperand.allStand hFuns hVars, Instr.stands_minusOne? hOne,
        (BinaryOp.isOperator_of_opcode? hMul).stands]
  | _, _, _, .not hOperand => by
      have hXor : (Instr.plain .i32Xor).Stands := ⟨by decide, nofun⟩
      simp [hOperand.allStand hFuns hVars, Instr.stands_i32Const, hXor]
  | _, _, _, @Expr.Emits.cast _ _ _ _ _ _ source stored _ hOperand _ _ _ => by
      refine allStand_append.2 ⟨hOperand.allStand hFuns hVars, ?_⟩
      cases hCode : conversion? source stored with
      | none => simp
      | some opcode => simp [(isOperator_of_conversion? hCode).stands]
  | _, _, _, .call hCallee hArgs => by
      simp [hArgs.allStand hFuns hVars, Instr.stands_call hFuns hCallee]

theorem Expr.AllEmit.allStand (hFuns : fs.length ≤ 2 ^ 32) (hVars : Γ.length ≤ 2 ^ 32) :
    ∀ {es : List Expr} {ts : List Ty} {is : List Instr}, AllEmit fs Γ es ts is → AllStand is
  | _, _, _, .nil => by simp
  | _, _, _, .cons hHead hTail =>
      allStand_append.2 ⟨hHead.allStand hFuns hVars, hTail.allStand hFuns hVars⟩

end

mutual

/-- The code of a statement closes the blocks that it opens. -/
theorem Stmt.Emits.listable (hFuns : fs.length ≤ 2 ^ 32) (hVars : Γ.length ≤ 2 ^ 32) :
    ∀ {s : Stmt} {is : List Instr}, s.Emits fs Γ r is → Listable is
  | _, _, .var => .of_allStand allStand_nil
  | _, _, .varInit hVar hInit => by
      apply Listable.of_allStand
      simp [hInit.allStand hFuns hVars, (Instr.stands_slot hVars hVar).2]
  | _, _, .branch hChain => hChain.listable hFuns hVars
  | _, _, .loop hCond hBody => by
      have hBr : AllStand [.br 1] :=
        allStand_cons.2 ⟨Instr.stands_index (by decide) (by decide), allStand_nil⟩
      have hInner := (hBody.listable hFuns hVars).append (.of_allStand hBr)
      have hIf := Listable.block (i := .ifOp) (by decide) nofun hInner
      have hTest := Listable.of_allStand (hCond.allStand hFuns hVars)
      exact .block (by decide) nofun (hTest.append hIf)
  | _, _, .ret hValue => by
      have hRet : (Instr.plain .ret).Stands := ⟨by decide, nofun⟩
      apply Listable.of_allStand
      simp [hValue.allStand hFuns hVars, hRet]
  | _, _, .eval hExpr _ => by
      have hDrop : (Instr.plain .drop).Stands := ⟨by decide, nofun⟩
      apply Listable.of_allStand
      simp [hExpr.allStand hFuns hVars, hDrop]
  | _, _, .evalVoid hExpr => .of_allStand (hExpr.allStand hFuns hVars)

theorem Stmt.AllEmit.listable (hFuns : fs.length ≤ 2 ^ 32) (hVars : Γ.length ≤ 2 ^ 32) :
    ∀ {ss : List Stmt} {is : List Instr}, AllEmit fs Γ r ss is → Listable is
  | _, _, .nil => .of_allStand allStand_nil
  | _, _, .cons hHead hTail => (hHead.listable hFuns hVars).append (hTail.listable hFuns hVars)

/-- A chain of branches is a block in a block, and each of them is closed. -/
theorem Stmt.ChainEmits.listable (hFuns : fs.length ≤ 2 ^ 32) (hVars : Γ.length ≤ 2 ^ 32) :
    ∀ {conds : List Expr} {blocks : List (List Stmt)} {is : List Instr},
      ChainEmits fs Γ r conds blocks is → Listable is
  | _, _, _, .last hCond hBlock =>
      (Listable.of_allStand (hCond.allStand hFuns hVars)).append
        (.block (by decide) nofun (hBlock.listable hFuns hVars))
  | _, _, _, .orElse hCond hBlock hOther =>
      (Listable.of_allStand (hCond.allStand hFuns hVars)).append
        (.branchElse (hBlock.listable hFuns hVars) (hOther.listable hFuns hVars))
  | _, _, _, .more hCond hBlock hMore =>
      (Listable.of_allStand (hCond.allStand hFuns hVars)).append
        (.branchElse (hBlock.listable hFuns hVars) (hMore.listable hFuns hVars))

end

/-- What is added at the end of a function can be listed. -/
theorem Function.listable_ending (r : Ty) (stmts : List Stmt) : Listable (ending r stmts) := by
  have hTrap : (Instr.plain .unreachable).Stands := ⟨by decide, nofun⟩
  apply Listable.of_allStand
  unfold ending
  by_cases hEnds : r ≠ .void ∧ (!endsInRet stmts) = true
  · rw [if_pos hEnds]
    simp [hTrap]
  · rw [if_neg hEnds]
    simp

end Emitted

/-- Every function and every variable has an index of 32 bits, as many as the format has for one. -/
structure Symbols.IsAddressable (symbols : Symbols) : Prop where
  functions : symbols.functions.length ≤ 2 ^ 32
  vars : ∀ f ∈ symbols.functions, f.locals.entries.length ≤ 2 ^ 32

/-- A function with the instructions that it is lowered to, as deep as their blocks. -/
inductive Stmt.IsListed (symbols : Symbols) : Stmt → List (Nat × Instr) → Prop where
  | function {s : Span} {type : String} {params : List Declaration} {stmts : List Stmt}
      {f : Function} {xs : List (Nat × Instr)} (hMem : f ∈ symbols.functions)
      (hCode : Function.lowerCode ⟨symbols.signatures, f.locals⟩ f.signature.ret stmts =
        .ok (Code.ofInstrs (xs.map Prod.snd)))
      (hDepth : Indented 0 xs) :
      IsListed symbols (.function s type f.signature.name params stmts) xs

/-- A body of a function that holds some instructions and is read back as them. -/
structure Function.Shows (f : Function) (row : Body × List (Nat × Instr)) : Prop where
  locals : row.1.locals.map some = (f.locals.locals.map Variable.type).map Ty.storage?
  code : row.1.code = bytesOf row.2
  encodable : ∀ x ∈ row.2, x.2.Encodable
  lines : Instr.lines 0 0 row.1.code = .ok (linesOf row.2)

/-- The body of a function shows what the function is lowered to. -/
theorem Stmt.ChecksTo.exists_shows {symbols : Symbols} {stmt : Stmt} {f : Function} {body : Body}
    (hFits : symbols.IsAddressable) (hChecks : stmt.ChecksTo symbols.callables f)
    (hMem : f ∈ symbols.functions) (hRaw : stmt.isRawFree = true) (hShape : stmt.isShaped = true)
    (hLowers : stmt.LowersTo symbols body) :
    ∃ xs, stmt.IsListed symbols xs ∧ f.Shows (body, xs) := by
  have hFuns : symbols.callables.length ≤ 2 ^ 32 := by
    simpa [Symbols.callables_eq] using hFits.functions
  have hSlots := hFits.vars f hMem
  cases hChecks with
  | @function s name r params stmts _ Γ others gs _ _ _ hVars hGs hTyped =>
      cases hLowers with
      | function hLower =>
          obtain ⟨is, hLowered, hEmits, hLocals, hCode⟩ :=
            Function.emits_of_lower hMem hVars hGs hTyped hRaw hShape hLower
          have hLength : (Γ ++ others).length ≤ 2 ^ 32 := by
            rwa [← hVars.env, Locals.env, List.length_map]
          have hListable :=
            (hEmits.listable hFuns hLength).append (Function.listable_ending r stmts)
          have hEncodable : AllEncodable (is ++ Function.ending r stmts) :=
            allEncodable_append.2 ⟨hEmits.encodable, Function.encodable_ending r stmts⟩
          obtain ⟨xs, hXs, hIndented⟩ := hListable.indented 0
          rw [← hXs] at hLowered hCode hEncodable
          have hAll : ∀ x ∈ xs, x.2.Encodable := fun x hX =>
            hEncodable x.2 (List.mem_map_of_mem hX)
          refine ⟨xs, .function hMem hLowered hIndented, ?_, hCode, hAll, ?_⟩
          · rw [hLocals, hVars.locals, List.map_map]
            rfl
          · rw [hCode]
            exact hIndented.lines_eq fun x hX =>
              ⟨hAll x hX, hListable.indices x.2 (hXs ▸ List.mem_map_of_mem hX)⟩

/-- The functions of a program, one after the other. -/
theorem Program.exists_listings {symbols : Symbols} {p : Program} {functions : List Function}
    {code : List Body} (hFits : symbols.IsAddressable)
    (hChecks : List.Forall₂ (Stmt.ChecksTo symbols.callables) p functions)
    (hMem : ∀ f ∈ functions, f ∈ symbols.functions) (hRaw : ∀ s ∈ p, s.isRawFree = true)
    (hShape : ∀ s ∈ p, s.isShaped = true)
    (hBodies : List.Forall₂ (Stmt.LowersTo symbols) p code) :
    ∃ rows, rows.map Prod.fst = code ∧
      List.Forall₂ (Stmt.IsListed symbols) p (rows.map Prod.snd) ∧
      List.Forall₂ Function.Shows functions rows := by
  induction hBodies generalizing functions with
  | nil =>
      cases hChecks
      exact ⟨[], rfl, .nil, .nil⟩
  | @cons _ body _ _ hHead _ ih =>
      cases hChecks with
      | cons hCheck hChecks =>
          rw [List.forall_mem_cons] at hMem hRaw hShape
          obtain ⟨xs, hListed, hShows⟩ :=
            hCheck.exists_shows hFits hMem.1 hRaw.1 hShape.1 hHead
          obtain ⟨rows, rfl, hOthers, hRows⟩ := ih hChecks hMem.2 hRaw.2 hShape.2
          exact ⟨(body, xs) :: rows, rfl, .cons hListed hOthers, .cons hShows hRows⟩

section Texts

/-- What the values of a type are called in the text of a module. -/
def Ty.storedName : Ty → String
  | .i32 | .bool => "i32"
  | .i64 => "i64"
  | .f32 => "f32"
  | .f64 => "f64"
  | .void => ""

/-- The parameters and the result of a function as text, if it has any. -/
def Signature.heading (s : Signature) : String :=
  (if s.params = [] then ""
    else " (param" ++ String.join (s.params.map fun t => " " ++ t.storedName) ++ ")") ++
  if s.ret = .void then "" else " (result " ++ s.ret.storedName ++ ")"

/-- Function number `index` as text, with the given lines of code. -/
def Function.listing (index : Nat) (f : Function) (lines : List String) : String :=
  "  (func $" ++ f.signature.name ++ " (;" ++ toString index ++ ";) (type " ++ toString index ++
    ")" ++ f.signature.heading ++ "\n" ++
    String.join (f.locals.locals.map fun v => "    (local " ++ v.type.storedName ++ ")\n") ++
    String.join lines ++ "  )\n"

/-- The module of a program as text, with the given lines of code for each of its functions: the
types of the functions, the functions, the memory and the exports. -/
def Symbols.listing (symbols : Symbols) (code : List (List String)) : String :=
  "(module\n" ++
    String.join (symbols.signatures.entries.mapIdx fun i s =>
      "  (type (;" ++ toString i ++ ";) (func" ++ s.heading ++ "))\n") ++
    String.join ((symbols.functions.zip code).mapIdx fun i f => f.1.listing i f.2) ++
    "  (memory (;0;) 1 10)\n" ++
    String.join (symbols.signatures.entries.mapIdx fun i s =>
      "  (export \"" ++ s.name ++ "\" (func " ++ toString i ++ "))\n") ++
    "  (export \"memory\" (memory 0))\n)\n"

/-- A stored type is shown under the name of the type that stores it. -/
theorem Ty.textName_of_storage? {t : Ty} {stored : ValType} (h : t.storage? = some stored) :
    stored.textName = t.storedName := by
  cases t <;> cases h <;> rfl

theorem Ty.map_textName {ts : List Ty} {stored : List ValType}
    (h : stored.map some = ts.map storage?) :
    stored.map ValType.textName = ts.map storedName := by
  induction ts generalizing stored with
  | nil => simpa using h
  | cons t ts ih =>
      cases stored with
      | nil => cases h
      | cons first stored =>
          obtain ⟨hFirst, hRest⟩ := List.cons.inj h
          rw [List.map_cons, List.map_cons, ih hRest, textName_of_storage? hFirst.symm]

/-- The type of a function is shown as the heading of its signature. -/
theorem Function.HasFuncType.text_eq {s : Signature} {type : FuncType} (h : HasFuncType s type) :
    type.text = s.heading := by
  have hNames := Ty.map_textName h.params
  have hEmpty : type.params.isEmpty = true ↔ s.params = [] := by
    rw [List.isEmpty_iff, ← List.map_eq_nil_iff, hNames, List.map_eq_nil_iff]
  have hParams : ValType.textList "param" type.params = if s.params = [] then "" else
      " (param" ++ String.join (s.params.map fun t => " " ++ t.storedName) ++ ")" := by
    have hWords := congrArg (List.map (" " ++ ·)) hNames
    rw [List.map_map, List.map_map] at hWords
    by_cases hNone : s.params = []
    · rw [ValType.textList, if_pos (hEmpty.2 hNone), if_pos hNone]
    · rw [ValType.textList, if_neg (mt hEmpty.1 hNone), if_neg hNone]
      exact congrArg (fun words => " (param" ++ String.join words ++ ")") hWords
  have hResult : ValType.textList "result" type.results =
      if s.ret = .void then "" else " (result " ++ s.ret.storedName ++ ")" := by
    rw [h.results]
    cases s.ret <;> rfl
  rw [FuncType.text, hParams, hResult, Signature.heading]

/-- A function is shown under its own name: it is the first that is exported at its index. -/
theorem Wasm.Module.functionName?_eq {m : Module} {entries : List Signature}
    (h : m.exports = (entries.mapIdx fun i s => ⟨s.name, .func, i⟩) ++
      [⟨memoryExport, .memory, 0⟩]) {i : Nat} {s : Signature} (hAt : entries[i]? = some s) :
    m.functionName? i = some s.name := by
  obtain ⟨hLess, hS⟩ := List.getElem?_eq_some_iff.1 hAt
  have hFind : (entries.mapIdx fun i s => (⟨s.name, .func, i⟩ : Export)).find?
      (fun e => e.kind = .func ∧ e.index = i) = some ⟨s.name, .func, i⟩ := by
    refine List.find?_eq_some_iff_getElem.2 ⟨by simp, i, by simpa using hLess, ?_, ?_⟩
    · simp [hS]
    · intro j hJ
      simp [hJ.ne]
  rw [functionName?, h, List.find?_append, hFind]
  rfl

/-- The functions of a module are exported under their names and indices, the memory after them. -/
theorem Wasm.Module.join_exportText {m : Module} {entries : List Signature}
    (h : m.exports = (entries.mapIdx fun i s => ⟨s.name, .func, i⟩) ++
      [⟨memoryExport, .memory, 0⟩]) :
    String.join (m.exports.map exportText) =
      String.join (entries.mapIdx fun i s =>
        "  (export \"" ++ s.name ++ "\" (func " ++ toString i ++ "))\n") ++
      "  (export \"memory\" (memory 0))\n" := by
  have hExport (i : Nat) (s : Signature) : exportText ⟨s.name, .func, i⟩ =
      "  (export \"" ++ s.name ++ "\" (func " ++ toString i ++ "))\n" := by
    have hKind : "\" (" ++ ("func" ++ " ") = "\" (func " := rfl
    simp only [exportText, ExportKind.name, String.append_assoc, ← hKind]
  have hLines : (entries.mapIdx fun i s => (⟨s.name, .func, i⟩ : Export)).map exportText =
      entries.mapIdx fun i s =>
        "  (export \"" ++ s.name ++ "\" (func " ++ toString i ++ "))\n" := by
    refine List.ext_getElem? fun i => ?_
    simp only [List.getElem?_map, List.getElem?_mapIdx, Option.map_map, Function.comp_def,
      hExport]
  have hLast : exportText ⟨memoryExport, .memory, 0⟩ = "  (export \"memory\" (memory 0))\n" := by
    decide
  rw [h, List.map_append, String.join_append, hLines, List.map_singleton, hLast,
    String.join_cons, String.join_nil, String.append_empty]

/-- A function whose body shows some instructions is printed with their lines. -/
theorem Function.Shows.functionText_eq {m : Module} {f : Function}
    {row : Body × List (Nat × Instr)} (h : f.Shows row) {index : Nat} {type : FuncType}
    (hName : m.functionName? index = some f.signature.name)
    (hType : m.types[index]? = some type) (hFuncType : HasFuncType f.signature type) :
    m.functionText index index row.1 = .ok (f.listing index (linesOf row.2)) := by
  have hLocals : row.1.locals.map (fun t => "    (local " ++ t.textName ++ ")\n") =
      f.locals.locals.map fun v => "    (local " ++ v.type.storedName ++ ")\n" := by
    have hNames := congrArg (List.map fun name => "    (local " ++ name ++ ")\n")
      (Ty.map_textName h.locals)
    simpa only [List.map_map, Function.comp_def] using hNames
  have hOpen (rest : String) : "  (func" ++ (" $" ++ rest) = "  (func $" ++ rest := by
    have hWord : "  (func" ++ " $" = "  (func $" := by decide
    rw [← String.append_assoc, hWord]
  rw [Module.functionText, Body.text, h.lines, hLocals, hName, hType]
  unfold Function.listing
  simp only [Except.map, Option.map_some, Option.getD_some, hFuncType.text_eq,
    String.append_assoc, hOpen]

/-- The texts of functions are joined in their order, if each of them has one. -/
theorem Wasm.Module.functionTexts_eq {m : Module} {row : List (Nat × Body)} {texts : List String}
    {index : Nat} (hLength : texts.length = row.length)
    (h : ∀ i type body, row[i]? = some (type, body) →
      ∃ text, texts[i]? = some text ∧ m.functionText (index + i) type body = .ok text) :
    m.functionTexts index row = .ok (String.join texts) := by
  induction row generalizing texts index with
  | nil =>
      obtain rfl := List.length_eq_zero_iff.1 hLength
      rfl
  | cons entry row ih =>
      obtain ⟨type, body⟩ := entry
      obtain ⟨first, texts, rfl⟩ := List.exists_cons_of_length_eq_add_one hLength
      obtain ⟨_, hFirst, hText⟩ := h 0 type body rfl
      cases hFirst
      have hRest := @ih texts (index + 1) (by simpa using hLength) fun i type body hAt => by
        have hNext := h (i + 1) type body (by simpa using hAt)
        simpa [Nat.add_assoc, Nat.add_comm 1] using hNext
      simp only [functionTexts]
      rw [show m.functionText index type body = .ok first from hText, hRest]
      simp [Except.map, String.join_cons]

end Texts

namespace Program

section Printed

variable {p : Program} {symbols : Symbols} {m : Module} {rows : List (Body × List (Nat × Instr))}

/-- The functions of a program whose bodies show some instructions are printed with their lines. -/
theorem functionTexts_of_shows (hLower : p.lower symbols = .ok m)
    (hCode : rows.map Prod.fst = m.code)
    (hShows : List.Forall₂ Function.Shows symbols.functions rows) :
    m.functionTexts 0 (m.funcs.zip m.code) = .ok (String.join
      ((symbols.functions.zip (rows.map fun row => linesOf row.2)).mapIdx fun i f =>
        f.1.listing i f.2)) := by
  obtain ⟨hTypes, -, hFuncs, -, hExports⟩ := lower_eq_ok hLower
  refine Module.functionTexts_eq ?_ fun i type body hAt => ?_
  · simp [hFuncs, ← hCode, ← hTypes.length_eq, ← symbols.length_functions, hShows.length_eq]
  · obtain ⟨hType, hBody⟩ := List.getElem?_zip_eq_some.1 hAt
    rw [hFuncs] at hType
    obtain ⟨hLess, rfl⟩ : i < m.types.length ∧ i = type := by
      simpa [List.getElem?_eq_some_iff] using hType
    rw [← hCode, List.getElem?_map, Option.map_eq_some_iff] at hBody
    obtain ⟨row, hRow, rfl⟩ := hBody
    obtain ⟨f, hF, hShow⟩ := forall₂_getElem? hShows hRow
    have hSignature := Symbols.getElem?_signatures hF
    obtain ⟨t, hT, hFuncType⟩ := forall₂_getElem? hTypes.flip hSignature
    have hZip : (symbols.functions.zip (rows.map fun row => linesOf row.2))[i]? =
        some (f, linesOf row.2) := List.getElem?_zip_eq_some.2 ⟨hF, by simp [hRow]⟩
    refine ⟨f.listing i (linesOf row.2), by rw [List.getElem?_mapIdx, hZip]; rfl, ?_⟩
    rw [Nat.zero_add]
    exact hShow.functionText_eq (Module.functionName?_eq hExports hSignature) hT hFuncType

/-- The module of a program whose bodies show some instructions is printed with their lines. -/
theorem text_of_shows (hLower : p.lower symbols = .ok m) (hCode : rows.map Prod.fst = m.code)
    (hShows : List.Forall₂ Function.Shows symbols.functions rows) :
    m.text = .ok (symbols.listing (rows.map fun row => linesOf row.2)) := by
  obtain ⟨hTypes, -, -, hMemory, hExports⟩ := lower_eq_ok hLower
  have hTypeLines : m.types.mapIdx Module.typeText = symbols.signatures.entries.mapIdx fun i s =>
      "  (type (;" ++ toString i ++ ";) (func" ++ s.heading ++ "))\n" := by
    refine (mapIdx_eq_of_forall₂ (fun i s type h => ?_) hTypes).symm
    rw [Module.typeText, Function.HasFuncType.text_eq h]
  have hMemoryLine : Module.memoryText m.memory = "  (memory (;0;) 1 10)\n" := by
    rw [hMemory]
    decide
  have hEnd : "  (export \"memory\" (memory 0))\n)\n" =
      "  (export \"memory\" (memory 0))\n" ++ ")\n" := rfl
  rw [Module.text, functionTexts_of_shows hLower hCode hShows, hTypeLines, hMemoryLine,
    Module.join_exportText hExports]
  unfold Symbols.listing
  simp only [Except.map, hEnd, String.append_assoc]

end Printed

/-- The text of a module shows for each function the instructions that it is lowered to, each on a
line of its own with its name and its operand, as deep as its blocks, and all blocks are closed. So
a source compiles to the same bytes, whether its module is shown or not. -/
theorem text_shows_lowered {tokens : List Token} {p : Program} {symbols : Symbols} {m : Module}
    (hParse : ofTokens tokens = .ok p) (hRaw : Stmt.isRawFreeAll p = true)
    (hCheck : p.check = .ok symbols) (hLower : p.lower symbols = .ok m)
    (hFits : symbols.IsAddressable) :
    (∃ (listings : List (List (Nat × Instr))) (code : List (List String)),
      List.Forall₂ (Stmt.IsListed symbols) p listings ∧
      List.Forall₂ (fun body xs => body.code = bytesOf xs) m.code listings ∧
      List.Forall₂ (List.Forall₂ fun x line => x.2.IsLineOf x.1 line) listings code ∧
      (∀ lines ∈ code, ∀ line ∈ lines, IsLine line) ∧ m.text = .ok (symbols.listing code)) ∧
    ∀ source dumps, Token.ofText source = .ok tokens →
      (compileText dumps source).result = .ok m.encode := by
  obtain ⟨-, hBodies, -⟩ := lower_eq_ok hLower
  obtain ⟨rows, hCode, hListed, hShows⟩ :=
    exists_listings hFits (check_eq_ok hCheck) (fun f hF => hF) (Stmt.isRawFreeAll_iff.1 hRaw)
      (Stmt.isShapedAll_iff.1 (isShapedAll_of_ofTokens hParse)) hBodies
  have hText := text_of_shows hLower hCode hShows
  have hAll : ∀ row ∈ rows, ∃ f : Function, f.Shows row := by
    intro row hRow
    obtain ⟨i, hAt⟩ := List.mem_iff_getElem?.1 hRow
    obtain ⟨f, -, hShow⟩ := forall₂_getElem? hShows hAt
    exact ⟨f, hShow⟩
  constructor
  · refine ⟨rows.map Prod.snd, rows.map fun row => linesOf row.2, hListed, ?_, ?_, ?_, ?_⟩
    · rw [← hCode, List.forall₂_map_left_iff, List.forall₂_map_right_iff, List.forall₂_same]
      intro row hRow
      obtain ⟨f, hShow⟩ := hAll row hRow
      exact hShow.code
    · rw [List.forall₂_map_left_iff, List.forall₂_map_right_iff, List.forall₂_same]
      intro row hRow
      obtain ⟨f, hShow⟩ := hAll row hRow
      rw [linesOf, List.forall₂_map_right_iff, List.forall₂_same]
      exact fun x hX => (hShow.encodable x hX).isLineOf x.1
    · intro lines hLines line hLine
      obtain ⟨row, -, rfl⟩ := List.mem_map.1 hLines
      obtain ⟨x, -, rfl⟩ := List.mem_map.1 hLine
      exact x.2.isLine_line x.1
    · exact hText
  · intro source dumps hTokens
    have hModule : p.toModule = .ok m := by
      rw [toModule, hCheck]
      exact mapError_eq_ok.2 hLower
    exact result_compileText_of_toModule hTokens hParse hModule hText

/-- The tokens of `void f(bool b) { while (b) { if (b) b = false; else f(true); } }`. -/
def nestedTokens : List Token :=
  [(.type, "void"), (.ident, "f"), (.lparen, "("), (.type, "bool"), (.ident, "b"), (.rparen, ")"),
    (.lbrace, "\x7b"), (.kwWhile, "while"), (.lparen, "("), (.ident, "b"), (.rparen, ")"),
    (.lbrace, "\x7b"), (.kwIf, "if"), (.lparen, "("), (.ident, "b"), (.rparen, ")"),
    (.ident, "b"), (.assign, "="), (.kwFalse, "false"), (.semicolon, ";"), (.kwElse, "else"),
    (.ident, "f"), (.lparen, "("), (.kwTrue, "true"), (.rparen, ")"), (.semicolon, ";"),
    (.rbrace, "\x7d"), (.rbrace, "\x7d")].map fun word => ⟨word.1, word.2, .point 0⟩

theorem text_shows_lowered_nested :
    ∃ p symbols m, ofTokens nestedTokens = .ok p ∧ Stmt.isRawFreeAll p = true ∧
      p.check = .ok symbols ∧ p.lower symbols = .ok m ∧ symbols.IsAddressable ∧
      ∃ listings code, List.Forall₂ (Stmt.IsListed symbols) p listings ∧
        List.Forall₂ (List.Forall₂ fun x line => x.2.IsLineOf x.1 line) listings code ∧
        m.text = .ok (symbols.listing code) := by
  let b := Expr.ident (.point 0) "b"
  let p : Program := [.function (.point 0) "void" "f" [⟨.point 0, "bool", "b", none⟩]
    [.loop (.point 0) b [.branch (.point 0) [b]
      [[.eval (.point 0) (.assign (.point 0) "b" (.bool (.point 0) false))],
        [.eval (.point 0) (.call (.point 0) "f" [.bool (.point 0) true])]]]]]
  let symbols := Symbols.ofList
    [⟨⟨"f", .void, [.bool], .point 0⟩, .ofList [⟨"b", .bool, true⟩]⟩]
  have hRead : ofTokens nestedTokens = .ok p := by cbv
  have hRaw : Stmt.isRawFreeAll p = true := by cbv
  have hCheck : p.check = .ok symbols := by cbv
  obtain ⟨m, hLower⟩ : ∃ m, p.lower symbols = .ok m := ⟨_, rfl⟩
  have hFits : symbols.IsAddressable := ⟨by decide, by decide⟩
  obtain ⟨⟨listings, code, hListed, -, hLines, -, hText⟩, -⟩ :=
    text_shows_lowered hRead hRaw hCheck hLower hFits
  exact ⟨p, symbols, m, hRead, hRaw, hCheck, hLower, hFits, listings, code, hListed, hLines, hText⟩

end Program

end WasmCompiler
