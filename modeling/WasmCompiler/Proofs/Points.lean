import WasmCompiler.Proofs.Simulation

/-! The points that a run comes to. How a run ends does not tell what it does on the way, and a run
that goes on for ever has no end to tell; so what holds all the time is said of the points. -/

namespace WasmCompiler.Wasm

namespace Signal

/-- A block goes on after itself where it ends or jumps to its own end. -/
theorem leave_eq_next {arity : Nat} {outer : List Val} {signal : Signal} {g : Frame}
    (h : signal.leave arity outer = .next g) :
    ∃ inner, (signal = .next inner ∨ signal = .br 0 inner) ∧ g.locals = inner.locals := by
  match signal, h with
  | .next inner, rfl => exact ⟨inner, .inl rfl, rfl⟩
  | .br 0 inner, rfl => exact ⟨inner, .inr rfl, rfl⟩

/-- A jump out of a block is a jump one block further inside it. -/
theorem leave_eq_br {arity depth : Nat} {outer : List Val} {signal : Signal} {g : Frame}
    (h : signal.leave arity outer = .br depth g) : signal = .br (depth + 1) g := by
  match signal, h with
  | .br (_ + 1) _, rfl => rfl

end Signal

/-- The variables after an instruction. -/
theorem Instr.locals_of_step {i : Instr} {call : Calls} {f : Frame} {signal : Signal}
    (h : i.step call f = .done signal) :
    (i.op ∉ [.localSet, .localTee] → ∀ g, signal = .next g → g.locals = f.locals) ∧
      ∀ depth g, signal = .br depth g → g.locals = f.locals := by
  refine ⟨fun hKeeps g hNext => ?_, fun depth g hBr => ?_⟩
  · subst hNext
    unfold Instr.step at h
    split at h
    case h_2 =>
      split at h
      · split at h <;> cases h
        rfl
      · cases h
    case h_6 hOp _ => exact absurd (by simp [hOp]) hKeeps
    case h_7 hOp _ => exact absurd (by simp [hOp]) hKeeps
    case h_4 | h_5 | h_12 =>
      obtain ⟨_, -, hDone⟩ := Run.bind_eq_done.1 h
      cases hDone
      rfl
    case h_8 | h_9 | h_10 | h_11 =>
      cases h
      rfl
    all_goals cases h
  · subst hBr
    unfold Instr.step at h
    split at h
    case h_1 =>
      cases h
      rfl
    case h_2 =>
      split at h
      · split at h <;> cases h
        rfl
      · cases h
    case h_6 | h_7 =>
      split at h
      · split at h <;> cases h
      · cases h
    case h_4 | h_5 | h_12 =>
      obtain ⟨_, -, hDone⟩ := Run.bind_eq_done.1 h
      cases hDone
    all_goals cases h

namespace Structured

/-- The variables at the start of a loop and at the start of a later round of it. -/
inductive Rounds (call : Calls) (bound : Nat) (body : List Structured) :
    List Val → List Val → Prop where
  | first {locals : List Val} : Rounds call bound body locals locals
  | again {locals last : List Val} {f : Frame}
      (hRound : runAll call bound body ⟨locals, []⟩ = .done (.br 0 f))
      (h : Rounds call bound body f.locals last) : Rounds call bound body locals last

/-- A run of instructions from a frame comes to a point, with the instructions that are left of the
block around it and the frame there. A loop may go round more often than the bound says, so that
there may be more points than a run under the bound comes to, but not less. -/
inductive Passes (call : Calls) (bound : Nat) :
    List Structured → Frame → List Structured → Frame → Prop where
  | here {ts : List Structured} {f : Frame} : Passes call bound ts f ts f
  | next {t : Structured} {ts us : List Structured} {f g k : Frame}
      (hStep : run call bound t f = .done (.next g)) (h : Passes call bound ts g us k) :
      Passes call bound (t :: ts) f us k
  | block {arity : Nat} {body ts us : List Structured} {f k : Frame}
      (h : Passes call bound body ⟨f.locals, []⟩ us k) :
      Passes call bound (.block arity body :: ts) f us k
  | loop {body ts us : List Structured} {f k : Frame} {locals : List Val}
      (hRounds : Rounds call bound body f.locals locals)
      (h : Passes call bound body ⟨locals, []⟩ us k) : Passes call bound (.loop body :: ts) f us k
  | yes {arity : Nat} {yes no ts us : List Structured} {f k : Frame} {c : BitVec 32}
      {outer : List Val} (hStack : f.stack = .i32 c :: outer) (hTest : c ≠ 0)
      (h : Passes call bound yes ⟨f.locals, []⟩ us k) :
      Passes call bound (.branch arity yes no :: ts) f us k
  | no {arity : Nat} {yes no ts us : List Structured} {f k : Frame} {outer : List Val}
      (hStack : f.stack = .i32 0 :: outer) (h : Passes call bound no ⟨f.locals, []⟩ us k) :
      Passes call bound (.branch arity yes no :: ts) f us k

variable {call : Calls} {bound : Nat} {body ts us vs : List Structured} {f g k : Frame}

/-- What a loop does is done by one of its rounds. -/
theorem Rounds.of_loopRounds {outer : List Val} {rounds : Nat} {locals : List Val}
    {signal : Signal} (h : loopRounds (fun locals => runAll call bound body ⟨locals, []⟩) outer
      rounds locals = .done signal) :
    ∃ last inner, Rounds call bound body locals last ∧
      runAll call bound body ⟨last, []⟩ = .done inner ∧ signal = inner.leave 0 outer := by
  induction rounds generalizing locals with
  | zero => cases h
  | succ rounds ih =>
      rw [loopRounds] at h
      obtain ⟨inner, hRound, hRest⟩ := Run.bind_eq_done.1 h
      split at hRest
      · obtain ⟨last, inner, hRounds, hInner, hSignal⟩ := ih hRest
        exact ⟨last, inner, .again hRound hRounds, hInner, hSignal⟩
      · cases hRest
        exact ⟨locals, inner, .first, hRound, rfl⟩

/-- What a branch does is done by one of its blocks. -/
theorem run_branch_eq_done {arity : Nat} {yes no : List Structured} {signal : Signal}
    (h : run call bound (.branch arity yes no) f = .done signal) :
    ∃ c outer inner, f.stack = .i32 c :: outer ∧
      (c ≠ 0 ∧ runAll call bound yes ⟨f.locals, []⟩ = .done inner ∨
        c = 0 ∧ runAll call bound no ⟨f.locals, []⟩ = .done inner) ∧
      signal = inner.leave arity outer := by
  rw [run] at h
  split at h
  case h_1 c outer hStack =>
    by_cases hTest : c = 0
    · rw [if_pos hTest] at h
      obtain ⟨inner, hBody, hLeave⟩ := Run.bind_eq_done.1 h
      exact ⟨c, outer, inner, hStack, .inr ⟨hTest, hBody⟩, (Run.done.inj hLeave).symm⟩
    · rw [if_neg hTest] at h
      obtain ⟨inner, hBody, hLeave⟩ := Run.bind_eq_done.1 h
      exact ⟨c, outer, inner, hStack, .inl ⟨hTest, hBody⟩, (Run.done.inj hLeave).symm⟩
  case h_2 => cases h

namespace Passes

/-- A run that leads to the next instruction comes to its end. -/
theorem of_next (h : runAll call bound ts f = .done (.next g)) : Passes call bound ts f [] g := by
  induction ts generalizing f with
  | nil =>
      rw [runAll_nil] at h
      cases h
      exact .here
  | cons t ts ih =>
      rw [runAll] at h
      obtain ⟨signal, hStep, hRest⟩ := Run.bind_eq_done.1 h
      cases signal with
      | next k => exact .next hStep (ih hRest)
      | br depth k => cases hRest
      | ret stack => cases hRest

mutual

/-- A run that leads out of blocks comes to a point with the variables that it takes along. -/
theorem of_run_br : ∀ (t : Structured) {f g : Frame} {depth : Nat} (ts : List Structured),
    run call bound t f = .done (.br depth g) →
      ∃ us k, Passes call bound (t :: ts) f us k ∧ k.locals = g.locals
  | .plain i, f, g, depth, ts, h => by
      rw [run] at h
      exact ⟨_, f, .here, ((Instr.locals_of_step h).2 _ _ rfl).symm⟩
  | .block arity body, f, g, depth, ts, h => by
      rw [run] at h
      obtain ⟨signal, hBody, hLeave⟩ := Run.bind_eq_done.1 h
      cases Signal.leave_eq_br (Run.done.inj hLeave)
      obtain ⟨us, k, hPasses, hLocals⟩ := of_br body hBody
      exact ⟨us, k, .block hPasses, hLocals⟩
  | .loop body, f, g, depth, ts, h => by
      rw [run] at h
      obtain ⟨last, inner, hRounds, hBody, hLeave⟩ := Rounds.of_loopRounds h
      cases Signal.leave_eq_br hLeave.symm
      obtain ⟨us, k, hPasses, hLocals⟩ := of_br body hBody
      exact ⟨us, k, .loop hRounds hPasses, hLocals⟩
  | .branch arity first second, f, g, depth, ts, h => by
      obtain ⟨c, outer, inner, hStack, hBody, hLeave⟩ := run_branch_eq_done h
      cases Signal.leave_eq_br hLeave.symm
      rcases hBody with ⟨hTest, hBody⟩ | ⟨rfl, hBody⟩
      · obtain ⟨us, k, hPasses, hLocals⟩ := of_br first hBody
        exact ⟨us, k, .yes hStack hTest hPasses, hLocals⟩
      · obtain ⟨us, k, hPasses, hLocals⟩ := of_br second hBody
        exact ⟨us, k, .no hStack hPasses, hLocals⟩

/-- Code that jumps passes the point that it jumps from. -/
theorem of_br : ∀ (ts : List Structured) {f g : Frame} {depth : Nat},
    runAll call bound ts f = .done (.br depth g) →
      ∃ us k, Passes call bound ts f us k ∧ k.locals = g.locals
  | [], f, g, depth, h => by
      rw [runAll_nil] at h
      cases h
  | t :: ts, f, g, depth, h => by
      rw [runAll] at h
      obtain ⟨signal, hStep, hRest⟩ := Run.bind_eq_done.1 h
      cases signal with
      | next k =>
          obtain ⟨us, k, hPasses, hLocals⟩ := of_br ts hRest
          exact ⟨us, k, .next hStep hPasses, hLocals⟩
      | br depth k =>
          cases hRest
          exact of_run_br t ts hStep
      | ret stack => cases hRest

end

/-- A point of code after code is one of the first part, or one of the second part where the first
part leads to it. -/
theorem of_append : ∀ {ts : List Structured} {f : Frame}, Passes call bound (ts ++ us) f vs k →
    (∃ ws, Passes call bound ts f ws k ∧ ws.head? = vs.head?) ∨
      ∃ g, runAll call bound ts f = .done (.next g) ∧ Passes call bound us g vs k
  | [], f, h => .inr ⟨f, runAll_nil f, h⟩
  | t :: ts, f, h => by
      cases h with
      | here => exact .inl ⟨_, .here, rfl⟩
      | next hStep h =>
          rcases of_append h with ⟨ws, hPasses, hHead⟩ | ⟨g, hRun, hPasses⟩
          · exact .inl ⟨ws, .next hStep hPasses, hHead⟩
          · refine .inr ⟨g, ?_, hPasses⟩
            rw [runAll, hStep]
            exact hRun
      | block h => exact .inl ⟨_, .block h, rfl⟩
      | loop hRounds h => exact .inl ⟨_, .loop hRounds h, rfl⟩
      | yes hStack hTest h => exact .inl ⟨_, .yes hStack hTest h, rfl⟩
      | no hStack h => exact .inl ⟨_, .no hStack h, rfl⟩

end Passes

/-- At every point the variables satisfy `I`, and where a function is called the operands
satisfy `C`. -/
def Safe (call : Calls) (bound : Nat) (I : List Val → Prop) (C : Nat → List Val → Prop)
    (ts : List Structured) (f : Frame) : Prop :=
  ∀ us g, Passes call bound ts f us g →
    I g.locals ∧ ∀ index rest, us = .plain (.call index) :: rest → C index g.stack

namespace Safe

variable {I : List Val → Prop} {C : Nat → List Val → Prop}

/-- Safe code that goes on leaves the variables as they should be. -/
theorem locals_next (h : Safe call bound I C ts f)
    (hRun : runAll call bound ts f = .done (.next g)) : I g.locals :=
  (h _ _ (.of_next hRun)).1

/-- Safe code that jumps leaves the variables as they should be. -/
theorem locals_br (h : Safe call bound I C ts f) {depth : Nat}
    (hRun : runAll call bound ts f = .done (.br depth g)) : I g.locals := by
  obtain ⟨us, k, hPasses, hLocals⟩ := Passes.of_br ts hRun
  exact hLocals ▸ (h us k hPasses).1

/-- Where a block leads from inside it, the variables are safe. -/
theorem locals_leave (h : Safe call bound I C ts f) {signal : Signal}
    (hRun : runAll call bound ts f = .done signal) {arity : Nat} {outer : List Val}
    (hLeave : signal.leave arity outer = .next g) : I g.locals := by
  obtain ⟨inner, rfl | rfl, hLocals⟩ := Signal.leave_eq_next hLeave
  · exact hLocals ▸ h.locals_next hRun
  · exact hLocals ▸ h.locals_br hRun

theorem nil (h : I f.locals) : Safe call bound I C [] f := by
  intro us g hPasses
  cases hPasses with
  | here => exact ⟨h, fun _ _ => nofun⟩

/-- Code after code is safe if the first part is and the second part is from where the first goes
on. -/
theorem append (hFirst : Safe call bound I C ts f)
    (hRest : ∀ g, runAll call bound ts f = .done (.next g) → I g.locals →
      Safe call bound I C us g) : Safe call bound I C (ts ++ us) f := by
  intro vs k hPasses
  rcases hPasses.of_append with ⟨ws, hPasses, hHead⟩ | ⟨g, hRun, hPasses⟩
  -- Only the next instruction matters for `C`, and it is the same with and without what follows.
  · obtain ⟨hLocals, hCalls⟩ := hFirst ws k hPasses
    refine ⟨hLocals, ?_⟩
    rintro index rest rfl
    obtain ⟨more, rfl⟩ := List.head?_eq_some_iff.1 hHead
    exact hCalls index more rfl
  · exact hRest g hRun (hFirst.locals_next hRun) vs k hPasses

/-- An instruction is safe if a call in it is ready and it leaves the variables as they should be.
-/
theorem plain {i : Instr} (hHere : I f.locals) (hCall : ∀ index, i = .call index → C index f.stack)
    (hNext : ∀ g, i.step call f = .done (.next g) → I g.locals) :
    Safe call bound I C [.plain i] f := by
  intro us g hPasses
  cases hPasses with
  | here =>
      refine ⟨hHere, ?_⟩
      rintro index rest hCode
      cases hCode
      exact hCall index rfl
  | next hStep h =>
      rw [run] at hStep
      cases h with
      | here => exact ⟨hNext g hStep, fun _ _ => nofun⟩

/-- A branch is safe if both its blocks are. -/
theorem branch {arity : Nat} {yes no : List Structured} (hHere : I f.locals)
    (hYes : Safe call bound I C yes ⟨f.locals, []⟩)
    (hNo : Safe call bound I C no ⟨f.locals, []⟩) :
    Safe call bound I C [.branch arity yes no] f := by
  intro us g hPasses
  cases hPasses with
  | here => exact ⟨hHere, fun _ _ => nofun⟩
  | yes hStack hTest h => exact hYes us g h
  | no hStack h => exact hNo us g h
  | next hStep h =>
      cases h with
      | here =>
          refine ⟨?_, fun _ _ => nofun⟩
          obtain ⟨c, outer, inner, -, ⟨-, hBody⟩ | ⟨-, hBody⟩, hLeave⟩ := run_branch_eq_done hStep
          · exact hYes.locals_leave hBody hLeave.symm
          · exact hNo.locals_leave hBody hLeave.symm

/-- A loop is safe if its body is, from all variables that a round can start with. -/
theorem loop (hHere : I f.locals)
    (hBody : ∀ locals, I locals → Safe call bound I C body ⟨locals, []⟩) :
    Safe call bound I C [.loop body] f := by
  -- A round starts with the variables that the round before it took back to the start.
  have hRounds {locals last : List Val} (h : Rounds call bound body locals last)
      (hStart : I locals) : I last := by
    induction h with
    | first => exact hStart
    | again hRound h ih => exact ih ((hBody _ hStart).locals_br hRound)
  intro us g hPasses
  cases hPasses with
  | here => exact ⟨hHere, fun _ _ => nofun⟩
  | loop hLater h => exact hBody _ (hRounds hLater hHere) us g h
  | next hStep h =>
      cases h with
      | here =>
          refine ⟨?_, fun _ _ => nofun⟩
          rw [run] at hStep
          obtain ⟨last, inner, hLater, hRun, hLeave⟩ := Rounds.of_loopRounds hStep
          exact (hBody _ (hRounds hLater hHere)).locals_leave hRun hLeave.symm

end Safe

end Structured

namespace Module

open Structured

/-- The code of a function and the frame that it starts with. -/
def start? (m : Module) (index : Nat) (args : List Val) : Option (List Structured × Frame) := do
  let type ← m.typeOf? index
  let body ← m.code[index]?
  let code ← (decode? body.code).bind nest?
  let zeros ← body.locals.mapM ValType.zero?
  if args.map Val.type = type.params then some (code, ⟨args ++ zeros, []⟩) else none

/-- A call of a function runs its code from its first frame. -/
theorem invoke_of_start? {m : Module} {index : Nat} {args : List Val} {ts : List Structured}
    {f : Frame} (h : m.start? index args = some (ts, f)) (bound : Nat) :
    ∃ type, m.typeOf? index = some type ∧ m.invoke (bound + 1) index args =
        (runAll (m.callOn (m.invoke bound)) bound ts f >>= fun signal =>
          signal.results type.results.length) := by
  simp only [start?, Option.bind_eq_bind, Option.bind_eq_some_iff] at h
  obtain ⟨type, hType, body, hBody, code, hCode, zeros, hZeros, hEntry⟩ := h
  obtain ⟨hArgs, ⟨⟩⟩ := Option.ite_none_right_eq_some.1 hEntry
  refine ⟨type, hType, ?_⟩
  have hCode : (decode? body.code).bind nest? = some ts := Option.bind_eq_some_iff.2 hCode
  simp only [invoke, hType, hBody, hCode, hZeros, Run.need, Run.done_bind, hArgs, ne_eq,
    not_true_eq_false, if_false]

/-- A call of a function enters it, and the functions that are called on the way. The bound is one
less for each call. -/
inductive Enters (m : Module) : Nat → Nat → List Val → Nat → Nat → List Val → Prop where
  | self {bound index : Nat} {args : List Val} : Enters m bound index args bound index args
  | call {bound depth index callee last : Nat} {args vals : List Val} {ts rest : List Structured}
      {f g : Frame} {type : FuncType} (hEntry : m.start? index args = some (ts, f))
      (hPasses : Passes (m.callOn (m.invoke bound)) bound ts f (.plain (.call callee) :: rest) g)
      (hType : m.typeOf? callee = some type)
      (h : Enters m bound callee (g.stack.take type.params.length).reverse depth last vals) :
      Enters m (bound + 1) index args depth last vals

end Module

end WasmCompiler.Wasm
