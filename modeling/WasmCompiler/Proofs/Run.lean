/-! Runs under a bound. The bound limits how deep calls nest and how often each loop goes round;
a run that reaches it has no outcome yet. -/

namespace WasmCompiler

/-- How a run ends: with a value, in a trap, at the bound, or where no rule says how to go on. -/
inductive Run (α : Type) where
  | done (value : α)
  | trap
  | timeout
  | stuck
  deriving DecidableEq, Repr

namespace Run

variable {α β γ δ : Type}

/-- One run after another, which needs a value of the first. -/
def bind (x : Run α) (f : α → Run β) : Run β :=
  match x with
  | done a => f a
  | trap => trap
  | timeout => timeout
  | stuck => stuck

instance : Monad Run where
  pure := done
  bind := bind

/-- A value that has to be there. -/
def need : Option α → Run α
  | some a => done a
  | none => stuck

/-- A value that may be missing, which ends the run in a trap. -/
def orTrap : Option α → Run α
  | some a => done a
  | none => trap

@[simp] theorem pure_eq (a : α) : (pure a : Run α) = done a := rfl

@[simp] theorem done_bind (a : α) (f : α → Run β) : (done a >>= f) = f a := rfl

@[simp] theorem trap_bind (f : α → Run β) : (trap >>= f) = trap := rfl

@[simp] theorem timeout_bind (f : α → Run β) : (timeout >>= f) = timeout := rfl

@[simp] theorem stuck_bind (f : α → Run β) : (stuck >>= f) = stuck := rfl

/-- A run in two parts is done exactly if both parts are. -/
theorem bind_eq_done {x : Run α} {f : α → Run β} {b : β} :
    (x >>= f) = done b ↔ ∃ a, x = done a ∧ f a = done b := by
  cases x with
  | done a => simp
  | _ => simp

theorem bind_assoc (x : Run α) (f : α → Run β) (g : β → Run γ) :
    (x >>= f >>= g) = x >>= fun a => f a >>= g := by
  cases x <;> rfl

theorem bind_done (x : Run α) : (x >>= done) = x := by
  cases x <;> rfl

/-- Two runs that end in the same way, with related values. Runs that get stuck are not
related. -/
inductive Rel (R : α → β → Prop) : Run α → Run β → Prop where
  | done {a : α} {b : β} (h : R a b) : Rel R (done a) (done b)
  | trap : Rel R trap trap
  | timeout : Rel R timeout timeout

/-- Related runs stay related if what follows is related for related values. -/
theorem Rel.bind {R : α → β → Prop} {S : γ → δ → Prop} {x : Run α} {y : Run β}
    {f : α → Run γ} {g : β → Run δ} (hFirst : Rel R x y)
    (hNext : ∀ a b, R a b → Rel S (f a) (g b)) : Rel S (x >>= f) (y >>= g) := by
  cases hFirst with
  | done h => exact hNext _ _ h
  | trap => exact .trap
  | timeout => exact .timeout

theorem Rel.mono {R S : α → β → Prop} {x : Run α} {y : Run β} (h : Rel R x y)
    (hImp : ∀ a b, R a b → S a b) : Rel S x y := by
  cases h with
  | done h => exact .done (hImp _ _ h)
  | trap => exact .trap
  | timeout => exact .timeout

/-- A run that is related to one that is done has a related result. -/
theorem Rel.exists_of_done {R : α → β → Prop} {x : Run α} {y : Run β} (h : Rel R x y) {b : β}
    (hDone : y = Run.done b) : ∃ a, R a b := by
  subst hDone
  cases h with
  | done h => exact ⟨_, h⟩

/-- Mapping the result of a run does not change whether it ends. -/
theorem map_eq_timeout {f : α → β} {x : Run α} : f <$> x = timeout ↔ x = timeout := by
  cases x with
  | timeout => exact ⟨fun _ => rfl, fun _ => rfl⟩
  | _ => exact ⟨(nomatch ·), (nomatch ·)⟩

/-- A run that is related by a function is the mapped run. -/
theorem Rel.eq_map {f : α → β} {x : Run α} {y : Run β} (h : Rel (fun a b => b = f a) x y) :
    y = f <$> x := by
  cases h with
  | done h => exact congrArg Run.done h
  | trap => rfl
  | timeout => rfl

/-- A run that is related to another ends with a value or in a trap, if it ends. -/
theorem Rel.done_or_trap {R : α → β → Prop} {x : Run α} {y : Run β} (h : Rel R x y)
    (hEnded : x ≠ Run.timeout) : (∃ a, x = .done a ∧ ∃ b, R a b) ∨ x = .trap := by
  cases h with
  | done h => exact .inl ⟨_, rfl, _, h⟩
  | trap => exact .inr rfl
  | timeout => exact absurd rfl hEnded

/-- A run under a larger bound: it ends as the first one did, if the first one ended. -/
inductive Extends : Run α → Run α → Prop where
  | timeout {y : Run α} : Extends timeout y
  | same {x : Run α} : Extends x x

/-- A run in two parts is extended where its parts are. -/
theorem Extends.bind {x y : Run α} {f g : α → Run β} (hFirst : Extends x y)
    (hNext : ∀ a, Extends (f a) (g a)) : Extends (x >>= f) (y >>= g) := by
  cases hFirst with
  | timeout => exact .timeout
  | same =>
      cases x with
      | done a => exact hNext a
      | trap => exact .same
      | timeout => exact .timeout
      | stuck => exact .same

/-- A run that ended is not changed by a larger bound. -/
theorem Extends.eq_of_ne {x y : Run α} (h : Extends x y) (hX : x ≠ .timeout) : y = x := by
  cases h with
  | timeout => exact absurd rfl hX
  | same => rfl

/-- A family of runs, one for each bound, ends with an outcome if some bound is large enough
for it. -/
def Ends (run : Nat → Run α) (outcome : Run α) : Prop :=
  outcome ≠ .timeout ∧ ∃ bound, run bound = outcome

/-- Runs that are related under every bound end together, with related outcomes. -/
theorem Ends.iff_of_rel {run : Nat → Run α} {other : Nat → Run β} {f : α → β}
    (hRel : ∀ bound, Rel (fun a b => b = f a) (run bound) (other bound)) {outcome : Run β} :
    Ends other outcome ↔ ∃ result, Ends run result ∧ outcome = f <$> result := by
  have hMap (bound : Nat) : other bound = f <$> run bound := (hRel bound).eq_map
  constructor
  · rintro ⟨hEnded, bound, rfl⟩
    rw [hMap, Ne, map_eq_timeout] at hEnded
    exact ⟨run bound, ⟨hEnded, bound, rfl⟩, hMap bound⟩
  · rintro ⟨_, ⟨hEnded, bound, rfl⟩, rfl⟩
    exact ⟨mt map_eq_timeout.1 hEnded, bound, hMap bound⟩

/-- The outcome does not depend on the bound, if larger bounds only extend a run. -/
theorem Ends.unique {run : Nat → Run α} (hMono : ∀ n m, n ≤ m → Extends (run n) (run m))
    {x y : Run α} (hX : Ends run x) (hY : Ends run y) : x = y := by
  obtain ⟨hX, n, rfl⟩ := hX
  obtain ⟨hY, m, rfl⟩ := hY
  rcases Nat.le_total n m with h | h
  · exact ((hMono n m h).eq_of_ne hX).symm
  · exact (hMono m n h).eq_of_ne hY

end Run

end WasmCompiler
