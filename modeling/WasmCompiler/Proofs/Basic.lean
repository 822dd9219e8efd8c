import Mathlib.Data.List.Nodup
import WasmCompiler.Typing.Symbols

/-! What the proofs about checking and lowering share: opening computations that can fail, and
looking up names in tables. -/

namespace WasmCompiler

/-- A computation in two parts succeeds exactly if both parts do. -/
theorem bind_eq_ok {ε α β : Type} {first : Except ε α} {next : α → Except ε β} {b : β} :
    (first >>= next) = .ok b ↔ ∃ a, first = .ok a ∧ next a = .ok b := by
  cases first <;> simp [Bind.bind, Except.bind]

/-- A computation in two parts fails if the first part does, or the second after it. -/
theorem bind_eq_error {ε α β : Type} {first : Except ε α} {next : α → Except ε β} {e : ε} :
    (first >>= next) = .error e ↔ first = .error e ∨ ∃ a, first = .ok a ∧ next a = .error e := by
  cases first <;> simp [Bind.bind, Except.bind]

theorem pure_eq_ok {ε α : Type} {a b : α} : (pure a : Except ε α) = .ok b ↔ a = b := by
  simp only [pure, Except.pure, Except.ok.injEq]

theorem mapError_eq_ok {ε δ α : Type} {f : ε → δ} {x : Except ε α} {a : α} :
    x.mapError f = .ok a ↔ x = .ok a := by
  cases x <;> simp [Except.mapError]

/-- An error is that of the computation, mapped. -/
theorem mapError_eq_error {ε δ α : Type} {f : ε → δ} {x : Except ε α} {d : δ} :
    x.mapError f = .error d ↔ ∃ e, x = .error e ∧ f e = d := by
  cases x <;> simp [Except.mapError]

/-- In a table without repeated names, the entry that is found under a name is the only one. -/
theorem find?_name_eq_some {α : Type} {name : α → String} {table : List α}
    (hDistinct : (table.map name).Nodup) {x : String} {a : α} :
    table.find? (fun entry => name entry == x) = some a ↔ a ∈ table ∧ name a = x := by
  induction table with
  | nil => simp
  | cons first others ih =>
      obtain ⟨hFirst, hOthers⟩ := List.nodup_cons.1 hDistinct
      by_cases hName : name first = x
      · have hOnly : a ∈ others → name a ≠ x := by
          intro hMem hEq
          exact hFirst (hName ▸ hEq ▸ List.mem_map_of_mem hMem)
        rw [List.find?_cons_of_pos (by simpa using hName), Option.some.injEq]
        constructor
        · rintro rfl
          exact ⟨List.mem_cons_self, hName⟩
        · rintro ⟨hMem, hEq⟩
          rcases List.mem_cons.1 hMem with hSame | hRest
          · exact hSame.symm
          · exact absurd hEq (hOnly hRest)
      · rw [List.find?_cons_of_neg (by simpa using hName), ih hOthers, List.mem_cons]
        constructor
        · rintro ⟨hMem, hEq⟩
          exact ⟨.inr hMem, hEq⟩
        · rintro ⟨rfl | hMem, hEq⟩
          · exact absurd hEq hName
          · exact ⟨hMem, hEq⟩

/-- Rows that are related entry by entry are related at every place. -/
theorem forall₂_getElem? {α β : Type} {R : α → β → Prop} {as : List α} {bs : List β}
    (h : List.Forall₂ R as bs) {i : Nat} {b : β} (hB : bs[i]? = some b) :
    ∃ a, as[i]? = some a ∧ R a b := by
  induction h generalizing i with
  | nil => simp at hB
  | cons hHead _ ih =>
      cases i with
      | zero =>
          cases hB
          exact ⟨_, rfl, hHead⟩
      | succ i => exact ih hB

/-- Rows that are related entry by entry look alike where related entries do. -/
theorem map_eq_of_forall₂ {α β γ : Type} {R : α → β → Prop} {f : α → γ} {g : β → γ}
    (hR : ∀ a b, R a b → f a = g b) {as : List α} {bs : List β} (h : List.Forall₂ R as bs) :
    as.map f = bs.map g := by
  induction h with
  | nil => rfl
  | cons hHead _ ih => rw [List.map_cons, List.map_cons, hR _ _ hHead, ih]

theorem mapIdx_eq_of_forall₂ {α β γ : Type} {R : α → β → Prop} {f : Nat → α → γ} {g : Nat → β → γ}
    (hR : ∀ i a b, R a b → f i a = g i b) {as : List α} {bs : List β} (h : List.Forall₂ R as bs) :
    as.mapIdx f = bs.mapIdx g := by
  induction h generalizing f g with
  | nil => rfl
  | cons hHead _ ih =>
      rw [List.mapIdx_cons, List.mapIdx_cons, hR _ _ _ hHead, ih fun i => hR (i + 1)]

end WasmCompiler
