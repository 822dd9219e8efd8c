/-! Tables of declarations. The entries of a table are numbered in the order of their declaration,
and a map from names to numbers finds an entry without going through the others. A name is declared
once, so the map and the row of entries say the same. -/

namespace WasmCompiler

/-- Entries in the order in which they are declared, and the number of each by its name. -/
structure Table (α : Type) (nameOf : α → String) where
  entries : List α
  /-- The number of each name, the newest first. -/
  numbers : List (String × Nat)
  distinct : (entries.map nameOf).Nodup
  numbers_eq : numbers = (entries.map nameOf).zipIdx.reverse
  deriving DecidableEq, Repr

namespace Table

variable {α : Type} {nameOf : α → String} {t t' : Table α nameOf} {a : α} {name : String} {i : Nat}

def empty : Table α nameOf := ⟨[], [], .nil, rfl⟩

/-- The number of a name. -/
def index? (t : Table α nameOf) (name : String) : Option Nat := t.numbers.lookup name

/-- The entry with a name. -/
def get? (t : Table α nameOf) (name : String) : Option α :=
  (t.index? name).bind fun i => t.entries[i]?

/-- A table is determined by its entries. -/
theorem eq_of_entries (h : t.entries = t'.entries) : t = t' := by
  obtain ⟨entries, numbers, distinct, rfl⟩ := t
  obtain ⟨entries', numbers', distinct', rfl⟩ := t'
  cases h
  rfl

/-- A name has no index exactly if no entry has the name. -/
theorem index?_eq_none_iff : t.index? name = none ↔ name ∉ t.entries.map nameOf := by
  rw [index?, List.lookup_eq_none_iff, t.numbers_eq]
  constructor
  · intro h hMem
    obtain ⟨i, hI⟩ := List.mem_iff_getElem?.1 hMem
    have hName := h (name, i) (List.mem_reverse.2 (List.mem_zipIdx_iff_getElem?.2 hI))
    simp at hName
  · intro h p hP
    have hMem := List.mem_of_getElem? (List.mem_zipIdx_iff_getElem?.1 (List.mem_reverse.1 hP))
    simpa using fun hName : name = p.1 => h (hName ▸ hMem)

/-- The table with one entry more, under a name that is new. -/
def push (t : Table α nameOf) (a : α) (h : t.index? (nameOf a) = none) : Table α nameOf where
  entries := t.entries ++ [a]
  numbers := (nameOf a, t.entries.length) :: t.numbers
  distinct := by
    rw [List.map_append, List.nodup_append]
    refine ⟨t.distinct, by simp, fun name hName other hOther => ?_⟩
    rw [List.map_singleton, List.mem_singleton] at hOther
    rintro rfl
    exact index?_eq_none_iff.1 h (hOther ▸ hName)
  numbers_eq := by
    rw [List.map_append, List.zipIdx_append, List.reverse_append, ← t.numbers_eq, List.length_map]
    simp

/-- A name has the number of the entry that has the name. -/
theorem index?_eq_some_iff :
    t.index? name = some i ↔ ∃ a, t.entries[i]? = some a ∧ nameOf a = name := by
  have hAt {i : Nat} (h : t.index? name = some i) : (t.entries.map nameOf)[i]? = some name := by
    obtain ⟨front, back, hRow, -⟩ := List.lookup_eq_some_iff.1 h
    have hMem : (name, i) ∈ (t.entries.map nameOf).zipIdx := by
      rw [← List.mem_reverse, ← t.numbers_eq, hRow]
      exact List.mem_append_right _ List.mem_cons_self
    exact List.mem_zipIdx_iff_getElem?.1 hMem
  have hNamed {i : Nat} : (t.entries.map nameOf)[i]? = some name ↔
      ∃ a, t.entries[i]? = some a ∧ nameOf a = name := by
    rw [List.getElem?_map, Option.map_eq_some_iff]
  constructor
  · exact fun h => hNamed.1 (hAt h)
  · intro h
    have hName := hNamed.2 h
    cases hIndex : t.index? name with
    | none => exact absurd (List.mem_of_getElem? hName) (index?_eq_none_iff.1 hIndex)
    | some j =>
      obtain ⟨hI, -⟩ := List.getElem?_eq_some_iff.1 hName
      have hSame := (List.getElem?_inj hI t.distinct).1 (hName.trans (hAt hIndex).symm)
      exact congrArg some hSame.symm

/-- A name stands for the entry that has the name. -/
theorem get?_eq_some_iff : t.get? name = some a ↔ a ∈ t.entries ∧ nameOf a = name := by
  rw [get?, Option.bind_eq_some_iff]
  constructor
  · rintro ⟨i, hIndex, hAt⟩
    obtain ⟨b, hB, hName⟩ := index?_eq_some_iff.1 hIndex
    cases hAt.symm.trans hB
    exact ⟨List.mem_of_getElem? hAt, hName⟩
  · rintro ⟨hMem, hName⟩
    obtain ⟨i, hAt⟩ := List.mem_iff_getElem?.1 hMem
    exact ⟨i, index?_eq_some_iff.2 ⟨a, hAt, hName⟩, hAt⟩

theorem get?_eq_none_iff : t.get? name = none ↔ name ∉ t.entries.map nameOf := by
  rw [Option.eq_none_iff_forall_ne_some]
  constructor
  · intro h hMem
    obtain ⟨a, hA, hName⟩ := List.mem_map.1 hMem
    exact h a (get?_eq_some_iff.2 ⟨hA, hName⟩)
  · intro h a hGet
    obtain ⟨hA, rfl⟩ := get?_eq_some_iff.1 hGet
    exact h (List.mem_map_of_mem hA)

theorem isSome_get?_eq_false_iff : (t.get? name).isSome = false ↔ name ∉ t.entries.map nameOf := by
  rw [Option.isSome_eq_false_iff, Option.isNone_iff_eq_none, get?_eq_none_iff]

/-- A longer table has the same numbers for the names of a shorter one. -/
theorem index?_of_prefix (h : t.entries <+: t'.entries) (hName : name ∈ t.entries.map nameOf) :
    t'.index? name = t.index? name := by
  cases hIndex : t.index? name with
  | none => exact absurd hName (index?_eq_none_iff.1 hIndex)
  | some i =>
    obtain ⟨a, hAt, hA⟩ := index?_eq_some_iff.1 hIndex
    obtain ⟨more, hMore⟩ := h
    have hLess := (List.getElem?_eq_some_iff.1 hAt).1
    exact index?_eq_some_iff.2 ⟨a, by rw [← hMore, List.getElem?_append_left hLess, hAt], hA⟩

/-- An entry is found also in a longer table. -/
theorem get?_of_prefix (h : t.entries <+: t'.entries) (hName : name ∈ t.entries.map nameOf) :
    t'.get? name = t.get? name := by
  obtain ⟨a, hA, hSame⟩ := List.mem_map.1 hName
  rw [get?_eq_some_iff.2 ⟨hA, hSame⟩, get?_eq_some_iff.2 ⟨h.subset hA, hSame⟩]

/-- The table with one entry more, unless its name is taken. -/
def declare (t : Table α nameOf) (a : α) : Option (Table α nameOf) :=
  if h : t.index? (nameOf a) = none then some (t.push a h) else none

/-- The table after a declaration, which changes nothing if the name is taken. -/
def declared (t : Table α nameOf) (a : α) : Table α nameOf := (t.declare a).getD t

/-- A declaration under a new name adds the entry at the end. -/
theorem declare_eq_some_iff : t.declare a = some t' ↔
    nameOf a ∉ t.entries.map nameOf ∧ t'.entries = t.entries ++ [a] := by
  rw [declare, ← index?_eq_none_iff]
  constructor
  · intro h
    by_cases hNew : t.index? (nameOf a) = none
    · rw [dif_pos hNew] at h
      cases h
      exact ⟨hNew, rfl⟩
    · rw [dif_neg hNew] at h
      cases h
  · rintro ⟨hNew, hEntries⟩
    rw [dif_pos hNew]
    exact congrArg some (eq_of_entries hEntries.symm)

/-- An entry with a new name is added after the others. -/
theorem entries_declared (h : nameOf a ∉ t.entries.map nameOf) :
    (t.declared a).entries = t.entries ++ [a] := by
  rw [declared, declare, dif_pos (index?_eq_none_iff.2 h)]
  rfl

end Table

end WasmCompiler
