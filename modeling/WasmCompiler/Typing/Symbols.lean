import WasmCompiler.Text.Span
import WasmCompiler.Typing.Table
import WasmCompiler.Typing.Ty

/-! What a checked program declares: its functions in order, and the variables of each. -/

namespace WasmCompiler

/-- A parameter or variable of a function. -/
structure Variable where
  name : String
  type : Ty
  isParam : Bool
  deriving DecidableEq, Repr

/-- The variables of a function by slot: its parameters, and then the others in the order in
which they are declared. -/
abbrev Locals := Table Variable Variable.name

namespace Locals

/-- The variables by slot. -/
abbrev vars (l : Locals) : List Variable := l.entries

def slot? (l : Locals) (name : String) : Option Nat := l.index? name

/-- The variables that are not parameters. -/
def locals (l : Locals) : List Variable := l.vars.filter fun v => !v.isParam

end Locals

structure Signature where
  name : String
  ret : Ty
  params : List Ty
  span : Span
  deriving DecidableEq, Repr

/-- The functions that are declared so far, in order. -/
abbrev Signatures := Table Signature Signature.name

namespace Signature

/-- The signature of a name among the functions that are declared so far. -/
abbrev find? (signatures : Signatures) (name : String) : Option Signature := signatures.get? name

/-- The index of a name among the functions that are declared so far. -/
abbrev index? (signatures : Signatures) (name : String) : Option Nat :=
  Table.index? signatures name

end Signature

/-- A function with its variables. -/
structure Function where
  signature : Signature
  locals : Locals
  deriving DecidableEq, Repr

/-- The functions of a program in order, and the variables of each by its name, those of the newest
function first. -/
structure Symbols where
  signatures : Signatures
  locals : List (String × Locals)
  names_locals : locals.map Prod.fst = (signatures.entries.map Signature.name).reverse
  deriving DecidableEq, Repr

namespace Symbols

def empty : Symbols := ⟨.empty, [], rfl⟩

/-- The variables of the function with a given name. -/
def locals? (s : Symbols) (name : String) : Option Locals := s.locals.lookup name

/-- The functions with their variables. -/
def functions (s : Symbols) : List Function :=
  List.zipWith Function.mk s.signatures.entries (s.locals.map Prod.snd).reverse

/-- The tables after a function and its variables, which change nothing if the name is taken. -/
def declared (s : Symbols) (signature : Signature) (locals : Locals) : Symbols :=
  if h : s.signatures.index? signature.name = none then
    { signatures := s.signatures.push signature h
      locals := (signature.name, locals) :: s.locals
      names_locals := by simp [Table.push, s.names_locals] }
  else s

variable {s t : Symbols} {f : Function}

/-- The tables hold what the functions say: their signatures, and their variables by name. -/
theorem tables_eq (s : Symbols) : s.functions.map Function.signature = s.signatures.entries ∧
    s.functions.map (fun f => (f.signature.name, f.locals)) = s.locals.reverse := by
  obtain ⟨signatures, locals, names⟩ := s
  have hNames : locals.reverse.map Prod.fst = signatures.entries.map Signature.name := by
    rw [List.map_reverse, names, List.reverse_reverse]
  simp only [functions, ← List.map_reverse]
  generalize signatures.entries = row at hNames
  generalize locals.reverse = tables at hNames
  clear names
  induction row generalizing tables with
  | nil =>
    rw [List.map_nil, List.map_eq_nil_iff] at hNames
    simp [hNames]
  | cons signature row ih =>
    cases tables with
    | nil => cases hNames
    | cons table tables =>
      obtain ⟨hName, hRest⟩ := List.cons.inj hNames
      obtain ⟨hSignatures, hTables⟩ := ih tables hRest
      simp only [List.map_cons, List.zipWith_cons_cons, hSignatures, hTables, ← hName]
      exact ⟨trivial, trivial⟩

theorem signatures_functions (s : Symbols) :
    s.functions.map Function.signature = s.signatures.entries :=
  s.tables_eq.1

theorem length_functions (s : Symbols) : s.functions.length = s.signatures.entries.length := by
  rw [← s.signatures_functions, List.length_map]

/-- The signature of a function is found by its name. -/
theorem get?_of_mem (h : f ∈ s.functions) :
    s.signatures.get? f.signature.name = some f.signature :=
  Table.get?_eq_some_iff.2 ⟨s.signatures_functions ▸ List.mem_map_of_mem h, rfl⟩

/-- The variables of a function are found by its name. -/
theorem locals?_of_mem (h : f ∈ s.functions) : s.locals? f.signature.name = some f.locals := by
  have hMem : (f.signature.name, f.locals) ∈ s.locals := by
    rw [← List.mem_reverse, ← s.tables_eq.2]
    exact List.mem_map_of_mem h
  have hDistinct : (s.locals.map Prod.fst).Nodup := by
    rw [s.names_locals]
    exact List.pairwise_reverse.2 (s.signatures.distinct.imp Ne.symm)
  rw [locals?]
  generalize s.locals = row at hMem hDistinct
  induction row with
  | nil => cases hMem
  | cons first row ih =>
    rw [List.map_cons, List.nodup_cons] at hDistinct
    rcases List.mem_cons.1 hMem with hFirst | hRow
    · rw [← hFirst, List.lookup_cons_self]
    · have hNe : f.signature.name ≠ first.1 := by
        intro hSame
        exact hDistinct.1 (hSame ▸ List.mem_map_of_mem hRow)
      rw [List.lookup_cons, beq_eq_false_iff_ne.2 hNe]
      exact ih hRow hDistinct.2

/-- A function under a new name is added to the table of functions, whatever its variables are. -/
theorem signatures_declared (s : Symbols) (signature : Signature) (locals : Locals) :
    (s.declared signature locals).signatures = s.signatures.declared signature := by
  by_cases h : s.signatures.index? signature.name = none
  · rw [declared, dif_pos h, Table.declared, Table.declare, dif_pos h]
    rfl
  · rw [declared, dif_neg h, Table.declared, Table.declare, dif_neg h]
    rfl

/-- A function that is declared is added after the others. -/
theorem functions_declared {signature : Signature} (locals : Locals)
    (h : signature.name ∉ s.signatures.entries.map Signature.name) :
    (s.declared signature locals).functions = s.functions ++ [⟨signature, locals⟩] := by
  have hLength : s.signatures.entries.length = (s.locals.map Prod.snd).reverse.length := by
    simpa using (congrArg List.length s.names_locals).symm
  rw [declared, dif_pos (Table.index?_eq_none_iff.2 h)]
  simp only [functions, Table.push, List.map_cons, List.reverse_cons]
  rw [List.zipWith_append hLength]
  rfl

end Symbols

end WasmCompiler
