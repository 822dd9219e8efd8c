import WasmCompiler.Proofs.Functions

/-! Where expressions and raw instructions stand in a program, with the names that are declared
there. The checker meets them in order and knows what was declared before; lowering knows the tables
that the checker leaves. -/

namespace WasmCompiler

/-- An expression that is another or stands in it. -/
inductive Expr.Within (part : Expr) : Expr → Prop where
  | self : Within part part
  | assign {s : Span} {x : String} {e : Expr} (h : Within part e) : Within part (.assign s x e)
  | left {s : Span} {op : BinaryOp} {a b : Expr} (h : Within part a) :
      Within part (.binary s op a b)
  | right {s : Span} {op : BinaryOp} {a b : Expr} (h : Within part b) :
      Within part (.binary s op a b)
  | unary {s : Span} {op : UnaryOp} {e : Expr} (h : Within part e) : Within part (.unary s op e)
  | cast {s : Span} {target : String} {e : Expr} (h : Within part e) :
      Within part (.cast s target e)
  | arg {s : Span} {f : String} {args : List Expr} {e : Expr} (hMem : e ∈ args)
      (h : Within part e) : Within part (.call s f args)

/-- What has code of its own in a program. -/
inductive Occurrence where
  | expr (e : Expr)
  | raw (text : String)

mutual

/-- What the checker meets in a statement where variables are declared, and the variables that are
declared where it meets it. -/
inductive Stmt.Meets (ctx : Context) : Locals → Stmt → Locals → Occurrence → Prop where
  | init {l : Locals} {decl : Declaration} {init e : Expr} (hInit : decl.init = some init)
      (h : e.Within init) : Meets ctx l (.var decl) l (.expr e)
  | cond {l : Locals} {s : Span} {conds : List Expr} {blocks : List (List Stmt)} {cond e : Expr}
      (hCond : cond ∈ conds) (h : e.Within cond) : Meets ctx l (.branch s conds blocks) l (.expr e)
  | blocks {l m : Locals} {s : Span} {conds : List Expr} {blocks : List (List Stmt)}
      {o : Occurrence} (h : BlocksMeet ctx l blocks m o) : Meets ctx l (.branch s conds blocks) m o
  | test {l : Locals} {s : Span} {cond e : Expr} {body : List Stmt} (h : e.Within cond) :
      Meets ctx l (.loop s cond body) l (.expr e)
  | body {l m : Locals} {s : Span} {cond : Expr} {body : List Stmt} {o : Occurrence}
      (h : AllMeet ctx l body m o) : Meets ctx l (.loop s cond body) m o
  | ret {l : Locals} {s : Span} {value e : Expr} (h : e.Within value) :
      Meets ctx l (.ret s value) l (.expr e)
  | eval {l : Locals} {s : Span} {expr e : Expr} (h : e.Within expr) :
      Meets ctx l (.eval s expr) l (.expr e)
  | raw {l : Locals} {s : Span} {text : String} : Meets ctx l (.raw s text) l (.raw text)

inductive Stmt.AllMeet (ctx : Context) : Locals → List Stmt → Locals → Occurrence → Prop where
  | here {l m : Locals} {s : Stmt} {ss : List Stmt} {o : Occurrence} (h : Meets ctx l s m o) :
      AllMeet ctx l (s :: ss) m o
  | later {l l' m : Locals} {s : Stmt} {ss : List Stmt} {o : Occurrence}
      (hHead : s.check ctx l = .ok l') (h : AllMeet ctx l' ss m o) : AllMeet ctx l (s :: ss) m o

inductive Stmt.BlocksMeet (ctx : Context) :
    Locals → List (List Stmt) → Locals → Occurrence → Prop where
  | here {l m : Locals} {b : List Stmt} {bs : List (List Stmt)} {o : Occurrence}
      (h : AllMeet ctx l b m o) : BlocksMeet ctx l (b :: bs) m o
  | later {l l' m : Locals} {b : List Stmt} {bs : List (List Stmt)} {o : Occurrence}
      (hHead : checkAll ctx l b = .ok l') (h : BlocksMeet ctx l' bs m o) :
      BlocksMeet ctx l (b :: bs) m o

end

/-- The table after its first declarations. -/
def Table.take {α : Type} {nameOf : α → String} (t : Table α nameOf) (n : Nat) :
    Table α nameOf where
  entries := t.entries.take n
  numbers := ((t.entries.take n).map nameOf).zipIdx.reverse
  distinct := t.distinct.sublist ((List.take_sublist _ _).map nameOf)
  numbers_eq := rfl

theorem Table.take_prefix {α : Type} {nameOf : α → String} (t : Table α nameOf) (n : Nat) :
    (t.take n).entries <+: t.entries :=
  List.take_prefix _ _

/-- What stands in function number `i`, which has result type `r`. -/
inductive Stmt.Holds (symbols : Symbols) (i : Nat) (r : Ty) :
    Stmt → Locals → Occurrence → Prop where
  | function {s : Span} {type name : String} {params : List Declaration} {body : List Stmt}
      {start m : Locals} {o : Occurrence}
      (hParams : Declaration.checkParams .empty params = .ok start)
      (h : AllMeet ⟨symbols.signatures.take (i + 1), name, r⟩ start body m o) :
      Holds symbols i r (.function s type name params body) m o

/-- What stands in a program, with the scope that the checker has where it stands and the scope that
its function has in the end. -/
inductive Program.Meets (p : Program) (symbols : Symbols) : Scope → Scope → Occurrence → Prop where
  | intro {i : Nat} {stmt : Stmt} {f : Function} {m : Locals} {o : Occurrence}
      (hStmt : p[i]? = some stmt) (hFunction : symbols.functions[i]? = some f)
      (h : stmt.Holds symbols i f.signature.ret m o) :
      Meets p symbols ⟨symbols.signatures.take (i + 1), m⟩ ⟨symbols.signatures, f.locals⟩ o

/-- A scope whose tables go on from those of another. -/
structure Scope.Precedes (sofar scope : Scope) : Prop where
  signatures : sofar.signatures.entries <+: scope.signatures.entries
  vars : sofar.locals.entries <+: scope.locals.entries

namespace Scope.Precedes

variable {sofar scope : Scope}

theorem funs (h : sofar.Precedes scope) : sofar.callables ⊆ scope.callables :=
  (h.signatures.map Signature.callable).subset

theorem env (h : sofar.Precedes scope) : sofar.locals.env ⊆ scope.locals.env :=
  (h.vars.map _).subset

/-- A scope with fewer variables precedes what the scope precedes. -/
theorem earlier {signatures : Signatures} {l l' : Locals}
    (h : (⟨signatures, l'⟩ : Scope).Precedes scope) (hVars : l.entries <+: l'.entries) :
    (⟨signatures, l⟩ : Scope).Precedes scope := ⟨h.signatures, hVars.trans h.vars⟩

end Scope.Precedes

namespace Expr

variable {fs : List Callable} {Γ : Env} {part : Expr}

/-- Each of some expressions with types has a type. -/
theorem HaveTypes.of_mem {es : List Expr} {ts : List Ty} (h : HaveTypes fs Γ es ts) :
    ∀ e ∈ es, ∃ t, e.HasType fs Γ t := by
  induction es generalizing ts with
  | nil => simp
  | cons e es ih =>
      cases h with
      | cons hHead hTail => exact List.forall_mem_cons.2 ⟨⟨_, hHead⟩, ih hTail⟩

/-- The parts of an expression that has a type have types, strings apart. -/
theorem HasType.of_within {e : Expr} {t : Ty} (hType : e.HasType fs Γ t) (h : part.Within e) :
    part.isStr = true ∨ ∃ u, part.HasType fs Γ u := by
  induction h generalizing t with
  | self => exact .inr ⟨t, hType⟩
  | assign _ ih =>
      cases hType with
      | assign _ hValue => exact ih hValue
  | left _ ih =>
      cases hType with
      | binary hLeft => exact ih hLeft
  | right _ ih =>
      cases hType with
      | binary _ hRight => exact ih hRight
  | unary _ ih =>
      cases hType with
      | unary hOperand => exact ih hOperand
  | cast h ih =>
      cases hType with
      | cast hOperand => exact ih hOperand
      | castStr =>
          cases h
          exact .inl rfl
  | arg hMem _ ih =>
      cases hType with
      | call _ hArgs =>
          obtain ⟨u, hU⟩ := hArgs.of_mem _ hMem
          exact ih hU

end Expr

namespace Stmt

variable {ctx : Context}

mutual

/-- The checker only adds variables. -/
theorem prefix_of_check : ∀ {s : Stmt} {l l' : Locals}, s.check ctx l = .ok l' →
    l.entries <+: l'.entries
  | .function s r f ps body, l, l', h => by
      simp [check, TypeError.throw] at h
  | .var d, l, l', h => by
      rw [check, Declaration.check_eq_ok] at h
      obtain ⟨t, -, -, -, hEntries⟩ := h
      exact hEntries ▸ List.prefix_append _ _
  | .branch s conds blocks, l, l', h => by
      simp only [check, bind_eq_ok] at h
      obtain ⟨_, -, hBlocks⟩ := h
      exact prefix_of_checkBlocks hBlocks
  | .loop s cond body, l, l', h => by
      simp only [check, bind_eq_ok] at h
      obtain ⟨_, -, hBody⟩ := h
      exact prefix_of_checkAll hBody
  | .ret s e, l, l', h => by
      simp only [check, bind_eq_ok] at h
      obtain ⟨t, -, hDone⟩ := h
      by_cases hSame : t = ctx.ret
      · rw [if_neg (not_not.2 hSame)] at hDone
        cases pure_eq_ok.1 hDone
        exact List.prefix_rfl
      · simp [hSame, TypeError.throw] at hDone
  | .raw s text, l, l', h => by
      rw [check] at h
      cases h
      exact List.prefix_rfl
  | .eval s e, l, l', h => by
      simp only [check, bind_eq_ok, pure_eq_ok] at h
      obtain ⟨t, -, rfl⟩ := h
      exact List.prefix_rfl

/-- Statements only add to the variables. -/
theorem prefix_of_checkAll : ∀ {ss : List Stmt} {l l' : Locals}, checkAll ctx l ss = .ok l' →
    l.entries <+: l'.entries
  | [], l, l', h => by
      rw [checkAll] at h
      cases h
      exact List.prefix_rfl
  | s :: ss, l, l', h => by
      simp only [checkAll, bind_eq_ok] at h
      obtain ⟨m, hHead, hTail⟩ := h
      exact (prefix_of_check hHead).trans (prefix_of_checkAll hTail)

theorem prefix_of_checkBlocks : ∀ {bs : List (List Stmt)} {l l' : Locals},
    checkBlocks ctx l bs = .ok l' → l.entries <+: l'.entries
  | [], l, l', h => by
      rw [checkBlocks] at h
      cases h
      exact List.prefix_rfl
  | b :: bs, l, l', h => by
      simp only [checkBlocks, bind_eq_ok] at h
      obtain ⟨m, hHead, hTail⟩ := h
      exact (prefix_of_checkAll hHead).trans (prefix_of_checkBlocks hTail)

end

end Stmt

/-- What stands in an expression that passes the checker, if it is an expression. -/
def Occurrence.Passes (sofar : Scope) : Occurrence → Prop
  | .expr e => ∃ whole t, e.Within whole ∧ whole.check sofar.signatures sofar.locals = .ok t
  | .raw _ => True

/-- A condition that passes its check is a truth value. -/
theorem Expr.check_of_checkCondition {signatures : Signatures} {locals : Locals} {cond : Expr}
    (h : cond.checkCondition signatures locals = .ok ()) :
    cond.check signatures locals = .ok .bool :=
  (check_eq_ok cond).2 (checkCondition_eq_ok.1 h)

theorem Expr.check_of_checkConditions {signatures : Signatures} {locals : Locals}
    {conds : List Expr} (h : checkConditions signatures locals conds = .ok ()) :
    ∀ cond ∈ conds, cond.check signatures locals = .ok .bool :=
  fun cond hMem => (check_eq_ok cond).2 (checkConditions_eq_ok.1 h cond hMem)

namespace Stmt

variable {ctx : Context}

mutual

/-- What the checker meets in a statement that passes. -/
theorem Meets.passes : ∀ {s : Stmt} {l l' m : Locals} {o : Occurrence}, Meets ctx l s m o →
    s.check ctx l = .ok l' → m.entries <+: l'.entries ∧ o.Passes ⟨ctx.signatures, m⟩
  | _, _, _, _, _, .init hInit h, hCheck => by
      have hPrefix := prefix_of_check hCheck
      rw [check, Declaration.check_eq_ok] at hCheck
      obtain ⟨t, -, -, hType, -⟩ := hCheck
      exact ⟨hPrefix, _, t, h, hType _ hInit⟩
  | _, _, _, _, _, .cond hCond h, hCheck => by
      have hPrefix := prefix_of_check hCheck
      simp only [check, bind_eq_ok] at hCheck
      obtain ⟨_, hConds, -⟩ := hCheck
      exact ⟨hPrefix, _, _, h, Expr.check_of_checkConditions hConds _ hCond⟩
  | _, _, _, _, _, .blocks h, hCheck => by
      simp only [check, bind_eq_ok] at hCheck
      obtain ⟨_, -, hBlocks⟩ := hCheck
      exact h.passes hBlocks
  | _, _, _, _, _, .test h, hCheck => by
      have hPrefix := prefix_of_check hCheck
      simp only [check, bind_eq_ok] at hCheck
      obtain ⟨_, hCond, -⟩ := hCheck
      exact ⟨hPrefix, _, _, h, Expr.check_of_checkCondition hCond⟩
  | _, _, _, _, _, .body h, hCheck => by
      simp only [check, bind_eq_ok] at hCheck
      obtain ⟨_, -, hBody⟩ := hCheck
      exact h.passes hBody
  | _, _, _, _, _, .ret h, hCheck => by
      have hPrefix := prefix_of_check hCheck
      simp only [check, bind_eq_ok] at hCheck
      obtain ⟨t, hType, -⟩ := hCheck
      exact ⟨hPrefix, _, t, h, hType⟩
  | _, _, _, _, _, .eval h, hCheck => by
      have hPrefix := prefix_of_check hCheck
      simp only [check, bind_eq_ok] at hCheck
      obtain ⟨t, hType, -⟩ := hCheck
      exact ⟨hPrefix, _, t, h, hType⟩
  | _, _, _, _, _, .raw, hCheck => ⟨prefix_of_check hCheck, trivial⟩

/-- What is met in statements in turn passes its check, with the variables declared so far. -/
theorem AllMeet.passes : ∀ {ss : List Stmt} {l l' m : Locals} {o : Occurrence},
    AllMeet ctx l ss m o → checkAll ctx l ss = .ok l' →
      m.entries <+: l'.entries ∧ o.Passes ⟨ctx.signatures, m⟩
  | _, _, _, _, _, .here h, hCheck => by
      simp only [checkAll, bind_eq_ok] at hCheck
      obtain ⟨_, hHead, hTail⟩ := hCheck
      obtain ⟨hPrefix, hPasses⟩ := h.passes hHead
      exact ⟨hPrefix.trans (prefix_of_checkAll hTail), hPasses⟩
  | _, _, _, _, _, .later hFirst h, hCheck => by
      simp only [checkAll, bind_eq_ok] at hCheck
      obtain ⟨_, hHead, hTail⟩ := hCheck
      cases hFirst.symm.trans hHead
      exact h.passes hTail

theorem BlocksMeet.passes : ∀ {bs : List (List Stmt)} {l l' m : Locals} {o : Occurrence},
    BlocksMeet ctx l bs m o → checkBlocks ctx l bs = .ok l' →
      m.entries <+: l'.entries ∧ o.Passes ⟨ctx.signatures, m⟩
  | _, _, _, _, _, .here h, hCheck => by
      simp only [checkBlocks, bind_eq_ok] at hCheck
      obtain ⟨_, hHead, hTail⟩ := hCheck
      obtain ⟨hPrefix, hPasses⟩ := h.passes hHead
      exact ⟨hPrefix.trans (prefix_of_checkBlocks hTail), hPasses⟩
  | _, _, _, _, _, .later hFirst h, hCheck => by
      simp only [checkBlocks, bind_eq_ok] at hCheck
      obtain ⟨_, hHead, hTail⟩ := hCheck
      cases hFirst.symm.trans hHead
      exact h.passes hTail

end

/-- A function as the checker reads it, with its number and its entry in the table. -/
inductive ChecksAs (symbols : Symbols) (i : Nat) : Stmt → Function → Prop where
  | function {s : Span} {name : String} {r : Ty} {params : List Declaration} {body : List Stmt}
      {start locals : Locals} (hParams : Declaration.checkParams .empty params = .ok start)
      (hBody : checkAll ⟨symbols.signatures.take (i + 1), name, r⟩ start body = .ok locals) :
      ChecksAs symbols i (.function s r.name name params body)
        ⟨⟨name, r, start.env.map Prod.snd, s⟩, locals⟩

end Stmt

namespace Program

/-- The functions that are checked after others keep their number. -/
theorem checkFrom_getElem? {p : Program} {symbols after : Symbols}
    (h : p.checkFrom symbols = .ok after) :
    symbols.functions <+: after.functions ∧ ∀ i s, p[i]? = some s →
      ∃ f, after.functions[symbols.functions.length + i]? = some f ∧
        s.ChecksAs after (symbols.functions.length + i) f := by
  induction p generalizing symbols with
  | nil =>
      rw [checkFrom] at h
      cases h
      exact ⟨List.prefix_rfl, by simp⟩
  | cons stmt p ih =>
      simp only [checkFrom, bind_eq_ok] at h
      obtain ⟨middle, hHead, hTail⟩ := h
      obtain ⟨hPrefix, hOthers⟩ := ih hTail
      cases stmt with
      | function s type name params body =>
          obtain ⟨r, start, locals, signature, rfl, -, hNew, rfl, hParams, hBody, rfl⟩ :=
            Stmt.checkFunction_eq_ok.1 hHead
          have hMiddle := @Symbols.functions_declared symbols
            ⟨name, r, start.env.map Prod.snd, s⟩ locals hNew
          rw [hMiddle] at hPrefix hOthers
          refine ⟨(List.prefix_append _ _).trans hPrefix, fun i stmt hAt => ?_⟩
          cases i with
          | zero =>
              cases hAt
              obtain ⟨more, hMore⟩ := hPrefix
              have hTake : after.signatures.take (symbols.functions.length + 0 + 1) =
                  symbols.signatures.declared ⟨name, r, start.env.map Prod.snd, s⟩ := by
                apply Table.eq_of_entries
                rw [Table.entries_declared hNew]
                simp only [Table.take, ← after.signatures_functions, ← hMore, List.map_append,
                  symbols.signatures_functions, symbols.length_functions]
                exact List.take_left' (by simp)
              rw [← hTake] at hBody
              exact ⟨_, by rw [← hMore]; simp, .function hParams hBody⟩
          | succ i =>
              obtain ⟨f, hF, hChecks⟩ := hOthers i stmt hAt
              rw [List.length_append, List.length_singleton, Nat.add_assoc, Nat.add_comm 1]
                at hF hChecks
              exact ⟨f, hF, hChecks⟩
      | eval s e => cases e <;> simp [Stmt.checkTop, TypeError.throw] at hHead
      | _ => simp [Stmt.checkTop, TypeError.throw] at hHead

/-- The statement at an index of a program is checked as the function at that index. -/
theorem check_getElem? {p : Program} {symbols : Symbols} (h : p.check = .ok symbols) {i : Nat}
    {s : Stmt} (hAt : p[i]? = some s) :
    ∃ f, symbols.functions[i]? = some f ∧ s.ChecksAs symbols i f := by
  obtain ⟨f, hF, hChecks⟩ := (checkFrom_getElem? h).2 i s hAt
  rw [show Symbols.empty.functions.length = 0 from rfl, Nat.zero_add] at hF hChecks
  exact ⟨f, hF, hChecks⟩

/-- What is declared where something stands is declared in the end, and what stands there passes the
checker. -/
theorem Meets.passes {p : Program} {symbols : Symbols} {sofar final : Scope} {o : Occurrence}
    (h : p.Meets symbols sofar final o) (hCheck : p.check = .ok symbols) :
    sofar.Precedes final ∧ o.Passes sofar := by
  cases h with
  | intro hStmt hFunction hHolds =>
      obtain ⟨f, hF, hChecks⟩ := check_getElem? hCheck hStmt
      cases hFunction.symm.trans hF
      cases hChecks with
      | function hParams hBody =>
          cases hHolds with
          | function hStart h =>
              cases hStart.symm.trans hParams
              obtain ⟨hPrefix, hPasses⟩ := h.passes hBody
              exact ⟨⟨Table.take_prefix _ _, hPrefix⟩, hPasses⟩

end Program

end WasmCompiler
