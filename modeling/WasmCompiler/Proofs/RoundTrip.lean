import Mathlib
import WasmCompiler.Proofs.PrintedGrammar
import WasmCompiler.Proofs.Printing

/-! Printing and reading again. A program that was read from a text and whose numbers are finite is
read from its printed text too, and then differs in nothing but its spans. -/

namespace WasmCompiler

open Number

namespace Expr

mutual

/-- The numbers in an expression. -/
def literals : Expr → List Literal
  | ident _ _ | bool _ _ | str _ _ => []
  | number _ value => [value]
  | assign _ _ value => literals value
  | binary _ _ lhs rhs => literals lhs ++ literals rhs
  | unary _ _ operand => literals operand
  | cast _ _ operand => literals operand
  | call _ _ args => allLiterals args

def allLiterals : List Expr → List Literal
  | [] => []
  | e :: es => literals e ++ allLiterals es

end

variable {v w : Vocabulary}

mutual

/-- An expression stays written in a vocabulary that spells all that the first one does. Its numbers
have to be in both. -/
theorem Written.mono (hSpells : ∀ kind text, v.spells kind text → w.spells kind text) :
    ∀ {e : Expr}, (∀ l ∈ e.literals, v.number l → w.number l) → e.Written v → e.Written w
  | ident _ _, _, hE => hSpells _ _ hE
  | number _ value, hNumbers, hE => hNumbers value (List.mem_singleton_self value) hE
  | bool _ _, _, hE => hE
  | str _ _, _, hE => hSpells _ _ hE
  | assign _ _ _, _, hE => absurd hE id
  | binary _ _ _ _, hNumbers, hE =>
      ⟨Written.mono hSpells (fun l hL => hNumbers l (List.mem_append_left _ hL)) hE.1,
        Written.mono hSpells (fun l hL => hNumbers l (List.mem_append_right _ hL)) hE.2⟩
  | unary _ _ operand, hNumbers, hE => @Written.mono hSpells operand hNumbers hE
  | cast _ _ _, hNumbers, hE => ⟨hSpells _ _ hE.1, Written.mono hSpells hNumbers hE.2⟩
  | call _ _ _, hNumbers, hE => ⟨hSpells _ _ hE.1, AllWritten.mono hSpells hNumbers hE.2⟩

theorem AllWritten.mono (hSpells : ∀ kind text, v.spells kind text → w.spells kind text) :
    ∀ {es : List Expr}, (∀ l ∈ allLiterals es, v.number l → w.number l) →
      AllWritten v es → AllWritten w es
  | [], _, hEs => hEs
  | _ :: _, hNumbers, hEs =>
      ⟨Written.mono hSpells (fun l hL => hNumbers l (List.mem_append_left _ hL)) hEs.1,
        AllWritten.mono hSpells (fun l hL => hNumbers l (List.mem_append_right _ hL)) hEs.2⟩

end

/-- So does an expression that stands as a statement. -/
theorem ActionWritten.mono (hSpells : ∀ kind text, v.spells kind text → w.spells kind text)
    {e : Expr} (hNumbers : ∀ l ∈ e.literals, v.number l → w.number l) (hE : e.ActionWritten v) :
    e.ActionWritten w := by
  cases e with
  | assign => exact ⟨hSpells _ _ hE.1, Written.mono hSpells hNumbers hE.2⟩
  | call span callee args => exact @Written.mono v w hSpells (call span callee args) hNumbers hE
  | _ => exact absurd hE id

end Expr

/-- The numbers in a declaration. -/
def Declaration.literals (d : Declaration) : List Literal :=
  match d.init with
  | some init => init.literals
  | none => []

/-- So does a declaration. -/
theorem Declaration.Written.mono {v w : Vocabulary}
    (hSpells : ∀ kind text, v.spells kind text → w.spells kind text) {d : Declaration}
    (hNumbers : ∀ l ∈ d.literals, v.number l → w.number l) (hD : d.Written v) : d.Written w := by
  refine ⟨hSpells _ _ hD.type, hSpells _ _ hD.name, fun e hE => ?_⟩
  refine Expr.Written.mono hSpells (fun l hL => hNumbers l ?_) (hD.init e hE)
  rw [literals, hE]
  exact hL

namespace Stmt

mutual

/-- The numbers in a statement. -/
def literals : Stmt → List Literal
  | function _ _ _ params body => params.flatMap Declaration.literals ++ allLiterals body
  | var decl => decl.literals
  | branch _ conds blocks => Expr.allLiterals conds ++ blockLiterals blocks
  | loop _ cond body => cond.literals ++ allLiterals body
  | ret _ value => value.literals
  | raw _ _ => []
  | eval _ expr => expr.literals

def allLiterals : List Stmt → List Literal
  | [] => []
  | s :: ss => literals s ++ allLiterals ss

def blockLiterals : List (List Stmt) → List Literal
  | [] => []
  | b :: bs => allLiterals b ++ blockLiterals bs

end

variable {v w : Vocabulary}

mutual

/-- So does a statement, with all that stands in it. -/
theorem Written.mono (hSpells : ∀ kind text, v.spells kind text → w.spells kind text) :
    ∀ {s : Stmt}, (∀ l ∈ s.literals, v.number l → w.number l) → s.Written v → s.Written w
  | function _ _ _ params _, hNumbers, hS => by
      obtain ⟨hType, hName, hParams, hBody⟩ := hS
      refine ⟨hSpells _ _ hType, hSpells _ _ hName, fun d hD => ?_, ?_⟩
      · refine Declaration.Written.mono hSpells (fun l hL => hNumbers l ?_) (hParams d hD)
        exact List.mem_append_left _ (List.mem_flatMap.2 ⟨d, hD, hL⟩)
      · exact AllWritten.mono hSpells (fun l hL => hNumbers l (List.mem_append_right _ hL)) hBody
  | var _, hNumbers, hS => Declaration.Written.mono hSpells hNumbers hS
  | branch _ _ _, hNumbers, hS =>
      ⟨hS.1, hS.2.1,
        Expr.AllWritten.mono hSpells (fun l hL => hNumbers l (List.mem_append_left _ hL)) hS.2.2.1,
        BlocksWritten.mono hSpells (fun l hL => hNumbers l (List.mem_append_right _ hL)) hS.2.2.2⟩
  | loop _ _ _, hNumbers, hS =>
      ⟨Expr.Written.mono hSpells (fun l hL => hNumbers l (List.mem_append_left _ hL)) hS.1,
        AllWritten.mono hSpells (fun l hL => hNumbers l (List.mem_append_right _ hL)) hS.2⟩
  | ret _ value, hNumbers, hS => @Expr.Written.mono v w hSpells value hNumbers hS
  | raw _ _, _, hS => hSpells _ _ hS
  | eval _ _, hNumbers, hS => Expr.ActionWritten.mono hSpells hNumbers hS

theorem AllWritten.mono (hSpells : ∀ kind text, v.spells kind text → w.spells kind text) :
    ∀ {ss : List Stmt}, (∀ l ∈ allLiterals ss, v.number l → w.number l) →
      AllWritten v ss → AllWritten w ss
  | [], _, hSs => hSs
  | _ :: _, hNumbers, hSs =>
      ⟨Written.mono hSpells (fun l hL => hNumbers l (List.mem_append_left _ hL)) hSs.1,
        AllWritten.mono hSpells (fun l hL => hNumbers l (List.mem_append_right _ hL)) hSs.2⟩

theorem BlocksWritten.mono (hSpells : ∀ kind text, v.spells kind text → w.spells kind text) :
    ∀ {bs : List (List Stmt)}, (∀ l ∈ blockLiterals bs, v.number l → w.number l) →
      BlocksWritten v bs → BlocksWritten w bs
  | [], _, hBs => hBs
  | _ :: _, hNumbers, hBs =>
      ⟨AllWritten.mono hSpells (fun l hL => hNumbers l (List.mem_append_left _ hL)) hBs.1,
        BlocksWritten.mono hSpells (fun l hL => hNumbers l (List.mem_append_right _ hL)) hBs.2⟩

end

end Stmt

namespace Expr

mutual

/-- Printing an expression does not look at its spans. -/
theorem print_eraseSpans : ∀ e : Expr, e.eraseSpans.print = e.print
  | ident _ _ | number _ _ | bool _ _ | str _ _ => rfl
  | assign _ _ value => by simp only [eraseSpans, print, print_eraseSpans value]
  | binary _ _ lhs rhs => by
      simp only [eraseSpans, print, print_eraseSpans lhs, print_eraseSpans rhs]
  | unary _ _ operand => by simp only [eraseSpans, print, print_eraseSpans operand]
  | cast _ _ operand => by simp only [eraseSpans, print, print_eraseSpans operand]
  | call _ _ args => by simp only [eraseSpans, print, printArgs_eraseAllSpans args]

theorem printArgs_eraseAllSpans : ∀ es : List Expr, printArgs (eraseAllSpans es) = printArgs es
  | [] => rfl
  | [e] => print_eraseSpans e
  | e :: f :: es => by
      have hOthers := printArgs_eraseAllSpans (f :: es)
      simp only [eraseAllSpans] at hOthers
      simp only [eraseAllSpans, printArgs, print_eraseSpans e, hOthers]

end

mutual

/-- Comparing an expression with another one does not look at the spans of that. -/
theorem same_eraseSpans : ∀ e f : Expr, e.same f.eraseSpans = e.same f
  | ident _ _, f | number _ _, f | bool _ _, f | str _ _, f => by
      cases f <;> rfl
  | assign _ _ value, f => by
      cases f <;> simp only [same, eraseSpans, same_eraseSpans value]
  | binary _ _ lhs rhs, f => by
      cases f <;> simp only [same, eraseSpans, same_eraseSpans lhs, same_eraseSpans rhs]
  | unary _ _ operand, f => by
      cases f <;> simp only [same, eraseSpans, same_eraseSpans operand]
  | cast _ _ operand, f => by
      cases f <;> simp only [same, eraseSpans, same_eraseSpans operand]
  | call _ _ args, f => by
      cases f <;> simp only [same, eraseSpans, sameAll_eraseAllSpans args]

theorem sameAll_eraseAllSpans : ∀ es fs : List Expr, sameAll es (eraseAllSpans fs) = sameAll es fs
  | [], fs => by cases fs <;> rfl
  | e :: es, [] => rfl
  | e :: es, f :: fs => by
      simp only [sameAll, eraseAllSpans, same_eraseSpans e, sameAll_eraseAllSpans es]

end

end Expr

/-- A finite number is the same as itself, as a NaN would not be. -/
theorem Literal.same_self {l : Literal} (h : l.IsFinite) : l.same l = true := by
  cases l with
  | int => simp [same]
  | float x =>
      have hNan : x.isNan = false := by
        simp only [Double.isNan, decide_eq_false_iff_not]
        exact Nat.lt_asymm h
      simp [same, Double.same, hNan]

namespace Expr

mutual

/-- An expression is the same as itself if all its numbers are finite. -/
theorem same_self : ∀ {e : Expr}, (∀ l ∈ e.literals, l.IsFinite) → e.same e = true
  | ident _ _, _ => by simp [same]
  | number _ value, h => Literal.same_self (h value (List.mem_singleton_self value))
  | bool _ _, _ => by simp [same]
  | str _ _, _ => by simp [same]
  | assign _ _ value, h => by simp [same, @same_self value h]
  | binary _ _ lhs rhs, h => by
      simp [same, @same_self lhs fun l hL => h l (List.mem_append_left _ hL),
        @same_self rhs fun l hL => h l (List.mem_append_right _ hL)]
  | unary _ _ operand, h => by simp [same, @same_self operand h]
  | cast _ _ operand, h => by simp [same, @same_self operand h]
  | call _ _ args, h => by simp [same, @sameAll_self args h]

theorem sameAll_self : ∀ {es : List Expr}, (∀ l ∈ allLiterals es, l.IsFinite) →
    sameAll es es = true
  | [], _ => rfl
  | e :: es, h => by
      simp [sameAll, @same_self e fun l hL => h l (List.mem_append_left _ hL),
        @sameAll_self es fun l hL => h l (List.mem_append_right _ hL)]

end

end Expr

namespace Declaration

theorem print_eraseSpans (d : Declaration) : d.eraseSpans.print = d.print := by
  obtain ⟨span, type, name, init⟩ := d
  cases init with
  | none => rfl
  | some e => simp [print, eraseSpans, Expr.print_eraseSpans]

theorem same_eraseSpans (d e : Declaration) : d.same e.eraseSpans = d.same e := by
  obtain ⟨_, type, name, init⟩ := e
  cases init <;> cases hInit : d.init <;> simp [same, eraseSpans, hInit, Expr.same_eraseSpans]

/-- A declaration is the same as itself if all its numbers are finite. -/
theorem same_self {d : Declaration} (h : ∀ l ∈ d.literals, l.IsFinite) : d.same d = true := by
  obtain ⟨_, type, name, init⟩ := d
  cases init with
  | none => simp [same]
  | some e => simp [same, @Expr.same_self e h]

theorem sameAll_map_eraseSpans : ∀ ds es : List Declaration,
    sameAll ds (es.map eraseSpans) = sameAll ds es
  | [], es => by cases es <;> rfl
  | d :: ds, [] => rfl
  | d :: ds, e :: es => by
      simp only [sameAll, List.map_cons, same_eraseSpans, sameAll_map_eraseSpans ds es]

theorem sameAll_self : ∀ {ds : List Declaration}, (∀ d ∈ ds, ∀ l ∈ d.literals, l.IsFinite) →
    sameAll ds ds = true
  | [], _ => rfl
  | d :: ds, h => by
      rw [List.forall_mem_cons] at h
      simp [sameAll, same_self h.1, sameAll_self h.2]

end Declaration

namespace Stmt

mutual

/-- Printing a statement does not look at its spans. -/
theorem print_eraseSpans (depth : Nat) : ∀ s : Stmt, s.eraseSpans.print depth = s.print depth
  | function _ _ _ params body => by
      have hParams : Declaration.print ∘ Declaration.eraseSpans = Declaration.print :=
        funext Declaration.print_eraseSpans
      simp only [eraseSpans, print, Declaration.printParams, List.map_map, hParams,
        printAll_eraseAllSpans (depth + 1) body]
  | var decl => by simp only [eraseSpans, print, Declaration.print_eraseSpans]
  | branch _ conds blocks => by
      simp only [eraseSpans, print, printChain_eraseSpans depth _ conds blocks]
  | loop _ _ body => by
      simp only [eraseSpans, print, Expr.print_eraseSpans, printAll_eraseAllSpans (depth + 1) body]
  | ret _ _ => by simp only [eraseSpans, print, Expr.print_eraseSpans]
  | raw _ _ => rfl
  | eval _ _ => by simp only [eraseSpans, print, Expr.print_eraseSpans]

theorem printAll_eraseAllSpans (depth : Nat) :
    ∀ ss : List Stmt, printAll depth (eraseAllSpans ss) = printAll depth ss
  | [] => rfl
  | s :: ss => by
      simp only [eraseAllSpans, printAll, print_eraseSpans depth s, printAll_eraseAllSpans depth ss]

/-- Nor does printing a chain of branches. -/
theorem printChain_eraseSpans (depth : Nat) (link : String) :
    ∀ (conds : List Expr) (blocks : List (List Stmt)),
      printChain depth link (Expr.eraseAllSpans conds) (eraseBlockSpans blocks) =
        printChain depth link conds blocks
  | [], [] => rfl
  | _ :: _, [] => rfl
  | [], block :: _ => by
      simp only [Expr.eraseAllSpans, eraseBlockSpans, printChain,
        printAll_eraseAllSpans (depth + 1) block]
  | _ :: conds, block :: blocks => by
      simp only [Expr.eraseAllSpans, eraseBlockSpans, printChain, Expr.print_eraseSpans,
        printAll_eraseAllSpans (depth + 1) block, printChain_eraseSpans depth _ conds blocks]

end

mutual

/-- Comparing a statement with another one does not look at the spans of that. -/
theorem same_eraseSpans : ∀ s t : Stmt, s.same t.eraseSpans = s.same t
  | function _ _ _ _ body, t => by
      cases t <;> simp only [same, eraseSpans, Declaration.sameAll_map_eraseSpans,
        sameAll_eraseAllSpans body]
  | var _, t => by
      cases t <;> simp only [same, eraseSpans, Declaration.same_eraseSpans]
  | branch _ _ blocks, t => by
      cases t <;> simp only [same, eraseSpans, Expr.sameAll_eraseAllSpans,
        sameBlocks_eraseBlockSpans blocks]
  | loop _ _ body, t => by
      cases t <;> simp only [same, eraseSpans, Expr.same_eraseSpans, sameAll_eraseAllSpans body]
  | ret _ _, t => by
      cases t <;> simp only [same, eraseSpans, Expr.same_eraseSpans]
  | raw _ _, t => by
      cases t <;> rfl
  | eval _ _, t => by
      cases t <;> simp only [same, eraseSpans, Expr.same_eraseSpans]

theorem sameAll_eraseAllSpans : ∀ ss ts : List Stmt, sameAll ss (eraseAllSpans ts) = sameAll ss ts
  | [], ts => by cases ts <;> rfl
  | _ :: _, [] => rfl
  | s :: ss, _ :: _ => by
      simp only [sameAll, eraseAllSpans, same_eraseSpans s, sameAll_eraseAllSpans ss]

theorem sameBlocks_eraseBlockSpans : ∀ bs ds : List (List Stmt),
    sameBlocks bs (eraseBlockSpans ds) = sameBlocks bs ds
  | [], ds => by cases ds <;> rfl
  | _ :: _, [] => rfl
  | b :: bs, _ :: _ => by
      simp only [sameBlocks, eraseBlockSpans, sameAll_eraseAllSpans b,
        sameBlocks_eraseBlockSpans bs]

end

mutual

/-- A statement is the same as itself if all its numbers are finite. -/
theorem same_self : ∀ {s : Stmt}, (∀ l ∈ s.literals, l.IsFinite) → s.same s = true
  | function _ _ _ params body, h => by
      have hParams : ∀ d ∈ params, ∀ l ∈ d.literals, l.IsFinite := fun d hD l hL =>
        h l (List.mem_append_left _ (List.mem_flatMap.2 ⟨d, hD, hL⟩))
      simp [same, Declaration.sameAll_self hParams,
        @sameAll_self body fun l hL => h l (List.mem_append_right _ hL)]
  | var _, h => Declaration.same_self h
  | branch _ conds blocks, h => by
      simp [same, @Expr.sameAll_self conds fun l hL => h l (List.mem_append_left _ hL),
        @sameBlocks_self blocks fun l hL => h l (List.mem_append_right _ hL)]
  | loop _ cond body, h => by
      simp [same, @Expr.same_self cond fun l hL => h l (List.mem_append_left _ hL),
        @sameAll_self body fun l hL => h l (List.mem_append_right _ hL)]
  | ret _ value, h => @Expr.same_self value h
  | raw _ _, _ => by simp [same]
  | eval _ expr, h => @Expr.same_self expr h

theorem sameAll_self : ∀ {ss : List Stmt}, (∀ l ∈ allLiterals ss, l.IsFinite) →
    sameAll ss ss = true
  | [], _ => rfl
  | s :: ss, h => by
      simp [sameAll, @same_self s fun l hL => h l (List.mem_append_left _ hL),
        @sameAll_self ss fun l hL => h l (List.mem_append_right _ hL)]

theorem sameBlocks_self : ∀ {bs : List (List Stmt)}, (∀ l ∈ blockLiterals bs, l.IsFinite) →
    sameBlocks bs bs = true
  | [], _ => rfl
  | b :: bs, h => by
      simp [sameBlocks, @sameAll_self b fun l hL => h l (List.mem_append_left _ hL),
        @sameBlocks_self bs fun l hL => h l (List.mem_append_right _ hL)]

end

end Stmt

namespace Program

variable {p q : Program}

/-- The numbers in a program. -/
def literals (p : Program) : List Literal := Stmt.allLiterals p

/-- Programs that differ only in their spans are printed alike. -/
theorem print_eq_of_eraseSpans (h : q.eraseSpans = p.eraseSpans) : q.print = p.print :=
  calc q.print = Stmt.printAll 0 q.eraseSpans := (Stmt.printAll_eraseAllSpans 0 q).symm
    _ = Stmt.printAll 0 p.eraseSpans := by rw [h]
    _ = p.print := Stmt.printAll_eraseAllSpans 0 p

/-- Programs that differ only in their spans are the same, if their numbers are finite. -/
theorem same_of_eraseSpans (hFinite : ∀ l ∈ p.literals, l.IsFinite)
    (h : q.eraseSpans = p.eraseSpans) : p.same q = true :=
  calc p.same q = Stmt.sameAll p q.eraseSpans := (Stmt.sameAll_eraseAllSpans p q).symm
    _ = Stmt.sameAll p p.eraseSpans := by rw [h]
    _ = Stmt.sameAll p p := Stmt.sameAll_eraseAllSpans p p
    _ = true := Stmt.sameAll_self hFinite

/-- A text is a program exactly if it has tokens and these are a program. -/
theorem ofText_eq_ok {text : String} :
    ofText text = .ok p ↔ ∃ tokens, Token.ofText text = .ok tokens ∧ ofTokens tokens = .ok p := by
  simp only [ofText, bind_eq_ok, mapError_eq_ok]

/-- A program that was read from a text is made of what is printed as it is read. -/
theorem written_of_ofText {text : String} (hText : ofText text = .ok p)
    (hFinite : ∀ l ∈ p.literals, l.IsFinite) : Stmt.AllWritten .printable p := by
  obtain ⟨tokens, hTokens, hP⟩ := ofText_eq_ok.1 hText
  have hWritten := written_of_ofTokens (Token.covers_of_ofText hTokens) hP
  refine @Stmt.AllWritten.mono .lexed .printable (fun _ _ hSpells => hSpells) p ?_ hWritten
  exact fun l hL hNumber => hNumber (hFinite l hL)

/-- A program in printable words is read back from its text, up to its spans. -/
theorem exists_ofText_print (hP : Stmt.AllWritten .printable p) :
    ∃ q, ofText p.print = .ok q ∧ q.eraseSpans = p.eraseSpans := by
  obtain ⟨tokens, hTokens, hLexemes⟩ := Stmt.reads_printAll hP Scan.Reads.nil 0
  rw [List.append_nil] at hTokens hLexemes
  obtain ⟨q, hQ, hErase⟩ := exists_ofTokens_of_derives (Stmt.derivesAll_of_lexemes hP hLexemes)
  exact ⟨q, ofText_eq_ok.2 ⟨tokens, (Token.ofText_eq _).trans hTokens, hQ⟩, hErase⟩

/-- Printing and reading again gives the program back, spans apart, and so prints the same. -/
theorem ofText_print {text : String} (hText : ofText text = .ok p)
    (hFinite : ∀ l ∈ p.literals, l.IsFinite) :
    ∃ q, ofText p.print = .ok q ∧ q.eraseSpans = p.eraseSpans ∧ p.same q = true ∧
      q.print = p.print := by
  obtain ⟨q, hQ, hErase⟩ := exists_ofText_print (written_of_ofText hText hFinite)
  exact ⟨q, hQ, hErase, same_of_eraseSpans hFinite hErase, print_eq_of_eraseSpans hErase⟩

/-- A branch without braces, with a number in hexadecimal and one that is not written shortest. -/
def branchText : String := "if (ok) x = -0.00 * 0x1F; else _wasm \"nop\";"

def branchTokens : List Token :=
  [⟨.kwIf, "if", ⟨0, 2⟩⟩, ⟨.lparen, "(", ⟨3, 4⟩⟩, ⟨.ident, "ok", ⟨4, 6⟩⟩, ⟨.rparen, ")", ⟨6, 7⟩⟩,
    ⟨.ident, "x", ⟨8, 9⟩⟩, ⟨.assign, "=", ⟨10, 11⟩⟩, ⟨.minus, "-", ⟨12, 13⟩⟩,
    ⟨.number, "0.00", ⟨13, 17⟩⟩, ⟨.star, "*", ⟨18, 19⟩⟩, ⟨.number, "0x1F", ⟨20, 24⟩⟩,
    ⟨.semicolon, ";", ⟨24, 25⟩⟩, ⟨.kwElse, "else", ⟨26, 30⟩⟩, ⟨.kwWasm, "_wasm", ⟨31, 36⟩⟩,
    ⟨.str, "nop", ⟨37, 42⟩⟩, ⟨.semicolon, ";", ⟨42, 43⟩⟩]

def branchProgram : Program :=
  [.branch ⟨0, 43⟩ [.ident ⟨4, 6⟩ "ok"]
    [[.eval ⟨8, 25⟩ (.assign ⟨8, 24⟩ "x"
        (.binary ⟨12, 24⟩ .mul (.unary ⟨12, 17⟩ .neg (.number ⟨13, 17⟩ (.float ⟨0⟩)))
          (.number ⟨20, 24⟩ (.int 31))))],
      [.raw ⟨31, 43⟩ "nop"]]]

theorem ofText_print_branch :
    ofText branchText = .ok branchProgram ∧ (∀ l ∈ branchProgram.literals, l.IsFinite) ∧
      ∃ q, ofText branchProgram.print = .ok q ∧ q.eraseSpans = branchProgram.eraseSpans ∧
        branchProgram.same q = true ∧ q.print = branchProgram.print := by
  have hTokens : Token.ofText branchText = .ok branchTokens := by
    rw [Token.ofText_eq]
    decide +kernel
  have hProgram : ofTokens branchTokens = .ok branchProgram := by cbv
  have hText := ofText_eq_ok.2 ⟨branchTokens, hTokens, hProgram⟩
  have hFinite : ∀ l ∈ branchProgram.literals, l.IsFinite := by
    have hLiterals : branchProgram.literals = [.float ⟨0⟩, .int 31] := rfl
    have hZero : Double.magnitude ⟨0⟩ < Format.double.infinity := by decide +kernel
    rw [hLiterals, List.forall_mem_cons, List.forall_mem_singleton]
    exact ⟨hZero, trivial⟩
  exact ⟨hText, hFinite, ofText_print hText hFinite⟩

end Program

end WasmCompiler
