import WasmCompiler.Proofs.Lexemes

/-! Printed trees. What is printed is cut into the lexemes of the tree: after every word and number
stands a blank or a mark that ends it, and no mark runs into what is printed after it. -/

namespace WasmCompiler

open Number

namespace Scan

variable {rest : List Char} {ls : List Lexeme}

/-- What ends a name or a number also ends a mark. -/
theorem Delimits.isApart (h : Delimits rest) : IsApart rest := by
  have hDelimiters :
      delimiters.all (fun c => !(['=', '&', '|', '/', '*'].contains c)) = true := by decide
  cases rest with
  | nil => exact h
  | cons c rest => simpa [IsApart] using List.all_eq_true.1 hDelimiters c h

/-- No mark goes on into a name. -/
theorem isApart_of_isName {name : List Char} (h : IsName name) : IsApart (name ++ rest) := by
  have hMarks : ['=', '&', '|', '/', '*'].all (!startsName ·) = true := by decide
  cases name with
  | nil => exact absurd h id
  | cons c cs =>
      obtain ⟨hC, -⟩ := h
      exact fun hMem => by simpa [hC] using List.all_eq_true.1 hMarks c hMem

/-- No mark goes on into a number. -/
theorem isApart_of_isText {cs : List Char} (h : Literal.IsText cs) : IsApart (cs ++ rest) := by
  have hMarks : ['=', '&', '|', '/', '*'].all (!Char.isDigit ·) = true := by decide
  obtain ⟨c, cs, rfl, hC⟩ := h.exists_cons
  exact fun hMem => by simpa [hC] using List.all_eq_true.1 hMarks c hMem

theorem delimits_space : Delimits (' ' :: rest) := List.mem_of_elem_eq_true rfl

theorem delimits_rparen : Delimits (')' :: rest) := List.mem_of_elem_eq_true rfl

theorem delimits_lparen : Delimits ('(' :: rest) := List.mem_of_elem_eq_true rfl

theorem delimits_comma : Delimits (',' :: rest) := List.mem_of_elem_eq_true rfl

theorem delimits_semicolon : Delimits (';' :: rest) := List.mem_of_elem_eq_true rfl

theorem isApart_space : IsApart (' ' :: rest) := delimits_space.isApart

theorem Reads.space (h : Reads rest ls) : Reads (' ' :: rest) ls := h.blank rfl

theorem Reads.newline (h : Reads rest ls) : Reads ('\n' :: rest) ls := h.blank rfl

/-- The indentation of a line holds no token. -/
theorem Reads.indent (depth : Nat) (h : Reads rest ls) :
    Reads ((Stmt.indent depth).toList ++ rest) ls := by
  rw [Stmt.indent, String.toList_ofList]
  induction 4 * depth with
  | zero => exact h
  | succ n ih =>
      rw [List.replicate_succ]
      exact ih.space

/-- A mark is read as its token if what follows does not make it a longer mark. -/
theorem Reads.symbol {text : String} {kind : Token.Kind}
    (hMem : (text.toList, kind) ∈ Token.Kind.marks) (hRest : IsApart rest) (h : Reads rest ls) :
    Reads (text.toList ++ rest) ((kind, text) :: ls) := by
  have hMark := Reads.mark hMem hRest h
  rwa [String.ofList_toList] at hMark

theorem Reads.char {c : Char} {kind : Token.Kind} (hMem : ([c], kind) ∈ Token.Kind.marks)
    (hRest : IsApart rest) (h : Reads rest ls) :
    Reads (c :: rest) ((kind, String.ofList [c]) :: ls) := Reads.mark hMem hRest h

/-- A word is read as a keyword or a name if what follows does not make it a longer word. -/
theorem Reads.named {text : String} {kind : Token.Kind}
    (hText : IsName text.toList ∧ (Token.Kind.words.lookup text).getD .ident = kind)
    (hRest : Delimits rest) (h : Reads rest ls) :
    Reads (text.toList ++ rest) ((kind, text) :: ls) := by
  have hWord := Reads.word hText.1 hRest h
  rwa [String.ofList_toList, hText.2] at hWord

/-- A keyword is read as its token if what follows does not make it a longer word. -/
theorem Reads.keyword {word : String} {kind : Token.Kind} (hMem : (word, kind) ∈ Token.Kind.words)
    (hRest : Delimits rest) (h : Reads rest ls) :
    Reads (word.toList ++ rest) ((kind, word) :: ls) := by
  have hWords : ∀ entry ∈ Token.Kind.words, IsName entry.1.toList ∧
      (Token.Kind.words.lookup entry.1).getD .ident = entry.2 := by decide
  exact h.named (hWords _ hMem) hRest

/-- A text in quotes is read as one token, without the quotes. -/
theorem Reads.quoted {text : String} (hText : ∀ c ∈ text.toList, c ≠ '"' ∧ c ≠ '\n')
    (h : Reads rest ls) :
    Reads ('"' :: (text.toList ++ '"' :: rest)) ((.str, text) :: ls) := by
  have hStr := Reads.str hText h
  rwa [String.ofList_toList] at hStr

end Scan

open Scan

/-- Each binary operator is written as the mark that it is read from. -/
theorem BinaryOp.mem_marks (op : BinaryOp) : (op.symbol.toList, op.kind) ∈ Token.Kind.marks := by
  cases op <;> decide

theorem UnaryOp.mem_marks (op : UnaryOp) : (op.symbol.toList, op.kind) ∈ Token.Kind.marks := by
  cases op <;> decide

namespace Expr

variable {e : Expr}

/-- No mark goes on into an expression that stands after it. -/
theorem isApart_print (hE : e.Written .printable) (rest : List Char) :
    IsApart (e.print.toList ++ rest) := by
  cases e with
  | ident _ name => exact isApart_of_isName hE.1
  | number _ value => exact isApart_of_isText (Literal.isText_print hE)
  | bool _ value => cases value <;> simp [print, IsApart]
  | str _ text => simp [print, IsApart]
  | assign _ _ _ => exact absurd hE id
  | binary _ op lhs rhs => simp [print, IsApart]
  | unary _ op operand => simp [print, IsApart]
  | cast _ type operand => simp [print, IsApart]
  | call _ callee args =>
      simp only [print, String.toList_append, List.append_assoc]
      exact isApart_of_isName hE.1.1

/-- The text of arguments does not lengthen a mark before it, and neither does what follows if there
are none. -/
theorem isApart_printArgs {args : List Expr} {rest : List Char} (hArgs : AllWritten .printable args)
    (hRest : IsApart rest) : IsApart ((printArgs args).toList ++ rest) := by
  match args with
  | [] => exact hRest
  | [arg] => exact isApart_print hArgs.1 rest
  | arg :: other :: others =>
      simp only [printArgs, String.toList_append, List.append_assoc]
      exact isApart_print hArgs.1 _

mutual

/-- A printed expression is cut into its lexemes. -/
theorem reads_print : ∀ {e : Expr} {rest : List Char} {ls : List Lexeme}, e.Written .printable →
    Delimits rest → Scan.Reads rest ls → Scan.Reads (e.print.toList ++ rest) (e.lexemes ++ ls)
  | ident _ name, rest, ls, hE, hRest, h => h.named hE hRest
  | number _ value, rest, ls, hE, hRest, h => by
      have hNumber := Scan.Reads.number (Literal.isText_print hE) hRest h
      rwa [String.ofList_toList] at hNumber
  | bool _ value, rest, ls, _, hRest, h => by
      cases value with
      | true => exact @Scan.Reads.keyword rest ls "true" .kwTrue (by decide) hRest h
      | false =>
          exact @Scan.Reads.keyword rest ls "false" .kwFalse (by decide) hRest h
  | str _ text, rest, ls, hE, _, h => by
      simpa [print, lexemes] using h.quoted hE
  | assign _ _ _, _, _, hE, _, _ => absurd hE id
  | binary _ op lhs rhs, rest, ls, hE, hRest, h => by
      simp only [print, lexemes, String.toList_append, List.append_assoc, List.cons_append,
        List.nil_append]
      refine .char (by decide) (isApart_print hE.1 _) (reads_print hE.1 delimits_space ?_)
      refine .space (.symbol op.mem_marks isApart_space (.space ?_))
      exact reads_print hE.2 delimits_rparen (.char (by decide) hRest.isApart h)
  | unary _ op operand, rest, ls, hE, hRest, h => by
      have hOperand : operand.Written .printable := hE
      simp only [print, lexemes, String.toList_append, List.append_assoc, List.cons_append,
        List.nil_append]
      refine .char (by decide) (by cases op <;> simp [UnaryOp.symbol, IsApart]) ?_
      refine .symbol op.mem_marks (isApart_print hOperand _) ?_
      exact reads_print hOperand delimits_rparen (.char (by decide) hRest.isApart h)
  | cast _ type operand, rest, ls, hE, hRest, h => by
      simp only [print, lexemes, String.toList_append, List.append_assoc, List.cons_append,
        List.nil_append]
      refine .char (by decide) delimits_lparen.isApart (.char (by decide) ?_ ?_)
      · exact @isApart_of_isName _ type.toList hE.1.1
      · refine .named hE.1 delimits_rparen (.char (by decide) isApart_space (.space ?_))
        exact reads_print hE.2 delimits_rparen (.char (by decide) hRest.isApart h)
  | call _ callee args, rest, ls, hE, hRest, h => by
      simp only [print, lexemes, String.toList_append, List.append_assoc, List.cons_append,
        List.nil_append]
      refine .named hE.1 delimits_lparen (.char (by decide) ?_ ?_)
      · exact isApart_printArgs hE.2 delimits_rparen.isApart
      · exact reads_printArgs hE.2 delimits_rparen (.char (by decide) hRest.isApart h)

/-- The text of arguments is read as their lexemes, with the commas between them. -/
theorem reads_printArgs : ∀ {args : List Expr} {rest : List Char} {ls : List Lexeme},
    AllWritten .printable args → Delimits rest → Scan.Reads rest ls →
      Scan.Reads ((printArgs args).toList ++ rest) (argLexemes args ++ ls)
  | [], _, _, _, _, h => h
  | [arg], rest, ls, hArgs, hRest, h => reads_print hArgs.1 hRest h
  | arg :: other :: others, rest, ls, hArgs, hRest, h => by
      simp only [printArgs, argLexemes, String.toList_append, List.append_assoc, List.cons_append]
      refine reads_print hArgs.1 delimits_comma (.char (by decide) isApart_space (.space ?_))
      exact reads_printArgs hArgs.2 hRest h

end

/-- The text of an expression that stands as a statement is read as its lexemes. -/
theorem reads_print_of_actionWritten {rest : List Char} {ls : List Lexeme}
    (hE : e.ActionWritten .printable) (hRest : Delimits rest) (h : Scan.Reads rest ls) :
    Scan.Reads (e.print.toList ++ rest) (e.lexemes ++ ls) := by
  cases e with
  | assign _ target value =>
      simp only [print, String.toList_append, List.append_assoc]
      refine .named hE.1 delimits_space (.space (.char (by decide) isApart_space (.space ?_)))
      exact reads_print hE.2 hRest h
  | call _ callee args => exact reads_print hE hRest h
  | _ => exact absurd hE id

end Expr

namespace Declaration

/-- A declaration starts with its type, which does not lengthen a mark before it. -/
theorem isApart_print {d : Declaration} (hD : d.Written .printable) (rest : List Char) :
    IsApart (d.print.toList ++ rest) := by
  simp only [print, String.toList_append, List.append_assoc]
  exact isApart_of_isName hD.type.1

/-- The text of a declaration is read as its lexemes. -/
theorem reads_print {d : Declaration} {rest : List Char} {ls : List Lexeme}
    (hD : d.Written .printable) (hRest : Delimits rest) (h : Scan.Reads rest ls) :
    Scan.Reads (d.print.toList ++ rest) (d.lexemes ++ ls) := by
  obtain ⟨span, type, name, init⟩ := d
  cases init with
  | none =>
      simp only [print, String.toList_append, List.append_assoc]
      exact .named hD.type delimits_space (.space (.named hD.name hRest h))
  | some e =>
      simp only [print, String.toList_append, List.append_assoc]
      refine .named hD.type delimits_space (.space (.named hD.name delimits_space (.space ?_)))
      refine .char (by decide) isApart_space (.space ?_)
      exact Expr.reads_print (hD.init e rfl) hRest h

/-- The text of parameters does not lengthen a mark before it, and neither does what follows if
there are none. -/
theorem isApart_printParams {params : List Declaration} {rest : List Char}
    (hParams : ∀ d ∈ params, d.Written .printable) (hRest : IsApart rest) :
    IsApart ((printParams params).toList ++ rest) := by
  match params with
  | [] => exact hRest
  | [param] =>
      rw [printParams, List.map_singleton, String.intercalate_singleton]
      exact isApart_print (hParams param (by simp)) rest
  | param :: other :: others =>
      simp only [printParams, List.map_cons, String.intercalate_cons_cons, String.toList_append,
        List.append_assoc]
      exact isApart_print (hParams param (by simp)) _

/-- The text of parameters is read as their lexemes, with the commas between them. -/
theorem reads_printParams : ∀ {params : List Declaration} {rest : List Char} {ls : List Lexeme},
    (∀ d ∈ params, d.Written .printable) → Delimits rest → Scan.Reads rest ls →
      Scan.Reads ((printParams params).toList ++ rest) (paramLexemes params ++ ls)
  | [], _, _, _, _, h => h
  | [param], rest, ls, hParams, hRest, h => by
      rw [printParams, List.map_singleton, String.intercalate_singleton]
      exact reads_print (hParams param (by simp)) hRest h
  | param :: other :: others, rest, ls, hParams, hRest, h => by
      have hOthers : ∀ d ∈ other :: others, d.Written .printable := fun d hD =>
        hParams d (List.mem_cons_of_mem _ hD)
      simp only [printParams, List.map_cons, String.intercalate_cons_cons, String.toList_append,
        List.append_assoc, paramLexemes, List.cons_append]
      refine reads_print (hParams param (by simp)) delimits_comma ?_
      exact .char (by decide) isApart_space (.space (reads_printParams hOthers hRest h))

end Declaration

namespace Stmt

variable {rest : List Char} {ls : List Lexeme}

theorem isApart_newline : IsApart ('\n' :: rest) := by simp [IsApart]

/-- A block is read as its braces around what its text is read as. -/
theorem reads_braced {depth : Nat} {block : String} {inner : List Lexeme}
    (hBlock : ∀ {rest : List Char} {ls : List Lexeme}, Scan.Reads rest ls →
      Scan.Reads (block.toList ++ rest) (inner ++ ls))
    (hRest : IsApart rest) (h : Scan.Reads rest ls) :
    Scan.Reads ((braced depth block).toList ++ rest) (braces inner ++ ls) := by
  simp only [braced, braces, String.toList_append, List.append_assoc, List.cons_append,
    List.nil_append]
  refine .char (by decide) isApart_newline (.newline (hBlock ?_))
  exact .indent depth (.char (by decide) hRest h)

/-- A condition is read as its parentheses around what its text is read as. -/
theorem reads_condition {cond : Expr} (hCond : cond.Written .printable) (h : Scan.Reads rest ls) :
    Scan.Reads ('(' :: (cond.print.toList ++ ')' :: ' ' :: rest))
      (conditionLexemes cond ++ ls) := by
  simp only [conditionLexemes, List.cons_append, List.append_assoc, List.nil_append]
  refine .char (by decide) (Expr.isApart_print hCond _) ?_
  exact Expr.reads_print hCond delimits_rparen (.char (by decide) isApart_space (.space h))

theorem reads_else (h : Scan.Reads rest ls) :
    Scan.Reads (" else ".toList ++ rest) ((.kwElse, "else") :: ls) :=
  .space (@Scan.Reads.keyword _ _ "else" .kwElse (by decide) delimits_space h.space)

/-- The branches after the first one do not lengthen a mark before them. -/
theorem isApart_printChain {depth : Nat} {conds : List Expr} {blocks : List (List Stmt)}
    (hRest : IsApart rest) :
    IsApart ((printChain depth " else " conds blocks).toList ++ rest) := by
  match conds, blocks with
  | _ :: _, _ :: _ => simp [printChain, IsApart]
  | [], _ :: _ => simp [printChain, IsApart]
  | [], [] => exact hRest
  | _ :: _, [] => exact hRest

mutual

/-- A printed statement is cut into its lexemes. -/
theorem reads_print {depth : Nat} : ∀ {s : Stmt} {rest : List Char} {ls : List Lexeme},
    s.Written .printable → Scan.Reads rest ls →
      Scan.Reads ((s.print depth).toList ++ rest) (s.lexemes ++ ls)
  | function _ type name params body, rest, ls, hS, h => by
      obtain ⟨hType, hName, hParams, hBody⟩ := hS
      simp only [print, lexemes, String.toList_append, List.append_assoc, List.cons_append]
      refine .indent depth (.named hType delimits_space (.space (.named hName delimits_lparen ?_)))
      refine .char (by decide) (Declaration.isApart_printParams hParams delimits_rparen.isApart) ?_
      refine Declaration.reads_printParams hParams delimits_rparen ?_
      refine .char (by decide) isApart_space (.space ?_)
      exact reads_braced (fun h => reads_printAll hBody h) isApart_newline h.newline
  | var decl, rest, ls, hS, h => by
      simp only [print, lexemes, String.toList_append, List.append_assoc, List.cons_append,
        List.nil_append]
      refine .indent depth (Declaration.reads_print hS delimits_semicolon ?_)
      exact .char (by decide) isApart_newline h.newline
  | branch _ conds blocks, rest, ls, hS, h => by
      obtain ⟨-, -, hConds, hBlocks⟩ := hS
      simp only [print, lexemes, String.toList_append, List.append_assoc]
      refine .indent depth (@reads_printChain depth "" [] ?_ _ _ _ _ hConds hBlocks
        isApart_newline h.newline)
      exact fun h => h
  | loop _ cond body, rest, ls, hS, h => by
      simp only [print, lexemes, String.toList_append, List.append_assoc, List.cons_append]
      refine .indent depth (@Scan.Reads.keyword _ _ "while" .kwWhile (by decide)
        delimits_space (.space (reads_condition hS.1 ?_)))
      exact reads_braced (fun h => reads_printAll hS.2 h) isApart_newline h.newline
  | ret _ value, rest, ls, hS, h => by
      simp only [print, lexemes, String.toList_append, List.append_assoc, List.cons_append,
        List.nil_append]
      refine .indent depth (@Scan.Reads.keyword _ _ "return" .kwReturn (by decide)
        delimits_space (.space (Expr.reads_print hS delimits_semicolon ?_)))
      exact .char (by decide) isApart_newline h.newline
  | raw _ text, rest, ls, hS, h => by
      simp only [print, lexemes, String.toList_append, List.append_assoc, List.cons_append,
        List.nil_append]
      refine .indent depth (@Scan.Reads.keyword _ _ "_wasm" .kwWasm (by decide)
        delimits_space (.space (.quoted hS ?_)))
      exact .char (by decide) isApart_newline h.newline
  | eval _ expr, rest, ls, hS, h => by
      simp only [print, lexemes, String.toList_append, List.append_assoc, List.cons_append,
        List.nil_append]
      refine .indent depth (Expr.reads_print_of_actionWritten hS delimits_semicolon ?_)
      exact .char (by decide) isApart_newline h.newline

/-- The text of statements, a line for each, is read as their lexemes. -/
theorem reads_printAll {depth : Nat} : ∀ {ss : List Stmt} {rest : List Char} {ls : List Lexeme},
    AllWritten .printable ss → Scan.Reads rest ls →
      Scan.Reads ((printAll depth ss).toList ++ rest) (allLexemes ss ++ ls)
  | [], _, _, _, h => h
  | s :: ss, rest, ls, hSs, h => by
      simp only [printAll, allLexemes, String.toList_append, List.append_assoc]
      exact reads_print hSs.1 (reads_printAll hSs.2 h)

/-- The text of a chain of branches is read as its lexemes, given that the text before each
condition is read as a link between them. -/
theorem reads_printChain {depth : Nat} {link : String} {linkLexemes : List Lexeme}
    (hLink : ∀ {rest : List Char} {ls : List Lexeme}, Scan.Reads rest ls →
      Scan.Reads (link.toList ++ rest) (linkLexemes ++ ls)) :
    ∀ {conds : List Expr} {blocks : List (List Stmt)} {rest : List Char} {ls : List Lexeme},
      Expr.AllWritten .printable conds → BlocksWritten .printable blocks → IsApart rest →
      Scan.Reads rest ls →
        Scan.Reads ((printChain depth link conds blocks).toList ++ rest)
          (chainLexemes linkLexemes conds blocks ++ ls)
  | [], [], _, _, _, _, _, h => h
  | _ :: _, [], _, _, _, _, _, h => h
  | [], block :: _, rest, ls, _, hBlocks, hRest, h => by
      simp only [printChain, chainLexemes, String.toList_append, List.append_assoc,
        List.cons_append]
      exact reads_else (reads_braced (fun h => reads_printAll hBlocks.1 h) hRest h)
  | cond :: conds, block :: blocks, rest, ls, hConds, hBlocks, hRest, h => by
      simp only [printChain, chainLexemes, String.toList_append, List.append_assoc,
        List.cons_append]
      refine hLink (@Scan.Reads.keyword _ _ "if" .kwIf (by decide) delimits_space
        (.space (reads_condition hConds.1 ?_)))
      refine reads_braced (fun h => reads_printAll hBlocks.1 h) (isApart_printChain hRest) ?_
      exact reads_printChain reads_else hConds.2 hBlocks.2 hRest h

end

end Stmt

end WasmCompiler
