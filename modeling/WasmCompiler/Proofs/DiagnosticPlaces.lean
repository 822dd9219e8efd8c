import Mathlib
import WasmCompiler.Proofs.BlamedNodes
import WasmCompiler.Proofs.LexerRuns
import WasmCompiler.Proofs.SyntaxErrors

/-! Where diagnostics point. Each stage of compiling shows a place of its own: the lexer what is no
token, the grammar a token or the end of the last one, and checking and lowering the tokens of a
node. All of them are ranges of whole characters of the source. -/

namespace WasmCompiler

/-- A range of whole characters of a text. -/
structure Span.InText (text : String) (s : Span) : Prop where
  ordered : s.start ≤ s.stop
  inside : s.stop ≤ text.utf8ByteSize
  start : String.Pos.Raw.IsValid text ⟨s.start⟩
  stop : String.Pos.Raw.IsValid text ⟨s.stop⟩

section InText

variable {text : String} {before inside after : List Char}

/-- A part of a text has a span in the text. -/
theorem Span.inText_of_append (h : text.toList = before ++ (inside ++ after)) :
    InText text ⟨byteLength before, byteLength before + byteLength inside⟩ where
  ordered := Nat.le_add_right _ _
  inside := by
    rw [utf8ByteSize_eq_byteLength, h, byteLength_append, byteLength_append]
    exact Nat.add_le_add_left (Nat.le_add_right _ _) _
  start := isValid_iff.2 ⟨before, inside ++ after, h, rfl⟩
  stop := isValid_iff.2 ⟨before ++ inside, after, by rw [h, List.append_assoc], by simp⟩

theorem Span.inText_point (h : text.toList = before ++ after) :
    InText text (.point (byteLength before)) := by
  rw [← List.nil_append after] at h
  exact inText_of_append h

theorem Span.InText.point_stop {s : Span} (h : s.InText text) : InText text (.point s.stop) :=
  ⟨le_rfl, h.inside, h.stop, h.stop⟩

end InText

namespace Lexical

/-- What is no token stands at an offset of a text, after pieces and a gap. -/
inductive Breaks (error : Token.Error) : List Char → Nat → Prop where
  | here {gap passed rest : List Char} (hGap : IsGap gap (passed ++ rest))
      (hFails : Fails error passed rest) : Breaks error (gap ++ (passed ++ rest)) (byteLength gap)
  | later {gap s rest : List Char} {offset : Nat} (hPiece : Begins gap s rest)
      (h : Breaks error rest offset) :
      Breaks error (gap ++ (s ++ rest)) (byteLength gap + byteLength s + offset)

/-- Where a text cannot be read, there is a place between two characters. -/
theorem Breaks.exists_front {error : Token.Error} {text : List Char} {offset : Nat}
    (h : Breaks error text offset) :
    ∃ front back, text = front ++ back ∧ offset = byteLength front := by
  induction h with
  | @here gap passed rest _ _ => exact ⟨gap, passed ++ rest, rfl, rfl⟩
  | @later gap s rest _ _ _ ih =>
      obtain ⟨front, back, rfl, rfl⟩ := ih
      exact ⟨gap ++ (s ++ front), back, by simp, by simp [Nat.add_assoc]⟩

/-- The first thing that is no token is what the lexer fails with. -/
theorem breaks_of_tokens {s : Scan} {e : Located Token.Error} (h : s.tokens = .error e) :
    ∃ length, Breaks e.cause s.rest length ∧ e.span = .point (s.offset + length) := by
  fun_induction Scan.tokens s with
  | case1 s e' after hNext =>
      cases h
      cases call_of_next hNext with
      | failure hGap hFails => exact ⟨_, .here hGap hFails, rfl⟩
  | case2 => cases h
  | case3 s t after hNext hEnd _ e' hError ih =>
      cases h
      obtain ⟨length, hBreaks, hSpan⟩ := ih hError
      cases call_of_next hNext with
      | finish => exact absurd rfl hEnd
      | @token offset gap spelling rest kind word hPiece _ =>
          refine ⟨_, .later hPiece hBreaks, ?_⟩
          rw [hSpan]
          simp only [Nat.add_assoc]
  | case4 => cases h

end Lexical

section Stages

open Lexical

variable {source : String} {tokens : List Token}

/-- Tokens in a row of a text cover whole characters of it. -/
theorem Covers.inText {front u back : List Token} {s : Span}
    (hTokens : Token.ofText source = .ok (front ++ (u ++ back))) (h : Covers u s) :
    s.InText source := by
  obtain ⟨pieces, last, hSplits, hTokenizes⟩ := exists_splits_of_ofText hTokens
  obtain ⟨before, inside, after, -, hText, rfl, -⟩ := hSplits.exists_slice hTokenizes h
  rw [Nat.zero_add]
  exact Span.inText_of_append hText

/-- The tokens of a text have their spans in it. -/
theorem Token.inText_of_mem (hTokens : Token.ofText source = .ok tokens) {t : Token}
    (hMem : t ∈ tokens) : t.span.InText source := by
  obtain ⟨front, back, rfl⟩ := List.append_of_mem hMem
  exact (Covers.single t).inText hTokens

/-- An error of grammar shows a token or, where the tokens are only the start of a program, the end
of the last one. -/
theorem Program.place_of_ofTokens {e : Located GrammarError} (h : ofTokens tokens = .error e) :
    (∃ t ∈ tokens, e.span = t.span) ∨
    ∃ last, tokens.getLast? = some last ∧ e.span = .point last.span.stop ∧
      ∃ more, IsAccepted (tokens ++ more) := by
  obtain ⟨u, d, kinds, hMoves, hSpan, -, ⟨q, hWhole⟩, -⟩ := exists_moves_of_error h
  have hAhead : tokens = u ++ d.ahead := hMoves.ahead
  rw [Cursor.peek, Cursor.peekAt, ← List.head?_eq_getElem?] at hSpan
  cases hNext : d.ahead with
  | cons t rest =>
      left
      rw [hNext] at hAhead hSpan
      exact ⟨t, by simp [hAhead], hSpan⟩
  | nil =>
      right
      rw [hNext, List.append_nil] at hAhead
      subst hAhead
      obtain ⟨p, hParse, -⟩ := exists_ofTokens_of_derives hWhole
      cases hLast : tokens.getLast? with
      | none =>
          obtain ⟨empty, hEmpty, -⟩ := exists_ofTokens_of_derives .nil
          rw [List.getLast?_eq_none_iff.1 hLast] at h
          cases h.symm.trans hEmpty
      | some last =>
          refine ⟨last, rfl, ?_, _, p, hParse⟩
          rw [hSpan, hNext, hMoves.finish, Cursor.ofTokens, hLast]
          rfl

/-- A node of a program has the range from one of its tokens to another. -/
theorem Program.HasNode.exists_tokens {p : Program} {n : Node} (hNode : p.HasNode n)
    (hTokens : Token.ofText source = .ok tokens) (hParse : ofTokens tokens = .ok p) :
    n.span.InText source ∧
      ∃ first ∈ tokens, ∃ last ∈ tokens, n.span = ⟨first.span.start, last.span.stop⟩ := by
  obtain ⟨front, u, back, rfl, hPlaced⟩ := hNode.exists_placed (placed_of_ofTokens hParse)
  obtain ⟨first, more, hFirst, hStart⟩ := hPlaced.covers.exists_first
  obtain ⟨last, more', hLast, hStop⟩ := hPlaced.covers.exists_last
  refine ⟨hPlaced.covers.inText hTokens, first, by simp [hFirst], last, by simp [hLast], ?_⟩
  rw [hStart, hStop]

/-- A module fails only to be written as text, and only where this was asked for. -/
theorem Wasm.Module.compile_fails {dumps : Dumps} {m : Wasm.Module} {d : Diagnostic}
    (h : (m.compile dumps).result = .error d) :
    dumps.text = true ∧ d.category = .internal ∧ d.span = .point 0 := by
  revert h
  fun_cases Module.compile dumps m with
  | case1 hText =>
      rintro ⟨⟩
      exact ⟨hText, rfl, rfl⟩
  | case2 | case3 => rintro ⟨⟩

/-- Compiling fails in one of its stages, after those before it succeeded. -/
theorem compileText_eq_error {dumps : Dumps} {d : Diagnostic} :
    (compileText dumps source).result = .error d ↔
      (∃ e, Token.ofText source = .error e ∧ Token.Error.report e = d) ∨
      ∃ tokens, Token.ofText source = .ok tokens ∧
        ((∃ e, Program.ofTokens tokens = .error e ∧ GrammarError.report e = d) ∨
          ∃ p, Program.ofTokens tokens = .ok p ∧
            (p.toModule = .error d ∨
              ∃ m, p.toModule = .ok m ∧ (m.compile dumps).result = .error d)) := by
  cases hTokens : Token.ofText source with
  | error e => simp [compileText, hTokens, Compilation.failed]
  | ok tokens =>
      simp [result_compileText hTokens, Program.result_compile, bind_eq_error, mapError_eq_error,
        mapError_eq_ok]

end Stages

/-- Every diagnostic points into the source. Its range consists of whole characters. One of the
lexer is the point at which something is no token. One of grammar is the range of a token, or the
point after the last token if more tokens could make a program. One of checking or lowering goes
from a token to a token. An internal one comes only from the module as text. -/
theorem diagnostic_in_source (dumps : Dumps) (source : String) (d : Diagnostic)
    (h : (compileText dumps source).result = .error d) :
    d.span.InText source ∧
    (d.category = .lexical → ∃ error, Lexical.Breaks error source.toList d.span.start ∧
      d = Token.Error.report ⟨error, .point d.span.start⟩) ∧
    (d.category = .grammatical → ∃ tokens, Token.ofText source = .ok tokens ∧
      ((∃ t ∈ tokens, d.span = t.span) ∨
        ∃ last, tokens.getLast? = some last ∧ d.span = .point last.span.stop ∧
          ∃ more, Program.IsAccepted (tokens ++ more))) ∧
    (d.category = .semantic ∨ d.category = .emission →
      ∃ tokens, Token.ofText source = .ok tokens ∧
        ∃ first ∈ tokens, ∃ last ∈ tokens, d.span = ⟨first.span.start, last.span.stop⟩) ∧
    (d.category = .internal → dumps.text = true) ∧
    d.category ≠ .inclusion := by
  rcases compileText_eq_error.1 h with ⟨⟨cause, span⟩, hTokens, rfl⟩ | ⟨tokens, hTokens, h⟩
  · obtain ⟨length, hBreaks, hSpan⟩ := Lexical.breaks_of_tokens (Token.ofText_eq source ▸ hTokens)
    obtain ⟨front, back, hText, rfl⟩ := hBreaks.exists_front
    rw [show (Scan.ofText source).offset = 0 from rfl, Nat.zero_add] at hSpan
    subst hSpan
    exact ⟨Span.inText_point hText, fun _ => ⟨cause, hBreaks, rfl⟩, nofun, nofun, nofun, nofun⟩
  · rcases h with ⟨e, hParse, rfl⟩ | ⟨p, hParse, hModule | ⟨m, -, hText⟩⟩
    · have hPlace := Program.place_of_ofTokens hParse
      refine ⟨?_, nofun, fun _ => ⟨tokens, hTokens, hPlace⟩, nofun, nofun, nofun⟩
      change e.span.InText source
      rcases hPlace with ⟨t, hMem, hSpan⟩ | ⟨last, hLast, hSpan, -⟩
      · rw [hSpan]
        exact Token.inText_of_mem hTokens hMem
      · rw [hSpan]
        exact (Token.inText_of_mem hTokens (List.mem_of_getLast? hLast)).point_stop
    · obtain ⟨hKind, n, hNode, hSpan⟩ := Program.exists_hasNode_of_toModule hModule
      obtain ⟨hIn, hEnds⟩ := hNode.exists_tokens hTokens hParse
      rw [hSpan] at hIn hEnds
      refine ⟨hIn, ?_, ?_, fun _ => ⟨tokens, hTokens, hEnds⟩, ?_, ?_⟩
      all_goals rcases hKind with hKind | hKind <;> simp [hKind]
    · obtain ⟨hAsked, hKind, hSpan⟩ := Wasm.Module.compile_fails hText
      refine ⟨?_, ?_, ?_, ?_, fun _ => hAsked, ?_⟩
      · rw [hSpan]
        exact Span.inText_point (List.nil_append _).symm
      all_goals simp [hKind]

/-- A string that is not closed, after a comment with a character of two bytes. -/
def openString : String := "/*é*/ \"ab"

/-- The start of a function, after the same comment. -/
def openParams : String := "/*é*/ void f("

def openParamsTokens : List Token :=
  [⟨.type, "void", ⟨7, 11⟩⟩, ⟨.ident, "f", ⟨12, 13⟩⟩, ⟨.lparen, "(", ⟨13, 14⟩⟩]

/-- A function that returns a string as a number. -/
def castString : String := "i32 f()\x7breturn/*é*/(i32)\"é\";\x7d"

def castStringTokens : List Token :=
  [⟨.type, "i32", ⟨0, 3⟩⟩, ⟨.ident, "f", ⟨4, 5⟩⟩, ⟨.lparen, "(", ⟨5, 6⟩⟩, ⟨.rparen, ")", ⟨6, 7⟩⟩,
    ⟨.lbrace, "\x7b", ⟨7, 8⟩⟩, ⟨.kwReturn, "return", ⟨8, 14⟩⟩, ⟨.lparen, "(", ⟨20, 21⟩⟩,
    ⟨.type, "i32", ⟨21, 24⟩⟩, ⟨.rparen, ")", ⟨24, 25⟩⟩, ⟨.str, "é", ⟨25, 29⟩⟩,
    ⟨.semicolon, ";", ⟨29, 30⟩⟩, ⟨.rbrace, "\x7d", ⟨30, 31⟩⟩]

def castStringProgram : Program :=
  [.function ⟨0, 31⟩ "i32" "f" [] [.ret ⟨8, 30⟩ (.cast ⟨20, 29⟩ "i32" (.str ⟨25, 29⟩ "é"))]]

/-- A string that is not closed, parameters that are not closed and a cast that has no code, after
characters of two bytes. -/
theorem diagnostic_in_source_accents :
    (∃ error, Lexical.Breaks error openString.toList 7 ∧
      error.message = Token.Error.message .unterminatedString) ∧
    (∃ d, (compileText ⟨true, false, false⟩ openParams).result = .error d ∧
      d.category = .grammatical ∧ d.span = .point 14 ∧ d.span.InText openParams) ∧
    ∃ d, (compileText ⟨false, true, true⟩ castString).result = .error d ∧
      d.category = .emission ∧ d.span = ⟨25, 29⟩ ∧ d.span.InText castString ∧
      ∃ tokens, Token.ofText castString = .ok tokens ∧
        ∃ first ∈ tokens, ∃ last ∈ tokens, d.span = ⟨first.span.start, last.span.stop⟩ := by
  have hString : Token.ofText openString = .error ⟨.unterminatedString, .point 7⟩ := by
    rw [Token.ofText_eq, Scan.tokens_eq]
    cbv
  have hParams : Token.ofText openParams = .ok openParamsTokens := by
    rw [Token.ofText_eq]
    iterate 3 refine Scan.tokens_of_next (by cbv) (by decide) ?_
    exact Scan.tokens_of_end (by cbv) rfl
  have hOpen : Program.ofTokens openParamsTokens =
      .error ⟨.expected .type (.atEnd 14), .point 14⟩ := by cbv
  have hCast : Token.ofText castString = .ok castStringTokens := by
    rw [Token.ofText_eq]
    iterate 12 refine Scan.tokens_of_next (by cbv) (by decide) ?_
    exact Scan.tokens_of_end (by cbv) rfl
  have hProgram : Program.ofTokens castStringTokens = .ok castStringProgram := by cbv
  let symbols := Symbols.ofList [⟨⟨"f", .i32, [], ⟨0, 31⟩⟩, .empty⟩]
  have hCheck : castStringProgram.check = .ok symbols := by cbv
  have hLower : castStringProgram.lower symbols = .error ⟨.stringLiteral, ⟨25, 29⟩⟩ := by cbv
  have hFirst : (compileText ⟨false, false, false⟩ openString).result = .error _ :=
    compileText_eq_error.2 (.inl ⟨_, hString, rfl⟩)
  have hSecond : (compileText ⟨true, false, false⟩ openParams).result = .error _ :=
    compileText_eq_error.2 (.inr ⟨_, hParams, .inl ⟨_, hOpen, rfl⟩⟩)
  have hThird : (compileText ⟨false, true, true⟩ castString).result = .error _ :=
    compileText_eq_error.2 (.inr ⟨_, hCast, .inr ⟨_, hProgram,
      .inl (Program.toModule_eq_error.2 (.inr ⟨_, hCheck, _, hLower, rfl⟩))⟩⟩)
  obtain ⟨-, hBreaks, -⟩ := diagnostic_in_source _ _ _ hFirst
  obtain ⟨hIn, -⟩ := diagnostic_in_source _ _ _ hSecond
  obtain ⟨hIn', -, -, hEnds, -⟩ := diagnostic_in_source _ _ _ hThird
  obtain ⟨error, hBreaks, hError⟩ := hBreaks rfl
  exact ⟨⟨error, hBreaks, (congrArg Diagnostic.message hError).symm⟩,
    ⟨_, hSecond, rfl, rfl, hIn⟩, _, hThird, rfl, rfl, hIn', hEnds (.inr rfl)⟩

end WasmCompiler
