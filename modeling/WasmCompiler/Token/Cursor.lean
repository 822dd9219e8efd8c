import WasmCompiler.Token.Basic
import WasmCompiler.Diagnostic

/-! A place in a row of tokens, and the errors of a grammar that is read from one. -/

namespace WasmCompiler

/-- Why a row of tokens does not follow the grammar. -/
inductive GrammarError where
  | expected (want : Token.Kind) (found : Token)
  | unexpected (found : Token)
  | noStatement (found : Token)
  | noExpression (found : Token)
  | noAssignmentOrCall (name : String) (found : Token)
  | arrayType
  | invalidNumber (text : String)
  deriving DecidableEq, Repr

def GrammarError.message : GrammarError → String
  | .expected want found => "expected " ++ want.describe ++ ", found " ++ found.found
  | .unexpected found => "unexpected " ++ found.found
  | .noStatement found => "expected statement, found " ++ found.found
  | .noExpression found => "expected expression, found " ++ found.found
  | .noAssignmentOrCall name found =>
    "expected '=' or '(' after '" ++ name ++ "', found " ++ found.found
  | .arrayType => "array types are not supported"
  | .invalidNumber text => "invalid number literal '" ++ text ++ "'"

/-- The report of an error of grammar. -/
def GrammarError.report : Located GrammarError → Diagnostic :=
  Located.report (fun _ => .grammatical) GrammarError.message

/-- A place between the tokens that were read, nearest first, and those that were not. After
the last token the end of the text is found, at offset `finish`, as often as it is asked for. -/
structure Cursor where
  behind : List Token
  ahead : List Token
  finish : Nat
  deriving DecidableEq, Repr

/-- The number of tokens ahead, the end not counted. -/
def Cursor.size (c : Cursor) : Nat := c.ahead.length

/-- A value that was read from a cursor, and the cursor after it, with fewer than `limit`
tokens ahead. -/
structure Parsed (α : Type) (limit : Nat) where
  value : α
  rest : Cursor
  size_lt : rest.size < limit

namespace Parsed

variable {α β : Type} {limit larger : Nat}

/-- A result that also stays below a larger limit. -/
@[inline] def relax (p : Parsed α limit) (h : limit ≤ larger) : Parsed α larger :=
  ⟨p.value, p.rest, Nat.lt_of_lt_of_le p.size_lt h⟩

/-- What was read next, as a result for the cursor before both. -/
@[inline] def before (p : Parsed α limit) (q : Parsed β p.rest.size) : Parsed β limit :=
  ⟨q.value, q.rest, Nat.lt_trans q.size_lt p.size_lt⟩

/-- Another value at the same place. -/
@[inline] def give (p : Parsed α limit) (value : β) : Parsed β limit := ⟨value, p.rest, p.size_lt⟩

end Parsed

namespace Cursor

/-- The start of a row of tokens. The text is taken to end with the last of them. -/
def ofTokens (tokens : List Token) : Cursor :=
  ⟨[], tokens, (tokens.getLast?.map fun t => t.span.stop).getD 0⟩

/-- The token `n` places ahead, counted from one; the end stands at every place after the
last token. -/
def peekAt (c : Cursor) (n : Nat) : Token := (c.ahead[n - 1]?).getD (.atEnd c.finish)

def peek (c : Cursor) : Token := c.peekAt 1

/-- Reading one token. At the end the cursor stays. -/
def bump (c : Cursor) : Token × Cursor :=
  match c.ahead with
  | [] => (.atEnd c.finish, c)
  | t :: rest => (t, ⟨t :: c.behind, rest, c.finish⟩)

/-- The cursor moved back to the first token. -/
def reset (c : Cursor) : Cursor := ⟨[], c.behind.reverse ++ c.ahead, c.finish⟩

def isAtEnd (c : Cursor) : Bool := decide (c.peek.kind = .eof)

/-- Where the last token that was read ends, and before any was read where the first
starts. -/
def lastStop (c : Cursor) : Nat :=
  match c.behind with
  | [] => c.peek.span.start
  | t :: _ => t.span.stop

/-- The error of the token ahead. -/
def fail {α : Type} (c : Cursor) (error : Token → GrammarError) :
    Except (Located GrammarError) α :=
  .error ⟨error c.peek, c.peek.span⟩

/-- Reading one token of the given kind. -/
def expect (c : Cursor) (want : Token.Kind) : Except (Located GrammarError) (Token × Cursor) :=
  if c.peek.kind = want then .ok c.bump else c.fail (.expected want)

/-- Reading one token if it is of the given kind. -/
def eat (c : Cursor) (kind : Token.Kind) : Bool × Cursor :=
  if c.peek.kind = kind then (true, c.bump.2) else (false, c)

/-- The next token, if the end is not reached. -/
def step? (c : Cursor) : Option (Parsed Token c.size) :=
  match h : c.ahead with
  | [] => none
  | t :: rest => some ⟨t, ⟨t :: c.behind, rest, c.finish⟩, by simp [size, h]⟩

/-- Moving past a token leaves fewer of them. -/
theorem bump_lt {c : Cursor} {kind : Token.Kind} (hk : kind ≠ .eof) (h : c.peek.kind = kind) :
    c.bump.2.size < c.size := by
  fun_cases bump c with
  | case1 hAhead =>
    simp only [peek, peekAt, hAhead, List.getElem?_nil, Option.getD_none, Token.atEnd] at h
    exact absurd h.symm hk
  | case2 t rest hAhead => simp [size, hAhead]

/-- Reading one token of a kind that is not the end, which moves the cursor. -/
def require (c : Cursor) (want : Token.Kind) (h : want ≠ .eof := by decide) :
    Except (Located GrammarError) (Parsed Token c.size) :=
  if hw : c.peek.kind = want then .ok ⟨c.bump.1, c.bump.2, bump_lt h hw⟩
  else c.fail (.expected want)

/-- Reading one token if it is of a kind that is not the end. -/
def accept? (c : Cursor) (want : Token.Kind) (h : want ≠ .eof := by decide) :
    Option (Parsed Token c.size) :=
  if hw : c.peek.kind = want then some ⟨c.bump.1, c.bump.2, bump_lt h hw⟩ else none

end Cursor

end WasmCompiler
