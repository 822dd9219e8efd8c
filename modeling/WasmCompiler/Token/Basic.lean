import WasmCompiler.Text.Position

/-! Tokens: the words and marks that a program is made of. -/

namespace WasmCompiler

/-- What a token is. The six type words share one kind and differ in their text. -/
inductive Token.Kind where
  | number | str | kwTrue | kwFalse | ident | type
  | kwIf | kwElse | kwWhile | kwReturn | kwWasm
  | lbrace | rbrace | lparen | rparen | lbracket | rbracket
  | comma | semicolon | assign | eqEq | bang | bangEq
  | lt | le | gt | ge | amp | ampAmp | pipe | pipePipe
  | plus | minus | star | slash
  | eof
  deriving DecidableEq, Repr, Inhabited

namespace Token.Kind

/-- Every kind, in the order in which they are listed. -/
def all : List Kind :=
  [number, str, kwTrue, kwFalse, ident, type,
    kwIf, kwElse, kwWhile, kwReturn, kwWasm,
    lbrace, rbrace, lparen, rparen, lbracket, rbracket,
    comma, semicolon, assign, eqEq, bang, bangEq,
    lt, le, gt, ge, amp, ampAmp, pipe, pipePipe,
    plus, minus, star, slash,
    eof]

/-- The name of a kind in a listing of tokens. -/
def name : Kind → String
  | number => "Number" | str => "Str" | kwTrue => "True" | kwFalse => "False"
  | ident => "Ident" | type => "Type"
  | kwIf => "KwIf" | kwElse => "KwElse" | kwWhile => "KwWhile"
  | kwReturn => "KwReturn" | kwWasm => "KwWasm"
  | lbrace => "LBrace" | rbrace => "RBrace" | lparen => "LParen" | rparen => "RParen"
  | lbracket => "LBracket" | rbracket => "RBracket"
  | comma => "Comma" | semicolon => "Semicolon" | assign => "Assign"
  | eqEq => "EqEq" | bang => "Bang" | bangEq => "BangEq"
  | lt => "Lt" | le => "Le" | gt => "Gt" | ge => "Ge"
  | amp => "Amp" | ampAmp => "AmpAmp" | pipe => "Pipe" | pipePipe => "PipePipe"
  | plus => "Plus" | minus => "Minus" | star => "Star" | slash => "Slash"
  | eof => "Eof"

/-- The kind with a given name. -/
def ofName? (text : String) : Option Kind := all.find? fun kind => kind.name == text

/-- The words of the language that are not free for use as names. -/
def words : List (String × Kind) :=
  [("if", kwIf), ("else", kwElse), ("while", kwWhile), ("return", kwReturn),
    ("_wasm", kwWasm), ("true", kwTrue), ("false", kwFalse),
    ("void", type), ("i32", type), ("i64", type), ("f32", type), ("f64", type), ("bool", type)]

/-- The spellings of marks. A spelling that extends another stands before it. -/
def marks : List (List Char × Kind) :=
  [(['=', '='], eqEq), (['!', '='], bangEq), (['<', '='], le), (['>', '='], ge),
    (['&', '&'], ampAmp), (['|', '|'], pipePipe),
    (['\x7b'], lbrace), (['\x7d'], rbrace), (['('], lparen), ([')'], rparen),
    (['['], lbracket), ([']'], rbracket), ([','], comma), ([';'], semicolon),
    (['='], assign), (['!'], bang), (['<'], lt), (['>'], gt), (['&'], amp), (['|'], pipe),
    (['+'], plus), (['-'], minus), (['*'], star), (['/'], slash)]

/-- What a kind is called when it was expected and something else was found. -/
def describe : Kind → String
  | number => "number" | str => "string literal" | kwTrue => "'true'" | kwFalse => "'false'"
  | ident => "identifier" | type => "type"
  | kwIf => "'if'" | kwElse => "'else'" | kwWhile => "'while'"
  | kwReturn => "'return'" | kwWasm => "'_wasm'"
  | lbrace => "'\x7b'" | rbrace => "'\x7d'" | lparen => "'('" | rparen => "')'"
  | lbracket => "'['" | rbracket => "']'"
  | comma => "','" | semicolon => "';'" | assign => "'='"
  | eqEq => "'=='" | bang => "'!'" | bangEq => "'!='"
  | lt => "'<'" | le => "'<='" | gt => "'>'" | ge => "'>='"
  | amp => "'&'" | ampAmp => "'&&'" | pipe => "'|'" | pipePipe => "'||'"
  | plus => "'+'" | minus => "'-'" | star => "'*'" | slash => "'/'"
  | eof => "end of input"

end Token.Kind

/-- A token and the range of text that it was read from. The text of a string literal leaves
out the quotes, any other text is the whole range. -/
structure Token where
  kind : Token.Kind
  text : String
  span : Span
  deriving DecidableEq, Repr, Inhabited

namespace Token

/-- The token that stands for the end of a text of the given length. -/
def atEnd (offset : Nat) : Token := ⟨.eof, "", .point offset⟩

/-- What a token is called when something else was expected. -/
def found (t : Token) : String :=
  match t.kind with
  | .eof => Kind.eof.describe
  | .str => "\"" ++ t.text ++ "\""
  | _ => "'" ++ t.text ++ "'"

/-- One line of a listing: position, kind and text. -/
def listingLine (source : IndexedText) (t : Token) : String :=
  let position := source.lineCol t.span.start
  toString position.line ++ ":" ++ toString position.column ++ " " ++ t.kind.name ++
    " '" ++ t.text ++ "'\n"

/-- The listing of the tokens of a text, one line each. -/
def listing (source : String) (tokens : List Token) : String :=
  String.join (tokens.map (listingLine (IndexedText.ofText source)))

end Token

end WasmCompiler
