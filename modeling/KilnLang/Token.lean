import KilnLang.Span

/-!
# Tokens

A token has a kind, its text and its span, and it remembers whether a line break stands between
it and the token before: that is all the layout a parser may look at.

**No `>>`.** Two closing angle brackets are two tokens, so that nested function types close one
at a time; the parser reads two adjacent ones as a shift where an operator is due.
-/

namespace KilnLang

/-- The kinds of tokens; `eof` stands for the end of the text. -/
inductive TokenKind where
  | eof
  | ident
  | intLiteral
  | floatLiteral
  | stringLiteral
  | charLiteral
  | lparen
  | rparen
  | lbrace
  | rbrace
  | lbracket
  | rbracket
  | comma
  | semi
  | dot
  | ellipsis
  | assign
  | plusAssign
  | minusAssign
  | starAssign
  | slashAssign
  | percentAssign
  | plus
  | minus
  | star
  | slash
  | percent
  | plusPlus
  | minusMinus
  | eqEq
  | notEq
  | less
  | lessEq
  | greater
  | greaterEq
  | shl
  | andAnd
  | orOr
  | bang
  | amp
  | pipe
  | caret
  | tilde
  | kwInclude
  | kwAlias
  | kwRef
  | kwFunc
  | kwIf
  | kwElif
  | kwElse
  | kwWhile
  | kwReturn
  | kwNull
  | kwTrue
  | kwFalse
  deriving DecidableEq, Repr, Inhabited

namespace TokenKind

/-- The one spelling of a symbol or keyword. -/
def spelling? : TokenKind → Option String
  | .eof | .ident | .intLiteral | .floatLiteral | .stringLiteral | .charLiteral => none
  | .lparen => some "("
  | .rparen => some ")"
  | .lbrace => some "\x7b"
  | .rbrace => some "\x7d"
  | .lbracket => some "["
  | .rbracket => some "]"
  | .comma => some ","
  | .semi => some ";"
  | .dot => some "."
  | .ellipsis => some "..."
  | .assign => some "="
  | .plusAssign => some "+="
  | .minusAssign => some "-="
  | .starAssign => some "*="
  | .slashAssign => some "/="
  | .percentAssign => some "%="
  | .plus => some "+"
  | .minus => some "-"
  | .star => some "*"
  | .slash => some "/"
  | .percent => some "%"
  | .plusPlus => some "++"
  | .minusMinus => some "--"
  | .eqEq => some "=="
  | .notEq => some "!="
  | .less => some "<"
  | .lessEq => some "<="
  | .greater => some ">"
  | .greaterEq => some ">="
  | .shl => some "<<"
  | .andAnd => some "&&"
  | .orOr => some "||"
  | .bang => some "!"
  | .amp => some "&"
  | .pipe => some "|"
  | .caret => some "^"
  | .tilde => some "~"
  | .kwInclude => some "include"
  | .kwAlias => some "alias"
  | .kwRef => some "ref"
  | .kwFunc => some "func"
  | .kwIf => some "if"
  | .kwElif => some "elif"
  | .kwElse => some "else"
  | .kwWhile => some "while"
  | .kwReturn => some "return"
  | .kwNull => some "null"
  | .kwTrue => some "true"
  | .kwFalse => some "false"

/-- The words that messages use for a kind: its spelling in quotes, or a description. -/
def describe (k : TokenKind) : String :=
  match k.spelling? with
  | some s => "`" ++ s ++ "`"
  | none =>
    match k with
    | .ident => "identifier"
    | .intLiteral => "integer literal"
    | .floatLiteral => "decimal literal"
    | .stringLiteral => "string literal"
    | .charLiteral => "character literal"
    | _ => "end of input"

/-- The symbols, longer spellings before their beginnings, so that the first that fits is the
longest. -/
def symbols : List TokenKind := [
  .ellipsis, .plusPlus, .plusAssign, .minusMinus, .minusAssign, .starAssign, .slashAssign,
  .percentAssign, .eqEq, .notEq, .lessEq, .shl, .greaterEq, .andAnd, .orOr,
  .lparen, .rparen, .lbrace, .rbrace, .lbracket, .rbracket, .comma, .semi, .dot, .assign,
  .plus, .minus, .star, .slash, .percent, .less, .greater, .bang, .amp, .pipe, .caret, .tilde]

/-- The keywords. -/
def keywords : List TokenKind := [
  .kwInclude, .kwAlias, .kwRef, .kwFunc, .kwIf, .kwElif, .kwElse, .kwWhile, .kwReturn, .kwNull,
  .kwTrue, .kwFalse]

/-- The kind of a word: a keyword, or an identifier. -/
def ofWord (word : String) : TokenKind :=
  (keywords.find? (·.spelling? == some word)).getD .ident

end TokenKind

/-- A token; `fresh` says that a line break separates it from the token before. -/
structure Token where
  kind : TokenKind
  text : String
  span : Span
  fresh : Bool
  deriving DecidableEq, Repr, Inhabited

/-- The token for the end of a text of `size` bytes. -/
def Token.eof (file size : Nat) : Token := ⟨.eof, "", ⟨file, size, size⟩, false⟩

end KilnLang
