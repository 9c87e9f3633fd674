import KilnLang.Syntax
import KilnLang.Syntax.ParseError
import KilnLang.Token.Lexer

/-!
# Token streams

A **stream** is what a parser has left to read, together with the span of the token that it read
last, where the part it is reading ends so far.

**Progress.** A parser gives a `Step`: a value and the stream after it, which is shorter. Where a
parser may also take nothing it gives a `Pause`, whose stream is not longer. Every recursion of
the parser goes along these two inequalities, so parsing always ends.
-/

namespace KilnLang

/-- The tokens not yet read, the span of the last one read, and the span of the end. -/
structure TokenStream where
  last : Span
  tokens : List Token
  stop : Span
  deriving Repr, Inhabited

namespace TokenStream

/-- The number of tokens left. -/
def size (s : TokenStream) : Nat := s.tokens.length

/-- The next token, which at the end is the end itself. -/
def peek (s : TokenStream) : Token :=
  match s.tokens with
  | [] => ⟨.eof, "", s.stop, false⟩
  | t :: _ => t

/-- The kind of the next token. -/
def kind (s : TokenStream) : TokenKind := s.peek.kind

/-- A value read from the stream `s`, and the shorter stream after it. -/
structure Step (s : TokenStream) (α : Type) where
  value : α
  rest : TokenStream
  shorter : rest.size < s.size

/-- A value read from the stream `s`, perhaps from nothing, and the stream after it. -/
structure Pause (s : TokenStream) (α : Type) where
  value : α
  rest : TokenStream
  notLonger : rest.size ≤ s.size

variable {s : TokenStream} {α β : Type}

namespace Step

/-- Changes the value of a step. -/
def map (f : α → β) (r : Step s α) : Step s β := ⟨f r.value, r.rest, r.shorter⟩

/-- A step as a pause. -/
def toPause (r : Step s α) : Pause s α := ⟨r.value, r.rest, Nat.le_of_lt r.shorter⟩

end Step

/-- A value for which nothing is read. -/
def Pause.stay (value : α) : Pause s α := ⟨value, s, Nat.le_refl _⟩

@[simp] theorem Pause.value_stay (value : α) : (stay value : Pause s α).value = value := rfl

@[simp] theorem Pause.rest_stay (value : α) : (stay value : Pause s α).rest = s := rfl

/-- A step, and a further step from where it ended. -/
def Step.andThen (r : Step s α) (next : Step r.rest β) : Step s β :=
  ⟨next.value, next.rest, Nat.lt_trans next.shorter r.shorter⟩

/-- The error that none of the given kinds comes next. -/
def unexpected (s : TokenStream) (expected : List TokenKind) : ParseError :=
  let token := s.peek
  ⟨if token.kind = .eof then .unexpectedEof else .unexpectedToken token.text, token.span,
    expected.map (·.describe)⟩

/-- Takes the next token if it has the kind. -/
def take? (s : TokenStream) (kind : TokenKind) : Option (Step s Token) :=
  match s with
  | ⟨_, [], _⟩ => none
  | ⟨_, t :: ts, stop⟩ =>
    if t.kind = kind then some ⟨t, ⟨t.span, ts, stop⟩, by simp [size]⟩ else none

/-- Takes the next token, which has to have the kind. -/
def expect (s : TokenStream) (kind : TokenKind) : Except ParseError (Step s Token) :=
  match s.take? kind with
  | some step => .ok step
  | none => .error (s.unexpected [kind])

/-- Takes the next token if it has the kind, and else nothing. -/
def skip (s : TokenStream) (kind : TokenKind) : Pause s Unit :=
  match s.take? kind with
  | some step => ⟨(), step.rest, Nat.le_of_lt step.shorter⟩
  | none => .stay ()

/-- Takes a name. -/
def ident (s : TokenStream) : Except ParseError (Step s Ident) :=
  (s.expect .ident).map (·.map fun t => ⟨t.text, t.span⟩)

/-- Takes the parenthesis that closes a list whose last element no comma follows. -/
def closeList (s : TokenStream) : Except ParseError (Step s Unit) :=
  match s.take? .rparen with
  | some step => .ok (step.map fun _ => ())
  | none => .error (s.unexpected [.rparen, .comma])

/-- Takes the parenthesis that closes a list after its variadic marker; one comma may come
before. -/
def closeRest (s : TokenStream) : Except ParseError (Step s Unit) :=
  let pause := s.skip .comma
  match pause.rest.take? .rparen with
  | some step => .ok ⟨(), step.rest, Nat.lt_of_lt_of_le step.shorter pause.notLonger⟩
  | none => .error ⟨.variadicNotLast, pause.rest.peek.span, [TokenKind.rparen.describe]⟩

end TokenStream

end KilnLang
