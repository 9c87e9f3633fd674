import KilnLang.Token.Lexer

/-!
# Tokens of a header

A coarse view of C text: names, numbers, string and character literals whose contents do not
matter, the ellipsis, and single punctuation characters. Characters that mean nothing to a
declaration are skipped, so every text has tokens.
-/

namespace KilnLang.Header

/-- A token of C text. -/
inductive CToken where
  | word (text : String)
  | number (text : String)
  | str
  | char
  | ellipsis
  | punct (symbol : Char)
  deriving DecidableEq, Repr, Inhabited

namespace CToken

open Lexer (isNameStart isNameChar)

/-- White space of C text. -/
def isSpace (c : Char) : Bool :=
  c == ' ' || c == '\t' || c == '\n' || c == '\x0C' || c == '\r'

/-- The punctuation characters that are tokens. -/
def punctuation : List Char := [
  '(', ')', '[', ']', '{', '}', ',', ';', '*', '=', '-', '+', '&', '<', '>', ':', '.', '?', '!',
  '~', '/', '%', '^', '|', '#']

/-- The text after a quoted literal whose opening quote has been read; an unclosed one ends before
the line break. -/
def skipQuoted (quote : Char) : List Char → List Char
  | [] => []
  | '\\' :: _ :: cs => skipQuoted quote cs
  | ['\\'] => []
  | c :: cs => if c = '\n' then c :: cs else if c = quote then cs else skipQuoted quote cs

theorem skipQuoted_length (quote : Char) (cs : List Char) :
    (skipQuoted quote cs).length ≤ cs.length := by
  fun_induction skipQuoted quote cs <;> grind

/-- Whether a sign after `prev` belongs to the exponent of a number. -/
def isExponent (hex : Bool) (prev : Char) : Bool :=
  if hex then prev == 'p' || prev == 'P' else prev == 'e' || prev == 'E'

/-- The rest of a number whose last character so far is `prev`, and the text after it. -/
def numberTail (hex : Bool) (prev : Char) : List Char → List Char × List Char
  | [] => ([], [])
  | c :: cs =>
    if isNameChar c || c == '.' || ((c == '+' || c == '-') && isExponent hex prev) then
      let (digits, rest) := numberTail hex c cs
      (c :: digits, rest)
    else ([], c :: cs)

theorem numberTail_length (hex : Bool) (prev : Char) (cs : List Char) :
    (numberTail hex prev cs).2.length ≤ cs.length := by
  fun_induction numberTail hex prev cs <;> grind

/-- Whether the text starts like a number. -/
def startsNumber (c : Char) (cs : List Char) : Bool :=
  c.isDigit || (c == '.' && (cs.head?.map (·.isDigit)).getD false)

/-- Whether a number is hexadecimal. -/
def isHex (c : Char) (cs : List Char) : Bool :=
  c == '0' && (cs.head? == some 'x' || cs.head? == some 'X')

/-- The prefixes that name the encoding of a literal. -/
def encodings : List String := ["L", "u", "U", "u8"]

/-- The literal that a quote opens. -/
def ofQuote (quote : Char) : CToken := if quote = '"' then .str else .char

/-- The tokens of a text. -/
def tokenize : List Char → List CToken
  | [] => []
  | c :: cs =>
    if isSpace c then tokenize cs
    else if c = '"' ∨ c = '\'' then
      have := skipQuoted_length c cs
      ofQuote c :: tokenize (skipQuoted c cs)
    else if isNameStart c then
      let word := String.ofList (c :: cs.takeWhile isNameChar)
      have := (List.dropWhile_suffix isNameChar (l := cs)).length_le
      match _h : cs.dropWhile isNameChar with
      | [] => [.word word]
      | q :: rest =>
        if encodings.contains word && (q == '"' || q == '\'') then
          have := skipQuoted_length q rest
          ofQuote q :: tokenize (skipQuoted q rest)
        else .word word :: tokenize (q :: rest)
    else if startsNumber c cs then
      have := numberTail_length (isHex c cs) c cs
      .number (String.ofList (c :: (numberTail (isHex c cs) c cs).1)) ::
        tokenize (numberTail (isHex c cs) c cs).2
    else if c = '.' ∧ cs.take 2 = ['.', '.'] then .ellipsis :: tokenize (cs.drop 2)
    else if punctuation.contains c then .punct c :: tokenize cs
    else tokenize cs
termination_by cs => cs.length
decreasing_by all_goals grind

end CToken

end KilnLang.Header
