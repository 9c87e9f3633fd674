import KilnLang.Diagnostic
import KilnLang.Token

/-!
# Reading tokens

The text is cut into **gaps** and **lexemes**. A gap is white space and comments; a lexeme is the
text of one token. Each scanner splits its input into what it took and what is left, so that the
pieces put together are the text again (`trivia_append`, `lexeme_append`) and every lexeme is
non-empty (`lexeme_text_ne_nil`), which is why reading ends.

**Errors** stop the reading: the tokens before the error stand. An invalid escape is reported
from its backslash over the one byte after it, which may end inside a character.
-/

namespace KilnLang

/-! ## Errors -/

/-- The rules that a text can break before it is a list of tokens. -/
inductive LexCause where
  | unterminatedString
  | unterminatedCharacter
  | unterminatedComment
  | invalidEscape
  | unexpectedCharacter
  | invalidNumber
  deriving DecidableEq, Repr, Inhabited

/-- The message for a broken rule. -/
def LexCause.message : LexCause → String
  | .unterminatedString => "unterminated string literal"
  | .unterminatedCharacter => "unterminated character literal"
  | .unterminatedComment => "unterminated block comment"
  | .invalidEscape => "invalid escape sequence"
  | .unexpectedCharacter => "unexpected character"
  | .invalidNumber => "malformed number literal"

/-- A broken rule and the text that breaks it. -/
structure LexError where
  cause : LexCause
  span : Span
  deriving DecidableEq, Repr, Inhabited

/-- A lexical error for the user. -/
def LexError.diagnostic (e : LexError) : Diagnostic :=
  .errorAt "E0001" e.cause.message e.span

namespace Lexer

/-- A broken rule between two offsets. -/
structure Flaw where
  cause : LexCause
  start : Nat
  stop : Nat
  deriving DecidableEq, Repr, Inhabited

/-- A flaw as an error of a file. -/
def Flaw.toError (file : Nat) (f : Flaw) : LexError := ⟨f.cause, ⟨file, f.start, f.stop⟩⟩

/-! ## Character classes -/

/-- White space between tokens. -/
def isBlank (c : Char) : Bool := c == ' ' || c == '\t' || c == '\n' || c == '\r'

/-- A character that may start a name. -/
def isNameStart (c : Char) : Bool := c.isAlpha || c == '_'

/-- A character that may continue a name. -/
def isNameChar (c : Char) : Bool := isNameStart c || c.isDigit

/-- A hexadecimal digit. -/
def isHexDigit (c : Char) : Bool :=
  c.isDigit || ('a' ≤ c && c ≤ 'f') || ('A' ≤ c && c ≤ 'F')

/-- The characters that stand for themselves or a control character after a backslash. -/
def simpleEscapes : List Char := ['n', 't', 'r', '0', '\\', '"', '\'', 'a', 'b', 'f', 'v', 'e']

/-! ## Gaps -/

/-- Splits off a block comment after its opening, up to and with its closing. -/
def blockComment : List Char → Option (List Char × List Char)
  | [] => none
  | '*' :: '/' :: cs => some (['*', '/'], cs)
  | c :: cs => (blockComment cs).map fun (body, rest) => (c :: body, rest)

theorem blockComment_append {cs body rest : List Char}
    (h : blockComment cs = some (body, rest)) : body ++ rest = cs := by
  fun_induction blockComment cs generalizing body rest with
  | case1 => simp at h
  | case2 cs => simp at h; grind
  | case3 c cs _ ih =>
    obtain ⟨⟨b, r⟩, hb, he⟩ := Option.map_eq_some_iff.1 h
    grind

/-- Splits off the white space and comments before the next token; `pos` is the offset of the
text. -/
def trivia (pos : Nat) (cs : List Char) : Except Flaw (List Char × List Char) :=
  match cs with
  | [] => .ok ([], [])
  | c :: cs' =>
    if isBlank c then
      (trivia (pos + c.utf8Size) cs').map fun (gap, rest) => (c :: gap, rest)
    else if c == '/' && cs'.head? == some '/' then
      let comment := cs'.takeWhile (· != '\n')
      have : (cs'.dropWhile (· != '\n')).length ≤ cs'.length := (List.dropWhile_suffix _).length_le
      (trivia (pos + utf8Width (c :: comment)) (cs'.dropWhile (· != '\n'))).map
        fun (gap, rest) => (c :: comment ++ gap, rest)
    else if c == '/' && cs'.head? == some '*' then
      match h : blockComment cs'.tail with
      | none => .error ⟨.unterminatedComment, pos, pos + utf8Width cs⟩
      | some (body, rest) =>
        have := congrArg List.length (blockComment_append h)
        (trivia (pos + utf8Width ('/' :: '*' :: body)) rest).map
          fun (gap, rest) => ('/' :: '*' :: body ++ gap, rest)
    else .ok ([], cs)
termination_by cs.length
decreasing_by all_goals grind

/-! ## Literals -/

/-- Splits off an escape after its backslash; the error is the number of bytes after the
backslash that belong to the flaw. -/
def escape : List Char → Except Nat (List Char × List Char)
  | [] => .error 0
  | c :: cs =>
    if c == 'x' then
      let digits := (cs.take 2).takeWhile isHexDigit
      if digits.isEmpty then .error 1 else .ok (c :: digits, cs.drop digits.length)
    else if simpleEscapes.contains c then .ok ([c], cs)
    else if c == '\n' then .error 0
    else .error 1

theorem escape_append {cs text rest : List Char} (h : escape cs = .ok (text, rest)) :
    text ++ rest = cs := by
  fun_cases escape cs with
  | case3 c cs hx digits hd =>
    simp only [escape, hx, if_true] at h
    have hp : digits <+: cs := (List.takeWhile_prefix _).trans (List.take_prefix 2 cs)
    have : digits ++ cs.drop digits.length = cs := by
      obtain ⟨t, ht⟩ := hp
      rw [← ht]; simp
    grind
  | _ => grind [escape]

/-- Splits off the rest of a string literal, after its opening quote at `start`; `pos` is the
offset of the text. -/
def stringTail (start pos : Nat) (cs : List Char) : Except Flaw (List Char × List Char) :=
  match cs with
  | [] => .error ⟨.unterminatedString, start, pos⟩
  | c :: cs' =>
    if c == '"' then .ok ([c], cs')
    else if c == '\n' then .error ⟨.unterminatedString, start, pos⟩
    else if c == '\\' then
      match h : escape cs' with
      | .error bytes => .error ⟨.invalidEscape, pos, pos + 1 + bytes⟩
      | .ok (text, rest) =>
        have := congrArg List.length (escape_append h)
        (stringTail start (pos + utf8Width (c :: text)) rest).map
          fun (tail, rest) => (c :: text ++ tail, rest)
    else
      (stringTail start (pos + c.utf8Size) cs').map fun (tail, rest) => (c :: tail, rest)
termination_by cs.length
decreasing_by all_goals grind

/-- Splits off the closing quote of a character literal that starts at `start`. -/
def closeQuote (start pos : Nat) : List Char → Except Flaw (List Char × List Char)
  | '\'' :: cs => .ok (['\''], cs)
  | _ => .error ⟨.unterminatedCharacter, start, pos⟩

/-- Splits off the rest of a character literal, after its opening quote at `start`; `pos` is the
offset of the text. -/
def charTail (start pos : Nat) : List Char → Except Flaw (List Char × List Char)
  | [] => .error ⟨.unterminatedCharacter, start, pos⟩
  | c :: cs =>
    if c == '\'' || c == '\n' then .error ⟨.unterminatedCharacter, start, pos⟩
    else if c == '\\' then
      match escape cs with
      | .error bytes => .error ⟨.invalidEscape, pos, pos + 1 + bytes⟩
      | .ok (text, rest) =>
        (closeQuote start (pos + utf8Width (c :: text)) rest).map
          fun (tail, rest) => (c :: text ++ tail, rest)
    else
      (closeQuote start (pos + c.utf8Size) cs).map fun (tail, rest) => (c :: tail, rest)

/-- Splits off the digits of a number: hexadecimal after `0x`, or decimal with a fraction when a
digit follows the point. Hexadecimal digits may be missing here. -/
def digits (cs : List Char) : TokenKind × List Char × List Char :=
  match cs with
  | '0' :: 'x' :: ds => (.intLiteral, '0' :: 'x' :: ds.takeWhile isHexDigit, ds.dropWhile isHexDigit)
  | '0' :: 'X' :: ds => (.intLiteral, '0' :: 'X' :: ds.takeWhile isHexDigit, ds.dropWhile isHexDigit)
  | cs =>
    let whole := cs.takeWhile Char.isDigit
    match cs.dropWhile Char.isDigit with
    | '.' :: d :: ds =>
      if d.isDigit then
        (.floatLiteral, whole ++ '.' :: d :: ds.takeWhile Char.isDigit, ds.dropWhile Char.isDigit)
      else (.intLiteral, whole, '.' :: d :: ds)
    | rest => (.intLiteral, whole, rest)

/-- Splits off a number that starts at `pos`. No name character may follow it, and `0x` needs a
digit. -/
def number (pos : Nat) (cs : List Char) : Except Flaw (TokenKind × List Char × List Char) :=
  let (kind, text, rest) := digits cs
  if text == ['0', 'x'] || text == ['0', 'X'] then
    .error ⟨.invalidNumber, pos, pos + utf8Width text⟩
  else
    let junk := rest.takeWhile isNameChar
    if junk.isEmpty then .ok (kind, text, rest)
    else .error ⟨.invalidNumber, pos, pos + utf8Width text + utf8Width junk⟩

/-- The symbol that the text starts with, and the text after it. -/
def symbol? (cs : List Char) : Option (TokenKind × List Char × List Char) :=
  TokenKind.symbols.findSome? fun kind =>
    kind.spelling?.bind fun s =>
      if s.toList.isPrefixOf cs then some (kind, s.toList, cs.drop s.toList.length) else none

/-! ## Lexemes -/

/-- Splits off the token that starts with `c` at `pos`. -/
def lexeme (pos : Nat) (c : Char) (cs : List Char) :
    Except Flaw (TokenKind × List Char × List Char) :=
  if c == '"' then
    (stringTail pos (pos + 1) cs).map fun (tail, rest) => (.stringLiteral, c :: tail, rest)
  else if c == '\'' then
    (charTail pos (pos + 1) cs).map fun (tail, rest) => (.charLiteral, c :: tail, rest)
  else if c.isDigit then number pos (c :: cs)
  else if isNameStart c then
    let word := c :: cs.takeWhile isNameChar
    .ok (.ofWord (String.ofList word), word, cs.dropWhile isNameChar)
  else
    match symbol? (c :: cs) with
    | some found => .ok found
    | none => .error ⟨.unexpectedCharacter, pos, pos + c.utf8Size⟩

theorem stringTail_append {start pos : Nat} {cs text rest : List Char}
    (h : stringTail start pos cs = .ok (text, rest)) : text ++ rest = cs := by
  fun_induction stringTail start pos cs generalizing text rest with
  | case5 pos c cs' _ _ _ t r he _ ih =>
    cases hr : stringTail start (pos + utf8Width (c :: t)) r with
    | error e => rw [hr] at h; exact absurd h (by simp [Except.map])
    | ok v =>
      rw [hr] at h
      have := ih hr
      have := escape_append he
      simp [Except.map] at h
      grind
  | case6 pos c cs' _ _ _ ih =>
    cases hr : stringTail start (pos + c.utf8Size) cs' with
    | error e => rw [hr] at h; exact absurd h (by simp [Except.map])
    | ok v =>
      rw [hr] at h
      have := ih hr
      simp [Except.map] at h
      grind
  | _ => grind

theorem closeQuote_append {start pos : Nat} {cs text rest : List Char}
    (h : closeQuote start pos cs = .ok (text, rest)) : text ++ rest = cs := by
  fun_cases closeQuote start pos cs <;> grind [closeQuote]

theorem charTail_append {start pos : Nat} {cs text rest : List Char}
    (h : charTail start pos cs = .ok (text, rest)) : text ++ rest = cs := by
  fun_cases charTail start pos cs with
  | case4 c cs _ _ t r he =>
    simp_all only [charTail]
    cases hr : closeQuote start (pos + utf8Width (c :: t)) r with
    | error e => simp_all [Except.map]
    | ok v =>
      have := closeQuote_append hr
      have := escape_append he
      simp_all [Except.map]
      grind
  | case5 c cs _ _ =>
    simp_all only [charTail]
    cases hr : closeQuote start (pos + c.utf8Size) cs with
    | error e => simp_all [Except.map]
    | ok v =>
      have := closeQuote_append hr
      simp_all [Except.map]
      grind
  | _ => simp_all [charTail]

theorem digits_append (cs : List Char) : (digits cs).2.1 ++ (digits cs).2.2 = cs := by
  fun_cases digits cs with
  | case3 cs _ _ whole d ds h _ =>
    have := List.takeWhile_append_dropWhile (p := Char.isDigit) (l := cs)
    have := List.takeWhile_append_dropWhile (p := Char.isDigit) (l := ds)
    grind
  | case4 cs _ _ whole d ds h _ =>
    have := List.takeWhile_append_dropWhile (p := Char.isDigit) (l := cs)
    grind
  | case5 cs _ _ whole _ =>
    exact List.takeWhile_append_dropWhile
  | _ => simp

theorem number_append {pos : Nat} {cs text rest : List Char} {kind : TokenKind}
    (h : number pos cs = .ok (kind, text, rest)) : text ++ rest = cs := by
  have := digits_append cs
  grind [number]

theorem symbol?_append {cs text rest : List Char} {kind : TokenKind}
    (h : symbol? cs = some (kind, text, rest)) : text ++ rest = cs := by
  obtain ⟨k, _, hk⟩ := List.exists_of_findSome?_eq_some h
  obtain ⟨s, _, hs⟩ := Option.bind_eq_some_iff.1 hk
  split at hs
  · rename_i hp
    obtain ⟨t, rfl⟩ := List.isPrefixOf_iff_prefix.1 hp
    grind
  · simp at hs

/-- A lexeme and the text after it are the text that it was split from. -/
theorem lexeme_append {pos : Nat} {c : Char} {cs text rest : List Char} {kind : TokenKind}
    (h : lexeme pos c cs = .ok (kind, text, rest)) : text ++ rest = c :: cs := by
  unfold lexeme at h
  split at h
  · cases hr : stringTail pos (pos + 1) cs with
    | error e => simp [hr, Except.map] at h
    | ok v =>
      have := stringTail_append hr
      simp [hr, Except.map] at h
      grind
  split at h
  · cases hr : charTail pos (pos + 1) cs with
    | error e => simp [hr, Except.map] at h
    | ok v =>
      have := charTail_append hr
      simp [hr, Except.map] at h
      grind
  split at h
  · exact number_append h
  split at h
  · have := List.takeWhile_append_dropWhile (p := isNameChar) (l := cs)
    grind
  split at h
  · rename_i hs
    simp only [Except.ok.injEq] at h
    subst h
    exact symbol?_append hs
  · simp at h

theorem digits_text_ne_nil {l : List Char} (h : l.takeWhile Char.isDigit ≠ []) :
    (digits l).2.1 ≠ [] := by
  fun_cases digits l with
  | case4 => exact h
  | case5 => exact h
  | _ => simp

theorem symbols_spelling_ne_nil :
    ∀ k ∈ TokenKind.symbols, ∀ s ∈ k.spelling?, s.toList ≠ [] := by
  decide +kernel

/-- No lexeme is empty. -/
theorem lexeme_text_ne_nil {pos : Nat} {c : Char} {cs text rest : List Char} {kind : TokenKind}
    (h : lexeme pos c cs = .ok (kind, text, rest)) : text ≠ [] := by
  unfold lexeme at h
  split at h
  · cases hr : stringTail pos (pos + 1) cs <;> simp [hr, Except.map] at h
    grind
  split at h
  · cases hr : charTail pos (pos + 1) cs <;> simp [hr, Except.map] at h
    grind
  split at h
  · rename_i hd
    have := digits_text_ne_nil (l := c :: cs) (by simp [hd])
    grind [number]
  split at h
  · grind
  split at h
  · rename_i hs
    obtain ⟨k, hk, hf⟩ := List.exists_of_findSome?_eq_some hs
    obtain ⟨s, hsp, he⟩ := Option.bind_eq_some_iff.1 hf
    have := symbols_spelling_ne_nil k hk s hsp
    grind
  · simp at h

theorem trivia_append {pos : Nat} {cs gap rest : List Char}
    (h : trivia pos cs = .ok (gap, rest)) : gap ++ rest = cs := by
  fun_induction trivia pos cs generalizing gap rest with
  | case1 => grind
  | case2 pos c cs' _ ih =>
    cases hr : trivia (pos + c.utf8Size) cs' with
    | error e => rw [hr] at h; exact absurd h (by simp [Except.map])
    | ok v =>
      rw [hr] at h
      have := ih hr
      simp [Except.map] at h
      grind
  | case3 pos c cs' _ _ comment _ =>
    rename_i ih
    cases hr : trivia (pos + utf8Width (c :: comment)) (cs'.dropWhile (· != '\n')) with
    | error e => rw [hr] at h; exact absurd h (by simp [Except.map])
    | ok v =>
      rw [hr] at h
      have := ih hr
      have := List.takeWhile_append_dropWhile (p := (· != '\n')) (l := cs')
      simp [Except.map] at h
      grind
  | case5 pos c cs' _ _ _ body r hb _ ih =>
    cases hr : trivia (pos + utf8Width ('/' :: '*' :: body)) r with
    | error e => rw [hr] at h; exact absurd h (by simp [Except.map])
    | ok v =>
      rw [hr] at h
      have := ih hr
      have := blockComment_append hb
      simp [Except.map] at h
      cases cs' <;> grind
  | _ => grind

end Lexer

/-! ## The whole text -/

/-- The tokens of a text up to its end or its first error. -/
structure Scan where
  tokens : List Token
  error : Option LexError
  deriving DecidableEq, Repr, Inhabited

namespace Lexer

/-- Reads the tokens of a text whose first character has the offset `pos`. -/
def scanFrom (file pos : Nat) (cs : List Char) : Scan :=
  match hg : trivia pos cs with
  | .error flaw => ⟨[], some (flaw.toError file)⟩
  | .ok (_, []) => ⟨[], none⟩
  | .ok (gap, c :: cs') =>
    let start := pos + utf8Width gap
    match hl : lexeme start c cs' with
    | .error flaw => ⟨[], some (flaw.toError file)⟩
    | .ok (kind, text, rest) =>
      have := congrArg List.length (trivia_append hg)
      have := congrArg List.length (lexeme_append hl)
      have := List.length_pos_iff.2 (lexeme_text_ne_nil hl)
      let stop := start + utf8Width text
      let next := scanFrom file stop rest
      ⟨⟨kind, String.ofList text, ⟨file, start, stop⟩, gap.contains '\n'⟩ :: next.tokens, next.error⟩
termination_by cs.length
decreasing_by grind

end Lexer

/-- Reads the tokens of a text up to its end or its first error. -/
def Scan.ofText (file : Nat) (text : String) : Scan := Lexer.scanFrom file 0 text.toList

/-- The tokens of a text, without a token for its end. -/
def Token.lex (file : Nat) (text : String) : Except LexError (List Token) :=
  let scan := Scan.ofText file text
  match scan.error with
  | some e => .error e
  | none => .ok scan.tokens

end KilnLang
