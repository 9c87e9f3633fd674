import KilnLang.Text.Blank

/-!
# Lines of a header

**Comments** become a space; the line breaks inside a block comment stay, so that every character
that survives keeps its line. A quote hides comments up to its end or the end of the line, and a
backslash inside a quote hides the character after it.

**Logical lines** are physical lines joined where one ends in a backslash. A logical line has the
number of its first physical line.
-/

namespace KilnLang.Header

/-- Where a scan for comments is: in plain text, inside a quote, or inside a comment. -/
inductive Region where
  | plain
  | quoted (quote : Char)
  | lineComment
  | blockComment
  deriving DecidableEq, Repr, Inhabited

/-- Replaces comments by a space and the line breaks that they contain. -/
def stripComments : Region → List Char → List Char
  | .plain, [] => []
  | .plain, '/' :: '/' :: cs => ' ' :: stripComments .lineComment cs
  | .plain, '/' :: '*' :: cs => stripComments .blockComment cs
  | .plain, c :: cs => c :: stripComments (if c = '"' ∨ c = '\'' then .quoted c else .plain) cs
  | .quoted _, [] => []
  | .quoted q, '\\' :: c :: cs => '\\' :: c :: stripComments (.quoted q) cs
  | .quoted q, c :: cs => c :: stripComments (if c = q ∨ c = '\n' then .plain else .quoted q) cs
  | .lineComment, [] => []
  | .lineComment, c :: cs =>
    if c = '\n' then c :: stripComments .plain cs else stripComments .lineComment cs
  | .blockComment, [] => [' ']
  | .blockComment, '*' :: '/' :: cs => ' ' :: stripComments .plain cs
  | .blockComment, c :: cs =>
    if c = '\n' then c :: stripComments .blockComment cs else stripComments .blockComment cs

/-- A logical line and the number of its first physical line, which is one of 32 bits in a header of
less than 2^32 - 1 bytes (`number_lt`). -/
structure LogicalLine where
  number : Nat
  text : List Char
  deriving DecidableEq, Repr, Inhabited

/-- The line without the last character, if that is `c`. -/
def dropFinal? (c : Char) (line : List Char) : Option (List Char) :=
  if line.getLast? = some c then some line.dropLast else none

/-- Joins physical lines, the first of which has the given number; `open?` is the logical line
that the line before left open. -/
def joinLines (number : Nat) (open? : Option LogicalLine) : List (List Char) → List LogicalLine
  | [] => open?.toList
  | raw :: more =>
    let line := (dropFinal? '\r' raw).getD raw
    let start : LogicalLine := open?.getD ⟨number, []⟩
    match dropFinal? '\\' line with
    | some joined =>
      joinLines (number + 1) (some { start with text := start.text ++ joined ++ [' '] }) more
    | none => { start with text := start.text ++ line } :: joinLines (number + 1) none more

/-- The logical lines of a text. -/
def logicalLines (cs : List Char) : List LogicalLine := joinLines 1 none (Text.splitAt '\n' cs)

end KilnLang.Header
