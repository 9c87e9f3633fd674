import KilnLang.Target.CExpr

/-!
# C literals

Strings and characters are written with the escapes that they have in the source. The only escape
that C lacks is `\e`, which is written in octal.
-/

namespace KilnLang

namespace CLiteral

/-- The characters of a literal with C's escapes. -/
def escape : List Char → List Char
  | '\\' :: 'e' :: cs => '\\' :: '0' :: '3' :: '3' :: escape cs
  | '\\' :: c :: cs => '\\' :: c :: escape cs
  | c :: cs => c :: escape cs
  | [] => []

/-- The text of a literal between quotes. -/
def quoted (quote : String) (lit : Literal) : CExpr :=
  .literal (quote ++ String.ofList (escape lit.text.toList) ++ quote)

/-- A string literal. -/
def string (lit : Literal) : CExpr := quoted "\"" lit

/-- A character literal. -/
def char (lit : Literal) : CExpr := quoted "'" lit

/-- A truth value. -/
def bool (b : Bool) : CExpr := .literal (if b then "true" else "false")

end CLiteral

end KilnLang
