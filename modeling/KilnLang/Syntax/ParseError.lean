import KilnLang.Diagnostic

/-!
# Syntax errors

Why a list of tokens is no unit, where, and which tokens would have fitted there.
-/

namespace KilnLang

/-- The rules that a list of tokens can break. -/
inductive ParseCause where
  | unexpectedToken (found : String)
  | unexpectedEof
  | defaultParameterOrder (parameter : String)
  | variadicNotLast
  | invalidArrayLength (text : String)
  | invalidCallee
  deriving DecidableEq, Repr, Inhabited

/-- The message for a broken rule. -/
def ParseCause.message : ParseCause → String
  | .unexpectedToken found => s!"unexpected `{found}`"
  | .unexpectedEof => "unexpected end of input"
  | .defaultParameterOrder parameter =>
    s!"parameter `{parameter}` without a default follows a defaulted parameter"
  | .variadicNotLast => "variadic parameter must be the last parameter"
  | .invalidArrayLength text => s!"array length `{text}` is not a valid size"
  | .invalidCallee => "only identifiers can be called"

/-- The code of a broken rule. -/
def ParseCause.code : ParseCause → String
  | .defaultParameterOrder _ => "E0102"
  | _ => "E0101"

/-- A broken rule, its place, and the tokens that would have fitted. -/
structure ParseError where
  cause : ParseCause
  span : Span
  expected : List String
  deriving DecidableEq, Repr, Inhabited

namespace ParseError

/-- A list of alternatives: commas, and `or` before the last. -/
def alternatives : List String → String
  | [] => ""
  | [only] => only
  | words => ", ".intercalate words.dropLast ++ " or " ++ words.getLast?.getD ""

/-- The message with the tokens that would have fitted. -/
def message (e : ParseError) : String :=
  if e.expected.isEmpty then e.cause.message
  else e.cause.message ++ ", expected " ++ alternatives e.expected

/-- A syntax error for the user. -/
def diagnostic (e : ParseError) : Diagnostic := .errorAt e.cause.code e.message e.span

end ParseError

end KilnLang
