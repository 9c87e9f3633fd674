import KilnLang.AliasTable
import KilnLang.Diagnostic
import KilnLang.Ty.Compatibility

/-!
# Semantic errors

The rules that a unit can break once it parses, with the place that breaks them. A unit can break
many at once, and all of them are reported in the order in which they are found.
-/

namespace KilnLang

/-- How many arguments a call may have. -/
inductive ArgCount where
  | exactly (n : Nat)
  | between (low high : Nat)
  | atLeast (n : Nat)
  deriving DecidableEq, Repr, Inhabited

namespace ArgCount

/-- The words for a number of arguments. -/
def render : ArgCount → String
  | .exactly n => toString n
  | .between low high => s!"{low} to {high}"
  | .atLeast n => s!"at least {n}"

/-- `argument` or `arguments`, whichever goes with the number named last. -/
def noun : ArgCount → String
  | .exactly n | .between _ n | .atLeast n => if n = 1 then "argument" else "arguments"

end ArgCount

/-- A broken rule of meaning. -/
inductive SemanticError where
  | unresolvedIdentifier (name : String) (span : Span)
  | macroArityMismatch (name : String) (expected : ArgCount) (found : Nat) (span : Span)
  | functionTypeMismatch (position : SignaturePosition) (expected found : String) (span : Span)
  | invalidReferenceArgument (what : String) (span : Span)
  | typeMismatch (expected found : String) (span : Span)
  | argumentCount (name : String) (expected : ArgCount) (found : Nat) (span : Span)
  | notCallable (name : String) (span : Span)
  | redefinition (name : String) (span : Span)
  | notAValue (name what : String) (span : Span)
  | alias (error : AliasError)
  deriving DecidableEq, Repr, Inhabited

namespace SemanticError

/-- The place of an error. -/
def span : SemanticError → Span
  | .unresolvedIdentifier _ span => span
  | .macroArityMismatch _ _ _ span => span
  | .functionTypeMismatch _ _ _ span => span
  | .invalidReferenceArgument _ span => span
  | .typeMismatch _ _ span => span
  | .argumentCount _ _ _ span => span
  | .notCallable _ span => span
  | .redefinition _ span => span
  | .notAValue _ _ span => span
  | .alias error => error.span

/-- The code of an error. -/
def code : SemanticError → String
  | .unresolvedIdentifier _ _ => "E0301"
  | .macroArityMismatch _ _ _ _ => "E0302"
  | .functionTypeMismatch _ _ _ _ => "E0303"
  | .invalidReferenceArgument _ _ => "E0304"
  | .typeMismatch _ _ _ => "E0305"
  | .argumentCount _ _ _ _ => "E0306"
  | .notCallable _ _ => "E0307"
  | .redefinition _ _ => "E0308"
  | .notAValue _ _ _ => "E0309"
  | .alias error => error.code

/-- The message for an error. -/
def message : SemanticError → String
  | .unresolvedIdentifier name _ => s!"unresolved identifier `{name}`"
  | .macroArityMismatch name expected found _ =>
    s!"macro `{name}` takes {expected.render} {expected.noun}, {found} given"
  | .functionTypeMismatch position expected found _ =>
    s!"function type mismatch at {position.render}: expected `{expected}`, found `{found}`"
  | .invalidReferenceArgument what _ => s!"cannot pass {what} by reference"
  | .typeMismatch expected found _ => s!"type mismatch: expected `{expected}`, found `{found}`"
  | .argumentCount name expected found _ =>
    s!"`{name}` takes {expected.render} {expected.noun}, {found} given"
  | .notCallable name _ => s!"`{name}` is not callable"
  | .redefinition name _ => s!"`{name}` is already defined in this scope"
  | .notAValue name what _ => s!"`{name}` is a {what}, not a value"
  | .alias error => error.message

/-- A semantic error for the user. -/
def diagnostic (e : SemanticError) : Diagnostic := .errorAt e.code e.message e.span

end SemanticError

end KilnLang
