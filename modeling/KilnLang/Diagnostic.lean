import KilnLang.Source

/-!
# Diagnostics

A **diagnostic** is a message for the user, with the place it speaks of and the code of the rule
that was broken, where it has them. Its written form is `place: severity[code]: message`.
-/

namespace KilnLang

/-- How bad a finding is. -/
inductive Severity where
  | error
  | warning
  deriving DecidableEq, Repr, Inhabited

/-- The word written for a severity. -/
def Severity.render : Severity → String
  | .error => "error"
  | .warning => "warning"

/-- A finding with an optional place and an optional code. -/
structure Diagnostic where
  severity : Severity
  message : String
  span : Option Span := none
  code : Option String := none
  deriving DecidableEq, Repr, Inhabited

namespace Diagnostic

/-- An error about no place of a source, such as an unreadable file. -/
def global (message : String) : Diagnostic := ⟨.error, message, none, none⟩

/-- An error at a place, with the code of its rule. -/
def errorAt (code message : String) (span : Span) : Diagnostic :=
  ⟨.error, message, some span, some code⟩

/-- A warning about no place of a source. -/
def warning (message : String) : Diagnostic := ⟨.warning, message, none, none⟩

/-- The written form `place: severity[code]: message`; absent parts are left out. -/
def render (d : Diagnostic) (sources : SourceMap) : String :=
  let place := match d.span with
    | some span => sources.location span ++ ": "
    | none => ""
  let code := match d.code with
    | some code => "[" ++ code ++ "]"
    | none => ""
  place ++ d.severity.render ++ code ++ ": " ++ d.message

end Diagnostic

end KilnLang
