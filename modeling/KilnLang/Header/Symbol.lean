import KilnLang.Ty

/-!
# What a C header offers

The symbols of a header and the table that collects them. **Macros** are known by the kind of
literal that their body is; a body that is a single name stands for whatever that name means
where it is used. A **table** holds the symbols of a header and of all it includes, each name
once, together with warnings about directives that were skipped.
-/

namespace KilnLang

/-- What the body of a macro produces. -/
inductive MacroValue where
  | str
  | int
  | float
  | char
  | name (target : String)
  | other
  deriving DecidableEq, Repr, Inhabited

/-- The type of a body, unless it is a name that has to be looked up. -/
def MacroValue.literalType? : MacroValue → Option Ty
  | .str => some (.prim .str)
  | .int => some .int
  | .float => some (.prim .double)
  | .char => some (.prim .char)
  | .name _ => none
  | .other => some .any

/-- A symbol of a header; a variadic macro takes at least `arity` arguments. -/
inductive HeaderSymbol where
  | constant (name : String) (value : MacroValue)
  | macroFn (name : String) (arity : Nat) (variadic : Bool) (value : MacroValue)
  | function (name : String) (sig : Signature Ty)
  | variable (name : String) (ty : Ty)
  | typedef (name : String) (target : Ty)
  deriving DecidableEq, Repr, Inhabited

/-- The name of a symbol. -/
def HeaderSymbol.name : HeaderSymbol → String
  | .constant name _ => name
  | .macroFn name _ _ _ => name
  | .function name _ => name
  | .variable name _ => name
  | .typedef name _ => name

/-- Why a directive was skipped, or what is missing at the end of a header. -/
inductive DirectiveFlaw where
  | missingMacroName
  | unterminatedParameters (name : String)
  | invalidParameters (name : String)
  | unmatched (directive : String)
  | unterminatedConditionals (count : Nat)
  deriving DecidableEq, Repr, Inhabited

/-- The message for a skipped directive. -/
def DirectiveFlaw.message : DirectiveFlaw → String
  | .missingMacroName => "malformed #define: missing macro name"
  | .unterminatedParameters name => s!"malformed #define `{name}`: unterminated parameter list"
  | .invalidParameters name => s!"malformed #define `{name}`: invalid parameter list"
  | .unmatched directive => s!"#{directive} without matching #if"
  | .unterminatedConditionals count => s!"{count} unterminated conditional block(s)"

/-- A directive that was skipped, and the line of its header. -/
structure HeaderWarning where
  header : String
  line : Nat
  flaw : DirectiveFlaw
  deriving DecidableEq, Repr, Inhabited

/-- The text of a warning: `header:line: message`. -/
def HeaderWarning.message (w : HeaderWarning) : String :=
  s!"{w.header}:{w.line}: {w.flaw.message}"

/-- The symbols and warnings of a header together with all that it includes. -/
structure HeaderTable where
  path : String
  symbols : List HeaderSymbol
  warnings : List HeaderWarning
  deriving DecidableEq, Repr, Inhabited

/-- The symbol of a name. -/
def HeaderTable.get? (t : HeaderTable) (name : String) : Option HeaderSymbol :=
  t.symbols.find? (·.name == name)

end KilnLang
