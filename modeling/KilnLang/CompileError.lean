import KilnLang.FileSystem
import KilnLang.Header.Table
import KilnLang.Semantic.Error
import KilnLang.Syntax.Parser

/-!
# Compilation errors

Everything that can stop a compilation, with the diagnostics that the user sees for it.
-/

namespace KilnLang

/-- Why a compilation failed. -/
inductive CompileError where
  | sourceIo (path : String) (error : FileError)
  | unsupportedFormat (name : String)
  | unknownDataModel (name : String)
  | lex (error : LexError)
  | parse (error : ParseError)
  | missingHeader (error : MissingHeader)
  | semantic (errors : List SemanticError)
  deriving DecidableEq, Repr, Inhabited

namespace CompileError

/-- A syntax error as a compilation error. -/
def ofSyntax : SyntaxError → CompileError
  | .lex e => .lex e
  | .parse e => .parse e

/-- The message for an error, without places. -/
def message : CompileError → String
  | .sourceIo path error => s!"failed to read {path}: {error.message}"
  | .unsupportedFormat name => s!"unsupported emit format: {name}"
  | .unknownDataModel name => s!"unknown data model: {name}"
  | .lex error => error.cause.message
  | .parse error => error.message
  | .missingHeader error => error.message
  | .semantic errors => "\n".intercalate (errors.map (·.message))

/-- One diagnostic for each thing that is wrong. -/
def diagnostics : CompileError → List Diagnostic
  | .lex error => [error.diagnostic]
  | .parse error => [error.diagnostic]
  | .missingHeader error => [.errorAt "E0201" error.message error.span]
  | .semantic errors => errors.map (·.diagnostic)
  | error => [.global error.message]

/-- The diagnostics as text, one a line. -/
def render (e : CompileError) (sources : SourceMap) : String :=
  "\n".intercalate (e.diagnostics.map (·.render sources))

end CompileError

end KilnLang
