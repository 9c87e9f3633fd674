import KilnLang.CompileError
import KilnLang.Semantic.Check
import KilnLang.Semantic.Resolve

/-!
# Analysis

The passes over one unit, in order: parsing, attaching headers, resolution and checking. Each pass
needs the success of the one before it. A failure of resolution or checking keeps the tree as the
pass left it.
-/

namespace KilnLang

/-- A unit that went through all passes, and what was learned about it. -/
structure Analyzed where
  unit : SourceUnit
  context : SemanticContext

namespace Analyzed

/-- The warnings of the headers that the unit includes, in order. -/
def warnings (a : Analyzed) : List Diagnostic :=
  a.unit.nodes.flatMap fun
    | .header ⟨_, _, some table⟩ => table.warnings.map fun w => .warning w.message
    | _ => []

end Analyzed

/-- The pass that failed, and why. -/
inductive AnalysisFailure where
  | parse (error : SyntaxError)
  | bridge (error : MissingHeader)
  | resolve (unit : SourceUnit) (errors : List SemanticError)
  | check (unit : SourceUnit) (errors : List SemanticError)

/-- Why the analysis failed. -/
def AnalysisFailure.error : AnalysisFailure → CompileError
  | .parse error => .ofSyntax error
  | .bridge error => .missingHeader error
  | .resolve _ errors => .semantic errors
  | .check _ errors => .semantic errors

namespace SourceUnit

/-- Resolves and checks a unit whose headers have been attached. -/
def analyzeBridged (unit : SourceUnit) : Except AnalysisFailure Analyzed :=
  match unit.resolve with
  | (unit, .error errors) => .error (.resolve unit errors)
  | (unit, .ok context) =>
    let checked := unit.check context
    if checked.errors.isEmpty then .ok ⟨checked.value, context⟩
    else .error (.check checked.value checked.errors)

/-- Analyzes the text of a unit with the headers that a locator finds. -/
def analysis (l : Locator) (text : String) : Caching (Except AnalysisFailure Analyzed) :=
  match SourceUnit.parse 0 text with
  | .error e => return .error (.parse e)
  | .ok unit => do
    match ← unit.bridge l with
    | .error e => return .error (.bridge e)
    | .ok unit => return unit.analyzeBridged

/-- The analysis of a unit, and the cache after it. -/
def analyze (l : Locator) (cache : HeaderCache) (text : String) :
    Except AnalysisFailure Analyzed × HeaderCache :=
  (analysis l text).run cache

end SourceUnit

end KilnLang
