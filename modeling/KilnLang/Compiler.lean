import KilnLang.Analysis
import KilnLang.Target.Lowering
import KilnLang.Syntax.Dump

/-!
# Compiler

A **compiler** has a format to emit, a data model, a place to look for headers, and the tables of
the headers that it has loaded. A **compilation** is a computation over these tables, which units
that are compiled at the same time share. Compiling a unit takes all steps of its compilation in a
row and gives the compiler with the tables loaded for it, which later units share.
-/

namespace KilnLang

/-- What a compilation produces: C, or the tree of the analyzed unit. -/
inductive EmitFormat where
  | c
  | ast
  deriving DecidableEq, Repr, Inhabited

namespace EmitFormat

/-- The name of a format. -/
def name : EmitFormat → String
  | .c => "c"
  | .ast => "ast"

/-- The extension of files in a format. -/
def extension : EmitFormat → String
  | .c => "c"
  | .ast => "ast"

/-- The format with a name in any case; the tree has two names. -/
def ofName? (name : String) : Option EmitFormat :=
  match name.toLower with
  | "c" => some .c
  | "ast" => some .ast
  | "dump" => some .ast
  | _ => none

end EmitFormat

/-- The text of an analyzed unit in a format. -/
def Analyzed.emit (a : Analyzed) (format : EmitFormat) (m : DataModel) : String :=
  match format with
  | .c => (a.unit.toC m a.context.decls).render
  | .ast => a.unit.dump

/-- The result of a successful compilation. -/
structure CompileOutput where
  text : String
  warnings : List Diagnostic
  deriving DecidableEq, Repr, Inhabited

/-- A failed compilation, with the sources that its diagnostics speak of. -/
structure CompileFailure where
  error : CompileError
  sources : SourceMap
  deriving Repr, Inhabited

/-- The diagnostics of a failed compilation as text. -/
def CompileFailure.render (f : CompileFailure) : String := f.error.render f.sources

/-- A compiler. -/
structure Compiler where
  emit : EmitFormat
  dataModel : DataModel
  locator : Locator
  cache : HeaderCache
  deriving Repr, Inhabited

namespace Compiler

/-- A compiler that has loaded no headers. -/
def new (emit : EmitFormat) (dataModel : DataModel) (locator : Locator) : Compiler :=
  ⟨emit, dataModel, locator, .empty⟩

/-- The compilation of a unit's text; `name` is its name in messages. -/
def compilation (c : Compiler) (name text : String) :
    Caching (Except CompileFailure CompileOutput) := do
  match ← SourceUnit.analysis c.locator text with
  | .error failure => return .error ⟨failure.error, .single name text⟩
  | .ok a => return .ok ⟨a.emit c.emit c.dataModel, a.warnings⟩

/-- The compilation of a file. -/
def fileCompilation (c : Compiler) (fs : FileSystem) (path : String) :
    Caching (Except CompileFailure CompileOutput) :=
  match fs.readText path with
  | .error e => return .error ⟨.sourceIo path e, .empty⟩
  | .ok text => c.compilation path text

/-- Takes all steps of a compilation in a row. -/
def perform {α : Type} (c : Compiler) (work : Caching α) : α × Compiler :=
  let (result, cache) := work.run c.cache
  (result, { c with cache })

/-- Compiles the text of a unit. -/
def compileSource (c : Compiler) (name text : String) :
    Except CompileFailure CompileOutput × Compiler :=
  c.perform (c.compilation name text)

/-- Compiles a file. -/
def compileFile (c : Compiler) (fs : FileSystem) (path : String) :
    Except CompileFailure CompileOutput × Compiler :=
  c.perform (c.fileCompilation fs path)

/-- Compiles files one after the other. -/
def compileBatch (c : Compiler) (fs : FileSystem) :
    List String → List (String × Except CompileFailure CompileOutput) × Compiler
  | [] => ([], c)
  | path :: paths =>
    let (result, c) := c.compileFile fs path
    let (results, c) := c.compileBatch fs paths
    ((path, result) :: results, c)

end Compiler

end KilnLang
