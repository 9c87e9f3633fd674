import KilnLang.CommandLine.Options
import KilnLang.SourceSet

/-!
# Command line

A run of the program, from its arguments, its standard input and the files to what it prints and
the files after it. What the program takes from libraries is a parameter (`Libraries`).

**Inputs.** Without inputs the standard input is compiled. A single file is compiled to the output
file or to the standard output. Several files, or the files of directories, are compiled as a
batch: each to a file of its own in the output directory, or all to the standard output, which is
printed at the end.

**Failures.** A failed unit of a batch is reported and the others go on. A file that cannot be
written ends the run.
-/

namespace KilnLang.CommandLine

/-- Why a run failed. -/
inductive RunError where
  | notText (error : FileError)
  | collect (error : WalkError)
  | compile (failure : CompileFailure)
  | noSources
  | failedUnits (failed total : Nat)
  | createDirectory (path : String) (error : FileError)
  | writeOutput (path : String) (error : FileError)
  deriving Repr, Inhabited

namespace RunError

/-- What failed. -/
def message : RunError → String
  | .notText _ => "failed to read source from stdin"
  | .collect _ => "failed to collect sources"
  | .compile failure => failure.render
  | .noSources => "no .kn sources found"
  | .failedUnits failed total => s!"{failed} of {total} units failed to compile"
  | .createDirectory path _ => s!"failed to create directory {path}"
  | .writeOutput path _ => s!"failed to write output file {path}"

/-- The errors that it failed of, each one for the next. -/
def causes : RunError → List String
  | .notText error => [error.message]
  | .collect error => [s!"failed to read {error.path}: {error.reason}", error.reason]
  | .createDirectory _ error => [error.message]
  | .writeOutput _ error => [error.message]
  | .compile _ | .noSources | .failedUnits _ _ => []

/-- The lines for causes, which have numbers if there are several. -/
def causeLines : List String → List String
  | [] => []
  | [cause] => ["", "Caused by:", s!"    {cause}"]
  | causes => "" :: "Caused by:" :: causes.mapIdx fun n cause => s!"    {n}: {cause}"

/-- The text that reports a failed run. -/
def render (e : RunError) : String :=
  "\n".intercalate (s!"Error: {e.message}" :: causeLines e.causes) ++ "\n"

end RunError

/-- What a run has printed and written so far. -/
structure Progress where
  stdout : String
  stderr : String
  files : FileSystem
  deriving Repr, Inhabited

namespace Progress

/-- Prints warnings. -/
def warn (p : Progress) (warnings : List Diagnostic) : Progress :=
  { p with stderr := p.stderr ++ String.join (warnings.map fun w => w.render .empty ++ "\n") }

/-- Prints a line for an error. -/
def report (p : Progress) (text : String) : Progress :=
  { p with stderr := p.stderr ++ text ++ "\n" }

/-- Prints output. -/
def print (p : Progress) (text : String) : Progress := { p with stdout := p.stdout ++ text }

end Progress

/-- The directory that has to exist before a file is written. -/
def outputDir? (path : String) : Option String := (Path.parent? path).filter (· != "")

/-- Writes an output file, after the directories above it. -/
def writeOutput (fs : FileSystem) (path text : String) : Except RunError FileSystem := do
  let fs ←
    match outputDir? path with
    | none => .ok fs
    | some dir => (fs.createDirs dir).mapError (.createDirectory dir)
  (fs.write path text).mapError (.writeOutput path)

/-- Delivers the output of a single compilation. -/
def deliver (p : Progress) (output : Option String) (text : String) :
    Progress × Option RunError :=
  match output with
  | none => (p.print text, none)
  | some path =>
    match writeOutput p.files path text with
    | .ok files => ({ p with files }, none)
    | .error e => (p, some e)

/-- Reports and delivers the result of a single compilation. -/
def finish (p : Progress) (output : Option String) :
    Except CompileFailure CompileOutput → Progress × Option RunError
  | .error failure => (p, some (.compile failure))
  | .ok result => deliver (p.warn result.warnings) output result.text

/-- The file that a source of a batch is compiled to. -/
def outputPath (dir source : String) (format : EmitFormat) : String :=
  Path.withExtension (Path.join dir ((Path.stem? source).getD source)) format.extension

/-- Reports and delivers the results of a batch of `total` units, `failed` of which have failed so
far; `text` is what is printed at the end. -/
def finishBatch (format : EmitFormat) (output : Option String) (total : Nat) (p : Progress)
    (failed : Nat) (text : String) :
    List (String × Except CompileFailure CompileOutput) → Progress × Option RunError
  | [] => (p.print text, if failed = 0 then none else some (.failedUnits failed total))
  | (_, .error failure) :: more =>
    finishBatch format output total (p.report failure.render) (failed + 1) text more
  | (source, .ok result) :: more =>
    let p := p.warn result.warnings
    match output with
    | none => finishBatch format output total p failed (text ++ result.text) more
    | some dir =>
      match writeOutput p.files (outputPath dir source format) result.text with
      | .ok files => finishBatch format output total { p with files } failed text more
      | .error e => (p, some e)

/-- Compiles what the options ask for. -/
def execute (walk : Walk) (o : Options) (stdin : List UInt8) (fs : FileSystem) :
    Progress × Option RunError :=
  let start : Progress := ⟨"", "", fs⟩
  let format := o.emit.getD .c
  let compiler := Compiler.new format (o.dataModel.getD .lp64) (.withSystemDirs fs o.includeDirs)
  if o.inputs.isEmpty then
    match Utf8.decode? stdin with
    | none => (start, some (.notText .notUtf8))
    | some text => finish start o.output (compiler.compileSource "<stdin>" text).1
  else
    let batch (files : List String) : Progress × Option RunError :=
      finishBatch format o.output files.length start 0 "" (compiler.compileBatch fs files).1
    match SourceSet.collect walk fs o.inputs with
    | .error e => (start, some (.collect e))
    | .ok [] => (start, some .noSources)
    | .ok [file] =>
      if o.inputs.any fs.isDir then batch [file]
      else finish start o.output (compiler.compileFile fs file).1
    | .ok files => batch files

/-- What a run leaves behind. -/
structure Outcome where
  exitCode : Nat
  stdout : String
  stderr : String
  files : FileSystem
  deriving Repr, Inhabited

/-- What the program takes from libraries: how arguments are read, and how directories are walked. -/
structure Libraries where
  read : ArgReader
  walk : Walk

/-- Runs the program. -/
def runWith (lib : Libraries) (args : List String) (stdin : List UInt8) (fs : FileSystem) : Outcome :=
  match lib.read args with
  | .error e => ⟨e.code, e.stdout, e.stderr, fs⟩
  | .ok o =>
    match execute lib.walk o stdin fs with
    | (p, none) => ⟨0, p.stdout, p.stderr, p.files⟩
    | (p, some e) => ⟨1, p.stdout, p.stderr ++ e.render, p.files⟩

/-- The libraries that the program runs with. -/
def Libraries.standard : Libraries := ⟨Options.read, .sorted⟩

/-- Runs the program with these libraries. -/
def run (args : List String) (stdin : List UInt8) (fs : FileSystem) : Outcome :=
  runWith .standard args stdin fs

end KilnLang.CommandLine
