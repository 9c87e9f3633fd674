import KilnLang.CommandLine.Run

/-!
# The program

Reads the part of the system's files that a run can need, runs the command line on it, and prints
and writes what the run leaves behind.
-/

namespace KilnLang.Program

open CommandLine

/-- The text of a location. -/
def pathOf (loc : Location) : String := "/" ++ "/".intercalate loc

/-- What the system has at a path; what cannot be read is not there. -/
def readEntry? (path : String) : IO (Option FileEntry) := do
  try
    let p ← IO.FS.realPath path
    if ← p.isDir then return some .directory
    else return some (.file (← IO.FS.readBinFile path).toList)
  catch _ => return none

/-- Adds what the system has at a path. -/
def addEntry (fs : FileSystem) (path : String) : IO FileSystem := do
  match fs.locate path with
  | .error _ => return fs
  | .ok loc =>
    match fs.at? loc, ← readEntry? path with
    | none, some entry => return fs.put loc entry
    | _, _ => return fs

/-- Adds what the system has at a path and at the directories above it. -/
def addPath (fs : FileSystem) (path : String) : IO FileSystem := do
  let segments := Path.segments path
  let above := (List.range segments.length).map fun n =>
    Path.ofSegments (Path.isAbsolute path) (segments.take (n + 1))
  above.foldlM addEntry fs

/-- Adds all that is below a directory. -/
partial def addTree (fs : FileSystem) (dir : String) : IO FileSystem := do
  let mut fs := fs
  for entry in ← (← IO.FS.realPath dir).readDir do
    let path := Path.join dir entry.fileName
    fs ← addEntry fs path
    if fs.isDir path then fs ← addTree fs path
  return fs

/-- Adds an input, with all that is below it if it is a directory. -/
def addInput (fs : FileSystem) (input : String) : IO FileSystem := do
  let fs ← addPath fs input
  if fs.isDir input then addTree fs input else return fs

/-- The headers that the text of a unit includes. -/
def headersOf (text : String) : List String :=
  match SourceUnit.parse 0 text with
  | .error _ => []
  | .ok unit => unit.nodes.filterMap fun
      | .header item => some item.headerName
      | _ => none

/-- Adds headers and the headers that they include. -/
partial def addHeaders (dirs : List String) (fs : FileSystem) (seen : List String) :
    List String → IO FileSystem
  | [] => return fs
  | name :: names => do
    if seen.contains name then addHeaders dirs fs seen names
    else
      let fs ← (dirs.map (Path.join · name)).foldlM addPath fs
      let inner := match (Locator.search fs dirs).locate name with
        | some file => (Header.scan file.contents).includes
        | none => []
      addHeaders dirs fs (name :: seen) (inner ++ names)

/-- The rest of the standard input. -/
partial def readAll (input : IO.FS.Stream) (bytes : ByteArray) : IO ByteArray := do
  let more ← input.read 65536
  if more.isEmpty then return bytes else readAll input (bytes ++ more)

/-- The texts that a run compiles. -/
def textsOf (fs : FileSystem) (sources : List String) (stdin : List UInt8) : List String :=
  (Utf8.decode? stdin).toList ++ sources.filterMap fun path => (fs.readText path).toOption

/-- The files that a run can need. -/
def gather (fs : FileSystem) (o : Options) (stdin : List UInt8) : IO FileSystem := do
  let fs ← o.inputs.foldlM addInput fs
  let sources := SourceSet.ofInputs fs o.inputs
  let dirs := o.includeDirs ++ Locator.systemDirs
  let fs ← addHeaders dirs fs [] ((textsOf fs sources stdin).flatMap headersOf)
  match o.output with
  | none => return fs
  | some output =>
    let targets := sources.map fun source => outputPath output source (o.emit.getD .c)
    (output :: targets).foldlM addPath fs

/-- Writes what is new or changed. -/
def writeBack (before after : FileSystem) : IO Unit :=
  for (loc, entry) in after.entries.reverse do
    if before.at? loc != some entry then
      match entry with
      | .directory => IO.FS.createDirAll (pathOf loc)
      | .file bytes => IO.FS.writeBinFile (pathOf loc) ⟨bytes.toArray⟩

/-- Runs the program on the system. -/
def runSystem (args : List String) : IO UInt32 := do
  let start : FileSystem := ⟨[], Path.segments (← IO.currentDir).toString⟩
  let options := (Options.ofArgs args).toOption
  let stdin ←
    if options.any (·.inputs.isEmpty) then readAll (← IO.getStdin) ByteArray.empty
    else pure ByteArray.empty
  let fs ←
    match options with
    | some o => gather start o stdin.toList
    | none => pure start
  let outcome := run args stdin.toList fs
  writeBack fs outcome.files
  IO.print outcome.stdout
  IO.eprint outcome.stderr
  return outcome.exitCode.toUInt32

end KilnLang.Program

/-- The entry of the program. -/
def main (args : List String) : IO UInt32 := KilnLang.Program.runSystem args
