import KilnLang.Path
import KilnLang.Text.Utf8

/-!
# File systems

A file system as a value: files and directories by **location**, the list of names that leads to
them from the root, and the location of the working directory.

**Looking up** a path walks its segments: every segment but the last has to be a directory, `..`
goes to the directory above, and a path that ends in a slash has to be a directory. Writing gives
a new file system.
-/

namespace KilnLang

/-- Why an operation on files failed. -/
inductive FileError where
  | notFound
  | exists
  | notADirectory
  | isADirectory
  | notUtf8
  deriving DecidableEq, Repr, Inhabited

/-- The message for a failed operation. -/
def FileError.message : FileError → String
  | .notFound => "No such file or directory (os error 2)"
  | .exists => "File exists (os error 17)"
  | .notADirectory => "Not a directory (os error 20)"
  | .isADirectory => "Is a directory (os error 21)"
  | .notUtf8 => "stream did not contain valid UTF-8"

/-- What is found at a location. -/
inductive FileEntry where
  | file (bytes : List UInt8)
  | directory
  deriving DecidableEq, Repr, Inhabited

/-- The names that lead from the root to a place. -/
abbrev Location := List String

/-- Files and directories by location, and the working directory. The root and the working
directory always exist. -/
structure FileSystem where
  entries : List (Location × FileEntry)
  workDir : Location
  deriving Repr, Inhabited

namespace FileSystem

/-- A file system with nothing in it but the working directory. -/
def empty : FileSystem := ⟨[], ["work"]⟩

/-- What is found at a location. -/
def at? (fs : FileSystem) (loc : Location) : Option FileEntry :=
  if loc.isPrefixOf fs.workDir then some .directory else fs.entries.lookup loc

/-- Puts an entry at a location. -/
def put (fs : FileSystem) (loc : Location) (entry : FileEntry) : FileSystem :=
  { fs with entries := (loc, entry) :: fs.entries.filter (·.1 != loc) }

/-! ## Looking up -/

/-- Walks segments from a location, each of which leaves a directory; the end may not exist. -/
def walk (fs : FileSystem) (loc : Location) : List String → Except FileError Location
  | [] => .ok loc
  | segment :: more =>
    match fs.at? loc with
    | none => .error .notFound
    | some (.file _) => .error .notADirectory
    | some .directory =>
      let next := if Path.isIdle segment then loc
        else if segment == ".." then loc.dropLast
        else loc ++ [segment]
      fs.walk next more

/-- The location of a path whose segments lead through directories. -/
def locate (fs : FileSystem) (path : String) : Except FileError Location :=
  if path == "" then .error .notFound
  else fs.walk (if Path.isAbsolute path then [] else fs.workDir) (Path.segments path)

/-- The location of a path and what is found there. -/
def stat (fs : FileSystem) (path : String) : Except FileError (Location × FileEntry) :=
  match fs.locate path with
  | .error e => .error e
  | .ok loc =>
    match fs.at? loc with
    | none => .error .notFound
    | some entry => .ok (loc, entry)

/-- Whether a path leads to a directory. -/
def isDir (fs : FileSystem) (path : String) : Bool :=
  match fs.stat path with
  | .ok (_, .directory) => true
  | _ => false

/-- The bytes of the file that a path leads to. -/
def readBytes (fs : FileSystem) (path : String) : Except FileError (List UInt8) :=
  match fs.stat path with
  | .error e => .error e
  | .ok (_, .file bytes) => .ok bytes
  | .ok (_, .directory) => .error .isADirectory

/-- The text of the file that a path leads to. -/
def readText (fs : FileSystem) (path : String) : Except FileError String :=
  match fs.readBytes path with
  | .error e => .error e
  | .ok bytes =>
    match Utf8.decode? bytes with
    | some text => .ok text
    | none => .error .notUtf8

/-! ## Writing -/

/-- Whether a path ends in a slash. -/
def endsInSlash (path : String) : Bool := path.toList.getLast? == some '/'

/-- Makes a directory whose parent exists. -/
def makeDir (fs : FileSystem) (path : String) : Except FileError FileSystem :=
  match fs.locate path with
  | .error e => .error e
  | .ok loc =>
    match fs.at? loc, fs.at? loc.dropLast with
    | some _, _ => .error .exists
    | none, some .directory => .ok (fs.put loc .directory)
    | none, some (.file _) => .error .notADirectory
    | none, none => .error .notFound

/-- Makes a directory and all that are missing above it, `depth` levels at most. -/
def makeDirs (fs : FileSystem) (path : String) : (depth : Nat) → Except FileError FileSystem
  | 0 => .error .notFound
  | depth + 1 =>
    if path == "" then .ok fs
    else
      match fs.makeDir path with
      | .ok fs => .ok fs
      | .error .notFound =>
        match Path.parent? path with
        | none => .error .notFound
        | some parent =>
          match fs.makeDirs parent depth with
          | .error e => .error e
          | .ok fs =>
            match fs.makeDir path with
            | .ok fs => .ok fs
            | .error e => if fs.isDir path then .ok fs else .error e
      | .error e => if fs.isDir path then .ok fs else .error e

/-- Makes a directory and all that are missing above it. -/
def createDirs (fs : FileSystem) (path : String) : Except FileError FileSystem :=
  fs.makeDirs path ((Path.segments path).length + 1)

/-- The path without the slashes at its end; the root keeps one. -/
def dropSlashes (path : String) : String :=
  match (path.toList.reverse.dropWhile (· == '/')).reverse with
  | [] => if endsInSlash path then "/" else ""
  | cs => String.ofList cs

/-- Writes a file into a directory that exists; a path that ends in a slash names no file. -/
def write (fs : FileSystem) (path text : String) : Except FileError FileSystem :=
  match fs.locate (dropSlashes path) with
  | .error e => .error e
  | .ok loc =>
    match fs.at? loc, fs.at? loc.dropLast with
    | some .directory, _ => .error .isADirectory
    | _, some .directory =>
      if endsInSlash path then .error .isADirectory else .ok (fs.put loc (.file (Utf8.encode text)))
    | _, some (.file _) => .error .notADirectory
    | _, none => .error .notFound

/-- Puts an entry at a location below the working directory, and the directories above it. -/
def install (fs : FileSystem) (loc : Location) (entry : FileEntry) : FileSystem :=
  let full := fs.workDir ++ loc
  let above := (List.range loc.length).map fun n => full.take (fs.workDir.length + n)
  let fs := above.foldl (fun fs l => if (fs.at? l).isSome then fs else fs.put l .directory) fs
  fs.put full entry

end FileSystem

end KilnLang
