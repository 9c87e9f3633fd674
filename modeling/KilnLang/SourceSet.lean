import KilnLang.FileSystem

/-!
# Source sets

The files that a list of inputs stands for. A file stands for itself, whatever its name. A directory
stands for all source files below it, in the order in which they are walked.

**Walks.** How directories are walked is a parameter (`Walk`), as it comes from a library: what is
said about source sets holds for every walk. The one that the program runs with lists each directory
in the order of names, and what is below a directory comes in the place of the directory
(`Walk.sorted`). That is the order of locations, compared name by name.
-/

namespace KilnLang

/-- What a walk comes to. -/
structure WalkEntry where
  path : String
  isFile : Bool
  deriving DecidableEq, Repr, Inhabited

/-- Where a walk cannot go on, and why. -/
structure WalkError where
  path : String
  reason : String
  deriving DecidableEq, Repr, Inhabited

/-- A way to walk directories: what is at a path and below it, in order. -/
abbrev Walk := FileSystem → String → Except WalkError (List WalkEntry)

namespace SourceSet

/-- The extension of source files. -/
def sourceExtension : String := "kn"

/-- Whether a path names a source file. -/
def isSource (path : String) : Bool := Path.extension? path == some sourceExtension

/-- The paths of the source files that an input stands for. -/
def ofInput (walk : Walk) (fs : FileSystem) (input : String) : Except WalkError (List String) :=
  if fs.isDir input then
    match walk fs input with
    | .error e => .error e
    | .ok entries => .ok ((entries.filter fun e => e.isFile && isSource e.path).map (·.path))
  else .ok [input]

/-- The paths of the source files that inputs stand for. -/
def collect (walk : Walk) (fs : FileSystem) : List String → Except WalkError (List String)
  | [] => .ok []
  | input :: inputs =>
    match ofInput walk fs input with
    | .error e => .error e
    | .ok files => (collect walk fs inputs).map (files ++ ·)

end SourceSet

/-! ## A walk in the order of names -/

/-- Whether a location comes before another one or is the same. -/
def Location.precedes : Location → Location → Bool
  | [], _ => true
  | _ :: _, [] => false
  | a :: as, b :: bs => if a == b then Location.precedes as bs else a < b

/-- Puts an entry before the first one that it precedes. -/
def Location.insertEntry (loc : Location) (entry : FileEntry) :
    List (Location × FileEntry) → List (Location × FileEntry)
  | [] => [(loc, entry)]
  | next :: more =>
    if Location.precedes loc next.1 then (loc, entry) :: next :: more
    else next :: Location.insertEntry loc entry more

/-- What is at and below the directory `dir`, with its location relative to that, in order. -/
def FileSystem.below (fs : FileSystem) (dir : Location) : List (Location × FileEntry) :=
  let below := fs.entries.filterMap fun (loc, entry) =>
    if dir.isPrefixOf loc then some (loc.drop dir.length, entry) else none
  below.foldr (fun (loc, entry) => Location.insertEntry loc entry) []

/-- Walks directories in the order of names. -/
def Walk.sorted : Walk := fun fs path =>
  match fs.stat path with
  | .error e => .error ⟨path, e.message⟩
  | .ok (_, .file _) => .ok [⟨path, true⟩]
  | .ok (dir, .directory) => .ok <| (fs.below dir).map fun (loc, entry) =>
      ⟨loc.foldl Path.join path, entry != .directory⟩

/-- The paths of the source files that inputs stand for, none if their walk fails. -/
def SourceSet.ofInputs (fs : FileSystem) (inputs : List String) : List String :=
  (collect .sorted fs inputs).toOption.getD []

end KilnLang
