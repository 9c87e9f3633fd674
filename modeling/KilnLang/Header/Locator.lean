import KilnLang.FileSystem

/-!
# Finding headers

A **locator** finds the file that an include names: among headers held in memory, or in the first
of a list of directories that has it. Bytes that are no text are replaced, because a header is
read for what it offers and never refused.
-/

namespace KilnLang

/-- A header that was found. -/
structure HeaderFile where
  path : String
  contents : String
  deriving DecidableEq, Repr, Inhabited

/-- Where headers are looked for. -/
inductive Locator where
  | memory (files : List (String × String))
  | search (fs : FileSystem) (dirs : List String)
  deriving Repr, Inhabited

namespace Locator

/-- The directories where systems keep their headers. -/
def systemDirs : List String := ["/usr/local/include", "/usr/include"]

/-- Searches the given directories and then those of the system. -/
def withSystemDirs (fs : FileSystem) (dirs : List String) : Locator :=
  .search fs (dirs ++ systemDirs)

/-- The file of that name in a directory. -/
def inDir? (fs : FileSystem) (name dir : String) : Option HeaderFile :=
  match fs.readBytes (Path.join dir name) with
  | .ok bytes => some ⟨Path.join dir name, Utf8.decodeLossy bytes⟩
  | .error _ => none

/-- The header that a name leads to. -/
def locate (l : Locator) (name : String) : Option HeaderFile :=
  match l with
  | .memory files => (files.lookup name).map fun contents => ⟨name, contents⟩
  | .search fs dirs => dirs.findSome? (inDir? fs name)

/-- Puts a header into memory under a name, in place of what it named before. -/
def put (l : Locator) (name contents : String) : Locator :=
  match l with
  | .memory files => .memory ((name, contents) :: files.filter (·.1 != name))
  | .search fs dirs => .search fs dirs

/-- A bound on the number of headers that can include each other in a row without repetition. In
memory there are no more than there are files. In a search each but the first is named by an
include, and no text has more includes than bytes. -/
def nestingBound : Locator → Nat
  | .memory files => files.length
  | .search fs _ =>
    1 + (fs.entries.flatMap fun (_, entry) =>
      match entry with
      | .file bytes => bytes
      | .directory => []).length

end Locator

end KilnLang
