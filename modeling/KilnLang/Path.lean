import KilnLang.Text.Blank

/-!
# Paths

A path is a text of segments between slashes. Its **key** is what two spellings of one path share:
repeated slashes, a slash at the end and points between segments do not count, a point at the start
does, and `..` is a segment like any other.

**Names.** The last segment splits at its last point into a stem and an extension, unless that
point is its first character.
-/

namespace KilnLang.Path

/-- Whether a path starts at the root. -/
def isAbsolute (path : String) : Bool := path.toList.head? == some '/'

/-- The segments between slashes; those of an absolute path come after its first slash. -/
def segments (path : String) : List String :=
  let segments := (Text.splitAt '/' path.toList).map String.ofList
  if isAbsolute path then segments.tail else segments

/-- Whether a segment says nothing after others. -/
def isIdle (segment : String) : Bool := segment == "" || segment == "."

/-- The segments that count: idle ones are left out, but for a point at the start of a relative
path. -/
def parts (path : String) : List String :=
  match segments path with
  | [] => []
  | first :: more =>
    let more := more.filter (!isIdle ·)
    if isIdle first && (isAbsolute path || first == "") then more else first :: more

/-- What the spellings of a path share. -/
structure Key where
  absolute : Bool
  parts : List String
  deriving DecidableEq, Repr, Inhabited

/-- The key of a path. -/
def key (path : String) : Key := ⟨isAbsolute path, parts path⟩

/-- The path `name` below the directory `dir`; an absolute name stands for itself. -/
def join (dir name : String) : String :=
  if isAbsolute name || dir == "" then name
  else if dir.toList.getLast? == some '/' then dir ++ name
  else dir ++ "/" ++ name

/-- The last segment, unless the path ends in a point at its start, in `..`, or at the root. -/
def fileName? (path : String) : Option String :=
  match (parts path).getLast? with
  | some name => if name == "." || name == ".." then none else some name
  | none => none

/-- Splits a name at its last point into a stem and an extension; a name whose only point comes
first has no extension. -/
def splitExtension (name : String) : String × Option String :=
  let pieces := (Text.splitAt '.' name.toList).map String.ofList
  let stem := ".".intercalate pieces.dropLast
  if stem == "" then (name, none) else (stem, pieces.getLast?)

/-- The extension of the last segment. -/
def extension? (path : String) : Option String :=
  (fileName? path).bind fun n => (splitExtension n).2

/-- The last segment without its extension. -/
def stem? (path : String) : Option String := (fileName? path).map fun n => (splitExtension n).1

/-- The segments without the idle ones at the end; the first one of a relative path stays. -/
def trimIdle (absolute : Bool) (segments : List String) : List String :=
  match segments with
  | [] => []
  | first :: more =>
    let kept := (more.reverse.dropWhile isIdle).reverse
    if absolute && kept.isEmpty && isIdle first then [] else first :: kept

/-- The text of segments. -/
def ofSegments (absolute : Bool) (segments : List String) : String :=
  (if absolute then "/" else "") ++ "/".intercalate segments

/-- The path without its last segment that counts, empty for a single name; the root and the empty
path have no parent. -/
def parent? (path : String) : Option String :=
  let absolute := isAbsolute path
  if (parts path).isEmpty then none
  else
    some (ofSegments absolute (trimIdle absolute (trimIdle absolute (segments path)).dropLast))

/-- The path with another extension after the stem of its last segment; a path without such a
segment stays as it is. -/
def withExtension (path extension : String) : String :=
  match stem? path with
  | none => path
  | some stem =>
    let absolute := isAbsolute path
    let before := (trimIdle absolute (segments path)).dropLast
    ofSegments absolute (before ++ [stem ++ (if extension == "" then "" else "." ++ extension)])

end KilnLang.Path
