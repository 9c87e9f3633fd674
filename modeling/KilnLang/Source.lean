import KilnLang.Span

/-!
# Source files and positions

**Positions.** `positionAt` walks a text and counts: a line break starts the next line, any other
character is one column. Offsets beyond the text give the position of its end. An offset inside
the bytes of a character has no column of its own and is reported at column one of its line. Lines
and columns are numbers of 32 bits, and what comes after the greatest of them is zero.

**Slices.** `slice?` cuts a byte range out of a text and refuses a range that is reversed, that
leaves the text, or that splits a character.

**Source maps** number the files of a compilation by their place in a list.
-/

namespace KilnLang

/-- A line and a column, both counted from one, as long as 32 bits hold them. -/
structure LineCol where
  line : UInt32
  column : UInt32
  deriving DecidableEq, Repr, Inhabited

namespace LineCol

/-- The first position of a text. -/
def first : LineCol := ⟨1, 1⟩

/-- The position after the character `c` that stands here. -/
def advance (p : LineCol) (c : Char) : LineCol :=
  if c = '\n' then ⟨p.line + 1, 1⟩ else ⟨p.line, p.column + 1⟩

/-- `line:column`. -/
def render (p : LineCol) : String := s!"{p.line}:{p.column}"

end LineCol

/-! ## Walking a text -/

/-- The position `offset` bytes into the text, where `here` is the position of its first
character. -/
def positionAt (here : LineCol) : List Char → Nat → LineCol
  | [], _ => here
  | c :: cs, offset =>
    if offset = 0 then here
    else if offset < c.utf8Size then ⟨here.line, 1⟩
    else positionAt (here.advance c) cs (offset - c.utf8Size)

/-- The text from the byte `offset` on, if that is a character boundary. -/
def dropBytes? : List Char → Nat → Option (List Char)
  | cs, 0 => some cs
  | [], _ + 1 => none
  | c :: cs, offset + 1 =>
    if offset + 1 < c.utf8Size then none else dropBytes? cs (offset + 1 - c.utf8Size)

/-- The first `count` bytes of the text, if they end at a character boundary. -/
def takeBytes? : List Char → Nat → Option (List Char)
  | _, 0 => some []
  | [], _ + 1 => none
  | c :: cs, count + 1 =>
    if count + 1 < c.utf8Size then none
    else (takeBytes? cs (count + 1 - c.utf8Size)).map (c :: ·)

/-- The bytes `[start, stop)` of the text, if both ends are character boundaries in order. -/
def slice? (text : List Char) (start stop : Nat) : Option (List Char) :=
  if stop < start then none
  else (dropBytes? text start).bind (takeBytes? · (stop - start))

/-! ## Files -/

/-- A text under the name that messages use for it. -/
structure SourceFile where
  name : String
  text : String
  deriving DecidableEq, Repr, Inhabited

namespace SourceFile

/-- The position of a byte offset of the file. -/
def lineCol (f : SourceFile) (offset : Nat) : LineCol :=
  positionAt .first f.text.toList offset

/-- The text of a byte range, empty when the range is not one of the file. -/
def slice (f : SourceFile) (span : Span) : String :=
  String.ofList ((slice? f.text.toList span.start span.stop).getD [])

end SourceFile

/-- The files of a compilation; a file's number is its place. -/
structure SourceMap where
  files : List SourceFile
  deriving Repr, Inhabited

namespace SourceMap

/-- No files. -/
def empty : SourceMap := ⟨[]⟩

/-- The source map of one file, which gets the number zero. -/
def single (name text : String) : SourceMap := ⟨[⟨name, text⟩]⟩

/-- The file with a number. -/
def get? (m : SourceMap) (file : Nat) : Option SourceFile := m.files[file]?

/-- `name:line:column` of the start of a span. -/
def location (m : SourceMap) (span : Span) : String :=
  match m.get? span.file with
  | some f => s!"{f.name}:{(f.lineCol span.start).render}"
  | none => "<unknown>"

end SourceMap

end KilnLang
