import KilnLang.Header.Cache
import KilnLang.Header.Declaration
import KilnLang.Header.Directive
import KilnLang.Header.Locator
import KilnLang.Syntax

/-!
# Header tables

**Scanning** one header gives its own symbols: the macros, then the declarations. **Loading** a
header also loads what it includes, first, and merges the tables: the first symbol of a name wins,
and type names of included headers are known in the text of the header itself.

**Cycles.** A header that is being loaded already is not loaded again below itself. The table of a
header that missed symbols in this way is complete only as a part of the one that is being loaded,
so it is not cached: when it is included directly it is loaded anew.

**Caching.** A complete table is kept under the key of its path and never changes afterwards. Loading
is a computation over the cache: it looks a header up before it reads it, and keeps the table after
it has read all that the header includes.
-/

namespace KilnLang

namespace Header

/-- What one header says by itself. -/
structure Scanned where
  symbols : List HeaderSymbol
  warnings : List (Nat × DirectiveFlaw)
  includes : List String
  deriving DecidableEq, Repr, Inhabited

/-- Scans one header without following its includes. -/
def scan (contents : String) : Scanned :=
  let d := directives contents
  ⟨d.macros ++ (declarations [] d.declarations).1, d.warnings, d.includes⟩

end Header

/-! ## Merging -/

/-- What the includes of a header have given so far: the symbols and warnings in order, the types
they define, and the headers that were cut because they are being loaded. -/
structure Merge where
  symbols : List HeaderSymbol
  warnings : List HeaderWarning
  known : Header.KnownTypes
  cut : List Path.Key
  deriving Repr, Inhabited

/-- A table, and the headers on the way here that are missing from it. -/
structure Loaded where
  table : HeaderTable
  cut : List Path.Key
  deriving Repr, Inhabited

namespace Merge

/-- Nothing so far. -/
def empty : Merge := ⟨[], [], [], []⟩

/-- Adds a symbol, unless its name is taken. -/
def addSymbol (symbols : List HeaderSymbol) (s : HeaderSymbol) : List HeaderSymbol :=
  if symbols.any (·.name == s.name) then symbols else symbols ++ [s]

/-- The types known after a symbol. -/
def addKnown (known : Header.KnownTypes) (s : HeaderSymbol) : Header.KnownTypes :=
  match s with
  | .typedef name target => (name, target) :: known
  | _ => known

/-- Adds the table of an included header. -/
def addTable (m : Merge) (loaded : Loaded) : Merge :=
  { symbols := loaded.table.symbols.foldl addSymbol m.symbols
    warnings := m.warnings ++ loaded.table.warnings
    known := loaded.table.symbols.foldl addKnown m.known
    cut := m.cut ++ loaded.cut }

/-- Leaves out an included header that is being loaded. -/
def addCut (m : Merge) (key : Path.Key) : Merge := { m with cut := m.cut ++ [key] }

/-- Adds the header that an include names, which `load` loads, unless it is not found or is one of
`stack`, which are being loaded. -/
def addInclude (l : Locator) (load : HeaderFile → Caching Loaded) (stack : List Path.Key)
    (m : Merge) (name : String) : Caching Merge :=
  match l.locate name with
  | none => return m
  | some inner =>
    if stack.contains (Path.key inner.path) then return m.addCut (Path.key inner.path)
    else do return m.addTable (← load inner)

/-- The table of a header after all that it includes. -/
def table (m : Merge) (file : HeaderFile) : HeaderTable :=
  let d := Header.directives file.contents
  let own := d.macros ++ (Header.declarations m.known d.declarations).1
  { path := file.path
    symbols := own.foldl addSymbol m.symbols
    warnings := m.warnings ++ d.warnings.map fun (line, flaw) => ⟨file.path, line, flaw⟩ }

end Merge

namespace Header

/-- Loads a header that was found, with at most `depth` headers below each other; `stack` are the
headers that are being loaded. -/
def loadFile (l : Locator) :
    (depth : Nat) → (stack : List Path.Key) → HeaderFile → Caching Loaded
  | 0, _, file => return ⟨⟨file.path, [], []⟩, []⟩
  | depth + 1, stack, file =>
    let key := Path.key file.path
    .find key fun
      | some table => return ⟨table, []⟩
      | none => do
        let load := loadFile l depth (key :: stack)
        let m ← (directives file.contents).includes.foldlM (Merge.addInclude l load (key :: stack))
          Merge.empty
        let cut := m.cut.filter (· != key)
        if cut.isEmpty then .keep key (m.table file) fun kept => return ⟨kept, []⟩
        else return ⟨m.table file, cut⟩

/-- Loads the header that a name leads to, if there is one. -/
def load (l : Locator) (name : String) : Caching (Option HeaderTable) :=
  match l.locate name with
  | none => return none
  | some file => do return some (← loadFile l (l.nestingBound + 1) [] file).table

end Header

/-- Loads the header that a name leads to: its table, if there is one, and the cache after it. -/
def HeaderCache.load (c : HeaderCache) (l : Locator) (name : String) :
    Option HeaderTable × HeaderCache :=
  (Header.load l name).run c

/-! ## Includes of a unit -/

/-- A header that a unit includes and that was not found. -/
structure MissingHeader where
  header : String
  span : Span
  deriving DecidableEq, Repr, Inhabited

/-- The message for a missing header. -/
def MissingHeader.message (m : MissingHeader) : String := s!"header `{m.header}` not found"

/-- Attaches the tables of the headers that the parts of a unit include, up to the first one that is
missing. -/
def Node.bridgeEach (l : Locator) : List Node → Caching (Except MissingHeader (List Node))
  | [] => return .ok []
  | .header item :: nodes => do
    match ← Header.load l item.headerName with
    | none => return .error ⟨item.headerName, item.span⟩
    | some table =>
      return (← Node.bridgeEach l nodes).map (.header { item with symbols := some table } :: ·)
  | node :: nodes => do return (← Node.bridgeEach l nodes).map (node :: ·)

/-- Attaches the tables of the headers that a unit includes. -/
def SourceUnit.bridge (unit : SourceUnit) (l : Locator) :
    Caching (Except MissingHeader SourceUnit) := do
  return (← Node.bridgeEach l unit.nodes).map fun nodes => { unit with nodes }

end KilnLang
