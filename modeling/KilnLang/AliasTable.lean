import KilnLang.Builtin
import KilnLang.Syntax

/-!
# Alias tables

Names for types and for constants, layered over the built-in types. An entry leads to another
name, to a type expression, or to a type that is already known, and targets may be defined later
than the entries that mention them.

**No cycles.** `update` adds an entry, searches for a way from the new name back to itself, and takes
the entry out again if there is one. A way without repetition is no longer than the table, which
bounds the search.

**Resolving** follows names until it reaches types. **Annotating** a type expression resolves each
of its names, from left to right, and records what they stand for; the first name that fails ends
it, and the names before keep their annotations.
-/

namespace KilnLang

/-! ## Errors -/

/-- Why a name is no type, or cannot become one. -/
inductive AliasError where
  | cycle (chain : List String) (span : Span)
  | unknown (name : String) (span : Span)
  | duplicate (name : String) (span : Span)
  | notAType (name : String) (span : Span)
  deriving DecidableEq, Repr, Inhabited

namespace AliasError

/-- The place of an error. -/
def span : AliasError → Span
  | .cycle _ span => span
  | .unknown _ span => span
  | .duplicate _ span => span
  | .notAType _ span => span

/-- The message for an error. -/
def message : AliasError → String
  | .cycle chain _ => "alias cycle: " ++ " -> ".intercalate chain
  | .unknown name _ => s!"unknown type `{name}`"
  | .duplicate name _ => s!"`{name}` is already defined as a type"
  | .notAType name _ => s!"`{name}` is a value, not a type"

/-- The code of an error. -/
def code : AliasError → String
  | .cycle _ _ => "E0401"
  | .unknown _ _ => "E0402"
  | .duplicate _ _ => "E0403"
  | .notAType _ _ => "E0404"

end AliasError

/-! ## Names in type expressions -/

namespace TypeExpr

mutual

/-- The names that a type expression mentions, from left to right. -/
def names : TypeExpr → List String
  | .named name => [name.text]
  | .ref _ inner => inner.names
  | .array _ elem _ => elem.names
  | .func _ sig => namesSignature sig

/-- The names that a signature mentions. -/
def namesSignature : Signature TypeExpr → List String
  | ⟨ret, params, rest⟩ => ret.names ++ namesEach params ++ namesRest rest

/-- The names that a list of type expressions mentions. -/
def namesEach : List TypeExpr → List String
  | [] => []
  | t :: ts => t.names ++ namesEach ts

/-- The names in the type of further arguments. -/
def namesRest : Rest TypeExpr → List String
  | .none => []
  | .untyped => []
  | .typed elem => elem.names

end

mutual

/-- Looks up each name of a type expression, from left to right up to the first failure, and
records the types found. -/
def annotateWith (look : DottedName → Except AliasError Ty) :
    TypeExpr → TypeExpr × Except AliasError Ty
  | .named name =>
    match look name with
    | .ok ty => (.named { name with resolved := some ⟨.type, ty⟩ }, .ok ty)
    | .error e => (.named name, .error e)
  | .ref span inner =>
    let (inner, ty) := annotateWith look inner
    (.ref span inner, ty.map .ref)
  | .array span elem length =>
    let (elem, ty) := annotateWith look elem
    (.array span elem length, ty.map (.array · length))
  | .func span sig =>
    let (sig, ty) := annotateSignature look sig
    (.func span sig, ty.map .func)

/-- Annotates the return type, the parameters and the type of further arguments. -/
def annotateSignature (look : DottedName → Except AliasError Ty) :
    Signature TypeExpr → Signature TypeExpr × Except AliasError (Signature Ty)
  | ⟨ret, params, rest⟩ =>
    match annotateWith look ret with
    | (ret, .error e) => (⟨ret, params, rest⟩, .error e)
    | (ret, .ok retTy) =>
      match annotateEach look params with
      | (params, .error e) => (⟨ret, params, rest⟩, .error e)
      | (params, .ok paramTys) =>
        match annotateRest look rest with
        | (rest, .error e) => (⟨ret, params, rest⟩, .error e)
        | (rest, .ok restTy) => (⟨ret, params, rest⟩, .ok ⟨retTy, paramTys, restTy⟩)

/-- Annotates the type expressions of a list. -/
def annotateEach (look : DottedName → Except AliasError Ty) :
    List TypeExpr → List TypeExpr × Except AliasError (List Ty)
  | [] => ([], .ok [])
  | t :: ts =>
    match annotateWith look t with
    | (t, .error e) => (t :: ts, .error e)
    | (t, .ok ty) =>
      let (ts, tys) := annotateEach look ts
      (t :: ts, tys.map (ty :: ·))

/-- Annotates the type of further arguments. -/
def annotateRest (look : DottedName → Except AliasError Ty) :
    Rest TypeExpr → Rest TypeExpr × Except AliasError (Rest Ty)
  | .none => (.none, .ok .none)
  | .untyped => (.untyped, .ok .untyped)
  | .typed elem =>
    let (elem, ty) := annotateWith look elem
    (.typed elem, ty.map .typed)

end

end TypeExpr

/-! ## Tables -/

/-- Whether an alias may stand for a type, or only for a constant value. -/
inductive AliasKind where
  | type
  | value
  deriving DecidableEq, Repr, Inhabited

/-- What an alias stands for: another name, a type built from names, or a known type. -/
inductive AliasTarget where
  | name (text : String) (span : Span)
  | composite (expr : TypeExpr)
  | terminal (ty : Ty)
  deriving Repr, Inhabited

/-- The names that a target mentions. -/
def AliasTarget.names : AliasTarget → List String
  | .name text _ => [text]
  | .composite expr => expr.names
  | .terminal _ => []

/-- An alias and the place of its definition. -/
structure AliasEntry where
  target : AliasTarget
  kind : AliasKind
  span : Span
  deriving Repr, Inhabited

/-- The aliases of a unit by name, latest first. -/
structure AliasTable where
  entries : List (String × AliasEntry)
  deriving Repr, Inhabited

namespace AliasTable

/-- No aliases. -/
def empty : AliasTable := ⟨[]⟩

/-- The number of aliases. -/
def size (t : AliasTable) : Nat := t.entries.length

/-- The alias with a name. -/
def lookup? (t : AliasTable) (name : String) : Option AliasEntry := t.entries.lookup name

/-- The kind of a built-in or defined name. -/
def kind? (t : AliasTable) (name : String) : Option AliasKind :=
  if Builtin.isBuiltin name then some .type else (t.lookup? name).map (·.kind)

/-- Whether a name is built in or defined. -/
def contains (t : AliasTable) (name : String) : Bool := (t.kind? name).isSome

/-- The place of a definition; built-in names have none. -/
def definedAt? (t : AliasTable) (name : String) : Option Span := (t.lookup? name).map (·.span)

/-- The names that the target of `name` mentions. -/
def mentions (t : AliasTable) (name : String) : List String :=
  ((t.lookup? name).map (·.target.names)).getD []

/-- A way from the end of `chain` to `start` that repeats no name of `chain`, depth first and of
at most `depth` steps: `chain` extended by it. -/
def wayBack? (t : AliasTable) (start : String) :
    (depth : Nat) → (chain : List String) → (current : String) → Option (List String)
  | 0, _, _ => none
  | depth + 1, chain, current =>
    (t.mentions current).findSome? fun next =>
      if next == start then some (chain ++ [next])
      else if chain.contains next then none
      else wayBack? t start depth (chain ++ [next]) next

/-- The table with one more alias. -/
def extend (t : AliasTable) (name : String) (target : AliasTarget) (kind : AliasKind)
    (span : Span) : AliasTable := ⟨(name, ⟨target, kind, span⟩) :: t.entries⟩

/-- The table without the alias of a name. -/
def erase (t : AliasTable) (name : String) : AliasTable := ⟨t.entries.filter (·.1 != name)⟩

/-- Adds an alias under a new name, and takes it out again if it leads back to itself: the error, if
there is one, and the table after it. -/
def update (t : AliasTable) (name : String) (target : AliasTarget) (kind : AliasKind)
    (span : Span) : Option AliasError × AliasTable :=
  if t.contains name then (some (.duplicate name span), t)
  else
    let extended := t.extend name target kind span
    match extended.wayBack? name extended.size [name] name with
    | some chain => (some (.cycle chain span), extended.erase name)
    | none => (none, extended)

/-- The table with an alias under a new name, unless it would lead back to itself. -/
def define (t : AliasTable) (name : String) (target : AliasTarget) (kind : AliasKind)
    (span : Span) : Except AliasError AliasTable :=
  match t.update name target kind span with
  | (some e, _) => .error e
  | (none, t) => .ok t

/-! ## Resolving -/

/-- Follows `name` to a type in at most `depth` steps; `visiting` are the names on the way here.
Aliases of values are followed like those of types, but may not stand inside a type expression. -/
def follow (t : AliasTable) :
    (depth : Nat) → (visiting : List String) → String → Span → Except AliasError Ty
  | 0, visiting, name, span => .error (.cycle (visiting ++ [name]) span)
  | depth + 1, visiting, name, span =>
    match Builtin.find? name with
    | some p => .ok (.prim p)
    | none =>
      match t.lookup? name with
      | none => .error (.unknown name span)
      | some entry =>
        if visiting.contains name then .error (.cycle (visiting ++ [name]) span)
        else
          match entry.target with
          | .terminal ty => .ok ty
          | .name next span => follow t depth (visiting ++ [name]) next span
          | .composite expr =>
            (expr.annotateWith fun n =>
              if t.kind? n.text = some .value then .error (.notAType n.text n.span)
              else follow t depth (visiting ++ [name]) n.text n.span).2

/-- The type that a name leads to, whether it is an alias of a type or of a value. -/
def resolve (t : AliasTable) (name : String) (span : Span) : Except AliasError Ty :=
  t.follow (t.size + 1) [] name span

/-- The type that a name stands for where a type is due. -/
def resolveType (t : AliasTable) (name : String) (span : Span) : Except AliasError Ty :=
  if t.kind? name = some .value then .error (.notAType name span) else t.resolve name span

/-- Resolves a type expression and records the type of each of its names. -/
def annotate (t : AliasTable) (expr : TypeExpr) : TypeExpr × Except AliasError Ty :=
  expr.annotateWith fun n => t.resolveType n.text n.span

end AliasTable

end KilnLang
