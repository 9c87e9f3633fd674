import KilnLang.Header.CToken
import KilnLang.Header.Symbol
import KilnLang.Token.IntLiteral

/-!
# Declarations of a header

A best-effort view of prototypes, variables and type definitions: those whose types have a
counterpart become symbols, all others are passed over.

**Types.** A pointer to characters is a string, a pointer to `void` or to something unknown is
`any`, every other pointer is a reference. Type names known from earlier definitions come before
the standard ones.

**Bodies** of functions and aggregates are invisible, and the braces of `extern "C"` are
transparent.
-/

namespace KilnLang.Header

/-- The types of the names defined so far, latest first. -/
abbrev KnownTypes := List (String × Ty)

/-! ## Words -/

/-- Words that say how a symbol is stored or linked. -/
def storageWords : List String := [
  "extern", "static", "inline", "__inline", "__inline__", "__extension__", "register"]

/-- Words that qualify a type without changing it here. -/
def qualifierWords : List String := [
  "const", "volatile", "restrict", "__restrict", "__restrict__", "__const", "_Noreturn"]

/-- Words that make up the basic types. -/
def basicWords : List String := [
  "void", "char", "short", "int", "long", "signed", "unsigned", "float", "double", "_Bool"]

/-- Words that take a parenthesis with attributes after them. -/
def attributeWords : List String := [
  "__attribute__", "__attribute", "__asm__", "__asm", "asm", "__declspec"]

/-- Words that a tag follows. -/
def tagWords : List String := ["struct", "union", "enum"]

/-- Whether a token is one of the words. -/
def isOneOf (words : List String) : CToken → Bool
  | .word w => words.contains w
  | _ => false

/-! ## Base types -/

/-- The type of a declaration before its pointers: `void`, a known type, or one that can only be
pointed to. -/
inductive BaseType where
  | void
  | known (ty : Ty)
  | unknown
  deriving DecidableEq, Repr, Inhabited

/-- The type of basic words. -/
def ofBasicWords? (words : List String) : Option BaseType :=
  let has (w : String) : Bool := words.contains w
  let longs := words.count "long"
  let int (width : CWidth) : BaseType :=
    .known (.prim (if has "unsigned" then .uint (.platform width) else .int (.platform width)))
  if words.isEmpty then none
  else some <|
    if has "void" then .void
    else if has "_Bool" then .known (.prim .bool)
    else if has "float" then .known (.prim .float)
    else if has "double" then .known (.prim (if longs > 0 then .decimal else .double))
    else if has "char" then int .char
    else if has "short" then int .short
    else if longs ≥ 2 then int .longLong
    else if longs = 1 then int .long
    else int .int

/-- The types that standard headers define. -/
def standardTypes : List (String × Primitive) := [
  ("size_t", .size),
  ("bool", .bool),
  ("ssize_t", .int (.platform .long)),
  ("ptrdiff_t", .int (.platform .long)),
  ("intptr_t", .int (.platform .long)),
  ("off_t", .int (.platform .long)),
  ("uintptr_t", .uint (.platform .long)),
  ("int8_t", .int (.fixed 8)),
  ("int16_t", .int (.fixed 16)),
  ("int32_t", .int (.fixed 32)),
  ("int64_t", .int (.fixed 64)),
  ("uint8_t", .uint (.fixed 8)),
  ("uint16_t", .uint (.fixed 16)),
  ("uint32_t", .uint (.fixed 32)),
  ("uint64_t", .uint (.fixed 64))]

/-- The type that a name stands for. -/
def ofTypeName (known : KnownTypes) (name : String) : BaseType :=
  match known.lookup name with
  | some ty => .known ty
  | none =>
    match standardTypes.lookup name with
    | some p => .known (.prim p)
    | none => .unknown

/-- Reads the base type at the start of a declaration: basic words in any order, or one tag or
type name, with qualifiers between them. `words` and `named` are what has been read so far. -/
def baseType (known : KnownTypes) (words : List String) (named : Option BaseType) :
    List CToken → Option (BaseType × List CToken)
  | .word w :: ts =>
    if qualifierWords.contains w then baseType known words named ts
    else if basicWords.contains w then
      if named.isSome then none else baseType known (words ++ [w]) named ts
    else if !words.isEmpty || named.isSome then
      (named.or (ofBasicWords? words)).map (·, .word w :: ts)
    else if tagWords.contains w then
      match ts with
      | .word _ :: ts => baseType known words (some .unknown) ts
      | ts => baseType known words (some .unknown) ts
    else baseType known words (some (ofTypeName known w)) ts
  | ts => (named.or (ofBasicWords? words)).map (·, ts)

/-! ## Declarators -/

/-- A base type behind `stars` pointers. -/
def pointerTo? (base : BaseType) (stars : Nat) : Option Ty :=
  match base, stars with
  | .void, 0 => some (.prim .void)
  | .known ty, 0 => some ty
  | .unknown, 0 => none
  | base, n + 1 =>
    let first : Ty := match base with
      | .known (.prim (.int (.platform .char))) => .prim .str
      | .known (.prim (.uint (.platform .char))) => .prim .str
      | .known ty => .ref ty
      | .void => .any
      | .unknown => .any
    some (n.repeat .ref first)

/-- Counts the stars at the start, qualifiers between them aside, and gives the tokens after
them. -/
def stars (count : Nat) : List CToken → Nat × List CToken
  | [] => (count, [])
  | t :: ts =>
    if t = .punct '*' then stars (count + 1) ts
    else if isOneOf qualifierWords t then stars count ts
    else (count, t :: ts)

/-- The length in the brackets of an array, if it is a decimal number. -/
def arrayLength? : Option CToken → Option Nat
  | some (.number text) =>
    let isMark (c : Char) : Bool := ['u', 'U', 'l', 'L'].contains c
    let digits := (text.toList.reverse.dropWhile isMark).reverse
    (IntLiteral.numeralValue? 10 digits).filter (· < UInt64.size)
  | _ => none

/-- The lengths of the arrays at the start, and the tokens after them; an unclosed bracket makes
the declarator invalid. -/
def arrayLengths? (ts : List CToken) : Option (List (Option Nat) × List CToken) :=
  match ts with
  | .punct '[' :: rest =>
    let after := rest.dropWhile (· != .punct ']')
    if after.isEmpty then none
    else
      have := (List.dropWhile_suffix (· != CToken.punct ']') (l := rest)).length_le
      (arrayLengths? after.tail).map fun (lengths, ts) => (arrayLength? rest.head? :: lengths, ts)
  | ts => some ([], ts)
termination_by ts.length
decreasing_by grind

theorem arrayLengths?_length {ts rest : List CToken} {lengths : List (Option Nat)}
    (h : arrayLengths? ts = some (lengths, rest)) : rest.length ≤ ts.length := by
  fun_induction arrayLengths? ts generalizing lengths rest with
  | case1 => simp at h
  | case2 tail after _ _ =>
    rename_i ih
    obtain ⟨⟨l, r⟩, hr, he⟩ := Option.map_eq_some_iff.1 h
    have := ih hr
    grind
  | case3 ts _ => grind

/-- The type of a named declarator that follows `base`, its name, and the tokens after it. -/
def declarator? (base : BaseType) (ts : List CToken) : Option (Ty × String × List CToken) :=
  match stars 0 ts with
  | (count, .word name :: ts) =>
    match arrayLengths? ts with
    | none => none
    | some (lengths, rest) =>
      match pointerTo? base count with
      | none => none
      | some ty =>
        let ty := lengths.foldr (fun length elem => .array elem length) ty
        if ty.isVoid then none else some (ty, name, rest)
  | _ => none

/-- The type of a parameter, whose name may be missing. An array in a parameter is a pointer. -/
def parameter? (known : KnownTypes) (ts : List CToken) : Option Ty := do
  let (base, ts) ← baseType known [] none ts
  let (count, ts) := stars 0 ts
  let ts := match ts with
    | .word _ :: ts => ts
    | ts => ts
  let (lengths, rest) ← arrayLengths? ts
  let ty ← pointerTo? base (if lengths.isEmpty then count else count + 1)
  if ty.isVoid || !rest.isEmpty then none
  else
    match ty with
    | .array _ _ => some (.ref ty)
    | _ => some ty

/-- Cuts a list in parentheses, whose opening one has been read, at its own commas; `depth`
parentheses are open inside it. An unclosed list has no parts. -/
def listParts? (depth : Nat) : List CToken → Option (List (List CToken))
  | [] => none
  | t :: ts =>
    if t = .punct ')' ∧ depth = 0 then some [[]]
    else if t = .punct ',' ∧ depth = 0 then (listParts? depth ts).map ([] :: ·)
    else
      let depth := if t = .punct '(' then depth + 1 else if t = .punct ')' then depth - 1 else depth
      match listParts? depth ts with
      | some (part :: parts) => some ((t :: part) :: parts)
      | _ => none

/-- The types of parameters, the last of which may be an ellipsis. -/
def parameterTypes? (known : KnownTypes) : List (List CToken) → Option (List Ty × Rest Ty)
  | [] => some ([], .none)
  | [[.ellipsis]] => some ([], .untyped)
  | part :: parts => do
    let ty ← parameter? known part
    let (tys, rest) ← parameterTypes? known parts
    return (ty :: tys, rest)

/-- The parameters of a prototype after its opening parenthesis. -/
def parameters? (known : KnownTypes) (ts : List CToken) : Option (List Ty × Rest Ty) :=
  match listParts? 0 ts with
  | none => none
  | some [[]] => some ([], .none)
  | some [[.word "void"]] => some ([], .none)
  | some parts => parameterTypes? known parts

/-! ## Single declarations -/

/-- The tokens after a parenthesis, `depth + 1` levels of which are open. -/
def skipParens (depth : Nat) : List CToken → List CToken
  | [] => []
  | .punct '(' :: ts => skipParens (depth + 1) ts
  | .punct ')' :: ts => if depth = 0 then ts else skipParens (depth - 1) ts
  | _ :: ts => skipParens depth ts

theorem skipParens_length (depth : Nat) (ts : List CToken) :
    (skipParens depth ts).length ≤ ts.length := by
  fun_induction skipParens depth ts <;> grind

/-- The tokens without attributes and their parentheses. -/
def stripAttributes (ts : List CToken) : List CToken :=
  match ts with
  | [] => []
  | t :: ts =>
    if isOneOf attributeWords t ∧ ts.head? = some (.punct '(') then
      have := skipParens_length 0 ts.tail
      stripAttributes (skipParens 0 ts.tail)
    else t :: stripAttributes ts
termination_by ts.length
decreasing_by all_goals grind

theorem stars_length (count : Nat) (ts : List CToken) : (stars count ts).2.length ≤ ts.length := by
  fun_induction stars count ts <;> grind

theorem declarator?_length {base : BaseType} {ts rest : List CToken} {ty : Ty} {name : String}
    (h : declarator? base ts = some (ty, name, rest)) : rest.length < ts.length := by
  unfold declarator? at h
  have hs := stars_length 0 ts
  split at h
  · rename_i count n after he
    rw [he] at hs
    split at h
    · simp at h
    · rename_i hl
      have := arrayLengths?_length hl
      grind
  · simp at h

/-- The variables of a declaration: after each, a comma continues the list, past an initial value
if there is one. -/
def variableList (base : BaseType) (ts : List CToken) : List HeaderSymbol :=
  match h : declarator? base ts with
  | none => []
  | some (ty, name, rest) =>
    have := declarator?_length h
    have := (List.dropWhile_suffix (· != CToken.punct ',') (l := rest)).length_le
    let symbol : HeaderSymbol := .variable name ty
    if rest.head? = some (.punct ',') ∨ rest.head? = some (.punct '=') then
      let after := rest.dropWhile (· != .punct ',')
      if after.isEmpty then [symbol] else symbol :: variableList base after.tail
    else [symbol]
termination_by ts.length
decreasing_by grind

/-- The symbols that one declaration introduces, and the types known after it. -/
def declaration (known : KnownTypes) (ts : List CToken) : List HeaderSymbol × KnownTypes :=
  let ts := (stripAttributes ts).filter (!isOneOf storageWords ·)
  match ts with
  | .word "typedef" :: ts =>
    match baseType known [] none ts with
    | none => ([], known)
    | some (base, ts) =>
      match declarator? base ts with
      | some (ty, name, []) => ([.typedef name ty], (name, ty) :: known)
      | _ => ([], known)
  | ts =>
    match baseType known [] none ts with
    | none => ([], known)
    | some (base, ts) =>
      match stars 0 ts with
      | (count, .word name :: .punct '(' :: params) =>
        match pointerTo? base count, parameters? known params with
        | some ret, some (params, rest) => ([.function name ⟨ret, params, rest⟩], known)
        | _, _ => ([], known)
      | _ => (variableList base ts, known)

/-! ## All declarations -/

/-- The state of the scan: the tokens of the declaration so far, the open braces with `true` for
transparent ones, whether the declaration has an aggregate body, and what has been found. -/
structure DeclScan where
  current : List CToken
  braces : List Bool
  aggregate : Bool
  known : KnownTypes
  symbols : List HeaderSymbol
  deriving Repr, Inhabited

namespace DeclScan

/-- Whether the scan is inside a body. -/
def inBody (s : DeclScan) : Bool := s.braces.contains false

/-- Ends the current declaration and records what it introduces. -/
def finish (s : DeclScan) : DeclScan :=
  let (symbols, known) := declaration s.known s.current
  { s with current := [], known, symbols := s.symbols ++ symbols }

/-- Reads an opening brace. -/
def openBrace (s : DeclScan) : DeclScan :=
  let isAggregate := !s.inBody && s.current.getLast? != some (.punct ')')
  { s with braces := false :: s.braces, aggregate := s.aggregate || isAggregate }

/-- Reads a closing brace, which ends the declaration if it closes the body of a function. -/
def closeBrace (s : DeclScan) : DeclScan :=
  match s.braces with
  | [] => s
  | transparent :: braces =>
    let closed := { s with braces }
    if !transparent && !closed.inBody && !s.aggregate then closed.finish else closed

/-- Reads a semicolon, which ends a declaration outside of bodies. -/
def semicolon (s : DeclScan) : DeclScan :=
  if s.inBody then s
  else if s.aggregate then { s with aggregate := false, current := [] }
  else s.finish

/-- Reads one token. -/
def step (s : DeclScan) (t : CToken) : DeclScan :=
  if t = .punct '{' then s.openBrace
  else if t = .punct '}' then s.closeBrace
  else if t = .punct ';' then s.semicolon
  else if s.inBody then s
  else { s with current := s.current ++ [t] }

/-- Reads all tokens; `extern "C" {` where a declaration may start opens a transparent brace. -/
def run (s : DeclScan) : List CToken → DeclScan
  | [] => s
  | .word w :: .str :: .punct '{' :: ts =>
    if w = "extern" ∧ !s.inBody ∧ s.current.isEmpty then
      run { s with braces := true :: s.braces } ts
    else run (((s.step (.word w)).step .str).step (.punct '{')) ts
  | t :: ts => run (s.step t) ts

end DeclScan

/-- The symbols that a text declares, and the types known after it. -/
def declarations (known : KnownTypes) (text : List Char) : List HeaderSymbol × KnownTypes :=
  let s := DeclScan.run ⟨[], [], false, known, []⟩ (CToken.tokenize text)
  (s.symbols, s.known)

end KilnLang.Header
