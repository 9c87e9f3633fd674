import KilnLang.Semantic.Context

/-!
# Scopes

Where a name is looked up. **Scopes** are searched from the innermost to that of the unit. In the
initial value of a global, globals declared later are not visible. A name that no scope declares
may be the array of further arguments, an alias, or a symbol of a header, in this order.
-/

namespace KilnLang

/-- The names that a scope declares, latest first. -/
abbrev Scope := List (String × DeclId)

/-- What is visible at a place: the scopes from the innermost to the unit's, the type of further
arguments, and the order of the global whose initial value is being resolved. -/
structure Env where
  context : SemanticContext
  scopes : List Scope
  vargs : Option Ty
  limit : Option Nat

namespace Env

/-- Adds a declaration to the table and to the innermost scope. -/
def push (env : Env) (info : DeclInfo) : Env :=
  { env with
    context := { env.context with decls := env.context.decls ++ [info] }
    scopes := match env.scopes with
      | [] => []
      | scope :: outer => ((info.name, env.context.decls.length) :: scope) :: outer }

/-- Changes a declaration. -/
def update (env : Env) (id : DeclId) (f : DeclInfo → DeclInfo) : Env :=
  { env with context := { env.context with decls := env.context.decls.modify id f } }

/-- Records the default of a parameter in the declaration of its function. -/
def setDefault (env : Env) (decl : Option DeclId) (index : Nat) (default : Option Expr) : Env :=
  match default, decl with
  | some e, some id =>
    env.update id fun info => { info with defaults := info.defaults.set index (some e) }
  | _, _ => env

/-- Opens a scope. -/
def enter (env : Env) : Env := { env with scopes := [] :: env.scopes }

/-- Closes the innermost scope. -/
def leave (env : Env) : Env := { env with scopes := env.scopes.tail }

/-- Whether a name cannot be declared here: the innermost scope has it or, in the unit's scope, it
is an alias. -/
def isTaken (env : Env) (name : String) : Bool :=
  ((env.scopes.head?).map fun scope => (scope.lookup name).isSome).getD false ||
    (env.scopes.length == 1 && env.context.aliases.contains name)

/-- Whether a declaration of the unit's scope is a global that comes too late to be visible. -/
def isHidden (env : Env) (info : DeclInfo) : Bool :=
  info.kind == .global && env.limit.any (· ≤ info.order)

/-- The innermost visible declaration of a name. -/
def inScopes? (env : Env) (name : String) : List Scope → Option Resolution
  | [] => none
  | scope :: outer =>
    match scope.lookup name with
    | none => env.inScopes? name outer
    | some id =>
      match env.context.decls[id]? with
      | none => env.inScopes? name outer
      | some info =>
        if outer.isEmpty && env.isHidden info then env.inScopes? name outer
        else some ⟨info.binding id, info.ty⟩

/-- The array of further arguments, if the name is its name and there is one. -/
def asVarArgs? (env : Env) (name : String) : Option Resolution :=
  if name = "vargs" then env.vargs.map fun elem => ⟨.varArgs, .array elem none⟩ else none

/-- The constant or the type that a name is an alias of, with the error that an alias leads
nowhere. A constant that leads to no type is of type `any`. -/
def asAlias? (env : Env) (name : String) (span : Span) : Option (Resolution × List AliasError) :=
  (env.context.aliases.kind? name).map fun kind =>
    match kind, env.context.aliases.resolve name span with
    | .value, .ok ty => (⟨.macroConstant, ty⟩, [])
    | .value, .error _ => (⟨.macroConstant, .any⟩, [])
    | .type, .ok ty => (⟨.type, ty⟩, [])
    | .type, .error e => (⟨.type, .any⟩, [e])

/-- The symbol of a header with a name. -/
def asBridge? (env : Env) (name : String) : Option Resolution :=
  (env.context.bridge.lookup name).map (·.resolution)

/-- What a single name stands for, with the error of an alias that leads nowhere. -/
def lookupName (env : Env) (name : String) (span : Span) :
    Option Resolution × List AliasError :=
  match (env.inScopes? name env.scopes).or (env.asVarArgs? name) with
  | some found => (some found, [])
  | none =>
    match env.asAlias? name span with
    | some (found, errors) => (some found, errors)
    | none => (env.asBridge? name, [])

/-- What a dotted name stands for. The only dotted name with a meaning is the number of further
arguments. -/
def lookup (env : Env) (name : DottedName) : Option Resolution × List AliasError :=
  match name.parts.map (·.text) with
  | [single] => env.lookupName single name.span
  | ["vargs", "length"] => (env.vargs.map fun _ => ⟨.varArgsLength, .int⟩, [])
  | _ => (none, [])

end Env

end KilnLang
