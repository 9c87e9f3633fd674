import KilnLang.AliasTable

/-!
# Declarations

What resolution learns about a unit and later passes need: the **declaration table**, whose
numbers the tree refers to, the aliases, and the **bridge** to functions, variables and macros of
the included headers. Constants and type names of headers are aliases.
-/

namespace KilnLang

/-- The kinds of declarations. -/
inductive DeclKind where
  | global
  | local
  | parameter
  | function
  deriving DecidableEq, Repr, Inhabited

/-- A declaration. A function has one slot for the default of each parameter, and `defined` says
that its body has been seen; `order` counts the globals. -/
structure DeclInfo where
  name : String
  span : Span
  kind : DeclKind
  ty : Ty
  defaults : List (Option Expr)
  order : Nat
  defined : Bool

/-- What a name stands for when it is bound to a declaration. -/
def DeclInfo.binding (info : DeclInfo) (id : DeclId) : Binding :=
  match info.kind with
  | .global => .global id
  | .local => .local id
  | .parameter => .parameter id
  | .function => .function id

/-- The declarations of a unit; a declaration's number is its place. -/
abbrev DeclTable := List DeclInfo

namespace DeclTable

/-- The signature of a declaration of function type. -/
def signature? (t : DeclTable) (id : DeclId) : Option (Signature Ty) :=
  match t[id]? with
  | some { ty := .func sig, .. } => some sig
  | _ => none

/-- The type of a declaration, `any` if there is none. -/
def typeOf (t : DeclTable) (id : Option DeclId) : Ty :=
  ((id.bind (t[·]?)).map (·.ty)).getD .any

/-- The default slots of a declaration. -/
def defaultsOf (t : DeclTable) (id : DeclId) : List (Option Expr) :=
  ((t[id]?).map (·.defaults)).getD []

end DeclTable

/-- A function, a variable or a macro of an included header. -/
inductive BridgeSymbol where
  | macroFn (arity : Nat) (variadic : Bool) (result : Ty)
  | function (sig : Signature Ty)
  | variable (ty : Ty)
  deriving DecidableEq, Repr, Inhabited

/-- What a name stands for when it is bound to a symbol of a header. -/
def BridgeSymbol.resolution : BridgeSymbol → Resolution
  | .macroFn arity variadic result => ⟨.macroFunction arity variadic, result⟩
  | .function sig => ⟨.cFunction, .func sig⟩
  | .variable ty => ⟨.cVariable, ty⟩

/-- What resolution has learned about a unit. -/
structure SemanticContext where
  decls : DeclTable
  aliases : AliasTable
  bridge : List (String × BridgeSymbol)

end KilnLang
