import KilnLang.Header.Symbol
import KilnLang.Span

/-!
# Syntax trees

A source unit is a list of includes, aliases, functions and global variables.

**Expressions** are flat: operands joined by binary operators, in source order, because the
output leaves precedence to C. A `Chain` is such a non-empty sequence.

**Slots.** Names, calls and declarations carry slots that parsing leaves empty. Resolution fills
`resolved`, `target`, `decl` and `sig`, the header bridge fills `symbols`, and checking appends
default arguments to calls and counts them in `defaulted`. A declaration is referred to by its
number in the declaration table.
-/

namespace KilnLang

/-- The number of a declaration in the declaration table. -/
abbrev DeclId := Nat

/-! ## Names -/

/-- A name where it is written. -/
structure Ident where
  text : String
  span : Span
  deriving DecidableEq, Repr, Inhabited

/-- What a name stands for. `varArgs` is the array of further arguments in a function that takes
them with a type, and `varArgsLength` is their number. -/
inductive Binding where
  | local (decl : DeclId)
  | parameter (decl : DeclId)
  | global (decl : DeclId)
  | function (decl : DeclId)
  | type
  | macroConstant
  | macroFunction (arity : Nat) (variadic : Bool)
  | cFunction
  | cVariable
  | varArgs
  | varArgsLength
  deriving DecidableEq, Repr, Inhabited

/-- What a name stands for, and its type. -/
structure Resolution where
  binding : Binding
  ty : Ty
  deriving DecidableEq, Repr, Inhabited

/-- Names joined by points. -/
structure DottedName where
  span : Span
  parts : List Ident
  resolved : Option Resolution
  deriving DecidableEq, Repr, Inhabited

namespace DottedName

/-- The text of the name. -/
def text (n : DottedName) : String := ".".intercalate (n.parts.map (·.text))

/-- The name's type, `any` while it is unknown. -/
def ty (n : DottedName) : Ty := (n.resolved.map (·.ty)).getD .any

/-- What the name stands for, once it is known. -/
def binding? (n : DottedName) : Option Binding := n.resolved.map (·.binding)

end DottedName

/-! ## Type expressions -/

/-- A type as it is written. -/
inductive TypeExpr where
  | named (name : DottedName)
  | ref (span : Span) (inner : TypeExpr)
  | array (span : Span) (elem : TypeExpr) (length : Option Nat)
  | func (span : Span) (sig : Signature TypeExpr)
  deriving Repr, Inhabited

/-- The text range of a type. -/
def TypeExpr.span : TypeExpr → Span
  | .named name => name.span
  | .ref span _ => span
  | .array span _ _ => span
  | .func span _ => span

/-! ## Operators -/

/-- The operators that assign a combination of the old value and a new one. -/
inductive AssignOp where
  | add
  | sub
  | mul
  | div
  | rem
  deriving DecidableEq, Repr, Inhabited

/-- The spelling of an assignment operator. -/
def AssignOp.symbol : AssignOp → String
  | .add => "+="
  | .sub => "-="
  | .mul => "*="
  | .div => "/="
  | .rem => "%="

/-- The operators between operands. -/
inductive BinaryOp where
  | add
  | sub
  | mul
  | div
  | rem
  | eq
  | ne
  | lt
  | le
  | gt
  | ge
  | and
  | or
  | bitAnd
  | bitOr
  | bitXor
  | shl
  | shr
  deriving DecidableEq, Repr, Inhabited

/-- The spelling of a binary operator. -/
def BinaryOp.symbol : BinaryOp → String
  | .add => "+"
  | .sub => "-"
  | .mul => "*"
  | .div => "/"
  | .rem => "%"
  | .eq => "=="
  | .ne => "!="
  | .lt => "<"
  | .le => "<="
  | .gt => ">"
  | .ge => ">="
  | .and => "&&"
  | .or => "||"
  | .bitAnd => "&"
  | .bitOr => "|"
  | .bitXor => "^"
  | .shl => "<<"
  | .shr => ">>"

/-- Comparisons and logical operators produce truth values. -/
def BinaryOp.isBoolean : BinaryOp → Bool
  | .eq | .ne | .lt | .le | .gt | .ge | .and | .or => true
  | _ => false

/-- The operators on one operand. -/
inductive UnaryOp where
  | not
  | neg
  | bitNot
  | inc
  | dec
  deriving DecidableEq, Repr, Inhabited

/-- The spelling of a unary operator. -/
def UnaryOp.symbol : UnaryOp → String
  | .not => "!"
  | .neg => "-"
  | .bitNot => "~"
  | .inc => "++"
  | .dec => "--"

/-- A binary operator where it is written. -/
structure Operator where
  span : Span
  op : BinaryOp
  deriving DecidableEq, Repr, Inhabited

/-! ## Expressions -/

/-- The text of a literal, without the quotes of strings and characters. -/
structure Literal where
  span : Span
  text : String
  deriving DecidableEq, Repr, Inhabited

/-- What a call calls. -/
inductive CallTarget where
  | function (decl : DeclId) (sig : Signature Ty)
  | functionValue (sig : Signature Ty)
  | cFunction (sig : Signature Ty)
  | macroCall (arity : Nat) (variadic : Bool) (result : Ty)
  | cast (ty : Ty)
  deriving DecidableEq, Repr, Inhabited

/-- The signature that the arguments of a call have to fit. -/
def CallTarget.signature? : CallTarget → Option (Signature Ty)
  | .function _ sig => some sig
  | .functionValue sig => some sig
  | .cFunction sig => some sig
  | .macroCall _ _ _ => none
  | .cast _ => none

mutual

/-- Operands joined by operators. -/
inductive Expr where
  | mk (span : Span) (chain : Chain)

/-- An operand, or an operand, an operator and what follows it. -/
inductive Chain where
  | operand (value : Value)
  | link (value : Value) (op : Operator) (rest : Chain)

/-- An operand. The last `defaulted` arguments of a call were not written but come from the
defaults of the function that is called. -/
inductive Value where
  | number (lit : Literal)
  | decimal (lit : Literal)
  | string (lit : Literal)
  | char (lit : Literal)
  | bool (span : Span) (value : Bool)
  | null (span : Span)
  | ident (name : DottedName)
  | call (span : Span) (callee : DottedName) (args : List Expr) (target : Option CallTarget)
      (defaulted : Nat)
  | index (span : Span) (base : Value) (position : Expr)
  | ref (span : Span) (inner : Value)
  | prefixed (span : Span) (op : UnaryOp) (value : Value)
  | suffixed (span : Span) (op : UnaryOp) (value : Value)
  | paren (inner : Expr)

end

/-- The text range of an expression. -/
def Expr.span : Expr → Span
  | .mk span _ => span

/-- The only operand of an expression without operators. -/
def Expr.single? : Expr → Option Value
  | .mk _ (.operand value) => some value
  | .mk _ (.link _ _ _) => none

/-- The operators of a chain, in order. -/
def Chain.operators : Chain → List Operator
  | .operand _ => []
  | .link _ op rest => op :: rest.operators

namespace Value

/-- The text range of an operand; parentheses count for the expression inside them. -/
def span : Value → Span
  | .number lit | .decimal lit | .string lit | .char lit => lit.span
  | .bool span _ => span
  | .null span => span
  | .ident name => name.span
  | .call span _ _ _ _ => span
  | .index span _ _ => span
  | .ref span _ => span
  | .prefixed span _ _ => span
  | .suffixed span _ _ => span
  | .paren inner => inner.span

/-- Whether the operand is a literal. -/
def isLiteral : Value → Bool
  | .number _ | .decimal _ | .string _ | .char _ | .bool _ _ | .null _ => true
  | _ => false

/-- The words that messages use for an operand. -/
def describe : Value → String
  | .number lit => s!"literal `{lit.text}`"
  | .decimal lit => s!"literal `{lit.text}`"
  | .string _ => "a string literal"
  | .char _ => "a character literal"
  | .bool _ value => s!"literal `{value}`"
  | .null _ => "`null`"
  | .ident name => s!"`{name.text}`"
  | .call _ callee _ _ _ => s!"the result of `{callee.text}`"
  | .index _ _ _ => "an array element"
  | .ref _ inner => inner.describe
  | .prefixed _ _ _ => "an operator expression"
  | .suffixed _ _ _ => "an operator expression"
  | .paren _ => "a parenthesised expression"

end Value

/-! ## Statements -/

/-- A variable of a function or of the unit. -/
structure VarDecl where
  span : Span
  ty : TypeExpr
  name : Ident
  init : Option Expr
  decl : Option DeclId

/-- What decides whether a branch is taken: the first condition, a later one, or nothing. -/
inductive Guard where
  | first (cond : Expr)
  | next (cond : Expr)
  | otherwise

/-- The condition of a guard. -/
def Guard.cond? : Guard → Option Expr
  | .first cond => some cond
  | .next cond => some cond
  | .otherwise => none

/-- The keyword of a guard. -/
def Guard.keyword : Guard → String
  | .first _ => "if"
  | .next _ => "elif"
  | .otherwise => "else"

mutual

/-- A statement. -/
inductive Stmt where
  | expr (value : Expr)
  | decl (var : VarDecl)
  | assign (span : Span) (target : Value) (op : Option AssignOp) (value : Expr)
  | ret (span : Span) (value : Option Expr)
  | cond (branches : List Branch)
  | loop (span : Span) (cond : Expr) (body : List Stmt)
  | block (span : Span) (body : List Stmt)

/-- A guard and the statements that it guards. -/
inductive Branch where
  | mk (span : Span) (guard : Guard) (body : List Stmt)

end

/-! ## Units -/

/-- `include a/b`, which stands for the header `a/b.h`. -/
structure Include where
  span : Span
  path : List Ident
  symbols : Option HeaderTable

/-- The path as it is written. -/
def Include.pathText (i : Include) : String := "/".intercalate (i.path.map (·.text))

/-- The name of the header. -/
def Include.headerName (i : Include) : String := i.pathText ++ ".h"

/-- `alias target name`. -/
structure Alias where
  span : Span
  target : TypeExpr
  name : Ident

/-- A parameter with its default. -/
structure Param where
  ty : TypeExpr
  name : Ident
  default : Option Expr

/-- A function; one without a body is a prototype. -/
structure Function where
  span : Span
  ret : TypeExpr
  name : Ident
  params : List Param
  rest : Rest TypeExpr
  body : Option (List Stmt)
  decl : Option DeclId
  sig : Option (Signature Ty)

/-- A part of a unit. -/
inductive Node where
  | header (item : Include)
  | alias (item : Alias)
  | function (item : Function)
  | global (item : VarDecl)

/-- A source unit. -/
structure SourceUnit where
  file : Nat
  nodes : List Node

end KilnLang
