import KilnLang.Builtin
import KilnLang.Target.CUnit
import KilnLang.Target.DataModel
import KilnLang.Target.Literal
import KilnLang.Semantic.Context
import KilnLang.Semantic.Typing

/-!
# Lowering to C

Turns a checked unit into a C unit.

**Types.** Integer types become the fixed-width types of the data model. Declarations keep the names
of aliases, which become type definitions, so there is one lowering for types and one for type
expressions.

**References** become pointers. Reading a reference reads through the pointer, and storing into a
reference stores the pointer: the address of what has storage, and a reference as it is. So every
operand has two forms, its value and its pointer.

**Further arguments** of one type are passed as their number and an array.
-/

namespace KilnLang

namespace Lowering

/-- The name of the parameter for the number of further arguments. -/
def countName : String := "vargs_len"

/-- The name of the parameter for the array of further arguments. -/
def arrayName : String := "vargs"

/-! ## Types -/

/-- The C name of a primitive type. -/
def primitive (m : DataModel) : Primitive → String
  | .int width => "int" ++ toString (m.widthBits width) ++ "_t"
  | .uint width => "uint" ++ toString (m.widthBits width) ++ "_t"
  | .float => "float"
  | .double => "double"
  | .decimal => "long double"
  | .str => "char*"
  | .char => "char"
  | .bool => "bool"
  | .void => "void"
  | .size => "size_t"
  | .any => "void*"

/-- The type of the number of further arguments. -/
def countType (m : DataModel) : CType := .named (primitive m (.int (.platform .int)))

/-- The parameters that stand for further arguments: their number and their array. -/
def restParams (m : DataModel) : Rest CType → List CType
  | .typed elem => [countType m, .pointer elem]
  | .untyped => []
  | .none => []

/-- Whether C's own further arguments are used. -/
def isVariadic {τ : Type} : Rest τ → Bool
  | .untyped => true
  | .typed _ => false
  | .none => false

/-- A pointer to a function of C. -/
def functionPointer (m : DataModel) (ret : CType) (params : List CType) (rest : Rest CType) :
    CType :=
  .pointer (.function ret (params ++ restParams m rest) (isVariadic rest))

/-- An array with a length, or a pointer to elements of unknown number. -/
def array (elem : CType) : Option Nat → CType
  | some n => .array elem (some n)
  | none => .pointer elem

mutual

/-- The C type of a type. -/
def ty (m : DataModel) : Ty → CType
  | .prim p => .named (primitive m p)
  | .ref inner => .pointer (ty m inner)
  | .array elem length => array (ty m elem) length
  | .func sig => signature m sig

/-- The C type of a function with a signature. -/
def signature (m : DataModel) : Signature Ty → CType
  | ⟨ret, params, rest⟩ => functionPointer m (ty m ret) (tys m params) (restTy m rest)

/-- The C types of parameters. -/
def tys (m : DataModel) : List Ty → List CType
  | [] => []
  | t :: ts => ty m t :: tys m ts

/-- The C type of further arguments. -/
def restTy (m : DataModel) : Rest Ty → Rest CType
  | .none => .none
  | .untyped => .untyped
  | .typed elem => .typed (ty m elem)

end

/-- The C type of a type's name: built-in types are lowered, aliases keep their names. -/
def named (m : DataModel) (name : DottedName) (type : Ty) : CType :=
  if Builtin.isBuiltin name.text then ty m type else .named name.text

mutual

/-- The C type of a type expression. -/
def typeExpr (m : DataModel) : TypeExpr → CType
  | .named name => named m name name.ty
  | .ref _ inner => .pointer (typeExpr m inner)
  | .array _ elem length => array (typeExpr m elem) length
  | .func _ sig => signatureExpr m sig

/-- The C type of a function with a signature of type expressions. -/
def signatureExpr (m : DataModel) : Signature TypeExpr → CType
  | ⟨ret, params, rest⟩ =>
    functionPointer m (typeExpr m ret) (typeExprs m params) (restExpr m rest)

/-- The C types of type expressions. -/
def typeExprs (m : DataModel) : List TypeExpr → List CType
  | [] => []
  | t :: ts => typeExpr m t :: typeExprs m ts

/-- The C type of further arguments. -/
def restExpr (m : DataModel) : Rest TypeExpr → Rest CType
  | .none => .none
  | .untyped => .untyped
  | .typed elem => .typed (typeExpr m elem)

end

/-! ## Expressions -/

/-- A name in C. -/
def ident (name : DottedName) : CExpr :=
  match name.binding? with
  | some .varArgsLength => .name countName
  | _ => .name name.text

/-- Reads through a pointer if the type is a reference. -/
def readAs (type : Ty) (e : CExpr) : CExpr := if type.isRef then .deref e else e

/-- Further arguments as they are passed. -/
def restArgs (m : DataModel) (rest : Rest Ty) (args : List CExpr) : List CExpr :=
  match rest with
  | .typed elem =>
    if args.isEmpty then [.literal "0", .null]
    else [.literal (toString args.length), .array (.array (ty m elem) none) args]
  | .untyped => args
  | .none => args

/-- A call with arguments in C, the first ones of which are those of parameters. -/
def applied (m : DataModel) (callee : DottedName) (args : List CExpr) : Option CallTarget → CExpr
  | some (.cast type) => .cast (named m callee type) (args.headD (.literal ""))
  | some (.function _ sig) | some (.functionValue sig) | some (.cFunction sig) =>
    .call (readAs callee.ty (ident callee))
      (args.take sig.params.length ++ restArgs m sig.rest (args.drop sig.params.length))
  | some (.macroCall _ _ _) | none => .call (readAs callee.ty (ident callee)) args

/-- The parameters whose types decide how arguments are stored. -/
def paramTypes (target : Option CallTarget) : List Ty :=
  ((target.bind (·.signature?)).map (·.params)).getD []

/-- The value of a call. A cast is never read through. -/
def readCall (target : Option CallTarget) (e : CExpr) : CExpr :=
  match target with
  | some (.cast _) => e
  | some target => readAs target.result e
  | none => e

mutual

/-- The value of an operand. -/
def value (m : DataModel) : Value → CExpr
  | .number lit => .literal lit.text
  | .decimal lit => .literal lit.text
  | .string lit => CLiteral.string lit
  | .char lit => CLiteral.char lit
  | .bool _ b => CLiteral.bool b
  | .null _ => .null
  | .ident name => readAs name.ty (ident name)
  | .call _ callee args target _ =>
    readCall target (applied m callee (storedEach m (paramTypes target) args) target)
  | .index _ base position => .index (value m base) (expr m position)
  | .ref _ inner => pointer m inner
  | .prefixed _ op inner => .prefixed op (value m inner)
  | .suffixed _ op inner => .suffixed op (value m inner)
  | .paren inner => .paren (expr m inner)

/-- The pointer of an operand. -/
def pointer (m : DataModel) : Value → CExpr
  | .number lit => .literal lit.text
  | .decimal lit => .literal lit.text
  | .string lit => CLiteral.string lit
  | .char lit => CLiteral.char lit
  | .bool _ b => CLiteral.bool b
  | .null _ => .null
  | .ident name => if name.ty.isRef then ident name else .address (ident name)
  | .call _ callee args target _ =>
    applied m callee (storedEach m (paramTypes target) args) target
  | .index _ base position => .address (.index (value m base) (expr m position))
  | .ref _ inner => pointer m inner
  | .prefixed _ op inner => .prefixed op (value m inner)
  | .suffixed _ op inner => .suffixed op (value m inner)
  | .paren (.mk _ (.operand inner)) => pointer m inner
  | .paren (.mk _ (.link left op rest)) =>
    .paren (.binary (value m left) op.op (chain m rest))

/-- The value of an expression. -/
def expr (m : DataModel) : Expr → CExpr
  | .mk _ ops => chain m ops

/-- The value of operands joined by operators. -/
def chain (m : DataModel) : Chain → CExpr
  | .operand v => value m v
  | .link v op rest => .binary (value m v) op.op (chain m rest)

/-- An expression as it is stored into a slot. -/
def stored (m : DataModel) (expected : Ty) : Expr → CExpr
  | .mk _ (.operand v) => if expected.isRef then pointer m v else value m v
  | .mk _ (.link left op rest) => .binary (value m left) op.op (chain m rest)

/-- Arguments as they are stored into parameters; those that follow are values. -/
def storedEach (m : DataModel) : List Ty → List Expr → List CExpr
  | _, [] => []
  | [], e :: es => expr m e :: storedEach m [] es
  | expected :: more, e :: es => stored m expected e :: storedEach m more es

end

/-! ## Statements -/

/-- A variable. -/
def varDecl (m : DataModel) (decls : DeclTable) (var : VarDecl) : CVar :=
  ⟨⟨typeExpr m var.ty, var.name.text⟩, var.init.map (stored m (decls.typeOf var.decl))⟩

/-- An expression whose value is not used. The result of a call is not read through. -/
def discarded (m : DataModel) (e : Expr) : CExpr :=
  match e.single? with
  | some (.call span callee args target defaulted) =>
    pointer m (.call span callee args target defaulted)
  | _ => expr m e

/-- The guard of a branch. -/
def guard (m : DataModel) : Guard → CGuard
  | .first cond => .ifCond (expr m cond)
  | .next cond => .elseIf (expr m cond)
  | .otherwise => .otherwise

mutual

/-- The C statements of a statement of a function that returns `returned`. -/
def stmt (m : DataModel) (decls : DeclTable) (returned : Ty) : Stmt → List CStmt
  | .expr e => [.expr (discarded m e)]
  | .decl var => [.decl (varDecl m decls var)]
  | .assign _ target op e => [.assign (value m target) op (expr m e)]
  | .ret _ e => [.ret (e.map (stored m returned))]
  | .cond list => branches m decls returned list
  | .loop _ cond body => [.guarded (.while (expr m cond)) (stmts m decls returned body)]
  | .block _ body => [.block (stmts m decls returned body)]

/-- The C statements of statements. -/
def stmts (m : DataModel) (decls : DeclTable) (returned : Ty) : List Stmt → List CStmt
  | [] => []
  | s :: ss => stmt m decls returned s ++ stmts m decls returned ss

/-- The C statement of a branch. -/
def branch (m : DataModel) (decls : DeclTable) (returned : Ty) : Branch → CStmt
  | .mk _ g body => .guarded (guard m g) (stmts m decls returned body)

/-- The C statements of branches. -/
def branches (m : DataModel) (decls : DeclTable) (returned : Ty) : List Branch → List CStmt
  | [] => []
  | b :: bs => branch m decls returned b :: branches m decls returned bs

end

/-! ## Units -/

/-- The named parameters for further arguments. -/
def restDecls (m : DataModel) : Rest TypeExpr → List CDecl
  | .typed elem => [⟨countType m, countName⟩, ⟨.pointer (typeExpr m elem), arrayName⟩]
  | .untyped => []
  | .none => []

/-- The head of a function. -/
def head (m : DataModel) (f : Function) : CHead :=
  { ret := typeExpr m f.ret
    name := f.name.text
    params := f.params.map (fun p => ⟨typeExpr m p.ty, p.name.text⟩) ++ restDecls m f.rest
    variadic := isVariadic f.rest }

/-- The headers that every unit includes. -/
def standardHeaders : List String := ["stddef.h", "stdint.h", "stdbool.h"]

/-- The functions of a unit. -/
def functions (nodes : List Node) : List Function :=
  nodes.filterMap fun
    | .function f => some f
    | _ => none

/-- The functions whose declarations are not among `seen`, the first of each declaration. -/
def firstOfEach (seen : List DeclId) : List Function → List Function
  | [] => []
  | f :: fs =>
    match f.decl with
    | none => f :: firstOfEach seen fs
    | some id => if id ∈ seen then firstOfEach seen fs else f :: firstOfEach (id :: seen) fs

/-- The definition of a function with a body. -/
def definition? (m : DataModel) (decls : DeclTable) (f : Function) : Option (CHead × List CStmt) :=
  f.body.map fun body => (head m f, stmts m decls ((f.sig.map (·.ret)).getD .any) body)

end Lowering

/-- The C unit of a checked unit, with one prototype for each declared function, so that definitions
may come in any order. -/
def SourceUnit.toC (unit : SourceUnit) (m : DataModel) (decls : DeclTable) : CUnit :=
  let functions := Lowering.functions unit.nodes
  { includes := Lowering.standardHeaders ++ unit.nodes.filterMap fun
      | .header item => some item.headerName
      | _ => none
    typedefs := unit.nodes.filterMap fun
      | .alias item => some ⟨Lowering.typeExpr m item.target, item.name.text⟩
      | _ => none
    globals := unit.nodes.filterMap fun
      | .global item => some (Lowering.varDecl m decls item)
      | _ => none
    prototypes := (Lowering.firstOfEach [] functions).map (Lowering.head m)
    definitions := functions.filterMap (Lowering.definition? m decls) }

end KilnLang
