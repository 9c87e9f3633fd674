import KilnLang.Semantic.Context
import KilnLang.Semantic.Report
import KilnLang.Semantic.Typing

/-!
# Checking

Checks what is stored where: initial values, assignments, returned values and arguments. Calls
that leave out trailing arguments are completed from the defaults of the function.

**Completion** copies defaults, and the calls in a copy are completed in turn. A default that
reaches its own function again is not copied there, so the functions that are being completed are
pairwise distinct, and their number bounds the depth. Errors in copies are dropped: they are
reported where the default is declared.
-/

namespace KilnLang

/-! ## Storing -/

/-- Reports why a value of type `found` does not fit a slot of type `expected`. -/
def Ty.reportMisfit (expected found : Ty) (span : Span) :
    Except Ty.Incompatibility Unit → Report Unit
  | .ok () => return ()
  | .error (.signature position) =>
    Report.error
      (.functionTypeMismatch position expected.stripRefs.render found.stripRefs.render span)
  | .error .type => Report.error (.typeMismatch expected.render found.render span)

/-- Checks that a value of type `found` can be stored into a slot of type `expected`. -/
def Ty.storeType (expected found : Ty) (span : Span) : Report Unit :=
  expected.reportMisfit found span (Ty.checkStore found expected)

/-- Checks that a literal fits a slot. -/
def Ty.storeLiteral (expected : Ty) (literal : Value) : Report Unit :=
  Report.errorIf (!expected.stripRefs.acceptsLiteral literal)
    (.typeMismatch expected.render literal.literalTypeText literal.span)

/-- Whether an operand can stand where a reference is expected. -/
def Value.isReferable (value : Value) : Bool :=
  value.isNull || value.isRef || value.isAddressable || value.ty.isRef

/-- Checks an operand that is stored into a slot which is a reference. No literal but `null` can
stand there. -/
def Ty.storeRef (expected : Ty) (value : Value) : Report Unit :=
  if !value.isReferable then
    Report.error (.invalidReferenceArgument value.describe value.span)
  else if value.isNull then return ()
  else expected.reportMisfit value.ty value.span (Ty.checkBind value.ty expected)

/-- Checks an operand that is stored into a slot. -/
def Ty.storeValue (expected : Ty) (value : Value) : Report Unit :=
  if expected.isRef then expected.storeRef value
  else if value.isRef && !expected.isAny then
    Report.error (.typeMismatch expected.render value.ty.render value.span)
  else if value.isLiteral then expected.storeLiteral value
  else expected.storeType value.ty value.span

/-- Checks an expression that is stored into a slot. -/
def Ty.store (expected : Ty) (e : Expr) : Report Unit :=
  match e.single? with
  | some value => expected.storeValue value
  | none => expected.storeType e.ty e.span

/-! ## Calls -/

/-- Checks arguments against parameters, and those that follow against `rest`. -/
def Rest.storeArgs (rest : Rest Ty) : List Ty → List Expr → Report Unit
  | _, [] => return ()
  | param :: params, arg :: args => do
    param.store arg
    rest.storeArgs params args
  | [], arg :: args => do
    match rest with
    | .typed elem => elem.store arg
    | .untyped | .none => pure ()
    rest.storeArgs [] args

/-- The number of arguments that cannot be left out: those before the first default. -/
def Signature.required (sig : Signature Ty) (defaults : List (Option Expr)) : Nat :=
  min ((defaults.findIdx? (·.isSome)).getD sig.params.length) sig.params.length

/-- Whether a call may have `count` arguments. -/
def Signature.accepts (sig : Signature Ty) (required count : Nat) : Bool :=
  required ≤ count && (count ≤ sig.params.length || sig.rest.isOpen)

/-- The numbers of arguments that a call may have. -/
def Signature.argCount (sig : Signature Ty) (required : Nat) : ArgCount :=
  if sig.rest.isOpen then .atLeast required
  else if required = sig.params.length then .exactly required
  else .between required sig.params.length

/-- What completes a call: from a function and the number of written arguments to copies of the
defaults for the others. -/
abbrev Completion := DeclId → Nat → Report (List Expr)

namespace Check

/-- The defaults of what is called. -/
def defaults (decls : DeclTable) : CallTarget → List (Option Expr)
  | .function decl _ => decls.defaultsOf decl
  | _ => []

/-- The copies of defaults for the arguments that a call leaves out. -/
def omitted (complete : Completion) (count : Nat) : CallTarget → List Expr
  | .function decl _ => (complete decl count).value
  | _ => []

/-- Checks the arguments of a call and gives those that it leaves out. -/
def arguments (decls : DeclTable) (complete : Completion) (span : Span) (callee : DottedName)
    (args : List Expr) (target : CallTarget) : Report (List Expr) :=
  match target.signature? with
  | none => return []
  | some sig => do
    let required := sig.required (defaults decls target)
    if sig.accepts required args.length then
      sig.rest.storeArgs sig.params args
      return omitted complete args.length target
    else
      Report.error (.argumentCount callee.text (sig.argCount required) args.length span)
      return []

/-- Checks the arguments of a call, whatever it calls. -/
def call (decls : DeclTable) (complete : Completion) (span : Span) (callee : DottedName)
    (args : List Expr) (target : Option CallTarget) : Report Value := do
  let more ←
    match target with
    | some t => arguments decls complete span callee args t
    | none => pure []
  return .call span callee (args ++ more) target more.length

mutual

/-- Checks and completes the calls of an expression. -/
def expr (decls : DeclTable) (complete : Completion) : Expr → Report Expr
  | .mk span ops => do return .mk span (← chain decls complete ops)

/-- Checks and completes the calls of a chain. -/
def chain (decls : DeclTable) (complete : Completion) : Chain → Report Chain
  | .operand v => do return .operand (← value decls complete v)
  | .link v op rest => do
    let v ← value decls complete v
    let rest ← chain decls complete rest
    return .link v op rest

/-- Checks and completes the calls of an operand, and checks that references refer to storage. -/
def value (decls : DeclTable) (complete : Completion) : Value → Report Value
  | .call span callee args target _ => do
    let args ← exprs decls complete args
    call decls complete span callee args target
  | .index span base position => do
    let base ← value decls complete base
    let position ← expr decls complete position
    return .index span base position
  | .ref span inner => do
    let inner ← value decls complete inner
    Report.errorIf (!inner.isAddressable) (.invalidReferenceArgument inner.describe span)
    return .ref span inner
  | .prefixed span op inner => do return .prefixed span op (← value decls complete inner)
  | .suffixed span op inner => do return .suffixed span op (← value decls complete inner)
  | .paren inner => do return .paren (← expr decls complete inner)
  | .ident name => return .ident name
  | .number lit => return .number lit
  | .decimal lit => return .decimal lit
  | .string lit => return .string lit
  | .char lit => return .char lit
  | .bool span b => return .bool span b
  | .null span => return .null span

/-- Checks and completes the calls of expressions. -/
def exprs (decls : DeclTable) (complete : Completion) : List Expr → Report (List Expr)
  | [] => return []
  | e :: es => do
    let e ← expr decls complete e
    let es ← exprs decls complete es
    return e :: es

end

/-- Completion while the functions of `active` are being completed. `depth` is the number of
further functions that can become active, so at depth zero all functions are. -/
def completion (decls : DeclTable) : Nat → List DeclId → Completion
  | 0, _, _, _ => return []
  | depth + 1, active, decl, written =>
    if decl ∈ active then return []
    else
      exprs decls (completion decls depth (decl :: active))
        ((decls.defaultsOf decl).drop written).reduceOption

/-- Completion of the calls of a unit. -/
def complete (decls : DeclTable) : Completion := completion decls decls.length []

/-! ## Statements -/

/-- Checks an expression that is stored into a slot. -/
def into (decls : DeclTable) (expected : Ty) (e : Expr) : Report Expr := do
  let e ← expr decls (complete decls) e
  expected.store e
  return e

/-- Checks a variable with its initial value. -/
def varDecl (decls : DeclTable) (var : VarDecl) : Report VarDecl :=
  match var.init with
  | none => return var
  | some init => do return { var with init := some (← into decls (decls.typeOf var.decl) init) }

/-- Checks a returned value against the type that the function returns. -/
def ret (decls : DeclTable) (returned : Ty) (span : Span) : Option Expr → Report (Option Expr)
  | none => do
    Report.errorIf (!returned.isVoid) (.typeMismatch returned.render (Ty.prim .void).render span)
    return none
  | some e =>
    if returned.isVoid then do
      let e ← expr decls (complete decls) e
      Report.error (.typeMismatch returned.render e.ty.render e.span)
      return some e
    else do return some (← into decls returned e)

/-- Checks the condition of a guard. -/
def guard (decls : DeclTable) : Guard → Report Guard
  | .first cond => do return .first (← expr decls (complete decls) cond)
  | .next cond => do return .next (← expr decls (complete decls) cond)
  | .otherwise => return .otherwise

mutual

/-- Checks a statement of a function that returns `returned`. -/
def stmt (decls : DeclTable) (returned : Ty) : Stmt → Report Stmt
  | .expr e => do return .expr (← expr decls (complete decls) e)
  | .decl var => do return .decl (← varDecl decls var)
  | .assign span target none e => do
    let target ← value decls (complete decls) target
    let e ← into decls target.ty e
    return .assign span target none e
  | .assign span target (some op) e => do
    let target ← value decls (complete decls) target
    let e ← expr decls (complete decls) e
    return .assign span target (some op) e
  | .ret span e => do return .ret span (← ret decls returned span e)
  | .cond list => do return .cond (← branches decls returned list)
  | .loop span cond body => do
    let cond ← expr decls (complete decls) cond
    let body ← stmts decls returned body
    return .loop span cond body
  | .block span body => do return .block span (← stmts decls returned body)

/-- Checks statements in order. -/
def stmts (decls : DeclTable) (returned : Ty) : List Stmt → Report (List Stmt)
  | [] => return []
  | s :: ss => do
    let s ← stmt decls returned s
    let ss ← stmts decls returned ss
    return s :: ss

/-- Checks a branch. -/
def branch (decls : DeclTable) (returned : Ty) : Branch → Report Branch
  | .mk span g body => do
    let g ← guard decls g
    let body ← stmts decls returned body
    return .mk span g body

/-- Checks branches in order. -/
def branches (decls : DeclTable) (returned : Ty) : List Branch → Report (List Branch)
  | [] => return []
  | b :: bs => do
    let b ← branch decls returned b
    let bs ← branches decls returned bs
    return b :: bs

end

/-! ## Units -/

/-- Checks the defaults of parameters. -/
def params (decls : DeclTable) : List Param → List Ty → Report (List Param)
  | param :: rest, ty :: tys => do
    let default ←
      match param.default with
      | none => pure none
      | some e => do pure (some (← into decls ty e))
    return { param with default } :: (← params decls rest tys)
  | rest, _ => return rest

/-- Checks the defaults and the body of a function. -/
def function (decls : DeclTable) (item : Function) : Report Function :=
  match item.sig with
  | none => return item
  | some sig => do
    let params ← params decls item.params sig.params
    match item.body with
    | none => return { item with params }
    | some body => do
      let body ← stmts decls sig.ret body
      return { item with params, body := some body }

/-- Checks a part of a unit. -/
def node (decls : DeclTable) : Node → Report Node
  | .function item => do return .function (← function decls item)
  | .global item => do return .global (← varDecl decls item)
  | .header item => return .header item
  | .alias item => return .alias item

/-- Checks parts in order. -/
def nodes (decls : DeclTable) : List Node → Report (List Node)
  | [] => return []
  | n :: ns => do
    let n ← node decls n
    let ns ← nodes decls ns
    return n :: ns

end Check

/-- Checks a resolved unit: the unit with its calls completed, and all errors. -/
def SourceUnit.check (unit : SourceUnit) (context : SemanticContext) : Report SourceUnit := do
  return { unit with nodes := ← Check.nodes context.decls unit.nodes }

end KilnLang
