import KilnLang.Semantic.Report
import KilnLang.Semantic.Scope

/-!
# Resolution

Binds every name of a unit to what it stands for. Parts of the unit see each other whatever their
order, but for globals, whose initial values see only the globals before them; a local is visible
after its declaration.

**Expressions** declare nothing, so they are resolved in a fixed environment and give a report.
**Statements** thread the scopes and the declaration table. The result is a tree in which as many
names as possible are bound, and either what was learned about the unit or all errors.
-/

namespace KilnLang

namespace Env

/-- Looks up a dotted name and reports what is wrong with it. -/
def find (env : Env) (name : DottedName) : Report (Option Resolution) :=
  match env.lookup name with
  | (some found, errors) => ⟨some found, errors.map .alias⟩
  | (none, errors) =>
    ⟨none, errors.map .alias ++ [.unresolvedIdentifier name.text name.span]⟩

/-- Binds a name that is used as a value. Types and macros with parameters are no values. -/
def ident (env : Env) (name : DottedName) : Report DottedName := do
  match ← env.find name with
  | none => return name
  | some found =>
    match found.binding with
    | .type => Report.error (.notAValue name.text "type" name.span)
    | .macroFunction _ _ => Report.error (.notAValue name.text "function macro" name.span)
    | _ => pure ()
    return { name with resolved := some found }

/-- What a call of `found` with `count` arguments calls. -/
def target (name : String) (count : Nat) (span : Span) (found : Resolution) :
    Report (Option CallTarget) :=
  match found.binding with
  | .function decl =>
    match found.ty with
    | .func sig => return some (.function decl sig)
    | _ => return none
  | .cFunction => return found.ty.signature?.map .cFunction
  | .local _ | .parameter _ | .global _ | .cVariable =>
    return found.ty.signature?.map .functionValue
  | .macroFunction arity variadic => do
    let expected : ArgCount := if variadic then .atLeast arity else .exactly arity
    let fits : Bool := if variadic then arity ≤ count else count == arity
    Report.errorIf (!fits) (.macroArityMismatch name expected count span)
    return some (.macroCall arity variadic found.ty)
  | .type => do
    Report.errorIf (count != 1) (.argumentCount name (.exactly 1) count span)
    return some (.cast found.ty)
  | .macroConstant | .varArgs | .varArgsLength => return none

/-- Binds the name of a function that is called with `count` arguments. -/
def callee (env : Env) (name : DottedName) (count : Nat) (span : Span) :
    Report (DottedName × Option CallTarget) := do
  match ← env.find name with
  | none => return (name, none)
  | some found =>
    let target ← target name.text count span found
    Report.errorIf target.isNone (.notCallable name.text name.span)
    return ({ name with resolved := some found }, target)

mutual

/-- Resolves an expression. -/
def expr (env : Env) : Expr → Report Expr
  | .mk span chain => do return .mk span (← env.chain chain)

/-- Resolves the operands of an expression. -/
def chain (env : Env) : Chain → Report Chain
  | .operand value => do return .operand (← env.value value)
  | .link value op rest => do
    let value ← env.value value
    let rest ← env.chain rest
    return .link value op rest

/-- Resolves an operand; the arguments of a call come before its callee. -/
def value (env : Env) : Value → Report Value
  | .ident name => do return .ident (← env.ident name)
  | .call span name args _ defaulted => do
    let args ← env.exprs args
    let (name, target) ← env.callee name args.length span
    return .call span name args target defaulted
  | .index span base position => do
    let base ← env.value base
    let position ← env.expr position
    return .index span base position
  | .ref span inner => do return .ref span (← env.value inner)
  | .prefixed span op inner => do return .prefixed span op (← env.value inner)
  | .suffixed span op inner => do return .suffixed span op (← env.value inner)
  | .paren inner => do return .paren (← env.expr inner)
  | .number lit => return .number lit
  | .decimal lit => return .decimal lit
  | .string lit => return .string lit
  | .char lit => return .char lit
  | .bool span b => return .bool span b
  | .null span => return .null span

/-- Resolves the expressions of a list. -/
def exprs (env : Env) : List Expr → Report (List Expr)
  | [] => return []
  | e :: es => do
    let e ← env.expr e
    let es ← env.exprs es
    return e :: es

end

/-- Resolves an expression that may be missing. -/
def expr? (env : Env) : Option Expr → Report (Option Expr)
  | none => return none
  | some e => do return some (← env.expr e)

/-- Resolves the condition of a guard. -/
def guard (env : Env) : Guard → Report Guard
  | .first cond => do return .first (← env.expr cond)
  | .next cond => do return .next (← env.expr cond)
  | .otherwise => return .otherwise

/-! ## Types -/

/-- Annotates a type; one that has errors counts as `any`. -/
def annotate (env : Env) (ty : TypeExpr) : Report (TypeExpr × Ty) :=
  match env.context.aliases.annotate ty with
  | (expr, .ok ty) => ⟨(expr, ty), []⟩
  | (expr, .error e) => ⟨(expr, .any), [.alias e]⟩

/-- Annotates types one after the other. -/
def annotateEach (env : Env) : List TypeExpr → Report (List (TypeExpr × Ty))
  | [] => return []
  | t :: ts => do
    let t ← env.annotate t
    let ts ← env.annotateEach ts
    return t :: ts

/-- Annotates the type of further arguments. -/
def annotateRest (env : Env) : Rest TypeExpr → Report (Rest TypeExpr × Rest Ty)
  | .none => return (.none, .none)
  | .untyped => return (.untyped, .untyped)
  | .typed elem => do
    let (elem, ty) ← env.annotate elem
    return (.typed elem, .typed ty)

/-- Annotates the types of a function's head, and gives its signature. -/
def head (env : Env) (item : Function) : Report (Function × Signature Ty) := do
  let (ret, retTy) ← env.annotate item.ret
  let params ← env.annotateEach (item.params.map (·.ty))
  let (rest, restTy) ← env.annotateRest item.rest
  let sig : Signature Ty := ⟨retTy, params.map (·.2), restTy⟩
  return ({ item with
    ret, rest
    params := item.params.zipWith (fun p (ty, _) => { p with ty }) params
    sig := some sig }, sig)

end Env

/-! ## Statements -/

/-- A step of resolution: it reports errors and changes what is visible. -/
abbrev ResolveM := StateT Env Report

namespace Resolver

/-- Makes a report about what is visible. -/
def report {α : Type} (r : Env → Report α) : ResolveM α := fun env => do return (← r env, env)

/-- Changes what is visible. -/
def modifyEnv (f : Env → Env) : ResolveM Unit := fun env => return ((), f env)

/-- Adds a declaration and gives its number. -/
def push (info : DeclInfo) : ResolveM DeclId := fun env =>
  return (env.context.decls.length, env.push info)

/-- Declares a variable or a parameter in the innermost scope. -/
def declare (name : Ident) (kind : DeclKind) (ty : Ty) (order : Nat) :
    ResolveM (Option DeclId) := do
  if (← get).isTaken name.text then
    report fun _ => Report.error (.redefinition name.text name.span)
    return none
  else
    let id ← push ⟨name.text, name.span, kind, ty, [], order, false⟩
    return some id

/-- Opens a scope. -/
def openScope : ResolveM Unit := modifyEnv Env.enter

/-- Closes the innermost scope. -/
def closeScope : ResolveM Unit := modifyEnv Env.leave

/-- Resolves a local variable, which its own initial value cannot see. -/
def localVar (var : VarDecl) : ResolveM VarDecl := do
  let (ty, varTy) ← report (·.annotate var.ty)
  let init ← report (·.expr? var.init)
  let decl ← declare var.name .local varTy 0
  return { var with ty, init, decl }

mutual

/-- Resolves a statement. -/
def stmt : Stmt → ResolveM Stmt
  | .expr value => do return .expr (← report (·.expr value))
  | .decl var => do return .decl (← localVar var)
  | .assign span target op value => do
    let target ← report (·.value target)
    let value ← report (·.expr value)
    return .assign span target op value
  | .ret span value => do return .ret span (← report (·.expr? value))
  | .cond list => do return .cond (← branches list)
  | .loop span cond body => do
    let cond ← report (·.expr cond)
    openScope
    let body ← stmts body
    closeScope
    return .loop span cond body
  | .block span body => do
    openScope
    let body ← stmts body
    closeScope
    return .block span body

/-- Resolves statements in order. -/
def stmts : List Stmt → ResolveM (List Stmt)
  | [] => return []
  | s :: ss => do
    let s ← stmt s
    let ss ← stmts ss
    return s :: ss

/-- Resolves a branch, whose body is a scope. -/
def branch : Branch → ResolveM Branch
  | .mk span g body => do
    let g ← report (·.guard g)
    openScope
    let body ← stmts body
    closeScope
    return .mk span g body

/-- Resolves branches in order. -/
def branches : List Branch → ResolveM (List Branch)
  | [] => return []
  | b :: bs => do
    let b ← branch b
    let bs ← branches bs
    return b :: bs

end

/-! ## Headers and aliases -/

/-- The alias that a header's symbol introduces, if it is a constant or a type name. -/
def aliasOf? (span : Span) : HeaderSymbol → Option (AliasTarget × AliasKind)
  | .constant _ (.name other) => some (.name other span, .value)
  | .constant _ value => some (.terminal (value.literalType?.getD .any), .value)
  | .typedef _ target => some (.terminal target, .type)
  | _ => none

/-- The type that a macro produces, `any` if its body names nothing. -/
def macroResult (aliases : AliasTable) (span : Span) (value : MacroValue) : Ty :=
  match value with
  | .name other => ((aliases.resolve other span).toOption).getD .any
  | value => value.literalType?.getD .any

/-- A symbol of the bridge before the results of macros are known, which takes all aliases. -/
def bridgeOf? (span : Span) : HeaderSymbol → Option (AliasTable → BridgeSymbol)
  | .macroFn _ arity variadic value =>
    some fun aliases => .macroFn arity variadic (macroResult aliases span value)
  | .function _ sig => some fun _ => .function sig
  | .variable _ ty => some fun _ => .variable ty
  | _ => none

/-- The aliases and the bridge while headers are read; entries of the bridge await all aliases. -/
structure Bridging where
  aliases : AliasTable
  bridge : List (String × (AliasTable → BridgeSymbol))

/-- Adds a symbol whose name is new. A constant that would lead back to itself is left out. -/
def Bridging.add (span : Span) (b : Bridging) (symbol : HeaderSymbol) : Bridging :=
  let name := symbol.name
  if b.aliases.contains name || (b.bridge.lookup name).isSome then b
  else
    match aliasOf? span symbol, bridgeOf? span symbol with
    | some (target, kind), _ =>
      match b.aliases.define name target kind span with
      | .ok aliases => { b with aliases }
      | .error _ => b
    | none, some entry => { b with bridge := b.bridge ++ [(name, entry)] }
    | none, none => b

/-- Adds the symbols of the header that a part of the unit includes. -/
def Bridging.addNode (b : Bridging) : Node → Bridging
  | .header ⟨span, _, some table⟩ => table.symbols.foldl (Bridging.add span) b
  | _ => b

/-- What the included headers offer. -/
def bridgeContext (nodes : List Node) : SemanticContext :=
  let b := nodes.foldl Bridging.addNode ⟨.empty, []⟩
  ⟨[], b.aliases, b.bridge.map fun (name, entry) => (name, entry b.aliases)⟩

/-- The target of an alias: a name, or a type built from names. -/
def targetOf (ty : TypeExpr) : AliasTarget :=
  match ty with
  | .named ⟨span, [part], _⟩ => .name part.text span
  | other => .composite other

/-- Defines the aliases of a unit, and says for each part whether it defined one. -/
def defineAliases : List Node → ResolveM (List Bool)
  | [] => return []
  | .alias item :: nodes => do
    let aliases := (← get).context.aliases
    let defined ←
      match aliases.define item.name.text (targetOf item.target) .type item.name.span with
      | .ok aliases => do
        modifyEnv fun env => { env with context := { env.context with aliases } }
        pure true
      | .error e => do
        report fun _ => Report.error (.alias e)
        pure false
    return defined :: (← defineAliases nodes)
  | _ :: nodes => do return false :: (← defineAliases nodes)

/-- Annotates the targets of the aliases that were defined. -/
def annotateAliases : List Node → List Bool → ResolveM (List Node)
  | .alias item :: nodes, true :: defined => do
    let (target, _) ← report (·.annotate item.target)
    return .alias { item with target } :: (← annotateAliases nodes defined)
  | node :: nodes, defined => do return node :: (← annotateAliases nodes defined.tail)
  | [], _ => return []

/-! ## Parts of the unit -/

/-- The declaration of a function: a new one, or that of the functions of its name before it, which
have to have the same signature and of which only one may have a body. -/
def functionDecl (name : Ident) (sig : Signature Ty) (paramCount : Nat) (hasBody : Bool) :
    ResolveM (Option DeclId) := do
  let env ← get
  let redefinition : ResolveM (Option DeclId) := do
    report fun _ => Report.error (.redefinition name.text name.span)
    return none
  match (env.scopes.head?).bind (·.lookup name.text) with
  | some id =>
    match env.context.decls[id]? with
    | none => redefinition
    | some info =>
      if info.kind = .function ∧ info.ty = .func sig ∧ !(info.defined && hasBody) then
        modifyEnv (·.update id fun info => { info with defined := info.defined || hasBody })
        return some id
      else redefinition
  | none =>
    if env.context.aliases.contains name.text then redefinition
    else
      let id ← push
        ⟨name.text, name.span, .function, .func sig, List.replicate paramCount none, 0, hasBody⟩
      return some id

/-- Declares a function. -/
def declareFunction (item : Function) : ResolveM Function := do
  let (item, sig) ← report (·.head item)
  let decl ← functionDecl item.name sig item.params.length item.body.isSome
  return { item with decl }

/-- The number of globals that a part of a unit declares. -/
def globalCount : Node → Nat
  | .global _ => 1
  | _ => 0

/-- Declares a part of a unit; `order` globals come before it. -/
def declareNode (order : Nat) : Node → ResolveM Node
  | .function item => do return .function (← declareFunction item)
  | .global item => do
    let (ty, varTy) ← report (·.annotate item.ty)
    let decl ← declare item.name .global varTy order
    return .global { item with ty, decl }
  | node => return node

/-- Declares the functions and globals of a unit; `order` globals come before. -/
def declareNodes (order : Nat) : List Node → ResolveM (List Node)
  | [] => return []
  | node :: nodes => do
    let declared ← declareNode order node
    return declared :: (← declareNodes (order + globalCount node) nodes)

/-- Resolves the defaults of parameters, counted from `index`, and records them in the declaration
of the function. -/
def defaults (decl : Option DeclId) (index : Nat) : List Param → ResolveM (List Param)
  | [] => return []
  | param :: params => do
    let default ← report (·.expr? param.default)
    modifyEnv (·.setDefault decl index default)
    return { param with default } :: (← defaults decl (index + 1) params)

/-- Declares parameters with their types. -/
def declareParams : List Param → List Ty → ResolveM Unit
  | param :: params, ty :: tys => do
    let _ ← declare param.name .parameter ty 0
    declareParams params tys
  | _, _ => return ()

/-- Resolves the body of a function, which shares a scope with the parameters. -/
def functionBody (sig : Option (Signature Ty)) (params : List Param) (body : List Stmt) :
    ResolveM (List Stmt) := do
  modifyEnv fun env => { env with vargs := sig.bind (·.rest.elem?) }
  openScope
  declareParams params ((sig.map (·.params)).getD [])
  let body ← stmts body
  closeScope
  modifyEnv fun env => { env with vargs := none }
  return body

/-- Resolves a function, whose defaults see the unit only. -/
def function (item : Function) : ResolveM Function := do
  let params ← defaults item.decl 0 item.params
  match item.body with
  | none => return { item with params }
  | some body => do return { item with params, body := some (← functionBody item.sig params body) }

/-- Resolves the initial value of a global, which sees only the globals before it. -/
def global (item : VarDecl) : ResolveM VarDecl := do
  let order (env : Env) : Option Nat := (item.decl.bind (env.context.decls[·]?)).map (·.order)
  let init ← report fun env => Env.expr? { env with limit := order env } item.init
  return { item with init }

/-- Resolves a function or a global. -/
def node : Node → ResolveM Node
  | .function item => do return .function (← function item)
  | .global item => do return .global (← global item)
  | node => return node

/-- Resolves the functions and globals of a unit. -/
def nodes : List Node → ResolveM (List Node)
  | [] => return []
  | n :: ns => do
    let n ← node n
    return n :: (← nodes ns)

/-- Resolves the parts of a unit. -/
def unit (list : List Node) : ResolveM (List Node) := do
  let defined ← defineAliases list
  let list ← annotateAliases list defined
  let list ← declareNodes 0 list
  nodes list

end Resolver

/-- Binds the names of a unit whose headers have been attached: the unit with its slots filled as
far as possible, and what was learned about it or all errors. -/
def SourceUnit.resolve (unit : SourceUnit) :
    SourceUnit × Except (List SemanticError) SemanticContext :=
  let result := Resolver.unit unit.nodes ⟨Resolver.bridgeContext unit.nodes, [[]], none, none⟩
  let (nodes, env) := result.value
  ({ unit with nodes },
    if result.errors.isEmpty then .ok env.context else .error result.errors)

end KilnLang
