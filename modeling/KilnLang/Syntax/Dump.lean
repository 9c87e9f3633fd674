import KilnLang.Syntax
import KilnLang.Tree

/-!
# Dumps

The **dump** of a unit is its syntax tree as text, one label a line. It depends on the tree alone,
spans excluded, and shows what the passes have filled in so far: a resolved name ends with its
type, a call shows what it was found to be, an include lists the symbols of its header.
-/

namespace KilnLang

namespace Dump

/-- A node of the dump. -/
abbrev DumpTree := Tree String

/-- The line for a name. -/
def identifier (name : String) : DumpTree := .leaf ("Identifier: " ++ name)

/-- The line for a type. -/
def typeLine (ty : Ty) : DumpTree := .leaf ("Type: " ++ ty.render)

/-- The line for an operator. -/
def operatorLine (symbol : String) : DumpTree := .leaf ("Operator: " ++ symbol)

/-- The line for arguments that C does not check. -/
def untypedRest : DumpTree := .leaf "Variadic (C)"

/-- A dotted name and, once it is known, its type. -/
def dotted (name : DottedName) : DumpTree :=
  .node "CompoundIdentifier"
    (name.parts.map (identifier ·.text) ++ (name.resolved.map (typeLine ·.ty)).toList)

/-! ## Types -/

/-- The list of arguments, left out when it is empty. -/
def argumentsOf (trees : List DumpTree) : List DumpTree :=
  if trees.isEmpty then [] else [.node "Arguments:" trees]

mutual

/-- A type expression. -/
def ofType : TypeExpr → DumpTree
  | .named name => dotted name
  | .ref _ inner => .node "Reference" [ofType inner]
  | .array _ elem length =>
    .node "Array" (ofType elem :: (length.map fun n => .leaf ("Length: " ++ toString n)).toList)
  | .func _ sig => .node "FunctionType" (ofSignature sig)

/-- The parts of a signature. -/
def ofSignature : Signature TypeExpr → List DumpTree
  | ⟨ret, params, rest⟩ => ofType ret :: argumentsOf (ofTypes params) ++ ofRest rest

/-- The types of a list. -/
def ofTypes : List TypeExpr → List DumpTree
  | [] => []
  | t :: ts => ofType t :: ofTypes ts

/-- What may follow the parameters. -/
def ofRest : Rest TypeExpr → List DumpTree
  | .none => []
  | .untyped => [untypedRest]
  | .typed elem => [.node "Variadic:" [ofType elem]]

end

/-! ## Expressions -/

/-- A call with the given arguments, shown as what it was found to be. -/
def ofCall (callee : DottedName) (target : Option CallTarget) (defaulted : Nat)
    (args : DumpTree) : DumpTree :=
  match target with
  | some (.cast ty) => .node "Cast" [typeLine ty, args]
  | some (.macroCall arity variadic _) =>
    .node "FunctionCall" (dotted callee :: .leaf ("Arg count: " ++ toString arity) ::
      (if variadic then [untypedRest] else []) ++ [args])
  | some target =>
    let elem := (target.signature?.bind (·.rest.elem?)).map fun t => .leaf ("Variadic: " ++ t.render)
    let filled : List DumpTree :=
      if defaulted > 0 then [.leaf ("Defaulted arguments: " ++ toString defaulted)] else []
    .node "FunctionCall" (dotted callee :: elem.toList ++ filled ++ [args])
  | none => .node "FunctionCall" [dotted callee, args]

mutual

/-- An expression. -/
def ofExpr : Expr → DumpTree
  | .mk _ chain => .node "Expression" (ofChain chain)

/-- Operands and operators. -/
def ofChain : Chain → List DumpTree
  | .operand value => [ofValue value]
  | .link value op rest => ofValue value :: operatorLine op.op.symbol :: ofChain rest

/-- An operand; parentheses show as the expression inside them. -/
def ofValue : Value → DumpTree
  | .number lit => .leaf ("Number: " ++ lit.text)
  | .decimal lit => .leaf ("DecimalNumber: " ++ lit.text)
  | .string lit => .leaf ("String: " ++ lit.text)
  | .char lit => .leaf ("Character: " ++ lit.text)
  | .bool _ value => .leaf ("BoolValue: " ++ toString value)
  | .null _ => .leaf "NullValue"
  | .ident name => dotted name
  | .call _ callee args target defaulted =>
    ofCall callee target defaulted (.node "Arguments" (ofExprs args))
  | .index _ base position => .node "ArrayAccess" [ofExpr position, ofValue base]
  | .ref _ inner => .node "Reference" [ofValue inner]
  | .prefixed _ op value => .node "PrefixOperatorValue" [operatorLine op.symbol, ofValue value]
  | .suffixed _ op value => .node "SuffixOperatorValue" [operatorLine op.symbol, ofValue value]
  | .paren inner => ofExpr inner

/-- The expressions of a list. -/
def ofExprs : List Expr → List DumpTree
  | [] => []
  | e :: es => ofExpr e :: ofExprs es

end

/-! ## Statements -/

/-- A variable with its initial value. -/
def ofVariable (ty : TypeExpr) (name : Ident) (init : Option Expr) : DumpTree :=
  .node "VariableDeclaration" (ofType ty :: identifier name.text ::
    (init.map fun e => .node "Assignment" [ofExpr e]).toList)

mutual

/-- A statement. -/
def ofStmt : Stmt → DumpTree
  | .expr value => .node "Statement" [ofExpr value]
  | .decl var => ofVariable var.ty var.name var.init
  | .assign _ target op value =>
    .node "VariableAssignment" [ofValue target,
      .node "Assignment" ((op.map fun o => operatorLine o.symbol).toList ++ [ofExpr value])]
  | .ret _ value => .node "Return" (value.map ofExpr).toList
  | .cond branches => .node "ConditionBranches" (ofBranches branches)
  | .loop _ cond body =>
    .node "ControlStructure: while" [ofExpr cond, .node "ControlStructureBody" (ofStmts body)]
  | .block _ body => .node "Block" (ofStmts body)

/-- The statements of a list. -/
def ofStmts : List Stmt → List DumpTree
  | [] => []
  | s :: ss => ofStmt s :: ofStmts ss

/-- A branch. -/
def ofBranch : Branch → DumpTree
  | .mk _ guard body =>
    .node ("ControlStructure: " ++ guard.keyword)
      ((guard.cond?.map ofExpr).toList ++ [.node "ControlStructureBody" (ofStmts body)])

/-- The branches of a list. -/
def ofBranches : List Branch → List DumpTree
  | [] => []
  | b :: bs => ofBranch b :: ofBranches bs

end

/-! ## Units -/

/-- A symbol of a header. -/
def ofSymbol : HeaderSymbol → DumpTree
  | .constant name _ => .node "C define" [identifier name]
  | .macroFn name arity variadic _ =>
    .node "C function macro" (identifier name :: .leaf ("Arg count: " ++ toString arity) ::
      (if variadic then [untypedRest] else []))
  | .function name sig =>
    .node "Function" [.leaf "Declaration", identifier name, typeLine (.func sig)]
  | .variable name ty => .node "VariableDeclaration" [identifier name, typeLine ty]
  | .typedef name target =>
    .node "Alias" [.node "From:" [typeLine target], .node "To:" [identifier name]]

/-- A part of a unit. -/
def ofNode : Node → DumpTree
  | .header item =>
    let symbols := (item.symbols.map (·.symbols)).getD []
    .node "Include" [.leaf ("Path: " ++ item.pathText), .node "Symbols found" (symbols.map ofSymbol)]
  | .alias item =>
    .node "Alias" [.node "From:" [ofType item.target], .node "To:" [identifier item.name.text]]
  | .function item =>
    let params := item.params.map fun p => ofVariable p.ty p.name p.default
    let head : List DumpTree := if item.body.isNone then [.leaf "Declaration"] else []
    .node "Function" (head ++ identifier item.name.text ::
      .node "FunctionType" (ofType item.ret :: argumentsOf params ++ ofRest item.rest) ::
      (item.body.map fun body => .node "Body" (ofStmts body)).toList)
  | .global item => ofVariable item.ty item.name item.init

end Dump

/-- The dump of a unit. -/
def SourceUnit.dump (unit : SourceUnit) : String := Tree.render (unit.nodes.map Dump.ofNode)

end KilnLang
