import KilnLang.Syntax
import KilnLang.Tree

/-!
# Outlines

The **outline** of a unit is the tree of its text ranges: every part that has a span, with a word
for its kind, above the parts that it contains, in source order. The branches of a condition stand
side by side, because a condition has no span of its own.
-/

namespace KilnLang

/-- A part of a source: the word for its kind and its text range. -/
structure Part where
  kind : String
  span : Span
  deriving DecidableEq, Repr, Inhabited

/-- A tree of text ranges. -/
abbrev Outline := Tree Part

namespace Outline

/-- A part above the parts inside it. -/
def part (kind : String) (span : Span) (inside : List Outline) : Outline := .node ⟨kind, span⟩ inside

/-- A name. -/
def ofIdent (name : Ident) : Outline := part "Name" name.span []

/-- A dotted name under the given kind. -/
def ofDotted (kind : String) (name : DottedName) : Outline :=
  part kind name.span (name.parts.map ofIdent)

mutual

/-- A type. -/
def ofType : TypeExpr → Outline
  | .named name => part "TypeName" name.span []
  | .ref span inner => part "TypeRef" span [ofType inner]
  | .array span elem _ => part "TypeArray" span [ofType elem]
  | .func span sig => part "TypeFunc" span (ofSignature sig)

/-- The types of a signature. -/
def ofSignature : Signature TypeExpr → List Outline
  | ⟨ret, params, rest⟩ => ofType ret :: ofTypes params ++ ofRest rest

/-- The types of a list. -/
def ofTypes : List TypeExpr → List Outline
  | [] => []
  | t :: ts => ofType t :: ofTypes ts

/-- The type of further arguments. -/
def ofRest : Rest TypeExpr → List Outline
  | .none => []
  | .untyped => []
  | .typed elem => [ofType elem]

end

mutual

/-- An expression. -/
def ofExpr : Expr → Outline
  | .mk span chain => part "Expr" span (ofChain chain)

/-- Operands and operators. -/
def ofChain : Chain → List Outline
  | .operand value => [ofValue value]
  | .link value op rest => ofValue value :: part "Op" op.span [] :: ofChain rest

/-- An operand. -/
def ofValue : Value → Outline
  | .number lit => part "Number" lit.span []
  | .decimal lit => part "Decimal" lit.span []
  | .string lit => part "String" lit.span []
  | .char lit => part "Char" lit.span []
  | .bool span _ => part "Bool" span []
  | .null span => part "Null" span []
  | .ident name => ofDotted "Ident" name
  | .call span callee args _ _ => part "Call" span (ofDotted "Ident" callee :: ofExprs args)
  | .index span base position => part "Index" span [ofValue base, ofExpr position]
  | .ref span inner => part "Ref" span [ofValue inner]
  | .prefixed span _ value => part "Prefix" span [ofValue value]
  | .suffixed span _ value => part "Suffix" span [ofValue value]
  | .paren inner => part "Paren" inner.span [ofExpr inner]

/-- The expressions of a list. -/
def ofExprs : List Expr → List Outline
  | [] => []
  | e :: es => ofExpr e :: ofExprs es

end

/-- A variable. -/
def ofVarDecl (var : VarDecl) : Outline :=
  part "Variable" var.span (ofType var.ty :: ofIdent var.name :: (var.init.map ofExpr).toList)

mutual

/-- A statement; a condition gives one part a branch. -/
def ofStmt : Stmt → List Outline
  | .expr value => [ofExpr value]
  | .decl var => [ofVarDecl var]
  | .assign span target _ value => [part "Assign" span [ofValue target, ofExpr value]]
  | .ret span value => [part "Return" span (value.map ofExpr).toList]
  | .cond branches => ofBranches branches
  | .loop span cond body => [part "While" span (ofExpr cond :: ofStmts body)]
  | .block span body => [part "Block" span (ofStmts body)]

/-- The statements of a list. -/
def ofStmts : List Stmt → List Outline
  | [] => []
  | s :: ss => ofStmt s ++ ofStmts ss

/-- A branch. -/
def ofBranch : Branch → Outline
  | .mk span guard body => part "Branch" span ((guard.cond?.map ofExpr).toList ++ ofStmts body)

/-- The branches of a list. -/
def ofBranches : List Branch → List Outline
  | [] => []
  | b :: bs => ofBranch b :: ofBranches bs

end

/-- A parameter: its type, its name and its default. -/
def ofParam (param : Param) : List Outline :=
  ofType param.ty :: ofIdent param.name :: (param.default.map ofExpr).toList

/-- A part of a unit. -/
def ofNode : Node → Outline
  | .header item => part "Include" item.span (item.path.map ofIdent)
  | .alias item => part "Alias" item.span [ofType item.target, ofIdent item.name]
  | .function item =>
    part "Function" item.span (ofType item.ret :: ofIdent item.name ::
      item.params.flatMap ofParam ++ ofRest item.rest ++ ofStmts (item.body.getD []))
  | .global item => ofVarDecl item

/-- The outlines of the parts of a unit. -/
def ofUnit (unit : SourceUnit) : List Outline := unit.nodes.map ofNode

end Outline

end KilnLang
