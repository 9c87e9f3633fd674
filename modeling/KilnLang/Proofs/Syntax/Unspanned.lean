import KilnLang.Syntax

/-!
# Trees without spans

`unspanned` replaces all spans of a tree by the same one, so that two trees are equal afterwards
if and only if they differ in nothing but the places of their parts in a text.
-/

namespace KilnLang

/-! ## Names and types -/

/-- The name without its span. -/
def Ident.unspanned (name : Ident) : Ident := { name with span := default }

/-- The dotted name without spans. -/
def DottedName.unspanned (name : DottedName) : DottedName :=
  { name with span := default, parts := name.parts.map (·.unspanned) }

mutual

/-- The type without spans. -/
def TypeExpr.unspanned : TypeExpr → TypeExpr
  | .named name => .named name.unspanned
  | .ref _ inner => .ref default inner.unspanned
  | .array _ elem length => .array default elem.unspanned length
  | .func _ sig => .func default (Signature.unspanned sig)

/-- The signature without spans. -/
def Signature.unspanned : Signature TypeExpr → Signature TypeExpr
  | ⟨ret, params, rest⟩ => ⟨ret.unspanned, TypeExpr.unspannedEach params, Rest.unspanned rest⟩

/-- The types without spans. -/
def TypeExpr.unspannedEach : List TypeExpr → List TypeExpr
  | [] => []
  | ty :: more => ty.unspanned :: TypeExpr.unspannedEach more

/-- What may follow parameters, without spans. -/
def Rest.unspanned : Rest TypeExpr → Rest TypeExpr
  | .none => .none
  | .untyped => .untyped
  | .typed elem => .typed elem.unspanned

end

/-! ## Expressions -/

/-- The literal without its span. -/
def Literal.unspanned (lit : Literal) : Literal := { lit with span := default }

/-- The operator without its span. -/
def Operator.unspanned (op : Operator) : Operator := { op with span := default }

mutual

/-- The expression without spans. -/
def Expr.unspanned : Expr → Expr
  | .mk _ chain => .mk default chain.unspanned

/-- The operands and operators without spans. -/
def Chain.unspanned : Chain → Chain
  | .operand value => .operand value.unspanned
  | .link value op rest => .link value.unspanned op.unspanned rest.unspanned

/-- The operand without spans. -/
def Value.unspanned : Value → Value
  | .number lit => .number lit.unspanned
  | .decimal lit => .decimal lit.unspanned
  | .string lit => .string lit.unspanned
  | .char lit => .char lit.unspanned
  | .bool _ value => .bool default value
  | .null _ => .null default
  | .ident name => .ident name.unspanned
  | .call _ callee args target defaulted =>
    .call default callee.unspanned (Expr.unspannedEach args) target defaulted
  | .index _ base position => .index default base.unspanned position.unspanned
  | .ref _ inner => .ref default inner.unspanned
  | .prefixed _ op value => .prefixed default op value.unspanned
  | .suffixed _ op value => .suffixed default op value.unspanned
  | .paren inner => .paren inner.unspanned

/-- The expressions without spans. -/
def Expr.unspannedEach : List Expr → List Expr
  | [] => []
  | e :: more => e.unspanned :: Expr.unspannedEach more

end

/-! ## Statements -/

/-- The variable without spans. -/
def VarDecl.unspanned (var : VarDecl) : VarDecl :=
  { var with
    span := default
    ty := var.ty.unspanned
    name := var.name.unspanned
    init := var.init.map (·.unspanned) }

/-- The guard without spans. -/
def Guard.unspanned : Guard → Guard
  | .first cond => .first cond.unspanned
  | .next cond => .next cond.unspanned
  | .otherwise => .otherwise

mutual

/-- The statement without spans. -/
def Stmt.unspanned : Stmt → Stmt
  | .expr value => .expr value.unspanned
  | .decl var => .decl var.unspanned
  | .assign _ target op value => .assign default target.unspanned op value.unspanned
  | .ret _ value => .ret default (value.map (·.unspanned))
  | .cond branches => .cond (Branch.unspannedEach branches)
  | .loop _ cond body => .loop default cond.unspanned (Stmt.unspannedEach body)
  | .block _ body => .block default (Stmt.unspannedEach body)

/-- The statements without spans. -/
def Stmt.unspannedEach : List Stmt → List Stmt
  | [] => []
  | s :: more => s.unspanned :: Stmt.unspannedEach more

/-- The branch without spans. -/
def Branch.unspanned : Branch → Branch
  | .mk _ guard body => .mk default guard.unspanned (Stmt.unspannedEach body)

/-- The branches without spans. -/
def Branch.unspannedEach : List Branch → List Branch
  | [] => []
  | b :: more => b.unspanned :: Branch.unspannedEach more

end

/-! ## Units -/

/-- The parameter without spans. -/
def Param.unspanned (p : Param) : Param :=
  { ty := p.ty.unspanned, name := p.name.unspanned, default := p.default.map (·.unspanned) }

/-- The part of a unit without spans. -/
def Node.unspanned : Node → Node
  | .header item =>
    .header { item with span := default, path := item.path.map (·.unspanned) }
  | .alias item => .alias ⟨default, item.target.unspanned, item.name.unspanned⟩
  | .function item =>
    .function { item with
      span := default
      ret := item.ret.unspanned
      name := item.name.unspanned
      params := item.params.map (·.unspanned)
      rest := Rest.unspanned item.rest
      body := item.body.map Stmt.unspannedEach }
  | .global var => .global var.unspanned

/-- The unit without spans. -/
def SourceUnit.unspanned (u : SourceUnit) : SourceUnit :=
  { u with nodes := u.nodes.map (·.unspanned) }

end KilnLang
