import KilnLang.Syntax

/-!
# Slots

A pass over a tree fills slots and leaves the rest as it is. `refill` changes all slots of a tree
in the same way: **emptying** them leaves what was written, and **renumbering** changes only the
numbers of declarations.
-/

namespace KilnLang

/-- A change of the slots of a tree, by their kinds. -/
structure Slots where
  type : TypeExpr → TypeExpr
  resolved : Option Resolution → Option Resolution
  target : Option CallTarget → Option CallTarget
  decl : Option DeclId → Option DeclId
  sig : Option (Signature Ty) → Option (Signature Ty)

/-! ## Trees -/

/-- The name with its slot changed. -/
def DottedName.refill (f : Slots) (n : DottedName) : DottedName :=
  { n with resolved := f.resolved n.resolved }

mutual

/-- The expression with its slots changed. -/
def Expr.refill (f : Slots) : Expr → Expr
  | .mk span chain => .mk span (chain.refill f)

/-- The operands with their slots changed. -/
def Chain.refill (f : Slots) : Chain → Chain
  | .operand value => .operand (value.refill f)
  | .link value op rest => .link (value.refill f) op (rest.refill f)

/-- The operand with its slots changed. -/
def Value.refill (f : Slots) : Value → Value
  | .ident name => .ident (name.refill f)
  | .call span callee args target defaulted =>
    .call span (callee.refill f) (Value.refillEach f args) (f.target target) defaulted
  | .index span base position => .index span (base.refill f) (position.refill f)
  | .ref span inner => .ref span (inner.refill f)
  | .prefixed span op inner => .prefixed span op (inner.refill f)
  | .suffixed span op inner => .suffixed span op (inner.refill f)
  | .paren inner => .paren (inner.refill f)
  | .number lit => .number lit
  | .decimal lit => .decimal lit
  | .string lit => .string lit
  | .char lit => .char lit
  | .bool span b => .bool span b
  | .null span => .null span

/-- The expressions with their slots changed. -/
def Value.refillEach (f : Slots) : List Expr → List Expr
  | [] => []
  | e :: es => e.refill f :: Value.refillEach f es

end

/-- The variable with its slots changed. -/
def VarDecl.refill (f : Slots) (var : VarDecl) : VarDecl :=
  { var with ty := f.type var.ty, init := var.init.map (·.refill f), decl := f.decl var.decl }

/-- The guard with its slots changed. -/
def Guard.refill (f : Slots) : Guard → Guard
  | .first cond => .first (cond.refill f)
  | .next cond => .next (cond.refill f)
  | .otherwise => .otherwise

mutual

/-- The statement with its slots changed. -/
def Stmt.refill (f : Slots) : Stmt → Stmt
  | .expr value => .expr (value.refill f)
  | .decl var => .decl (var.refill f)
  | .assign span target op value => .assign span (target.refill f) op (value.refill f)
  | .ret span value => .ret span (value.map (·.refill f))
  | .cond list => .cond (Branch.refillEach f list)
  | .loop span cond body => .loop span (cond.refill f) (Stmt.refillEach f body)
  | .block span body => .block span (Stmt.refillEach f body)

/-- The statements with their slots changed. -/
def Stmt.refillEach (f : Slots) : List Stmt → List Stmt
  | [] => []
  | s :: ss => s.refill f :: Stmt.refillEach f ss

/-- The branch with its slots changed. -/
def Branch.refill (f : Slots) : Branch → Branch
  | .mk span guard body => .mk span (guard.refill f) (Stmt.refillEach f body)

/-- The branches with their slots changed. -/
def Branch.refillEach (f : Slots) : List Branch → List Branch
  | [] => []
  | b :: bs => b.refill f :: Branch.refillEach f bs

end

/-- The parameter with its slots changed. -/
def Param.refill (f : Slots) (p : Param) : Param :=
  { p with ty := f.type p.ty, default := p.default.map (·.refill f) }

/-- The type of further arguments with its slots changed. -/
def Rest.refill (f : Slots) : Rest TypeExpr → Rest TypeExpr
  | .none => .none
  | .untyped => .untyped
  | .typed elem => .typed (f.type elem)

/-- The function with its slots changed. -/
def Function.refill (f : Slots) (item : Function) : Function :=
  { item with
    ret := f.type item.ret
    params := item.params.map (·.refill f)
    rest := Rest.refill f item.rest
    body := item.body.map (Stmt.refillEach f)
    decl := f.decl item.decl
    sig := f.sig item.sig }

/-- The part of a unit with its slots changed. -/
def Node.refill (f : Slots) : Node → Node
  | .header item => .header item
  | .alias item => .alias { item with target := f.type item.target }
  | .function item => .function (item.refill f)
  | .global item => .global (item.refill f)

/-! ## Changes one after the other -/

/-- The change that leaves all slots as they are. -/
def Slots.unchanged : Slots := ⟨id, id, id, id, id⟩

/-- The change `g`, then the change `f`. -/
def Slots.comp (f g : Slots) : Slots where
  type := f.type ∘ g.type
  resolved := f.resolved ∘ g.resolved
  target := f.target ∘ g.target
  decl := f.decl ∘ g.decl
  sig := f.sig ∘ g.sig

section Changes

variable {f g : Slots}

mutual

theorem Expr.refill_unchanged : ∀ e : Expr, e.refill .unchanged = e
  | .mk _ chain => by rw [Expr.refill, chain.refill_unchanged]

theorem Chain.refill_unchanged : ∀ c : Chain, c.refill .unchanged = c
  | .operand value => by rw [Chain.refill, value.refill_unchanged]
  | .link value _ rest => by rw [Chain.refill, value.refill_unchanged, rest.refill_unchanged]

theorem Value.refill_unchanged : ∀ v : Value, v.refill .unchanged = v
  | .ident _ => rfl
  | .call _ _ args _ _ => by
    rw [Value.refill, Value.refillEach_unchanged args]
    rfl
  | .index _ base position => by
    rw [Value.refill, base.refill_unchanged, position.refill_unchanged]
  | .ref _ inner | .prefixed _ _ inner | .suffixed _ _ inner => by
    rw [Value.refill, inner.refill_unchanged]
  | .paren inner => by rw [Value.refill, inner.refill_unchanged]
  | .number _ | .decimal _ | .string _ | .char _ | .bool _ _ | .null _ => rfl

theorem Value.refillEach_unchanged : ∀ es : List Expr, Value.refillEach .unchanged es = es
  | [] => rfl
  | e :: es => by rw [Value.refillEach, e.refill_unchanged, Value.refillEach_unchanged es]

end

mutual

theorem Expr.refill_refill : ∀ e : Expr, (e.refill g).refill f = e.refill (f.comp g)
  | .mk _ chain => by rw [Expr.refill, Expr.refill, Expr.refill, chain.refill_refill]

theorem Chain.refill_refill : ∀ c : Chain, (c.refill g).refill f = c.refill (f.comp g)
  | .operand value => by rw [Chain.refill, Chain.refill, Chain.refill, value.refill_refill]
  | .link value _ rest => by
    rw [Chain.refill, Chain.refill, Chain.refill, value.refill_refill, rest.refill_refill]

theorem Value.refill_refill : ∀ v : Value, (v.refill g).refill f = v.refill (f.comp g)
  | .ident _ => rfl
  | .call _ _ args _ _ => by
    rw [Value.refill, Value.refill, Value.refill, Value.refillEach_refillEach args]
    rfl
  | .index _ base position => by
    rw [Value.refill, Value.refill, Value.refill, base.refill_refill, position.refill_refill]
  | .ref _ inner | .prefixed _ _ inner | .suffixed _ _ inner => by
    rw [Value.refill, Value.refill, Value.refill, inner.refill_refill]
  | .paren inner => by rw [Value.refill, Value.refill, Value.refill, inner.refill_refill]
  | .number _ | .decimal _ | .string _ | .char _ | .bool _ _ | .null _ => rfl

theorem Value.refillEach_refillEach : ∀ es : List Expr,
    Value.refillEach f (Value.refillEach g es) = Value.refillEach (f.comp g) es
  | [] => rfl
  | e :: es => by
    rw [Value.refillEach, Value.refillEach, Value.refillEach, e.refill_refill,
      Value.refillEach_refillEach es]

end

theorem VarDecl.refill_unchanged (var : VarDecl) : var.refill .unchanged = var := by
  simp only [VarDecl.refill, Expr.refill_unchanged, Option.map_id']
  rfl

theorem VarDecl.refill_refill (var : VarDecl) : (var.refill g).refill f = var.refill (f.comp g) := by
  simp [VarDecl.refill, Function.comp_def, Expr.refill_refill, Slots.comp]

theorem Guard.refill_unchanged (g : Guard) : g.refill .unchanged = g := by
  cases g <;> simp [Guard.refill, Expr.refill_unchanged]

theorem Guard.refill_refill (guard : Guard) :
    (guard.refill g).refill f = guard.refill (f.comp g) := by
  cases guard <;> simp [Guard.refill, Expr.refill_refill]

mutual

theorem Stmt.refill_unchanged : ∀ s : Stmt, s.refill .unchanged = s
  | .expr value => by rw [Stmt.refill, value.refill_unchanged]
  | .decl var => by rw [Stmt.refill, var.refill_unchanged]
  | .assign _ target _ value => by
    rw [Stmt.refill, target.refill_unchanged, value.refill_unchanged]
  | .ret _ value => by simp [Stmt.refill, Expr.refill_unchanged]
  | .cond list => by rw [Stmt.refill, Branch.refillEach_unchanged list]
  | .loop _ cond body => by
    rw [Stmt.refill, cond.refill_unchanged, Stmt.refillEach_unchanged body]
  | .block _ body => by rw [Stmt.refill, Stmt.refillEach_unchanged body]

theorem Stmt.refillEach_unchanged : ∀ ss : List Stmt, Stmt.refillEach .unchanged ss = ss
  | [] => rfl
  | s :: ss => by rw [Stmt.refillEach, s.refill_unchanged, Stmt.refillEach_unchanged ss]

theorem Branch.refill_unchanged : ∀ b : Branch, b.refill .unchanged = b
  | .mk _ guard body => by
    rw [Branch.refill, guard.refill_unchanged, Stmt.refillEach_unchanged body]

theorem Branch.refillEach_unchanged : ∀ bs : List Branch, Branch.refillEach .unchanged bs = bs
  | [] => rfl
  | b :: bs => by rw [Branch.refillEach, b.refill_unchanged, Branch.refillEach_unchanged bs]

end

mutual

theorem Stmt.refill_refill : ∀ s : Stmt, (s.refill g).refill f = s.refill (f.comp g)
  | .expr value => by rw [Stmt.refill, Stmt.refill, Stmt.refill, value.refill_refill]
  | .decl var => by rw [Stmt.refill, Stmt.refill, Stmt.refill, var.refill_refill]
  | .assign _ target _ value => by
    rw [Stmt.refill, Stmt.refill, Stmt.refill, target.refill_refill, value.refill_refill]
  | .ret _ value => by simp [Stmt.refill, Function.comp_def, Expr.refill_refill]
  | .cond list => by
    rw [Stmt.refill, Stmt.refill, Stmt.refill, Branch.refillEach_refillEach list]
  | .loop _ cond body => by
    rw [Stmt.refill, Stmt.refill, Stmt.refill, cond.refill_refill, Stmt.refillEach_refillEach body]
  | .block _ body => by
    rw [Stmt.refill, Stmt.refill, Stmt.refill, Stmt.refillEach_refillEach body]

theorem Stmt.refillEach_refillEach : ∀ ss : List Stmt,
    Stmt.refillEach f (Stmt.refillEach g ss) = Stmt.refillEach (f.comp g) ss
  | [] => rfl
  | s :: ss => by
    rw [Stmt.refillEach, Stmt.refillEach, Stmt.refillEach, s.refill_refill,
      Stmt.refillEach_refillEach ss]

theorem Branch.refill_refill : ∀ b : Branch, (b.refill g).refill f = b.refill (f.comp g)
  | .mk _ guard body => by
    rw [Branch.refill, Branch.refill, Branch.refill, guard.refill_refill,
      Stmt.refillEach_refillEach body]

theorem Branch.refillEach_refillEach : ∀ bs : List Branch,
    Branch.refillEach f (Branch.refillEach g bs) = Branch.refillEach (f.comp g) bs
  | [] => rfl
  | b :: bs => by
    rw [Branch.refillEach, Branch.refillEach, Branch.refillEach, b.refill_refill,
      Branch.refillEach_refillEach bs]

end

theorem Node.refill_unchanged (n : Node) : n.refill .unchanged = n := by
  cases n with
  | function item =>
    have hrest : Rest.refill .unchanged item.rest = item.rest := by cases item.rest <;> rfl
    have hparams : item.params.map (·.refill .unchanged) = item.params := by
      simp only [Param.refill, Expr.refill_unchanged, Option.map_id']
      exact List.map_id _
    simp only [Node.refill, Function.refill, hrest, hparams, funext Stmt.refillEach_unchanged,
      Option.map_id']
    rfl
  | global item => rw [Node.refill, item.refill_unchanged]
  | _ => rfl

theorem Node.refill_refill (n : Node) : (n.refill g).refill f = n.refill (f.comp g) := by
  cases n with
  | function item =>
    have hrest : Rest.refill f (Rest.refill g item.rest) = Rest.refill (f.comp g) item.rest := by
      cases item.rest <;> rfl
    have hparams : (item.params.map (·.refill g)).map (·.refill f) =
        item.params.map (·.refill (f.comp g)) := by
      simp [Param.refill, Function.comp_def, Expr.refill_refill, Slots.comp]
    simp only [Node.refill, Function.refill, hrest, hparams, Option.map_map, Function.comp_def,
      Stmt.refillEach_refillEach]
    rfl
  | global item => rw [Node.refill, Node.refill, Node.refill, item.refill_refill]
  | _ => rfl

end Changes

/-! ## Emptying -/

namespace TypeExpr

mutual

/-- The type as it was written. -/
def bare : TypeExpr → TypeExpr
  | .named name => .named { name with resolved := none }
  | .ref span inner => .ref span inner.bare
  | .array span elem length => .array span elem.bare length
  | .func span sig => .func span (bareSignature sig)

/-- The signature as it was written. -/
def bareSignature : Signature TypeExpr → Signature TypeExpr
  | ⟨ret, params, rest⟩ => ⟨ret.bare, bareEach params, bareRest rest⟩

/-- The types as they were written. -/
def bareEach : List TypeExpr → List TypeExpr
  | [] => []
  | t :: ts => t.bare :: bareEach ts

/-- The type of further arguments as it was written. -/
def bareRest : Rest TypeExpr → Rest TypeExpr
  | .none => .none
  | .untyped => .untyped
  | .typed elem => .typed elem.bare

end

end TypeExpr

/-- Empties all slots. -/
def Slots.emptied : Slots where
  type := TypeExpr.bare
  resolved _ := none
  target _ := none
  decl _ := none
  sig _ := none

end KilnLang
