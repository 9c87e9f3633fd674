import KilnLang.Semantic.Check

/-!
# Storing does not look at arguments

What can be stored where depends on types, spans and kinds of operands. None of these depends on the
arguments of calls, which are all that checking and completion change.

`Expr.withoutArgs` leaves the arguments of all calls out. Storing an expression is storing it without
arguments (`Ty.store_withoutArgs`), and checking an expression keeps what it is without arguments
(`Check.withoutArgs_expr`).
-/

namespace KilnLang

mutual

/-- The expression with no arguments in its calls. -/
def Expr.withoutArgs : Expr → Expr
  | .mk span chain => .mk span chain.withoutArgs

/-- The chain with no arguments in its calls. -/
def Chain.withoutArgs : Chain → Chain
  | .operand v => .operand v.withoutArgs
  | .link v op rest => .link v.withoutArgs op rest.withoutArgs

/-- The operand with no arguments in its calls. -/
def Value.withoutArgs : Value → Value
  | .call span callee _ target _ => .call span callee [] target 0
  | .index span base position => .index span base.withoutArgs position.withoutArgs
  | .ref span inner => .ref span inner.withoutArgs
  | .prefixed span op inner => .prefixed span op inner.withoutArgs
  | .suffixed span op inner => .suffixed span op inner.withoutArgs
  | .paren inner => .paren inner.withoutArgs
  | v => v

end

/-! ## Storing -/

mutual

theorem Expr.ty_withoutArgs : ∀ e : Expr, e.withoutArgs.ty = e.ty
  | .mk _ chain => by rw [Expr.withoutArgs, Expr.ty, Expr.ty, chain.ty_withoutArgs]

theorem Chain.ty_withoutArgs : ∀ c : Chain, c.withoutArgs.ty = c.ty
  | .operand v => by rw [Chain.withoutArgs, Chain.ty, Chain.ty, v.ty_withoutArgs]
  | .link v op rest => by
    rw [Chain.withoutArgs, Chain.ty, Chain.ty, v.ty_withoutArgs, rest.operators_withoutArgs,
      rest.operandTys_withoutArgs]

theorem Chain.operators_withoutArgs : ∀ c : Chain, c.withoutArgs.operators = c.operators
  | .operand _ => rfl
  | .link _ _ rest => by
    rw [Chain.withoutArgs, Chain.operators, Chain.operators, rest.operators_withoutArgs]

theorem Chain.operandTys_withoutArgs : ∀ c : Chain, c.withoutArgs.operandTys = c.operandTys
  | .operand v => by rw [Chain.withoutArgs, Chain.operandTys, Chain.operandTys, v.ty_withoutArgs]
  | .link v _ rest => by
    rw [Chain.withoutArgs, Chain.operandTys, Chain.operandTys, v.ty_withoutArgs,
      rest.operandTys_withoutArgs]

theorem Value.ty_withoutArgs : ∀ v : Value, v.withoutArgs.ty = v.ty
  | .call _ _ _ _ _ => by rw [Value.withoutArgs, Value.ty, Value.ty]
  | .index _ base _ => by rw [Value.withoutArgs, Value.ty, Value.ty, base.ty_withoutArgs]
  | .ref _ inner => by rw [Value.withoutArgs, Value.ty, Value.ty, inner.ty_withoutArgs]
  | .prefixed _ op inner => by
    cases op <;> simp only [Value.withoutArgs, Value.ty, inner.ty_withoutArgs]
  | .suffixed _ _ inner => by rw [Value.withoutArgs, Value.ty, Value.ty, inner.ty_withoutArgs]
  | .paren inner => by rw [Value.withoutArgs, Value.ty, Value.ty, inner.ty_withoutArgs]
  | .number _ | .decimal _ | .string _ | .char _ | .bool _ _ | .null _ | .ident _ => rfl

end

namespace Value

theorem span_withoutArgs (v : Value) : v.withoutArgs.span = v.span := by
  cases v with
  | paren inner =>
    cases inner
    rfl
  | _ => rfl

theorem isAddressable_withoutArgs : ∀ v : Value, v.withoutArgs.isAddressable = v.isAddressable
  | .paren (.mk _ (.operand v)) => v.isAddressable_withoutArgs
  | .paren (.mk _ (.link _ _ _)) => rfl
  | .call _ _ _ _ _ | .index _ _ _ | .ref _ _ | .prefixed _ _ _ | .suffixed _ _ _ => rfl
  | .number _ | .decimal _ | .string _ | .char _ | .bool _ _ | .null _ | .ident _ => rfl

theorem describe_withoutArgs : ∀ v : Value, v.withoutArgs.describe = v.describe
  | .ref _ inner => inner.describe_withoutArgs
  | .call _ _ _ _ _ | .index _ _ _ | .prefixed _ _ _ | .suffixed _ _ _ | .paren _ => rfl
  | .number _ | .decimal _ | .string _ | .char _ | .bool _ _ | .null _ | .ident _ => rfl

end Value

namespace Ty

theorem storeValue_withoutArgs (expected : Ty) (v : Value) :
    expected.storeValue v.withoutArgs = expected.storeValue v := by
  have hshape : v.withoutArgs = v ∨ v.withoutArgs.isLiteral = false ∧ v.isLiteral = false ∧
      v.withoutArgs.isNull = v.isNull ∧ v.withoutArgs.isRef = v.isRef := by
    cases v with
    | call | index | ref | prefixed | suffixed | paren => exact .inr ⟨rfl, rfl, rfl, rfl⟩
    | _ => exact .inl rfl
  rcases hshape with heq | ⟨hliteral', hliteral, hnull, href⟩
  · rw [heq]
  · simp only [storeValue, storeRef, Value.isReferable, hliteral', hliteral, hnull, href,
      v.ty_withoutArgs, v.span_withoutArgs, v.isAddressable_withoutArgs, v.describe_withoutArgs,
      Bool.false_eq_true, if_false]
    rfl

/-- Storing an expression is storing it without the arguments of its calls. -/
theorem store_withoutArgs (expected : Ty) (e : Expr) :
    expected.store e.withoutArgs = expected.store e := by
  have hty := e.ty_withoutArgs
  cases e with
  | mk span c =>
    cases c with
    | operand v => exact expected.storeValue_withoutArgs v
    | link v op rest =>
      show expected.storeType (Expr.mk span (.link v op rest)).withoutArgs.ty span = _
      rw [hty]
      rfl

end Ty

/-- Arguments are checked without their own arguments. -/
theorem Rest.storeArgs_withoutArgs (rest : Rest Ty) (params : List Ty) (args : List Expr) :
    rest.storeArgs params (args.map (·.withoutArgs)) = rest.storeArgs params args := by
  induction args generalizing params with
  | nil => rfl
  | cons arg args ih =>
    cases params with
    | nil =>
      cases rest <;> simp only [List.map_cons, Rest.storeArgs, Ty.store_withoutArgs, ih]
    | cons param params =>
      simp only [List.map_cons, Rest.storeArgs, Ty.store_withoutArgs, ih]

/-! ## Checking -/

namespace Check

variable {decls : DeclTable} {complete : Completion}

mutual

/-- Checking changes nothing but the arguments of calls. -/
theorem withoutArgs_expr : ∀ e : Expr, (expr decls complete e).value.withoutArgs = e.withoutArgs
  | .mk span c => by
    simp only [expr, Report.value_bind, Report.value_pure, Expr.withoutArgs, withoutArgs_chain c]

theorem withoutArgs_chain : ∀ c : Chain,
    (chain decls complete c).value.withoutArgs = c.withoutArgs
  | .operand v => by
    simp only [chain, Report.value_bind, Report.value_pure, Chain.withoutArgs, withoutArgs_value v]
  | .link v op rest => by
    simp only [chain, Report.value_bind, Report.value_pure, Chain.withoutArgs, withoutArgs_value v,
      withoutArgs_chain rest]

theorem withoutArgs_value : ∀ v : Value,
    (value decls complete v).value.withoutArgs = v.withoutArgs
  | .call _ _ _ target _ => by
    simp only [value, call, Report.value_bind, Value.withoutArgs]
    cases target <;> simp only [Report.value_bind, Report.value_pure, Value.withoutArgs]
  | .index _ base position => by
    simp only [value, Report.value_bind, Report.value_pure, Value.withoutArgs,
      withoutArgs_value base, withoutArgs_expr position]
  | .ref _ inner => by
    simp only [value, Report.value_bind, Report.value_pure, Value.withoutArgs,
      withoutArgs_value inner]
  | .prefixed _ _ inner => by
    simp only [value, Report.value_bind, Report.value_pure, Value.withoutArgs,
      withoutArgs_value inner]
  | .suffixed _ _ inner => by
    simp only [value, Report.value_bind, Report.value_pure, Value.withoutArgs,
      withoutArgs_value inner]
  | .paren inner => by
    simp only [value, Report.value_bind, Report.value_pure, Value.withoutArgs,
      withoutArgs_expr inner]
  | .number _ | .decimal _ | .string _ | .char _ | .bool _ _ | .null _ | .ident _ => rfl

end

theorem withoutArgs_exprs (es : List Expr) :
    (exprs decls complete es).value.map (·.withoutArgs) = es.map (·.withoutArgs) := by
  induction es with
  | nil => rfl
  | cons e es ih =>
    simp only [exprs, Report.value_bind, Report.value_pure, List.map_cons, withoutArgs_expr e, ih]

theorem isAddressable_value (v : Value) :
    (value decls complete v).value.isAddressable = v.isAddressable := by
  rw [← Value.isAddressable_withoutArgs, withoutArgs_value, v.isAddressable_withoutArgs]

theorem ty_value (v : Value) : (value decls complete v).value.ty = v.ty := by
  rw [← Value.ty_withoutArgs, withoutArgs_value, v.ty_withoutArgs]

theorem describe_value (v : Value) : (value decls complete v).value.describe = v.describe := by
  rw [← Value.describe_withoutArgs, withoutArgs_value, v.describe_withoutArgs]

/-- A checked expression fits where the written one does. -/
theorem store_expr (t : Ty) (e : Expr) : t.store (expr decls complete e).value = t.store e := by
  rw [← t.store_withoutArgs, withoutArgs_expr, t.store_withoutArgs]

/-- Checked arguments fit where the written ones do. -/
theorem storeArgs_exprs (rest : Rest Ty) (params : List Ty) (args : List Expr) :
    rest.storeArgs params (exprs decls complete args).value = rest.storeArgs params args := by
  rw [← rest.storeArgs_withoutArgs, withoutArgs_exprs, rest.storeArgs_withoutArgs]

end Check

end KilnLang
