import Mathlib.Data.List.ReduceOption
import KilnLang.Proofs.Semantic.Spanless
import KilnLang.Semantic.Check

/-!
# Checking without spans

**Theorem (`SourceUnit.check_unspanned`).** A unit without spans is checked with the same result as
the unit, less the spans, and with the same errors up to spans.

Checking decides by the types of operands, which are read off slots, and by the shapes of operands.
Neither has spans. Completion copies defaults from the declarations, whose spans are the only ones
that come from elsewhere than the part that is checked.
-/

namespace KilnLang

/-! ## Types of operands -/

theorem DottedName.ty_unspanned (name : DottedName) : name.unspanned.ty = name.ty := rfl

mutual

theorem Chain.any_operators_unspanned (p : BinaryOp → Bool) : ∀ c : Chain,
    c.unspanned.operators.any (p ·.op) = c.operators.any (p ·.op)
  | .operand _ => rfl
  | .link _ op rest => congrArg (p op.op || ·) (rest.any_operators_unspanned p)

@[simp] theorem Value.ty_unspanned : ∀ v : Value, v.unspanned.ty = v.ty
  | .ident _ => rfl
  | .call _ _ _ _ _ => rfl
  | .index _ base _ => by rw [Value.unspanned, Value.ty, Value.ty, base.ty_unspanned]
  | .ref _ inner => by rw [Value.unspanned, Value.ty, Value.ty, inner.ty_unspanned]
  | .prefixed _ op inner => by
    cases op <;> simp only [Value.unspanned, Value.ty, inner.ty_unspanned]
  | .suffixed _ _ inner => by rw [Value.unspanned, Value.ty, Value.ty, inner.ty_unspanned]
  | .paren inner => by rw [Value.unspanned, Value.ty, Value.ty, inner.ty_unspanned]
  | .number _ | .decimal _ | .string _ | .char _ | .bool _ _ | .null _ => rfl

@[simp] theorem Expr.ty_unspanned : ∀ e : Expr, e.unspanned.ty = e.ty
  | .mk _ chain => by rw [Expr.unspanned, Expr.ty, Expr.ty, chain.ty_unspanned]

theorem Chain.ty_unspanned : ∀ c : Chain, c.unspanned.ty = c.ty
  | .operand value => by rw [Chain.unspanned, Chain.ty, Chain.ty, value.ty_unspanned]
  | .link value op rest => by
    rw [Chain.unspanned, Chain.ty, Chain.ty, List.any_cons, List.any_cons,
      rest.any_operators_unspanned, value.ty_unspanned, rest.operandTys_unspanned]
    rfl

theorem Chain.operandTys_unspanned : ∀ c : Chain, c.unspanned.operandTys = c.operandTys
  | .operand value => by
    rw [Chain.unspanned, Chain.operandTys, Chain.operandTys, value.ty_unspanned]
  | .link value _ rest => by
    rw [Chain.unspanned, Chain.operandTys, Chain.operandTys, value.ty_unspanned,
      rest.operandTys_unspanned]

end

/-! ## Shapes of operands -/

namespace Value

theorem isAddressable_unspanned : ∀ v : Value, v.unspanned.isAddressable = v.isAddressable
  | .paren (.mk _ (.operand value)) => value.isAddressable_unspanned
  | .paren (.mk _ (.link _ _ _)) => rfl
  | .ident _ | .call _ _ _ _ _ | .index _ _ _ | .ref _ _ | .prefixed _ _ _ | .suffixed _ _ _ => rfl
  | .number _ | .decimal _ | .string _ | .char _ | .bool _ _ | .null _ => rfl

theorem isNull_unspanned (v : Value) : v.unspanned.isNull = v.isNull := by cases v <;> rfl

theorem isRef_unspanned (v : Value) : v.unspanned.isRef = v.isRef := by cases v <;> rfl

theorem isLiteral_unspanned (v : Value) : v.unspanned.isLiteral = v.isLiteral := by
  cases v <;> rfl

theorem describe_unspanned : ∀ v : Value, v.unspanned.describe = v.describe
  | .ref _ inner => inner.describe_unspanned
  | .ident name => congrArg (fun text => s!"`{text}`") name.text_unspanned
  | .call _ name _ _ _ => congrArg (fun text => s!"the result of `{text}`") name.text_unspanned
  | .index _ _ _ | .prefixed _ _ _ | .suffixed _ _ _ | .paren _ => rfl
  | .number _ | .decimal _ | .string _ | .char _ | .bool _ _ | .null _ => rfl

theorem isReferable_unspanned (v : Value) : v.unspanned.isReferable = v.isReferable := by
  simp only [isReferable, isNull_unspanned, isRef_unspanned, isAddressable_unspanned, ty_unspanned]

end Value

@[simp] theorem Expr.span_unspanned : ∀ e : Expr, e.unspanned.span = default
  | .mk _ _ => rfl

@[simp] theorem Value.span_unspanned (v : Value) : v.unspanned.span = default := by
  cases v with
  | paren inner => exact inner.span_unspanned
  | _ => rfl

theorem Expr.single?_unspanned : ∀ e : Expr, e.unspanned.single? = e.single?.map (·.unspanned)
  | .mk _ (.operand _) => rfl
  | .mk _ (.link _ _ _) => rfl

/-! ## Storing -/

namespace Ty

variable (expected : Ty)

theorem reportMisfit_unspanned (found : Ty) (span : Span)
    (fit : Except Ty.Incompatibility Unit) :
    expected.reportMisfit found default fit = (expected.reportMisfit found span fit).unspanned := by
  rcases fit with (_ | position) | _ <;> rfl

theorem storeType_unspanned (found : Ty) (span : Span) :
    expected.storeType found default = (expected.storeType found span).unspanned :=
  expected.reportMisfit_unspanned found span _

theorem storeLiteral_unspanned (v : Value) :
    expected.storeLiteral v.unspanned = (expected.storeLiteral v).unspanned := by
  have haccepts : expected.stripRefs.acceptsLiteral v.unspanned =
      expected.stripRefs.acceptsLiteral v := by cases v <;> rfl
  have htext : v.unspanned.literalTypeText = v.literalTypeText := by
    rw [Value.literalTypeText, Value.literalTypeText, v.isNull_unspanned, v.ty_unspanned]
  rw [storeLiteral, storeLiteral, haccepts, htext, v.span_unspanned, Report.unspanned_errorIf]
  rfl

theorem storeRef_unspanned (v : Value) :
    expected.storeRef v.unspanned = (expected.storeRef v).unspanned := by
  rw [storeRef, storeRef, v.isReferable_unspanned, v.describe_unspanned, v.span_unspanned,
    v.isNull_unspanned, v.ty_unspanned, expected.reportMisfit_unspanned v.ty v.span]
  split
  · rfl
  · split <;> rfl

theorem storeValue_unspanned (v : Value) :
    expected.storeValue v.unspanned = (expected.storeValue v).unspanned := by
  rw [storeValue, storeValue, v.isRef_unspanned, v.isLiteral_unspanned, v.ty_unspanned,
    v.span_unspanned, expected.storeRef_unspanned, expected.storeLiteral_unspanned,
    expected.storeType_unspanned v.ty v.span]
  split
  · rfl
  · split
    · rfl
    · split <;> rfl

theorem store_unspanned (e : Expr) :
    expected.store e.unspanned = (expected.store e).unspanned := by
  rw [store, store, e.single?_unspanned, e.ty_unspanned, e.span_unspanned,
    expected.storeType_unspanned e.ty e.span]
  cases e.single? with
  | none => rfl
  | some v => exact expected.storeValue_unspanned v

end Ty

theorem Rest.storeArgs_unspanned (rest : Rest Ty) : ∀ (params : List Ty) (args : List Expr),
    rest.storeArgs params (Expr.unspannedEach args) = (rest.storeArgs params args).unspanned
  | _, [] => rfl
  | param :: params, arg :: args => by
    rw [Expr.unspannedEach, Rest.storeArgs, Rest.storeArgs, param.store_unspanned,
      Rest.storeArgs_unspanned rest params args, Report.unspanned_bind]
  | [], arg :: args => by
    have ih := Rest.storeArgs_unspanned rest [] args
    cases rest <;>
      simp only [Expr.unspannedEach, Rest.storeArgs, Ty.store_unspanned, ih, Report.unspanned_bind]

/-! ## Calls -/

namespace DeclTable

variable (decls : DeclTable)

theorem defaultsOf_unspanned (id : DeclId) :
    decls.unspanned.defaultsOf id = (decls.defaultsOf id).map (Option.map (·.unspanned)) := by
  unfold defaultsOf unspanned
  rw [List.getElem?_map]
  cases decls[id]? <;> rfl

theorem typeOf_unspanned (id : Option DeclId) : decls.unspanned.typeOf id = decls.typeOf id := by
  cases id with
  | none => rfl
  | some id =>
    simp only [typeOf, unspanned, Option.bind_some, List.getElem?_map, Option.map_map]
    rfl

end DeclTable

theorem Signature.required_unspanned (sig : Signature Ty) (defaults : List (Option Expr)) :
    sig.required (defaults.map (Option.map (·.unspanned))) = sig.required defaults := by
  unfold Signature.required
  rw [List.findIdx?_map]
  simp only [Function.comp_def, Option.isSome_map]

/-- The completion `complete'` copies without spans what `complete` copies. -/
def Completion.Unspanned (complete complete' : Completion) : Prop :=
  ∀ decl written, complete' decl written =
    Expr.unspannedEach <$> (complete decl written).unspanned

namespace Check

variable {decls : DeclTable} {complete complete' : Completion}

theorem defaults_unspanned (target : CallTarget) :
    defaults decls.unspanned target = (defaults decls target).map (Option.map (·.unspanned)) := by
  cases target with
  | function decl sig => exact decls.defaultsOf_unspanned decl
  | _ => rfl

theorem omitted_unspanned (hc : complete.Unspanned complete') (count : Nat)
    (target : CallTarget) :
    omitted complete' count target = Expr.unspannedEach (omitted complete count target) := by
  cases target with
  | function decl sig => exact congrArg Report.value (hc decl count)
  | _ => rfl

theorem arguments_unspanned (hc : complete.Unspanned complete') (span : Span)
    (callee : DottedName) (args : List Expr) (target : CallTarget) :
    arguments decls.unspanned complete' default callee.unspanned (Expr.unspannedEach args) target =
      Expr.unspannedEach <$> (arguments decls complete span callee args target).unspanned := by
  unfold arguments
  cases target.signature? with
  | none => rfl
  | some sig =>
    simp only [defaults_unspanned, Signature.required_unspanned, Expr.length_unspannedEach,
      Rest.storeArgs_unspanned, omitted_unspanned hc, DottedName.text_unspanned]
    split
    · simp only [Report.unspanned_bind, Report.unspanned_pure, map_bind, map_pure]
    · simp only [Report.unspanned_bind, Report.unspanned_pure, Report.unspanned_error, map_bind,
        map_pure]
      rfl

theorem call_unspanned (hc : complete.Unspanned complete') (span : Span) (callee : DottedName)
    (args : List Expr) (target : Option CallTarget) :
    call decls.unspanned complete' default callee.unspanned (Expr.unspannedEach args) target =
      (·.unspanned) <$> (call decls complete span callee args target).unspanned := by
  have happend : ∀ more : List Expr, Expr.unspannedEach args ++ Expr.unspannedEach more =
      Expr.unspannedEach (args ++ more) := by
    intro more
    simp only [Expr.unspannedEach_eq_map, List.map_append]
  unfold call
  cases target with
  | none =>
    simp only [pure_bind, List.append_nil, Report.unspanned_pure, map_pure]
    rfl
  | some target =>
    simp only [arguments_unspanned hc span, Report.unspanned_bind, Report.unspanned_pure, map_bind,
      map_pure, bind_map_left, happend, Expr.length_unspannedEach]
    rfl

mutual

theorem expr_unspanned (hc : complete.Unspanned complete') : ∀ e : Expr,
    expr decls.unspanned complete' e.unspanned =
      (·.unspanned) <$> (expr decls complete e).unspanned
  | .mk _ ops => by
    simp only [Expr.unspanned, expr, chain_unspanned hc ops, Report.unspanned_bind,
      Report.unspanned_pure, map_bind, map_pure, bind_map_left]

theorem chain_unspanned (hc : complete.Unspanned complete') : ∀ c : Chain,
    chain decls.unspanned complete' c.unspanned =
      (·.unspanned) <$> (chain decls complete c).unspanned
  | .operand v => by
    simp only [Chain.unspanned, chain, value_unspanned hc v, Report.unspanned_bind,
      Report.unspanned_pure, map_bind, map_pure, bind_map_left]
  | .link v _ rest => by
    simp only [Chain.unspanned, chain, value_unspanned hc v, chain_unspanned hc rest,
      Report.unspanned_bind, Report.unspanned_pure, map_bind, map_pure, bind_map_left]

theorem value_unspanned (hc : complete.Unspanned complete') : ∀ v : Value,
    value decls.unspanned complete' v.unspanned =
      (·.unspanned) <$> (value decls complete v).unspanned
  | .call span callee args target _ => by
    simp only [Value.unspanned, value, exprs_unspanned hc args, Report.unspanned_bind, map_bind,
      bind_map_left]
    exact bind_congr fun args => call_unspanned hc span callee args target
  | .index _ base position => by
    simp only [Value.unspanned, value, value_unspanned hc base, expr_unspanned hc position,
      Report.unspanned_bind, Report.unspanned_pure, map_bind, map_pure, bind_map_left]
  | .ref _ inner => by
    simp only [Value.unspanned, value, value_unspanned hc inner, Report.unspanned_bind,
      Report.unspanned_pure, Report.unspanned_errorIf, map_bind, map_pure, bind_map_left,
      Value.isAddressable_unspanned, Value.describe_unspanned]
    rfl
  | .prefixed _ _ inner | .suffixed _ _ inner => by
    simp only [Value.unspanned, value, value_unspanned hc inner, Report.unspanned_bind,
      Report.unspanned_pure, map_bind, map_pure, bind_map_left]
  | .paren inner => by
    simp only [Value.unspanned, value, expr_unspanned hc inner, Report.unspanned_bind,
      Report.unspanned_pure, map_bind, map_pure, bind_map_left]
  | .ident _ | .number _ | .decimal _ | .string _ | .char _ | .bool _ _ | .null _ => rfl

theorem exprs_unspanned (hc : complete.Unspanned complete') : ∀ es : List Expr,
    exprs decls.unspanned complete' (Expr.unspannedEach es) =
      Expr.unspannedEach <$> (exprs decls complete es).unspanned
  | [] => rfl
  | e :: es => by
    simp only [Expr.unspannedEach, exprs, expr_unspanned hc e, exprs_unspanned hc es,
      Report.unspanned_bind, Report.unspanned_pure, map_bind, map_pure, bind_map_left]

end

theorem completion_unspanned (depth : Nat) (active : List DeclId) :
    (completion decls depth active).Unspanned (completion decls.unspanned depth active) := by
  induction depth generalizing active with
  | zero => exact fun _ _ => rfl
  | succ depth ih =>
    intro decl written
    have hdefaults : ((decls.unspanned.defaultsOf decl).drop written).reduceOption =
        Expr.unspannedEach ((decls.defaultsOf decl).drop written).reduceOption := by
      rw [decls.defaultsOf_unspanned, ← List.map_drop, List.reduceOption_map,
        Expr.unspannedEach_eq_map]
    simp only [completion, hdefaults]
    split
    · rfl
    · exact exprs_unspanned (ih (decl :: active)) _

theorem complete_unspanned : (Check.complete decls).Unspanned (Check.complete decls.unspanned) := by
  have hlength : decls.unspanned.length = decls.length := List.length_map ..
  unfold Check.complete
  rw [hlength]
  exact completion_unspanned _ []

/-! ## Statements -/

theorem into_unspanned (expected : Ty) (e : Expr) :
    into decls.unspanned expected e.unspanned =
      (·.unspanned) <$> (into decls expected e).unspanned := by
  simp only [into, expr_unspanned complete_unspanned, Ty.store_unspanned, Report.unspanned_bind,
    Report.unspanned_pure, map_bind, map_pure, bind_map_left]

theorem varDecl_unspanned (var : VarDecl) :
    varDecl decls.unspanned var.unspanned =
      (·.unspanned) <$> (varDecl decls var).unspanned := by
  rcases var with ⟨span, ty, name, _ | init, decl⟩
  · rfl
  · simp only [varDecl, VarDecl.unspanned, Option.map_some, decls.typeOf_unspanned, into_unspanned,
      Report.unspanned_bind, Report.unspanned_pure, map_bind, map_pure, bind_map_left]

theorem ret_unspanned (returned : Ty) (span : Span) (e : Option Expr) :
    ret decls.unspanned returned default (e.map (·.unspanned)) =
      Option.map (·.unspanned) <$> (ret decls returned span e).unspanned := by
  cases e with
  | none =>
    simp only [Option.map_none, ret, Report.unspanned_bind, Report.unspanned_pure,
      Report.unspanned_errorIf, map_bind, map_pure]
    rfl
  | some e =>
    simp only [Option.map_some, ret]
    split
    · simp only [expr_unspanned complete_unspanned, Report.unspanned_bind, Report.unspanned_pure,
        Report.unspanned_error, map_bind, map_pure, bind_map_left, Expr.ty_unspanned,
        Expr.span_unspanned, Option.map_some]
      rfl
    · simp only [into_unspanned, Report.unspanned_bind, Report.unspanned_pure, map_bind, map_pure,
        bind_map_left, Option.map_some]

theorem guard_unspanned (g : Guard) :
    guard decls.unspanned g.unspanned = (·.unspanned) <$> (guard decls g).unspanned := by
  cases g with
  | otherwise => rfl
  | _ =>
    simp only [Guard.unspanned, guard, expr_unspanned complete_unspanned, Report.unspanned_bind,
      Report.unspanned_pure, map_bind, map_pure, bind_map_left]

mutual

theorem stmt_unspanned (returned : Ty) : ∀ s : Stmt,
    stmt decls.unspanned returned s.unspanned =
      (·.unspanned) <$> (stmt decls returned s).unspanned
  | .expr e => by
    simp only [Stmt.unspanned, stmt, expr_unspanned complete_unspanned, Report.unspanned_bind,
      Report.unspanned_pure, map_bind, map_pure, bind_map_left]
  | .decl var => by
    simp only [Stmt.unspanned, stmt, varDecl_unspanned, Report.unspanned_bind,
      Report.unspanned_pure, map_bind, map_pure, bind_map_left]
  | .assign _ target none e => by
    simp only [Stmt.unspanned, stmt, value_unspanned complete_unspanned, into_unspanned,
      Value.ty_unspanned, Report.unspanned_bind, Report.unspanned_pure, map_bind, map_pure,
      bind_map_left]
  | .assign _ target (some op) e => by
    simp only [Stmt.unspanned, stmt, value_unspanned complete_unspanned,
      expr_unspanned complete_unspanned, Report.unspanned_bind, Report.unspanned_pure, map_bind,
      map_pure, bind_map_left]
  | .ret span e => by
    simp only [Stmt.unspanned, stmt, ret_unspanned returned span, Report.unspanned_bind,
      Report.unspanned_pure, map_bind, map_pure, bind_map_left]
  | .cond list => by
    simp only [Stmt.unspanned, stmt, branches_unspanned returned list, Report.unspanned_bind,
      Report.unspanned_pure, map_bind, map_pure, bind_map_left]
  | .loop _ cond body => by
    simp only [Stmt.unspanned, stmt, expr_unspanned complete_unspanned,
      stmts_unspanned returned body, Report.unspanned_bind, Report.unspanned_pure, map_bind,
      map_pure, bind_map_left]
  | .block _ body => by
    simp only [Stmt.unspanned, stmt, stmts_unspanned returned body, Report.unspanned_bind,
      Report.unspanned_pure, map_bind, map_pure, bind_map_left]

theorem stmts_unspanned (returned : Ty) : ∀ ss : List Stmt,
    stmts decls.unspanned returned (Stmt.unspannedEach ss) =
      Stmt.unspannedEach <$> (stmts decls returned ss).unspanned
  | [] => rfl
  | s :: ss => by
    simp only [Stmt.unspannedEach, stmts, stmt_unspanned returned s, stmts_unspanned returned ss,
      Report.unspanned_bind, Report.unspanned_pure, map_bind, map_pure, bind_map_left]

theorem branch_unspanned (returned : Ty) : ∀ b : Branch,
    branch decls.unspanned returned b.unspanned =
      (·.unspanned) <$> (branch decls returned b).unspanned
  | .mk _ g body => by
    simp only [Branch.unspanned, branch, guard_unspanned g, stmts_unspanned returned body,
      Report.unspanned_bind, Report.unspanned_pure, map_bind, map_pure, bind_map_left]

theorem branches_unspanned (returned : Ty) : ∀ bs : List Branch,
    branches decls.unspanned returned (Branch.unspannedEach bs) =
      Branch.unspannedEach <$> (branches decls returned bs).unspanned
  | [] => rfl
  | b :: bs => by
    simp only [Branch.unspannedEach, branches, branch_unspanned returned b,
      branches_unspanned returned bs, Report.unspanned_bind, Report.unspanned_pure, map_bind,
      map_pure, bind_map_left]

end

/-! ## Units -/

theorem params_unspanned (ps : List Param) (tys : List Ty) :
    params decls.unspanned (ps.map (·.unspanned)) tys =
      List.map (·.unspanned) <$> (params decls ps tys).unspanned := by
  induction ps generalizing tys with
  | nil => cases tys <;> rfl
  | cons p ps ih =>
    cases tys with
    | nil => rfl
    | cons ty tys =>
      rcases p with ⟨pty, name, _ | e⟩
      · show params _ (⟨pty.unspanned, name.unspanned, none⟩ :: ps.map _) (ty :: tys) = _
        simp only [params, pure_bind, ih, Report.unspanned_bind, Report.unspanned_pure, map_bind,
          map_pure, bind_map_left]
        rfl
      · show params _ (⟨pty.unspanned, name.unspanned, some e.unspanned⟩ :: ps.map _) (ty :: tys) = _
        simp only [params, into_unspanned, pure_bind, ih, Report.unspanned_bind,
          Report.unspanned_pure, map_bind, map_pure, bind_map_left]
        rfl

theorem function_unspanned (item : Function) :
    function decls.unspanned item.unspanned =
      (·.unspanned) <$> (function decls item).unspanned := by
  rcases item with ⟨span, retTy, name, ps, rest, _ | body, decl, _ | sig⟩
  · rfl
  · simp only [Function.unspanned, function, Option.map_none, params_unspanned,
      Report.unspanned_bind, Report.unspanned_pure, map_bind, map_pure, bind_map_left]
  · rfl
  · simp only [Function.unspanned, function, Option.map_some, params_unspanned, stmts_unspanned,
      Report.unspanned_bind, Report.unspanned_pure, map_bind, map_pure, bind_map_left]

theorem node_unspanned (n : Node) :
    node decls.unspanned n.unspanned = (·.unspanned) <$> (node decls n).unspanned := by
  cases n with
  | function item =>
    have hitem : (Node.function item).unspanned = .function item.unspanned := rfl
    simp only [hitem, node, function_unspanned, Report.unspanned_bind, Report.unspanned_pure,
      map_bind, map_pure, bind_map_left]
    rfl
  | global item =>
    simp only [Node.unspanned, node, varDecl_unspanned, Report.unspanned_bind,
      Report.unspanned_pure, map_bind, map_pure, bind_map_left]
  | _ => rfl

theorem nodes_unspanned (ns : List Node) :
    nodes decls.unspanned (ns.map (·.unspanned)) =
      List.map (·.unspanned) <$> (nodes decls ns).unspanned := by
  induction ns with
  | nil => rfl
  | cons n ns ih =>
    simp only [List.map_cons, nodes, node_unspanned, ih, Report.unspanned_bind,
      Report.unspanned_pure, map_bind, map_pure, bind_map_left]

end Check

/-- **Checking does not depend on spans.** A unit without spans is checked to the same unit without
spans, with the same errors up to spans. -/
theorem SourceUnit.check_unspanned (unit : SourceUnit) (context : SemanticContext) :
    unit.unspanned.check context.unspanned = (·.unspanned) <$> (unit.check context).unspanned := by
  simp only [SourceUnit.check, SourceUnit.unspanned, SemanticContext.unspanned,
    Check.nodes_unspanned, Report.unspanned_bind, Report.unspanned_pure, map_bind, map_pure,
    bind_map_left]

end KilnLang
