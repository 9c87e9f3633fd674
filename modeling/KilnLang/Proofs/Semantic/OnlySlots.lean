import KilnLang.Analysis
import KilnLang.Proofs.Header.Caching
import KilnLang.Proofs.Semantic.Annotation
import KilnLang.Proofs.Semantic.Completion
import KilnLang.Proofs.Syntax.Plain

/-!
# Passes only fill slots

**Theorem (`passes_only_fill_slots`).** Take a parsed unit through the passes, whether they find
errors or not. What was written can be read off the tree after each of them: emptying the slots,
detaching the tables of headers and removing the copies of defaults gives the parsed unit.

Resolution keeps the tree up to slots (`SourceUnit.refill_resolve`), and unlike `bare_resolve` this
does not need that it succeeds: a step gives a tree whatever it reports. Checking keeps slots and appends copies
to calls, and counts them, so what it appends can be removed again (`Check.written_value`). It counts
only its own copies, so here the calls of the unit must have none yet.
-/

namespace KilnLang

/-! ## Resolution -/

namespace Env

variable {env : Env}

theorem refill_ident (name : DottedName) :
    (env.ident name).value.refill .emptied = name.refill .emptied := by
  simp only [ident, Report.value_bind]
  cases (env.find name).value with
  | none => rfl
  | some found =>
    dsimp only
    split <;> rfl

theorem refill_callee (name : DottedName) (count : Nat) (span : Span) :
    (env.callee name count span).value.1.refill .emptied = name.refill .emptied := by
  simp only [callee, Report.value_bind]
  cases (env.find name).value with
  | none => rfl
  | some found => rfl

mutual

theorem refill_expr : ∀ e : Expr, (env.expr e).value.refill .emptied = e.refill .emptied
  | .mk span ops => by
    simp only [expr, Report.value_bind, Report.value_pure, Expr.refill, refill_chain ops]

theorem refill_chain : ∀ c : Chain, (env.chain c).value.refill .emptied = c.refill .emptied
  | .operand v => by
    simp only [chain, Report.value_bind, Report.value_pure, Chain.refill, refill_value v]
  | .link v op rest => by
    simp only [chain, Report.value_bind, Report.value_pure, Chain.refill, refill_value v,
      refill_chain rest]

theorem refill_value : ∀ v : Value, (env.value v).value.refill .emptied = v.refill .emptied
  | .ident name => by
    simp only [value, Report.value_bind, Report.value_pure, Value.refill, refill_ident]
  | .call span name args target defaulted => by
    simp only [value, Report.value_bind, Report.value_pure, Value.refill, refill_callee,
      refill_exprs args]
    rfl
  | .index span base position => by
    simp only [value, Report.value_bind, Report.value_pure, Value.refill, refill_value base,
      refill_expr position]
  | .ref _ inner | .prefixed _ _ inner | .suffixed _ _ inner => by
    simp only [value, Report.value_bind, Report.value_pure, Value.refill, refill_value inner]
  | .paren inner => by
    simp only [value, Report.value_bind, Report.value_pure, Value.refill, refill_expr inner]
  | .number _ | .decimal _ | .string _ | .char _ | .bool _ _ | .null _ => rfl

theorem refill_exprs : ∀ es : List Expr,
    Value.refillEach .emptied (env.exprs es).value = Value.refillEach .emptied es
  | [] => rfl
  | e :: es => by
    simp only [exprs, Report.value_bind, Report.value_pure, Value.refillEach, refill_expr e,
      refill_exprs es]

end

theorem refill_expr? (e : Option Expr) :
    (env.expr? e).value.map (·.refill .emptied) = e.map (·.refill .emptied) := by
  cases e with
  | none => rfl
  | some e => exact congrArg some (refill_expr e)

theorem refill_guard (g : Guard) : (env.guard g).value.refill .emptied = g.refill .emptied := by
  cases g with
  | first cond => exact congrArg Guard.first (refill_expr cond)
  | next cond => exact congrArg Guard.next (refill_expr cond)
  | otherwise => rfl

theorem bare_annotate (t : TypeExpr) : (env.annotate t).value.1.bare = t.bare := by
  have hbare : (env.context.aliases.annotate t).1.bare = t.bare := TypeExpr.bare_annotateWith t
  unfold annotate
  generalize env.context.aliases.annotate t = result at hbare ⊢
  obtain ⟨t', _ | ty⟩ := result
  · exact hbare
  · exact hbare

theorem refill_params : ∀ ps : List Param,
    (ps.zipWith (fun p (r : TypeExpr × Ty) => { p with ty := r.1 })
      (env.annotateEach (ps.map (·.ty))).value).map (·.refill .emptied) =
      ps.map (·.refill .emptied)
  | [] => rfl
  | p :: ps => by
    refine congrArg₂ List.cons ?_ (refill_params ps)
    simp only [Param.refill, Slots.emptied]
    rw [show (env.annotate p.ty).value.1.bare = p.ty.bare from bare_annotate p.ty]

theorem refill_annotateRest (rest : Rest TypeExpr) :
    Rest.refill .emptied (env.annotateRest rest).value.1 = Rest.refill .emptied rest := by
  cases rest with
  | typed elem => exact congrArg Rest.typed (bare_annotate elem)
  | _ => rfl

theorem refill_head (f : Function) :
    (env.head f).value.1.refill .emptied = f.refill .emptied := by
  have hret := @bare_annotate env f.ret
  have hparams := @refill_params env f.params
  have hrest := @refill_annotateRest env f.rest
  simp only [head, Report.value_bind, Report.value_pure, Function.refill]
  rw [hrest, hparams]
  simp only [Slots.emptied, hret]

end Env

namespace Resolver

variable {α β : Type}

@[simp] theorem value_bind (m : ResolveM α) (f : α → ResolveM β) (env : Env) :
    ((m >>= f) env).value = (f (m env).value.1 (m env).value.2).value := rfl

@[simp] theorem value_pure (a : α) (env : Env) : ((pure a : ResolveM α) env).value = (a, env) := rfl

@[simp] theorem value_report (r : Env → Report α) (env : Env) :
    (report r env).value = ((r env).value, env) := rfl

theorem refill_localVar (var : VarDecl) (env : Env) :
    (localVar var env).value.1.refill .emptied = var.refill .emptied := by
  simp only [localVar, value_bind, value_report, value_pure, VarDecl.refill, Env.refill_expr?]
  simp only [Slots.emptied, Env.bare_annotate]

mutual

theorem refill_stmt : ∀ (s : Stmt) (env : Env),
    (stmt s env).value.1.refill .emptied = s.refill .emptied
  | .expr e, env => by
    simp only [stmt, value_bind, value_report, value_pure, Stmt.refill, Env.refill_expr]
  | .decl var, env => by
    simp only [stmt, value_bind, value_pure, Stmt.refill, refill_localVar]
  | .assign span target op value, env => by
    simp only [stmt, value_bind, value_report, value_pure, Stmt.refill, Env.refill_value,
      Env.refill_expr]
  | .ret span value, env => by
    simp only [stmt, value_bind, value_report, value_pure, Stmt.refill, Env.refill_expr?]
  | .cond list, env => by
    simp only [stmt, value_bind, value_pure, Stmt.refill, refill_branches list]
  | .loop span cond body, env => by
    simp only [stmt, value_bind, value_report, value_pure, Stmt.refill, Env.refill_expr,
      refill_stmts body]
  | .block span body, env => by
    simp only [stmt, value_bind, value_pure, Stmt.refill, refill_stmts body]

theorem refill_stmts : ∀ (ss : List Stmt) (env : Env),
    Stmt.refillEach .emptied (stmts ss env).value.1 = Stmt.refillEach .emptied ss
  | [], env => rfl
  | s :: ss, env => by
    simp only [stmts, value_bind, value_pure, Stmt.refillEach, refill_stmt s, refill_stmts ss]

theorem refill_branch : ∀ (b : Branch) (env : Env),
    (branch b env).value.1.refill .emptied = b.refill .emptied
  | .mk span g body, env => by
    simp only [branch, value_bind, value_report, value_pure, Branch.refill, Env.refill_guard,
      refill_stmts body]

theorem refill_branches : ∀ (bs : List Branch) (env : Env),
    Branch.refillEach .emptied (branches bs env).value.1 = Branch.refillEach .emptied bs
  | [], env => rfl
  | b :: bs, env => by
    simp only [branches, value_bind, value_pure, Branch.refillEach, refill_branch b,
      refill_branches bs]

end

theorem refill_annotateAliases : ∀ (ns : List Node) (defined : List Bool) (env : Env),
    (annotateAliases ns defined env).value.1.map (·.refill .emptied) = ns.map (·.refill .emptied)
  | [], _, env => by
    rw [annotateAliases]
    rfl
  | .alias item :: ns, true :: defined, env => by
    simp only [annotateAliases, value_bind, value_report, value_pure, List.map_cons,
      refill_annotateAliases ns]
    simp only [Node.refill, Slots.emptied, Env.bare_annotate]
  | .alias item :: ns, false :: defined, env | .alias item :: ns, [], env
  | .header item :: ns, defined, env | .function item :: ns, defined, env
  | .global item :: ns, defined, env => by
    simp only [annotateAliases, value_bind, value_pure, List.map_cons, refill_annotateAliases ns]

theorem refill_declareNode (order : Nat) (n : Node) (env : Env) :
    (declareNode order n env).value.1.refill .emptied = n.refill .emptied := by
  cases n with
  | function f =>
    have hhead := @Env.refill_head env f
    simp only [declareNode, declareFunction, value_bind, value_report, value_pure, Node.refill]
    exact congrArg Node.function hhead
  | global g =>
    simp only [declareNode, value_bind, value_report, value_pure, Node.refill, VarDecl.refill]
    simp only [Slots.emptied, Env.bare_annotate]
  | _ => rfl

theorem refill_declareNodes : ∀ (ns : List Node) (order : Nat) (env : Env),
    (declareNodes order ns env).value.1.map (·.refill .emptied) = ns.map (·.refill .emptied)
  | [], _, _ => rfl
  | n :: ns, order, env => by
    simp only [declareNodes, value_bind, value_pure, List.map_cons, refill_declareNode,
      refill_declareNodes ns]

theorem refill_defaults (decl : Option DeclId) : ∀ (ps : List Param) (index : Nat) (env : Env),
    (defaults decl index ps env).value.1.map (·.refill .emptied) = ps.map (·.refill .emptied)
  | [], _, _ => rfl
  | p :: ps, index, env => by
    simp only [defaults, value_bind, value_report, value_pure, List.map_cons,
      refill_defaults decl ps]
    simp only [Param.refill, Env.refill_expr?]

theorem refill_function (f : Function) (env : Env) :
    (function f env).value.1.refill .emptied = f.refill .emptied := by
  have hparams := refill_defaults f.decl f.params 0 env
  simp only [function, value_bind]
  cases hbody : f.body with
  | none => simp only [value_pure, Function.refill, hparams, hbody]
  | some body =>
    simp only [value_bind, value_pure, functionBody, Function.refill, hparams, hbody,
      Option.map_some, refill_stmts]

theorem refill_node (n : Node) (env : Env) :
    (node n env).value.1.refill .emptied = n.refill .emptied := by
  cases n with
  | function f =>
    simp only [node, value_bind, value_pure, Node.refill, refill_function]
  | global g =>
    simp only [node, global, value_bind, value_report, value_pure, Node.refill, VarDecl.refill,
      Env.refill_expr?]
  | _ => rfl

theorem refill_nodes : ∀ (ns : List Node) (env : Env),
    (nodes ns env).value.1.map (·.refill .emptied) = ns.map (·.refill .emptied)
  | [], _ => rfl
  | n :: ns, env => by
    simp only [nodes, value_bind, value_pure, List.map_cons, refill_node, refill_nodes ns]

theorem refill_unit (ns : List Node) (env : Env) :
    (unit ns env).value.1.map (·.refill .emptied) = ns.map (·.refill .emptied) := by
  simp only [unit, value_bind, refill_nodes, refill_declareNodes, refill_annotateAliases]

end Resolver

/-- Resolving a unit, with or without success, changes its slots only. -/
theorem SourceUnit.refill_resolve (unit : SourceUnit) :
    unit.resolve.1.nodes.map (·.refill .emptied) = unit.nodes.map (·.refill .emptied) :=
  Resolver.refill_unit unit.nodes _

/-! ## Checking -/

theorem Value.length_refillEach (f : Slots) (es : List Expr) :
    (Value.refillEach f es).length = es.length := by
  induction es with
  | nil => rfl
  | cons e es ih => rw [Value.refillEach, List.length_cons, List.length_cons, ih]

theorem Value.refillEach_append (f : Slots) (es es' : List Expr) :
    Value.refillEach f (es ++ es') = Value.refillEach f es ++ Value.refillEach f es' := by
  induction es with
  | nil => rfl
  | cons e es ih => rw [List.cons_append, Value.refillEach, Value.refillEach, ih, List.cons_append]

theorem Value.uncompletedEach_append (es es' : List Expr) :
    Value.uncompletedEach (es ++ es') = Value.uncompletedEach es ++ Value.uncompletedEach es' := by
  induction es with
  | nil => rfl
  | cons e es ih =>
    rw [List.cons_append, Value.uncompletedEach, Value.uncompletedEach, ih, List.cons_append]

/-- A call that has no copies of defaults does not change when they are removed, and neither do its
arguments. -/
theorem Value.uncompleted_call {span : Span} {callee : DottedName} {args : List Expr}
    {target : Option CallTarget} {defaulted : Nat}
    (h : (Value.call span callee args target defaulted).uncompleted =
      .call span callee args target defaulted) :
    defaulted = 0 ∧ Value.uncompletedEach args = args := by
  rw [Value.uncompleted] at h
  injection h with _ _ hargs _ hdefaulted
  subst hdefaulted
  rw [Nat.sub_zero, ← Value.length_uncompletedEach, List.take_length] at hargs
  exact ⟨rfl, hargs⟩

namespace Check

variable {decls : DeclTable} {complete : Completion}

/-- The copies that are appended to a call are removed again. -/
theorem written_call (span : Span) (callee : DottedName) (args : List Expr)
    (target : Option CallTarget) :
    (((call decls complete span callee args target).value).refill .emptied).uncompleted =
      .call span (callee.refill .emptied)
        (Value.uncompletedEach (Value.refillEach .emptied args)) none 0 := by
  have happended (more : List Expr) :
      ((Value.call span callee (args ++ more) target more.length).refill .emptied).uncompleted =
        .call span (callee.refill .emptied)
          (Value.uncompletedEach (Value.refillEach .emptied args)) none 0 := by
    rw [Value.refill, Value.uncompleted, Value.length_refillEach, List.length_append,
      Nat.add_sub_cancel, Value.refillEach_append, Value.uncompletedEach_append,
      List.take_left' (by rw [Value.length_uncompletedEach, Value.length_refillEach])]
    rfl
  cases target with
  | none => exact happended []
  | some t => exact happended _

mutual

theorem written_expr : ∀ {e : Expr}, (e.refill .emptied).uncompleted = e.refill .emptied →
    ((expr decls complete e).value.refill .emptied).uncompleted = e.refill .emptied
  | .mk span ops, h => by
    simp only [expr, Report.value_bind, Report.value_pure, Expr.refill, Expr.uncompleted,
      Expr.mk.injEq, true_and] at h ⊢
    exact written_chain h

theorem written_chain : ∀ {c : Chain}, (c.refill .emptied).uncompleted = c.refill .emptied →
    ((chain decls complete c).value.refill .emptied).uncompleted = c.refill .emptied
  | .operand v, h => by
    simp only [chain, Report.value_bind, Report.value_pure, Chain.refill, Chain.uncompleted,
      Chain.operand.injEq] at h ⊢
    exact written_value h
  | .link v op rest, h => by
    simp only [chain, Report.value_bind, Report.value_pure, Chain.refill, Chain.uncompleted,
      Chain.link.injEq, true_and] at h ⊢
    exact ⟨written_value h.1, written_chain h.2⟩

theorem written_value : ∀ {v : Value}, (v.refill .emptied).uncompleted = v.refill .emptied →
    ((value decls complete v).value.refill .emptied).uncompleted = v.refill .emptied
  | .call span callee args target defaulted, h => by
    obtain ⟨rfl, hargs⟩ := Value.uncompleted_call h
    simp only [value, Report.value_bind]
    rw [written_call, written_exprs hargs]
    rfl
  | .index span base position, h => by
    simp only [value, Report.value_bind, Report.value_pure, Value.refill, Value.uncompleted,
      Value.index.injEq, true_and] at h ⊢
    exact ⟨written_value h.1, written_expr h.2⟩
  | .ref span inner, h => by
    simp only [value, Report.value_bind, Report.value_pure, Value.refill, Value.uncompleted,
      Value.ref.injEq, true_and] at h ⊢
    exact written_value h
  | .prefixed span op inner, h => by
    simp only [value, Report.value_bind, Report.value_pure, Value.refill, Value.uncompleted,
      Value.prefixed.injEq, true_and] at h ⊢
    exact written_value h
  | .suffixed span op inner, h => by
    simp only [value, Report.value_bind, Report.value_pure, Value.refill, Value.uncompleted,
      Value.suffixed.injEq, true_and] at h ⊢
    exact written_value h
  | .paren inner, h => by
    simp only [value, Report.value_bind, Report.value_pure, Value.refill, Value.uncompleted,
      Value.paren.injEq] at h ⊢
    exact written_expr h
  | .ident _, _ | .number _, _ | .decimal _, _ | .string _, _ | .char _, _ | .bool _ _, _
  | .null _, _ => rfl

theorem written_exprs : ∀ {es : List Expr},
    Value.uncompletedEach (Value.refillEach .emptied es) = Value.refillEach .emptied es →
    Value.uncompletedEach (Value.refillEach .emptied (exprs decls complete es).value) =
      Value.refillEach .emptied es
  | [], _ => rfl
  | e :: es, h => by
    simp only [exprs, Report.value_bind, Report.value_pure, Value.refillEach, Value.uncompletedEach,
      List.cons.injEq] at h ⊢
    exact ⟨written_expr h.1, written_exprs h.2⟩

end

theorem written_into {expected : Ty} {e : Expr}
    (h : (e.refill .emptied).uncompleted = e.refill .emptied) :
    ((into decls expected e).value.refill .emptied).uncompleted = e.refill .emptied :=
  written_expr h

theorem written_varDecl {var : VarDecl}
    (h : (var.refill .emptied).uncompleted = var.refill .emptied) :
    ((varDecl decls var).value.refill .emptied).uncompleted = var.refill .emptied := by
  obtain ⟨span, ty, name, _ | init, decl⟩ := var
  · exact h
  · simp only [VarDecl.refill, VarDecl.uncompleted, Option.map_some, VarDecl.mk.injEq,
      Option.some.injEq, true_and, and_true] at h
    simp only [varDecl, Report.value_bind, Report.value_pure, VarDecl.refill, VarDecl.uncompleted,
      Option.map_some, written_into h]

theorem written_ret {returned : Ty} {span : Span} {e : Option Expr}
    (h : (e.map (·.refill .emptied)).map (·.uncompleted) = e.map (·.refill .emptied)) :
    ((ret decls returned span e).value.map (·.refill .emptied)).map (·.uncompleted) =
      e.map (·.refill .emptied) := by
  cases e with
  | none => rfl
  | some e =>
    have he : (e.refill .emptied).uncompleted = e.refill .emptied := Option.some.inj h
    unfold ret
    dsimp only
    split
    · exact congrArg some (written_expr he)
    · exact congrArg some (written_into he)

theorem written_guard {g : Guard} (h : (g.refill .emptied).uncompleted = g.refill .emptied) :
    ((guard decls g).value.refill .emptied).uncompleted = g.refill .emptied := by
  cases g with
  | first cond => exact congrArg Guard.first (written_expr (Guard.first.inj h))
  | next cond => exact congrArg Guard.next (written_expr (Guard.next.inj h))
  | otherwise => rfl

section Statements

variable {returned : Ty}

mutual

theorem written_stmt : ∀ {s : Stmt}, (s.refill .emptied).uncompleted = s.refill .emptied →
    ((stmt decls returned s).value.refill .emptied).uncompleted = s.refill .emptied
  | .expr e, h => congrArg Stmt.expr (written_expr (Stmt.expr.inj h))
  | .decl var, h => congrArg Stmt.decl (written_varDecl (Stmt.decl.inj h))
  | .assign span target none e, h | .assign span target (some _) e, h => by
    simp only [stmt, Report.value_bind, Report.value_pure, Stmt.refill, Stmt.uncompleted,
      Stmt.assign.injEq, true_and] at h ⊢
    exact ⟨written_value h.1, written_expr h.2⟩
  | .ret span e, h => by
    simp only [stmt, Report.value_bind, Report.value_pure, Stmt.refill, Stmt.uncompleted,
      Stmt.ret.injEq, true_and] at h ⊢
    exact written_ret h
  | .cond list, h => congrArg Stmt.cond (written_branches (Stmt.cond.inj h))
  | .loop span cond body, h => by
    simp only [stmt, Report.value_bind, Report.value_pure, Stmt.refill, Stmt.uncompleted,
      Stmt.loop.injEq, true_and] at h ⊢
    exact ⟨written_expr h.1, written_stmts h.2⟩
  | .block span body, h => by
    simp only [stmt, Report.value_bind, Report.value_pure, Stmt.refill, Stmt.uncompleted,
      Stmt.block.injEq, true_and] at h ⊢
    exact written_stmts h

theorem written_stmts : ∀ {ss : List Stmt},
    Stmt.uncompletedEach (Stmt.refillEach .emptied ss) = Stmt.refillEach .emptied ss →
    Stmt.uncompletedEach (Stmt.refillEach .emptied (stmts decls returned ss).value) =
      Stmt.refillEach .emptied ss
  | [], _ => rfl
  | s :: ss, h => by
    simp only [stmts, Report.value_bind, Report.value_pure, Stmt.refillEach, Stmt.uncompletedEach,
      List.cons.injEq] at h ⊢
    exact ⟨written_stmt h.1, written_stmts h.2⟩

theorem written_branch : ∀ {b : Branch}, (b.refill .emptied).uncompleted = b.refill .emptied →
    ((branch decls returned b).value.refill .emptied).uncompleted = b.refill .emptied
  | .mk span g body, h => by
    simp only [branch, Report.value_bind, Report.value_pure, Branch.refill, Branch.uncompleted,
      Branch.mk.injEq, true_and] at h ⊢
    exact ⟨written_guard h.1, written_stmts h.2⟩

theorem written_branches : ∀ {bs : List Branch},
    Branch.uncompletedEach (Branch.refillEach .emptied bs) = Branch.refillEach .emptied bs →
    Branch.uncompletedEach (Branch.refillEach .emptied (branches decls returned bs).value) =
      Branch.refillEach .emptied bs
  | [], _ => rfl
  | b :: bs, h => by
    simp only [branches, Report.value_bind, Report.value_pure, Branch.refillEach,
      Branch.uncompletedEach, List.cons.injEq] at h ⊢
    exact ⟨written_branch h.1, written_branches h.2⟩

end

end Statements

theorem written_params : ∀ {ps : List Param} {tys : List Ty},
    (ps.map (·.refill .emptied)).map (·.uncompleted) = ps.map (·.refill .emptied) →
    ((params decls ps tys).value.map (·.refill .emptied)).map (·.uncompleted) =
      ps.map (·.refill .emptied)
  | [], _, _ => rfl
  | _ :: _, [], h => h
  | ⟨ty, name, default⟩ :: ps, _ :: tys, h => by
    obtain ⟨hp, hps⟩ := List.cons.inj h
    have ih := @written_params ps tys hps
    cases default with
    | none => exact congrArg₂ List.cons hp ih
    | some e =>
      have he : (e.refill .emptied).uncompleted = e.refill .emptied :=
        Option.some.inj (Param.mk.inj hp).2.2
      refine congrArg₂ List.cons ?_ ih
      simp only [Report.value_pure, Param.refill, Param.uncompleted, Option.map_some,
        written_into he]

theorem written_function {f : Function} (h : (f.refill .emptied).uncompleted = f.refill .emptied) :
    ((function decls f).value.refill .emptied).uncompleted = f.refill .emptied := by
  obtain ⟨span, ret, name, ps, rest, body, decl, sig⟩ := f
  cases sig with
  | none => exact h
  | some sig =>
    simp only [Function.refill, Function.uncompleted, Function.mk.injEq, true_and, and_true] at h
    have hparams := @written_params decls ps sig.params h.1
    cases body with
    | none =>
      simp only [function, Report.value_bind, Report.value_pure, Function.refill,
        Function.uncompleted, hparams, Option.map_none]
    | some body =>
      have hbody := @written_stmts decls sig.ret body (Option.some.inj h.2)
      simp only [function, Report.value_bind, Report.value_pure, Function.refill,
        Function.uncompleted, hparams, Option.map_some, hbody]

/-- Checking a part whose calls have no copies yet adds only what can be removed again. -/
theorem written_node {n : Node} (h : n.written = n.refill .emptied) :
    (node decls n).value.written = n.refill .emptied := by
  cases n with
  | function f => exact congrArg Node.function (written_function (Node.function.inj h))
  | global g => exact congrArg Node.global (written_varDecl (Node.global.inj h))
  | header item => exact h
  | «alias» item => rfl

end Check

/-! ## Attaching headers -/

/-- The part is an include. -/
def Node.isHeader : Node → Bool
  | .header _ => true
  | _ => false

/-- Attaching headers changes the tables of includes only. -/
theorem Node.bridgeEach_keeps (l : Locator) : ∀ ns : List Node,
    (Node.bridgeEach l ns).Safe (fun _ _ => True) fun result => ∀ ns', result = .ok ns' →
      ns'.map Node.written = ns.map Node.written ∧ ∀ n ∈ ns', n.isHeader ∨ n ∈ ns
  | [] => by
    rintro _ ⟨⟩
    exact ⟨rfl, fun n hn => nomatch hn⟩
  | .header item :: ns => by
    refine Caching.Safe.bind (Caching.safe_any _) fun found _ => ?_
    cases found with
    | none => exact fun _ h => nomatch h
    | some table =>
      refine Caching.Safe.bind (bridgeEach_keeps l ns) fun result hresult => ?_
      cases result with
      | error e => exact fun _ h => nomatch h
      | ok ms =>
        rintro _ ⟨⟩
        obtain ⟨hwritten, hmem⟩ := hresult ms rfl
        refine ⟨congrArg₂ List.cons rfl hwritten, List.forall_mem_cons.mpr ⟨.inl rfl, ?_⟩⟩
        exact fun n hn => (hmem n hn).imp_right (List.mem_cons_of_mem _)
  | .alias item :: ns | .function item :: ns | .global item :: ns => by
    refine Caching.Safe.bind (bridgeEach_keeps l ns) fun result hresult => ?_
    cases result with
    | error e => exact fun _ h => nomatch h
    | ok ms =>
      rintro _ ⟨⟩
      obtain ⟨hwritten, hmem⟩ := hresult ms rfl
      refine ⟨congrArg₂ List.cons rfl hwritten,
        List.forall_mem_cons.mpr ⟨.inr List.mem_cons_self, ?_⟩⟩
      exact fun n hn => (hmem n hn).imp_right (List.mem_cons_of_mem _)

/-! ## The unit -/

namespace SourceUnit

theorem bridge_keeps {l : Locator} {cache : HeaderCache} {unit bridged : SourceUnit}
    (h : ((unit.bridge l).run cache).1 = .ok bridged) :
    bridged.written = unit.written ∧ ∀ n ∈ bridged.nodes, n.isHeader ∨ n ∈ unit.nodes := by
  have hsafe : (unit.bridge l).Safe (fun _ _ => True) fun result => ∀ unit', result = .ok unit' →
      unit'.written = unit.written ∧ ∀ n ∈ unit'.nodes, n.isHeader ∨ n ∈ unit.nodes := by
    refine Caching.Safe.bind (Node.bridgeEach_keeps l unit.nodes) fun result hresult => ?_
    cases result with
    | error e => exact fun _ h => nomatch h
    | ok ns =>
      rintro _ ⟨⟩
      obtain ⟨hwritten, hmem⟩ := hresult ns rfl
      exact ⟨congrArg (SourceUnit.mk unit.file) hwritten, hmem⟩
  exact (hsafe.run (c := cache) fun _ _ _ => trivial).1 bridged h

theorem written_resolve (unit : SourceUnit) : unit.resolve.1.written = unit.written := by
  have hnodes := congrArg (List.map Node.uncompleted) (refill_resolve unit)
  rw [List.map_map, List.map_map] at hnodes
  exact congrArg (SourceUnit.mk unit.file) hnodes

/-- No call of the unit has copies of defaults. -/
def Uncompleted (unit : SourceUnit) : Prop :=
  ∀ n ∈ unit.nodes, n.isHeader ∨ (n.refill .emptied).uncompleted = n.refill .emptied

theorem written_check {unit : SourceUnit} (h : unit.Uncompleted) (context : SemanticContext) :
    (unit.check context).value.written = unit.written := by
  have hnodes : (Check.nodes context.decls unit.nodes).value.map Node.written =
      unit.nodes.map Node.written := by
    rw [Check.nodes_value, List.map_map]
    refine List.map_congr_left fun n hn => ?_
    rcases h n hn with hheader | hn
    · cases n with
      | header item => rfl
      | _ => cases hheader
    · exact (Check.written_node hn).trans hn.symm
  exact congrArg (SourceUnit.mk unit.file) hnodes

/-- Resolution makes no copies. -/
theorem Uncompleted.resolve {unit : SourceUnit} (h : unit.Uncompleted) :
    unit.resolve.1.Uncompleted := by
  intro n hn
  have hmem : n.refill .emptied ∈ unit.nodes.map (·.refill .emptied) := by
    rw [← refill_resolve]
    exact List.mem_map_of_mem hn
  obtain ⟨m, hm, hsame⟩ := List.mem_map.mp hmem
  rcases h m hm with hheader | hm
  · left
    cases m with
    | header item =>
      cases n with
      | header item' => rfl
      | _ => cases hsame
    | _ => cases hheader
  · right
    rw [← hsame]
    exact hm

end SourceUnit

/-- **Passes only fill slots.** Let a unit be parsed, let headers be attached to it, and let it be
resolved, with or without errors, and then checked, with or without errors and whatever is known of
its declarations. The tree after each of these passes is the parsed one, once its slots are emptied, its
tables detached and the copies of defaults removed. -/
theorem passes_only_fill_slots {file : Nat} {text : String} {unit bridged : SourceUnit}
    {l : Locator} {cache : HeaderCache} (hparse : SourceUnit.parse file text = .ok unit)
    (hbridge : ((unit.bridge l).run cache).1 = .ok bridged) :
    bridged.written = unit ∧ bridged.resolve.1.written = unit ∧
      ∀ context, (bridged.resolve.1.check context).value.written = unit := by
  obtain ⟨hwritten, hmem⟩ := SourceUnit.bridge_keeps hbridge
  have hbridged : bridged.written = unit := hwritten.trans (SourceUnit.written_parse hparse)
  have hresolved : bridged.resolve.1.written = unit :=
    (SourceUnit.written_resolve bridged).trans hbridged
  have huncompleted : bridged.Uncompleted := by
    intro n hn
    rcases hmem n hn with hheader | hn
    · exact .inl hheader
    · have hplain := SourceUnit.plain_of_parse hparse n hn
      exact .inr (by rw [hplain.1, hplain.2])
  exact ⟨hbridged, hresolved, fun context =>
    (SourceUnit.written_check huncompleted.resolve context).trans hresolved⟩

/-- A header is attached, a call is completed, and both passes find errors. -/
theorem failing_passes_only_fill_slots : ∃ unit bridged,
    SourceUnit.parse 0
        "include m\nnum f(num a = LIMIT) { return a }\nnum g() { str s = f() return missing }" =
      .ok unit ∧
    ((unit.bridge (.memory [("m.h", "typedef int num;\n#define LIMIT 3\n")])).run .empty).1 =
      .ok bridged ∧
    bridged.resolve.1.written = unit ∧
    ∀ context, (bridged.resolve.1.check context).value.written = unit := by
  have hok : ((SourceUnit.parse 0
      "include m\nnum f(num a = LIMIT) { return a }\nnum g() { str s = f() return missing }").toOption.any
      fun unit => ((unit.bridge (.memory
        [("m.h", "typedef int num;\n#define LIMIT 3\n")])).run .empty).1.toOption.isSome) = true := by
    rw [SourceUnit.parse_ofList]
    decide +kernel
  obtain ⟨unit, hparse, hbridged⟩ := SourceUnit.exists_parsed hok
  cases hbridge : ((unit.bridge (.memory
      [("m.h", "typedef int num;\n#define LIMIT 3\n")])).run .empty).1 with
  | error e => simp [hbridge, Except.toOption] at hbridged
  | ok bridged => exact ⟨unit, bridged, hparse, hbridge, (passes_only_fill_slots hparse hbridge).2⟩

end KilnLang
