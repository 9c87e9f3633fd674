import KilnLang.Proofs.Semantic.Aliases
import KilnLang.Proofs.Semantic.Declaring

/-!
# Resolution fills slots

**Theorem (`SourceUnit.bare_resolve`).** A resolved unit is the unit as it was written, with its
slots filled.
-/

namespace KilnLang

open Report

/-! ## Expressions -/

namespace Env

variable {env : Env}

theorem find_eq_pure {name : DottedName} {found : Option Resolution}
    (h : env.find name = pure found) : ∃ r, found = some r ∧ env.lookup name = (some r, []) := by
  unfold find at h
  rcases hlook : env.lookup name with ⟨_ | r, errors⟩
  · rw [hlook] at h
    exact absurd (congrArg Report.errors h) (by simp)
  · rw [hlook] at h
    have herrors : errors = [] := List.map_eq_nil_iff.mp (congrArg Report.errors h)
    exact ⟨r, (congrArg Report.value h).symm, by rw [herrors]⟩

theorem ident_eq_pure {name name' : DottedName} (h : env.ident name = pure name') :
    ∃ r, env.lookup name = (some r, []) ∧ name' = { name with resolved := some r } := by
  simp only [ident, bind_eq_pure] at h
  obtain ⟨found, hfound, h⟩ := h
  obtain ⟨r, rfl, hlook⟩ := find_eq_pure hfound
  refine ⟨r, hlook, ?_⟩
  dsimp only at h
  split at h
  · simp only [bind_eq_pure, error_ne_pure, false_and, exists_false] at h
  · simp only [bind_eq_pure, error_ne_pure, false_and, exists_false] at h
  · exact (pure_inj.mp h).symm

theorem callee_eq_pure {name name' : DottedName} {count : Nat} {span : Span}
    {target : Option CallTarget} (h : env.callee name count span = pure (name', target)) :
    ∃ r, env.lookup name = (some r, []) ∧ name' = { name with resolved := some r } := by
  simp only [callee, bind_eq_pure] at h
  obtain ⟨found, hfound, h⟩ := h
  obtain ⟨r, rfl, hlook⟩ := find_eq_pure hfound
  simp only [bind_eq_pure, pure_inj, Prod.mk.injEq] at h
  obtain ⟨target', -, _, -, rfl, -⟩ := h
  exact ⟨r, hlook, rfl⟩

mutual

theorem bare_expr : ∀ {e e' : Expr}, env.expr e = pure e' →
    e'.refill .emptied = e.refill .emptied
  | .mk span ops, e', h => by
    simp only [expr, bind_eq_pure, pure_inj] at h
    obtain ⟨ops', hops, rfl⟩ := h
    simp only [Expr.refill, bare_chain hops]
termination_by structural e => e

theorem bare_chain : ∀ {c c' : Chain}, env.chain c = pure c' →
    c'.refill .emptied = c.refill .emptied
  | .operand v, c', h => by
    simp only [chain, bind_eq_pure, pure_inj] at h
    obtain ⟨v', hv, rfl⟩ := h
    simp only [Chain.refill, bare_value hv]
  | .link v op rest, c', h => by
    simp only [chain, bind_eq_pure, pure_inj] at h
    obtain ⟨v', hv, rest', hrest, rfl⟩ := h
    simp only [Chain.refill, bare_value hv, bare_chain hrest]
termination_by structural c => c

theorem bare_value : ∀ {v v' : Value}, env.value v = pure v' →
    v'.refill .emptied = v.refill .emptied
  | .ident name, v', h => by
    simp only [value, bind_eq_pure, pure_inj] at h
    obtain ⟨name', hname, rfl⟩ := h
    obtain ⟨r, -, rfl⟩ := ident_eq_pure hname
    rfl
  | .call span name args target defaulted, v', h => by
    simp only [value, bind_eq_pure, pure_inj, Prod.exists] at h
    obtain ⟨args', hargs, name', target', hcallee, rfl⟩ := h
    obtain ⟨r, -, rfl⟩ := callee_eq_pure hcallee
    simp only [Value.refill, bare_exprs hargs]
    rfl
  | .index span base position, v', h => by
    simp only [value, bind_eq_pure, pure_inj] at h
    obtain ⟨base', hbase, position', hposition, rfl⟩ := h
    simp only [Value.refill, bare_value hbase, bare_expr hposition]
  | .ref span inner, v', h | .prefixed span op inner, v', h | .suffixed span op inner, v', h => by
    simp only [value, bind_eq_pure, pure_inj] at h
    obtain ⟨inner', hinner, rfl⟩ := h
    simp only [Value.refill, bare_value hinner]
  | .paren inner, v', h => by
    simp only [value, bind_eq_pure, pure_inj] at h
    obtain ⟨inner', hinner, rfl⟩ := h
    simp only [Value.refill, bare_expr hinner]
  | .number _, v', h | .decimal _, v', h | .string _, v', h | .char _, v', h
  | .bool _ _, v', h | .null _, v', h => by
    rw [← pure_inj.mp h]
termination_by structural v => v

theorem bare_exprs : ∀ {es es' : List Expr}, env.exprs es = pure es' →
    Value.refillEach .emptied es' = Value.refillEach .emptied es
  | [], es', h => by
    rw [← pure_inj.mp h]
  | e :: es, es', h => by
    simp only [exprs, bind_eq_pure, pure_inj] at h
    obtain ⟨e', he, es', hes, rfl⟩ := h
    simp only [Value.refillEach, bare_expr he, bare_exprs hes]
termination_by structural es => es

end

theorem bare_expr? {e e' : Option Expr} (h : env.expr? e = pure e') :
    e'.map (·.refill .emptied) = e.map (·.refill .emptied) := by
  cases e with
  | none => rw [← pure_inj.mp h]
  | some e =>
    simp only [expr?, bind_eq_pure, pure_inj] at h
    obtain ⟨e', he, rfl⟩ := h
    simp only [Option.map_some, bare_expr he]

theorem bare_guard {g g' : Guard} (h : env.guard g = pure g') :
    g'.refill .emptied = g.refill .emptied := by
  cases g with
  | otherwise => rw [← pure_inj.mp h]
  | _ =>
    simp only [guard, bind_eq_pure, pure_inj] at h
    obtain ⟨e', he, rfl⟩ := h
    simp only [Guard.refill, bare_expr he]

end Env

/-! ## Statements -/

namespace Resolver

mutual

theorem bare_stmt : ∀ {s t : Stmt} {env env' : Env}, Succeeds (stmt s) env t env' →
    t.refill .emptied = s.refill .emptied
  | .expr e, t, env, env', h => by
    obtain ⟨e', he, rfl, -⟩ := succeeds_expr.mp h
    simp only [Stmt.refill, Env.bare_expr he]
  | .decl var, t, env, env', h => by
    obtain ⟨var', hvar, rfl⟩ := succeeds_decl.mp h
    obtain ⟨ty, varTy, init, hty, hinit, -, rfl, -⟩ := succeeds_localVar.mp hvar
    simp only [Stmt.refill, VarDecl.refill, Env.bare_expr? hinit]
    simp only [Slots.emptied, Env.bare_of_annotate hty]
  | .assign span target op value, t, env, env', h => by
    obtain ⟨target', value', htarget, hvalue, rfl, -⟩ := succeeds_assign.mp h
    simp only [Stmt.refill, Env.bare_value htarget, Env.bare_expr hvalue]
  | .ret span value, t, env, env', h => by
    obtain ⟨value', hvalue, rfl, -⟩ := succeeds_ret.mp h
    simp only [Stmt.refill, Env.bare_expr? hvalue]
  | .cond list, t, env, env', h => by
    obtain ⟨list', hlist, rfl⟩ := succeeds_cond.mp h
    simp only [Stmt.refill, bare_branches hlist]
  | .loop span cond body, t, env, env', h => by
    obtain ⟨cond', body', env₁, hcond, hbody, rfl, -⟩ := succeeds_loop.mp h
    simp only [Stmt.refill, Env.bare_expr hcond, bare_stmts hbody]
  | .block span body, t, env, env', h => by
    obtain ⟨body', env₁, hbody, rfl, -⟩ := succeeds_block.mp h
    simp only [Stmt.refill, bare_stmts hbody]
termination_by structural s => s

theorem bare_stmts : ∀ {ss ts : List Stmt} {env env' : Env}, Succeeds (stmts ss) env ts env' →
    Stmt.refillEach .emptied ts = Stmt.refillEach .emptied ss
  | [], ts, env, env', h => by
    rw [← (succeeds_stmts_nil.mp h).1]
  | s :: ss, ts, env, env', h => by
    obtain ⟨t, env₁, ts, hs, hss, rfl⟩ := succeeds_stmts_cons.mp h
    simp only [Stmt.refillEach, bare_stmt hs, bare_stmts hss]
termination_by structural ss => ss

theorem bare_branch : ∀ {b c : Branch} {env env' : Env}, Succeeds (branch b) env c env' →
    c.refill .emptied = b.refill .emptied
  | .mk span g body, c, env, env', h => by
    obtain ⟨g', body', env₁, hg, hbody, rfl, -⟩ := succeeds_branch.mp h
    simp only [Branch.refill, Env.bare_guard hg, bare_stmts hbody]
termination_by structural b => b

theorem bare_branches : ∀ {bs cs : List Branch} {env env' : Env},
    Succeeds (branches bs) env cs env' →
      Branch.refillEach .emptied cs = Branch.refillEach .emptied bs
  | [], cs, env, env', h => by
    rw [← (succeeds_branches_nil.mp h).1]
  | b :: bs, cs, env, env', h => by
    obtain ⟨c, env₁, cs, hb, hbs, rfl⟩ := succeeds_branches_cons.mp h
    simp only [Branch.refillEach, bare_branch hb, bare_branches hbs]
termination_by structural bs => bs

end

/-! ## Parts of the unit -/

theorem bare_defaults {decl : Option DeclId} {index : Nat} {ps ps' : List Param} {env env' : Env}
    (h : Succeeds (defaults decl index ps) env ps' env') :
    ps'.map (·.refill .emptied) = ps.map (·.refill .emptied) := by
  induction ps generalizing index env ps' with
  | nil => rw [← (succeeds_defaults_nil.mp h).1]
  | cons p ps ih =>
    obtain ⟨default, ps', hdefault, hps, rfl⟩ := succeeds_defaults_cons.mp h
    refine congrArg₂ List.cons ?_ (ih hps)
    simp only [Param.refill, Env.bare_expr? hdefault]

theorem bare_function {f f' : Function} {env env' : Env} (h : Succeeds (function f) env f' env') :
    f'.refill .emptied = f.refill .emptied := by
  obtain ⟨ps, env₁, hps, ⟨-, rfl, -⟩ | ⟨body, body', hf, hbody, rfl⟩⟩ := succeeds_function.mp h
  · simp only [Function.refill, bare_defaults hps]
  · obtain ⟨env₂, env₃, -, hbody, -⟩ := succeeds_functionBody.mp hbody
    simp only [Function.refill, bare_defaults hps, hf, Option.map_some, bare_stmts hbody]

theorem bare_node {n n' : Node} {env env' : Env} (h : Succeeds (node n) env n' env') :
    n'.refill .emptied = n.refill .emptied := by
  cases n with
  | function f =>
    obtain ⟨f', hf, rfl⟩ := succeeds_node_function.mp h
    exact congrArg Node.function (bare_function hf)
  | global g =>
    obtain ⟨g', hg, rfl⟩ := succeeds_node_global.mp h
    obtain ⟨init, hinit, rfl, -⟩ := succeeds_global.mp hg
    simp only [Node.refill, VarDecl.refill, Env.bare_expr? hinit]
  | _ =>
    obtain ⟨rfl, -⟩ := succeeds_pure.mp h
    rfl

theorem bare_nodes {ns ns' : List Node} {env env' : Env} (h : Succeeds (nodes ns) env ns' env') :
    ns'.map (·.refill .emptied) = ns.map (·.refill .emptied) := by
  induction ns generalizing env ns' with
  | nil => rw [← (succeeds_nodes_nil.mp h).1]
  | cons n ns ih =>
    obtain ⟨n', env₁, ns', hn, hns, rfl⟩ := succeeds_nodes_cons.mp h
    simp only [List.map_cons, bare_node hn, ih hns]

theorem AnnotatedAlias.bare {aliases : AliasTable} {n n' : Node} (h : AnnotatedAlias aliases n n') :
    n'.refill .emptied = n.refill .emptied := by
  cases h with
  | other => rfl
  | _ type => simp only [Node.refill, Slots.emptied, AliasTable.bare_of_annotate type]

theorem bare_annotatedAliases {aliases : AliasTable} {ns ns' : List Node}
    (h : List.Forall₂ (AnnotatedAlias aliases) ns ns') :
    ns'.map (·.refill .emptied) = ns.map (·.refill .emptied) := by
  induction h with
  | nil => rfl
  | cons hn _ ih => exact congrArg₂ List.cons hn.bare ih

end Resolver

/-- The passes of a resolution that succeeds: the parts are declared with annotated types, and then
resolved one after the other. -/
theorem SourceUnit.resolve_passes {unit unit' : SourceUnit} {context : SemanticContext}
    (h : unit.resolve = (unit', .ok context)) : ∃ declared env env' top,
      declared.map (·.refill .emptied) = unit.nodes.map (·.refill .emptied) ∧
      DeclaredIn env.context.aliases top env.context.decls declared ∧
      (∀ n ∈ declared, n.Annotated env.context.aliases) ∧
      (∀ item, .alias item ∈ declared → env.context.aliases.contains item.name.text) ∧
      env.scopes = [top] ∧ env.vargs = none ∧ env.limit = none ∧
      Resolver.Succeeds (Resolver.nodes declared) env unit'.nodes env' ∧
      env'.context = context := by
  obtain ⟨nodes, env', hs, rfl, rfl⟩ := SourceUnit.resolve_eq_ok.mp h
  obtain ⟨aliases, annotated, declared, env, hdefine, hann, hdecl, hnodes⟩ :=
    Resolver.succeeds_unit.mp hs
  have hempty : DeclaredIn (Resolver.withAliases unit.start aliases).context.aliases [] [] [] :=
    .empty
  obtain ⟨⟨top, decls, rfl, hdeclared⟩, hbare, htypes⟩ :=
    Resolver.declareNodes_declared hempty hdecl
  have hbare' := hbare.trans (Resolver.bare_annotatedAliases hann)
  refine ⟨declared, (Resolver.withAliases unit.start aliases).withUnit top decls, env', top,
    hbare', hdeclared, htypes, fun item hitem => ?_, rfl, rfl, rfl, hnodes, rfl⟩
  -- An alias keeps its name through all passes.
  obtain ⟨n, hn, hsame⟩ := List.mem_map.mp (hbare' ▸ List.mem_map_of_mem hitem)
  rcases Resolver.isAlias_cases n with ⟨item', rfl⟩ | hother
  · have hname : item'.name = item.name := (Alias.mk.inj (Node.alias.inj hsame)).2.2
    exact Resolver.contains_of_defineEach hdefine (.inr ⟨item', hn, by rw [hname]⟩)
  · cases n <;> simp_all [Node.refill, Resolver.isAlias]

/-- Resolving a unit only fills its slots. -/
theorem SourceUnit.bare_resolve {unit unit' : SourceUnit} {context : SemanticContext}
    (h : unit.resolve = (unit', .ok context)) :
    unit'.nodes.map (·.refill .emptied) = unit.nodes.map (·.refill .emptied) := by
  obtain ⟨declared, _, _, _, hbare, -, -, -, -, -, -, hnodes, -⟩ := SourceUnit.resolve_passes h
  exact (Resolver.bare_nodes hnodes).trans hbare

end KilnLang
