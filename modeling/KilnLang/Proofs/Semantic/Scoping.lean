import KilnLang.Proofs.Semantic.Visibility
import KilnLang.Proofs.Syntax.Reading

/-!
# Lexical scoping

**Theorem (`resolve_scopes_lexically`).** In a resolved unit every name stands for what lexical
scoping says (`Bound`). In the body of a function, a declaration is visible after it in its scope,
and not in its own initial value. The defaults of parameters see the unit only, and the initial
value of a global sees all functions and the globals before it.

The proof goes through the statements in order: each one keeps the scopes in agreement with the
frames that the tree gives for the same place, and every name in it is looked up in scopes that
agree.
-/

namespace KilnLang

namespace Resolver

variable {top : Scope} {visible : List Node}

/-! ## Statements -/

/-- What is found where an expression is resolved is bound there. -/
theorem names_bound {env : Env} {frames : List Frame} (hagrees : Agrees env top frames visible)
    {names : List DottedName} (h : ∀ name ∈ names, env.Finds name) :
    ∀ name ∈ names, name.Bound env.context visible frames env.vargs := by
  intro name hname
  obtain ⟨r, hr, hlook⟩ := h name hname
  exact lookup_bound hagrees hlook hr

theorem every_bound {env : Env} {frames : List Frame} {e e' : Expr}
    (hagrees : Agrees env top frames visible) (he : env.expr e = pure e') :
    e'.Every (·.Bound env.context visible frames env.vargs) :=
  names_bound hagrees (Env.finds_expr he)

theorem every_bound? {env : Env} {frames : List Frame} {e e' : Option Expr}
    (hagrees : Agrees env top frames visible) (he : env.expr? e = pure e') :
    ∀ x ∈ e'.toList, x.Every (·.Bound env.context visible frames env.vargs) := by
  cases e with
  | none => simp [← Report.pure_inj.mp he]
  | some e =>
    simp only [Env.expr?, Report.bind_eq_pure, Report.pure_inj] at he
    obtain ⟨e', he, rfl⟩ := he
    simpa using every_bound hagrees he

theorem site_bound {env : Env} {frame : Frame} {frames : List Frame} {e : Expr}
    (hagrees : Agrees env top (frame :: frames) visible)
    (he : e.Every (·.Bound env.context visible (frame :: frames) env.vargs)) :
    (⟨frame :: frames, none, e⟩ : Site).Bound env.context visible env.vargs :=
  ⟨⟨List.cons_ne_nil _ _, hagrees.entries, hagrees.distinct, by simp⟩, he⟩

/-- A variable is declared after its initial value, with a number of its own. -/
theorem decl_bound {env : Env} {frame : Frame} {frames : List Frame} {var : VarDecl}
    {ty : TypeExpr} {varTy : Ty} {init : Option Expr}
    (hagrees : Agrees env top (frame :: frames) visible)
    (hty : env.context.aliases.annotate var.ty = (ty, .ok varTy))
    (hinit : env.expr? var.init = pure init) (hfree : env.isTaken var.name.text = false) :
    let env' := env.push ⟨var.name.text, var.name.span, .local, varTy, [], 0, false⟩
    let t : Stmt := .decl { var with ty, init, decl := some env.context.decls.length }
    env.Pushes env' ∧ Agrees env' top (t.declare (frame :: frames)) visible ∧
      ∀ x ∈ t.sites (frame :: frames), x.Bound env'.context visible env.vargs := by
  have hmatch : (⟨var.name.text, var.name.span, .local, varTy, [], 0, false⟩ : DeclInfo).Matches
      env.context.aliases ⟨.local, ty, var.name, some env.context.decls.length⟩ :=
    ⟨rfl, rfl, rfl, by rw [AliasTable.annotate_annotated hty], .inl rfl⟩
  have hpushes : env.Pushes (env.push ⟨var.name.text, var.name.span, .local, varTy, [], 0, false⟩) :=
    Env.Pushes.push env rfl
  refine ⟨hpushes, hagrees.push hmatch rfl rfl hfree, ?_⟩
  simp only [Stmt.sites, List.forall_mem_map]
  intro e he
  have hsite := (site_bound hagrees (every_bound? hagrees hinit e he)).grows hpushes.grows.context
  refine ⟨⟨hsite.placed.inside, hsite.placed.entries, hsite.placed.distinct, ?_⟩, hsite.names⟩
  rintro _ ⟨⟩
  refine ⟨_, _, rfl, by simp [Env.push], hmatch, fun frame' hframe' d hd id hid => ?_, ?_⟩
  · obtain ⟨id', info, hid', hinfo, -⟩ := hagrees.entries frame' hframe' d hd
    obtain rfl : id' = id := Option.some.inj (hid'.symm.trans hid)
    exact (List.getElem?_eq_some_iff.mp hinfo).1
  · rintro _ ⟨⟩
    exact hagrees.not_taken hfree

mutual

/-- A statement adds parameters and variables at most, keeps the scopes in agreement with the
frames, and binds its names. -/
theorem stmt_bound : ∀ {s t : Stmt} {env env' : Env}, Succeeds (stmt s) env t env' →
    ∀ {frame : Frame} {frames : List Frame}, Agrees env top (frame :: frames) visible →
      env.Pushes env' ∧ Agrees env' top (t.declare (frame :: frames)) visible ∧
      ∀ x ∈ t.sites (frame :: frames), x.Bound env'.context visible env.vargs
  | .expr e, t, env, env', h, frame, frames, hagrees => by
    obtain ⟨e', he, rfl, rfl⟩ := succeeds_expr.mp h
    refine ⟨.refl _, hagrees, ?_⟩
    simpa [Stmt.sites] using site_bound hagrees (every_bound hagrees he)
  | .decl var, t, env, env', h, frame, frames, hagrees => by
    obtain ⟨var', hvar, rfl⟩ := succeeds_decl.mp h
    obtain ⟨ty, varTy, init, hty, hinit, hfree, rfl, rfl⟩ := succeeds_localVar.mp hvar
    exact decl_bound hagrees (Env.annotate_eq_pure.mp hty) hinit hfree
  | .assign span target op value, t, env, env', h, frame, frames, hagrees => by
    obtain ⟨target', value', htarget, hvalue, rfl, rfl⟩ := succeeds_assign.mp h
    refine ⟨.refl _, hagrees, ?_⟩
    have hbound : target'.alone.Every (·.Bound env.context visible (frame :: frames) env.vargs) :=
      names_bound hagrees (Env.finds_value htarget)
    simpa [Stmt.sites] using ⟨site_bound hagrees hbound,
      site_bound hagrees (every_bound hagrees hvalue)⟩
  | .ret span value, t, env, env', h, frame, frames, hagrees => by
    obtain ⟨value', hvalue, rfl, rfl⟩ := succeeds_ret.mp h
    refine ⟨.refl _, hagrees, ?_⟩
    simp only [Stmt.sites, List.forall_mem_map]
    exact fun e he => site_bound hagrees (every_bound? hagrees hvalue e he)
  | .cond list, t, env, env', h, frame, frames, hagrees => by
    obtain ⟨list', hlist, rfl⟩ := succeeds_cond.mp h
    exact branches_bound hlist hagrees
  | .loop span cond body, t, env, env', h, frame, frames, hagrees => by
    obtain ⟨cond', body', env₁, hcond, hbody, rfl, rfl⟩ := succeeds_loop.mp h
    obtain ⟨hpushes, ⟨frame', hagrees'⟩, hbound⟩ := stmts_bound hbody hagrees.enter
    refine ⟨hpushes.inside, hagrees'.leave, ?_⟩
    simp only [Stmt.sites]
    refine List.forall_mem_cons.mpr ⟨?_, hbound⟩
    exact (site_bound hagrees (every_bound hagrees hcond)).grows
      hpushes.inside.grows.context
  | .block span body, t, env, env', h, frame, frames, hagrees => by
    obtain ⟨body', env₁, hbody, rfl, rfl⟩ := succeeds_block.mp h
    obtain ⟨hpushes, ⟨frame', hagrees'⟩, hbound⟩ := stmts_bound hbody hagrees.enter
    exact ⟨hpushes.inside, hagrees'.leave, hbound⟩
termination_by structural s => s

theorem stmts_bound : ∀ {ss ts : List Stmt} {env env' : Env}, Succeeds (stmts ss) env ts env' →
    ∀ {frame : Frame} {frames : List Frame}, Agrees env top (frame :: frames) visible →
      env.Pushes env' ∧ (∃ frame', Agrees env' top (frame' :: frames) visible) ∧
      ∀ x ∈ Stmt.sitesEach (frame :: frames) ts, x.Bound env'.context visible env.vargs
  | [], ts, env, env', h, frame, frames, hagrees => by
    obtain ⟨rfl, rfl⟩ := succeeds_stmts_nil.mp h
    exact ⟨.refl _, ⟨frame, hagrees⟩, by simp [Stmt.sitesEach]⟩
  | s :: ss, ts, env, env', h, frame, frames, hagrees => by
    obtain ⟨t, env₁, ts, hs, hss, rfl⟩ := succeeds_stmts_cons.mp h
    obtain ⟨hpushes, hagrees₁, hbound⟩ := stmt_bound hs hagrees
    -- A statement changes the innermost frame at most.
    obtain ⟨frame₁, hframe₁⟩ : ∃ frame₁, t.declare (frame :: frames) = frame₁ :: frames := by
      cases t <;> exact ⟨_, rfl⟩
    rw [hframe₁] at hagrees₁
    obtain ⟨hpushes', hagrees', hbound'⟩ := stmts_bound hss hagrees₁
    refine ⟨hpushes.trans hpushes', hagrees', ?_⟩
    simp only [Stmt.sitesEach, hframe₁]
    rw [hpushes.vargs] at hbound'
    exact List.forall_mem_append.mpr
      ⟨fun x hx => (hbound x hx).grows hpushes'.grows.context, hbound'⟩
termination_by structural ss => ss

theorem branch_bound : ∀ {b c : Branch} {env env' : Env}, Succeeds (branch b) env c env' →
    ∀ {frame : Frame} {frames : List Frame}, Agrees env top (frame :: frames) visible →
      env.Pushes env' ∧ Agrees env' top (frame :: frames) visible ∧
      ∀ x ∈ c.sites (frame :: frames), x.Bound env'.context visible env.vargs
  | .mk span g body, c, env, env', h, frame, frames, hagrees => by
    obtain ⟨g', body', env₁, hg, hbody, rfl, rfl⟩ := succeeds_branch.mp h
    obtain ⟨hpushes, ⟨frame', hagrees'⟩, hbound⟩ := stmts_bound hbody hagrees.enter
    refine ⟨hpushes.inside, hagrees'.leave, ?_⟩
    have hcond : env.expr? g.cond? = pure g'.cond? := Env.guard_eq_pure hg
    simp only [Branch.sites]
    refine List.forall_mem_append.mpr ⟨List.forall_mem_map.mpr fun e he => ?_, hbound⟩
    exact (site_bound hagrees (every_bound? hagrees hcond e he)).grows
      hpushes.inside.grows.context
termination_by structural b => b

theorem branches_bound : ∀ {bs cs : List Branch} {env env' : Env},
    Succeeds (branches bs) env cs env' →
    ∀ {frame : Frame} {frames : List Frame}, Agrees env top (frame :: frames) visible →
      env.Pushes env' ∧ Agrees env' top (frame :: frames) visible ∧
      ∀ x ∈ Branch.sitesEach (frame :: frames) cs, x.Bound env'.context visible env.vargs
  | [], cs, env, env', h, frame, frames, hagrees => by
    obtain ⟨rfl, rfl⟩ := succeeds_branches_nil.mp h
    exact ⟨.refl _, hagrees, by simp [Branch.sitesEach]⟩
  | b :: bs, cs, env, env', h, frame, frames, hagrees => by
    obtain ⟨c, env₁, cs, hb, hbs, rfl⟩ := succeeds_branches_cons.mp h
    obtain ⟨hpushes, hagrees₁, hbound⟩ := branch_bound hb hagrees
    obtain ⟨hpushes', hagrees', hbound'⟩ := branches_bound hbs hagrees₁
    refine ⟨hpushes.trans hpushes', hagrees', ?_⟩
    simp only [Branch.sitesEach]
    rw [hpushes.vargs] at hbound'
    exact List.forall_mem_append.mpr
      ⟨fun x hx => (hbound x hx).grows hpushes'.grows.context, hbound'⟩
termination_by structural bs => bs

end

/-! ## Functions -/

/-- The defaults in the table see the parts of the unit only. -/
def DefaultsBound (context : SemanticContext) (visible : List Node) : Prop :=
  ∀ info ∈ context.decls, ∀ e, some e ∈ info.defaults → e.Every (·.Bound context visible [] none)

theorem DefaultsBound.of_declared {context : SemanticContext} {ns : List Node}
    (h : DeclaredIn context.aliases top context.decls ns) : DefaultsBound context visible := by
  intro info hinfo e he
  exact absurd he (h.no_default info hinfo e)

theorem DefaultsBound.pushes {env env' : Env} (h : DefaultsBound env.context visible)
    (hpushes : env.Pushes env') : DefaultsBound env'.context visible := by
  obtain ⟨added, hadded, hnone⟩ := hpushes.decls
  intro info hinfo e he
  rw [hadded] at hinfo
  rcases List.mem_append.mp hinfo with hinfo | hinfo
  · exact (h info hinfo e he).grows hpushes.grows.context
  · simp [hnone info hinfo] at he

theorem DefaultsBound.setDefault {env : Env} (h : DefaultsBound env.context visible)
    (decl : Option DeclId) (index : Nat) {default : Option Expr}
    (hdefault : ∀ e ∈ default.toList, e.Every (·.Bound env.context visible [] none)) :
    DefaultsBound (env.setDefault decl index default).context visible := by
  have hgrows := (Env.grows_setDefault env decl index default).context
  suffices ∀ info ∈ (env.setDefault decl index default).context.decls, ∀ e,
      some e ∈ info.defaults → e.Every (·.Bound env.context visible [] none) from
    fun info hinfo e he => (this info hinfo e he).grows hgrows
  unfold Env.setDefault
  split
  · rename_i new id
    intro info hinfo e he
    obtain ⟨i, hi⟩ := List.mem_iff_getElem?.mp hinfo
    rw [Env.update, List.getElem?_modify] at hi
    obtain ⟨old, hold, rfl⟩ := Option.map_eq_some_iff.mp hi
    have hmem : some e ∈ old.defaults ∨ e = new := by
      split at he
      · exact (List.mem_or_eq_of_mem_set he).imp_right Option.some.inj
      · exact .inl he
    rcases hmem with hmem | rfl
    · exact h old (List.mem_of_getElem? hold) e hmem
    · exact hdefault e (by simp)
  · exact h

/-- Defaults are resolved in the unit's scope. -/
theorem defaults_bound {decl : Option DeclId} {index : Nat} {ps ps' : List Param} {env env' : Env}
    (h : Succeeds (defaults decl index ps) env ps' env') (hagrees : Agrees env top [] visible)
    (hvargs : env.vargs = none) (htable : DefaultsBound env.context visible) :
    env.Grows env' ∧ env'.scopes = env.scopes ∧ ps'.map (·.ty) = ps.map (·.ty) ∧
    DefaultsBound env'.context visible ∧
    ∀ p ∈ ps', ∀ e ∈ p.default.toList, e.Every (·.Bound env'.context visible [] none) := by
  induction ps generalizing index env ps' with
  | nil =>
    obtain ⟨rfl, rfl⟩ := succeeds_defaults_nil.mp h
    exact ⟨.refl _, rfl, rfl, htable, by simp⟩
  | cons p ps ih =>
    obtain ⟨default, ps', hdefault, hps, rfl⟩ := succeeds_defaults_cons.mp h
    have hgrows := Env.grows_setDefault env decl index default
    have hscopes := Env.scopes_setDefault env decl index default
    have hnew := every_bound? hagrees hdefault
    rw [hvargs] at hnew
    obtain ⟨hgrows', hscopes', htys, htable', hbound⟩ := ih hps (hagrees.grows hgrows hscopes)
      (hgrows.vargs.trans hvargs) (htable.setDefault decl index hnew)
    refine ⟨hgrows.trans hgrows', hscopes'.trans hscopes, congrArg (_ :: ·) htys, htable', ?_⟩
    exact List.forall_mem_cons.mpr
      ⟨fun e he => (hnew e he).grows (hgrows.trans hgrows').context, hbound⟩

/-- Parameters are numbered in order. -/
theorem declareParams_agrees {aliases : AliasTable} {ps : List Param} {tys : List Ty}
    {env env' : Env} (h : Succeeds (declareParams ps tys) env () env') {frame : Frame}
    {frames : List Frame} (haliases : env.context.aliases = aliases)
    (htys : List.Forall₂ (fun p ty => (aliases.annotate p.ty).2 = .ok ty) ps tys)
    (hagrees : Agrees env top (frame :: frames) visible) :
    env.Pushes env' ∧ Agrees env' top
      (Frame.ofParams frame env.context.decls.length ps :: frames) visible := by
  induction htys generalizing env frame with
  | nil =>
    obtain ⟨-, rfl⟩ := succeeds_pure.mp h
    exact ⟨.refl _, hagrees⟩
  | @cons p ty ps tys hp _ ih =>
    obtain ⟨hfree, hps⟩ := succeeds_declareParams_cons.mp h
    have hmatch : (⟨p.name.text, p.name.span, .parameter, ty, [], 0, false⟩ : DeclInfo).Matches
        env.context.aliases ⟨.parameter, p.ty, p.name, some env.context.decls.length⟩ :=
      ⟨rfl, rfl, rfl, haliases ▸ hp, .inr rfl⟩
    obtain ⟨hpushes, hdone⟩ := ih hps haliases (hagrees.push hmatch rfl rfl hfree)
    refine ⟨(Env.Pushes.push env rfl).trans hpushes, ?_⟩
    simpa [Env.push, Frame.ofParams] using hdone

/-- The type of further arguments in the body of a function. -/
def vargsOf (f : Function) : Option Ty := f.sig.bind (·.rest.elem?)

/-- The names of a function are bound: those of the body under the frames of the body, and those of
defaults in the unit. -/
structure FunctionBound (context : SemanticContext) (visible : List Node) (f : Function) :
    Prop where
  body : ∃ first, ∀ s ∈ f.sites first, s.Bound context visible (vargsOf f)
  defaults : ∀ p ∈ f.params, ∀ e ∈ p.default.toList, e.Every (·.Bound context visible [] none)

theorem FunctionBound.grows {c c' : SemanticContext} {f : Function}
    (h : FunctionBound c visible f) (hgrows : c.Grows c') : FunctionBound c' visible f := by
  obtain ⟨⟨first, hbody⟩, hdefaults⟩ := h
  exact ⟨⟨first, fun s hs => (hbody s hs).grows hgrows⟩,
    fun p hp e he => (hdefaults p hp e he).grows hgrows⟩

theorem function_bound {f f' : Function} {env env' : Env} (h : Succeeds (function f) env f' env')
    (hann : (Node.function f).Annotated env.context.aliases)
    (hagrees : Agrees env top [] visible) (hvargs : env.vargs = none)
    (htable : DefaultsBound env.context visible) :
    env.Grows env' ∧ env'.scopes = env.scopes ∧ DefaultsBound env'.context visible ∧
      FunctionBound env'.context visible f' := by
  obtain ⟨ps, env₁, hps, hbody⟩ := succeeds_function.mp h
  obtain ⟨hgrows₁, hscopes₁, htys, htable₁, hdefaults⟩ := defaults_bound hps hagrees hvargs htable
  rcases hbody with ⟨hbody, rfl, rfl⟩ | ⟨body, body', hbody, hrun, rfl⟩
  · refine ⟨hgrows₁, hscopes₁, htable₁, ⟨0, ?_⟩, hdefaults⟩
    simp [Function.sites, hbody, Stmt.sitesEach]
  · obtain ⟨env₂, env₃, hparams, hstmts, rfl⟩ := succeeds_functionBody.mp hrun
    obtain ⟨sig, hsig, -, hsigTys⟩ := hann
    have hpsTys : List.Forall₂ (fun p ty => (env.context.aliases.annotate p.ty).2 = .ok ty) ps
        sig.params := by
      have hmapped : List.Forall₂ (fun t ty => (env.context.aliases.annotate t).2 = .ok ty)
          (ps.map (·.ty)) sig.params := htys ▸ List.forall₂_map_left_iff.mpr hsigTys
      exact List.forall₂_map_left_iff.mp hmapped
    have hagrees₁ := ((hagrees.grows hgrows₁ hscopes₁).withVargs (vargsOf f)).enter
    rw [show (f.sig.map (·.params)).getD [] = sig.params by rw [hsig]; rfl] at hparams
    obtain ⟨hpushes₂, hagrees₂⟩ :=
      declareParams_agrees hparams hgrows₁.context.aliases hpsTys hagrees₁
    obtain ⟨hpushes₃, ⟨frame, hagrees₃⟩, hbound⟩ := stmts_bound hstmts hagrees₂
    have hpushes := hpushes₂.trans hpushes₃
    have htable₂ : DefaultsBound env₃.context visible := by
      refine DefaultsBound.pushes ?_ hpushes
      exact htable₁
    refine ⟨⟨hgrows₁.context.trans hpushes.grows.context, hvargs.symm,
      hpushes.limit.trans hgrows₁.limit⟩, ?_, htable₂, ⟨env₁.context.decls.length, ?_⟩, ?_⟩
    · exact hagrees₃.leave.scopes_nil.trans hagrees.scopes_nil.symm
    · rw [hpushes₂.vargs] at hbound
      exact hbound
    · exact fun p hp e he => (hdefaults p hp e he).grows hpushes.grows.context

/-! ## The unit -/

/-- The initial value of a global is resolved where the functions and the globals before it are
visible. -/
theorem global_bound {env₀ env env' : Env} {before after : List Node} {g g' : VarDecl}
    (h : Succeeds (global g) env g' env')
    (hdeclared : DeclaredIn env₀.context.aliases top env₀.context.decls
      (before ++ .global g :: after))
    (hgrows : env₀.Grows env) (hscopes : env.scopes = [top]) (hvargs : env.vargs = none) :
    env' = env ∧ ∀ e ∈ g'.init.toList,
      e.Every (·.Bound env'.context (visibleTo before after) [] none) := by
  obtain ⟨init, hinit, rfl, rfl⟩ := succeeds_global.mp h
  have horder := hdeclared.orderOf_grows hgrows.context
  have hunit : UnitScope { env₀ with limit := orderOf env₀.context.decls g } top
      (visibleTo before after) := unitScope_of_declared_before hdeclared hdeclared.orderOf
  have hagrees : Agrees { env with limit := orderOf env.context.decls g } top []
      (visibleTo before after) :=
    ⟨⟨[], hscopes, .nil⟩, by simp, hunit.grows ⟨hgrows.context, hgrows.vargs, horder⟩⟩
  have hbound := every_bound? hagrees hinit
  rw [show ({ env with limit := orderOf env.context.decls g } : Env).vargs = none from hvargs]
    at hbound
  exact ⟨rfl, hbound⟩

theorem outline_node {n n' : Node} {env env' : Env} (h : Succeeds (node n) env n' env') :
    n'.outline = n.outline := by
  cases n with
  | function f =>
    obtain ⟨f', hf, rfl⟩ := succeeds_node_function.mp h
    obtain ⟨ps, env₁, -, ⟨-, rfl, -⟩ | ⟨_, _, -, -, rfl⟩⟩ := succeeds_function.mp hf <;> rfl
  | global g =>
    obtain ⟨g', hg, rfl⟩ := succeeds_node_global.mp h
    obtain ⟨init, -, rfl, -⟩ := succeeds_global.mp hg
    rfl
  | _ =>
    obtain ⟨rfl, -⟩ := succeeds_pure.mp h
    rfl

theorem outline_nodes {ns ns' : List Node} {env env' : Env}
    (h : Succeeds (nodes ns) env ns' env') : ns'.map Node.outline = ns.map Node.outline := by
  induction ns generalizing env ns' with
  | nil => rw [← (succeeds_nodes_nil.mp h).1]
  | cons n ns ih =>
    obtain ⟨n', env₁, ns', hn, hns, rfl⟩ := succeeds_nodes_cons.mp h
    exact congrArg₂ List.cons (outline_node hn) (ih hns)

/-- What a part between others sees is bound. -/
def NodeBound (context : SemanticContext) (before after : List Node) (n n' : Node) : Prop :=
  match n' with
  | .function f => FunctionBound context (before ++ n :: after) f
  | .global g => ∀ e ∈ g.init.toList,
    e.Every (·.Bound context (visibleTo before after) [] none)
  | _ => True

theorem NodeBound.grows {c c' : SemanticContext} {before after : List Node} {n n' : Node}
    (h : NodeBound c before after n n') (hgrows : c.Grows c') :
    NodeBound c' before after n n' := by
  cases n' with
  | function f => exact FunctionBound.grows h hgrows
  | global g => exact fun e he => (h e he).grows hgrows
  | _ => trivial

theorem node_bound {env₀ env env' : Env} {before after : List Node} {n n' : Node}
    (h : Succeeds (node n) env n' env')
    (hdeclared : DeclaredIn env₀.context.aliases top env₀.context.decls (before ++ n :: after))
    (hlimit : env₀.limit = none) (hgrows : env₀.Grows env) (hscopes : env.scopes = [top])
    (hvargs : env.vargs = none) (hann : n.Annotated env₀.context.aliases)
    (htable : DefaultsBound env.context (before ++ n :: after)) :
    env.Grows env' ∧ env'.scopes = [top] ∧ DefaultsBound env'.context (before ++ n :: after) ∧
      NodeBound env'.context before after n n' := by
  cases n with
  | function f =>
    obtain ⟨f', hf, rfl⟩ := succeeds_node_function.mp h
    have hagrees : Agrees env top [] (before ++ .function f :: after) :=
      ⟨⟨[], hscopes, .nil⟩, by simp, (unitScope_of_declared hlimit hdeclared).grows hgrows⟩
    obtain ⟨hgrows', hscopes', htable', hbound⟩ :=
      function_bound hf (hgrows.context.aliases ▸ hann) hagrees hvargs htable
    exact ⟨hgrows', hscopes'.trans hscopes, htable', hbound⟩
  | global g =>
    obtain ⟨g', hg, rfl⟩ := succeeds_node_global.mp h
    obtain ⟨rfl, hbound⟩ := global_bound hg hdeclared hgrows hscopes hvargs
    exact ⟨.refl _, hscopes, htable, hbound⟩
  | _ =>
    obtain ⟨rfl, rfl⟩ := succeeds_pure.mp h
    exact ⟨.refl _, hscopes, htable, trivial⟩

/-- All parts of a unit, one after the other. -/
theorem nodes_bound {env₀ env env' : Env} {before ns ns' : List Node}
    (h : Succeeds (nodes ns) env ns' env')
    (hdeclared : DeclaredIn env₀.context.aliases top env₀.context.decls (before ++ ns))
    (hlimit : env₀.limit = none) (hgrows : env₀.Grows env) (hscopes : env.scopes = [top])
    (hvargs : env.vargs = none) (hann : ∀ n ∈ ns, n.Annotated env₀.context.aliases)
    (htable : DefaultsBound env.context (before ++ ns)) :
    env.Grows env' ∧ DefaultsBound env'.context (before ++ ns) ∧
    ∀ i n n', ns[i]? = some n → ns'[i]? = some n' →
      NodeBound env'.context (before ++ ns.take i) (ns.drop (i + 1)) n n' := by
  induction ns generalizing before env ns' with
  | nil =>
    obtain ⟨rfl, rfl⟩ := succeeds_nodes_nil.mp h
    exact ⟨.refl _, htable, by simp⟩
  | cons n ns ih =>
    obtain ⟨n', env₁, ns', hn, hns, rfl⟩ := succeeds_nodes_cons.mp h
    obtain ⟨hannN, hannNs⟩ := List.forall_mem_cons.mp hann
    have hassoc : before ++ n :: ns = (before ++ [n]) ++ ns := by simp
    obtain ⟨hgrows₁, hscopes₁, htable₁, hbound⟩ :=
      node_bound hn hdeclared hlimit hgrows hscopes hvargs hannN htable
    obtain ⟨hgrows₂, htable₂, hrest⟩ := ih hns (hassoc ▸ hdeclared) (hgrows.trans hgrows₁) hscopes₁
      (hgrows₁.vargs.trans hvargs) hannNs (hassoc ▸ htable₁)
    refine ⟨hgrows₁.trans hgrows₂, hassoc ▸ htable₂, ?_⟩
    intro i m m' hm hm'
    cases i with
    | zero =>
      obtain rfl : n = m := Option.some.inj hm
      obtain rfl : n' = m' := Option.some.inj hm'
      simpa using hbound.grows hgrows₂.context
    | succ i => simpa using hrest i m m' hm hm'

end Resolver

/-- The sites and defaults of a resolved unit are bound, also those in the table. -/
theorem SourceUnit.resolve_bound {unit unit' : SourceUnit} {context : SemanticContext}
    (h : unit.resolve = (unit', .ok context)) :
    WellDeclared context.aliases unit'.nodes ∧ Resolver.DefaultsBound context unit'.nodes ∧
    (∀ f, .function f ∈ unit'.nodes → Resolver.FunctionBound context unit'.nodes f) ∧
    ∀ before g after, unit'.nodes = before ++ .global g :: after → ∀ e ∈ g.init.toList,
      e.Every (·.Bound context (visibleTo before after) [] none) := by
  obtain ⟨declared, env, env', top, -, hdeclared, hann, haliased, hscopes, hvargs, hlimit, hnodes,
    rfl⟩ := SourceUnit.resolve_passes h
  have houtline := (Resolver.outline_nodes hnodes).symm
  obtain ⟨hgrows, htable, hbound⟩ := Resolver.nodes_bound hnodes (List.nil_append declared ▸ hdeclared)
    hlimit (.refl _) hscopes hvargs hann (.of_declared hdeclared)
  have hparts := (hdeclared.wellDeclared hann haliased).outline houtline
  rw [← hgrows.context.aliases] at hparts
  have hlength : declared.length = unit'.nodes.length := by
    simpa using congrArg List.length houtline
  -- The declared part in the place of a resolved one.
  have hpart : ∀ i n', unit'.nodes[i]? = some n' → ∃ n, declared[i]? = some n ∧
      Resolver.NodeBound env'.context (declared.take i) (declared.drop (i + 1)) n n' := by
    intro i n' hn'
    have hi : i < declared.length := hlength ▸ (List.getElem?_eq_some_iff.mp hn').1
    exact ⟨declared[i], List.getElem?_eq_getElem hi,
      by simpa using hbound i _ n' (List.getElem?_eq_getElem hi) hn'⟩
  refine ⟨hparts, fun info hinfo e he => (htable info hinfo e he).outline houtline, fun f hf => ?_,
    fun before g after hsplit e he => ?_⟩
  · obtain ⟨i, hi⟩ := List.mem_iff_getElem?.mp hf
    obtain ⟨n, hn, hfunction⟩ := hpart i _ hi
    have hsplit : declared.take i ++ n :: declared.drop (i + 1) = declared := by
      obtain ⟨hlt, rfl⟩ := List.getElem?_eq_some_iff.mp hn
      rw [List.getElem_cons_drop, List.take_append_drop]
    have hfunction : Resolver.FunctionBound env'.context declared f := hsplit ▸ hfunction
    obtain ⟨⟨first, hbody⟩, hdefaults⟩ := hfunction
    exact ⟨⟨first, fun s hs => ⟨(hbody s hs).placed, (hbody s hs).names.outline houtline⟩⟩,
      fun p hp e he => (hdefaults p hp e he).outline houtline⟩
  · obtain ⟨n, -, hglobal⟩ := hpart before.length (.global g) (by simp [hsplit])
    have hbefore : (declared.take before.length).map Node.outline = before.map Node.outline := by
      rw [List.map_take, houtline, ← List.map_take, hsplit, List.take_left]
    have hafter : (declared.drop (before.length + 1)).map Node.outline =
        after.map Node.outline := by
      rw [List.map_drop, houtline, ← List.map_drop, hsplit, List.drop_append,
        List.drop_eq_nil_of_le (Nat.le_succ _)]
      simp
    refine Expr.Every.outline (hglobal e he) ?_
    rw [visibleTo_outline, visibleTo_outline, hbefore, hafter]

/-! ## Lexical scoping -/

/-- **Names are bound lexically.** The resolved unit is the unit with its slots filled. Every name
in the body of a function stands for its innermost declaration among the parameters and the
variables declared before it in the scopes around it, or else for what lies outside: the parts of
the unit, and only then what no declaration gives. Defaults see the parts of the unit only; the
initial value of a global sees the functions and the globals before it. -/
theorem resolve_scopes_lexically {unit unit' : SourceUnit} {context : SemanticContext}
    (h : unit.resolve = (unit', .ok context)) :
    unit'.nodes.map (·.refill .emptied) = unit.nodes.map (·.refill .emptied) ∧
    (∀ f, .function f ∈ unit'.nodes →
      (∃ first, ∀ s ∈ f.sites first,
        s.expr.Every (·.Bound context unit'.nodes s.scopes (Resolver.vargsOf f))) ∧
      ∀ p ∈ f.params, ∀ e ∈ p.default.toList, e.Every (·.Bound context unit'.nodes [] none)) ∧
    ∀ before g after, unit'.nodes = before ++ .global g :: after → ∀ e ∈ g.init.toList,
      e.Every (·.Bound context (visibleTo before after) [] none) := by
  obtain ⟨-, -, hfunctions, hglobals⟩ := SourceUnit.resolve_bound h
  refine ⟨SourceUnit.bare_resolve h, fun f hf => ?_, hglobals⟩
  obtain ⟨⟨first, hbody⟩, hdefaults⟩ := hfunctions f hf
  exact ⟨⟨first, fun s hs => (hbody s hs).names⟩, hdefaults⟩

/-- A variable that hides a parameter, which its initial value still sees. -/
theorem hiding_scopes_lexically : ∃ unit unit' context,
    SourceUnit.parse 0 "int f(int x) { { int x = x } return x }" = .ok unit ∧
    unit.resolve = (unit', .ok context) ∧
    ∀ f, .function f ∈ unit'.nodes → ∃ first, ∀ s ∈ f.sites first,
      s.expr.Every (·.Bound context unit'.nodes s.scopes (Resolver.vargsOf f)) := by
  have hok : ((SourceUnit.parse 0 "int f(int x) { { int x = x } return x }").toOption.any
      fun unit => unit.resolve.2.toOption.isSome) = true := by
    rw [SourceUnit.parse_ofList]
    decide +kernel
  obtain ⟨unit, hparse, hresolved⟩ := SourceUnit.exists_parsed hok
  rcases hresolve : unit.resolve with ⟨unit', _ | context⟩
  · simp [hresolve, Except.toOption] at hresolved
  · exact ⟨unit, unit', context, hparse, hresolve,
      fun f hf => ((resolve_scopes_lexically hresolve).2.1 f hf).1⟩

end KilnLang
