import KilnLang.Proofs.Semantic.AliasCycles
import KilnLang.Proofs.Semantic.OnlySlots
import KilnLang.Proofs.Semantic.Operands
import KilnLang.Proofs.Semantic.Renumbering
import KilnLang.Proofs.Semantic.Success

/-!
# Where expressions are resolved

Whether the resolution of a unit succeeds or not, each expression of the resulting tree is what an
expression of the unit is resolved to in an environment with the aliases of the whole unit and with
all that its headers offer (`SourceUnit.resolvesEach`). Scopes differ from expression to expression.

Of the errors, the relation keeps those on the number of arguments of macros: such errors are found
in expressions only, and each in the expression that has it.

A step of the resolution **is quiet** if it leaves aliases and headers alone and finds no such
error; a step **visits** expressions if, besides, it resolves them one after the other. Both are
closed under sequencing, and every step up to `Resolver.node` is one or the other.
-/

namespace KilnLang

/-- The error is about the number of arguments of a macro. -/
def SemanticError.isMacroArity : SemanticError → Bool
  | .macroArityMismatch _ _ _ _ => true
  | _ => false

/-- The errors about the number of arguments of macros. -/
def macroArityErrors (errors : List SemanticError) : List SemanticError :=
  errors.filter (·.isMacroArity)

@[simp] theorem macroArityErrors_nil : macroArityErrors [] = [] := rfl

@[simp] theorem macroArityErrors_append (es es' : List SemanticError) :
    macroArityErrors (es ++ es') = macroArityErrors es ++ macroArityErrors es' :=
  List.filter_append _ _

@[simp] theorem macroArityErrors_alias (es : List AliasError) :
    macroArityErrors (es.map .alias) = [] := by
  simp [macroArityErrors, SemanticError.isMacroArity]

/-- The environment has the aliases of the unit and what its headers offer. -/
structure Env.Knows (env : Env) (known : SemanticContext) : Prop where
  aliases : env.context.aliases = known.aliases
  bridge : env.context.bridge = known.bridge

/-- Expressions, what each of them is resolved to in an environment that knows the unit, and the
errors about macros found there. -/
inductive ResolvesEach (known : SemanticContext) :
    List Expr → List Expr → List SemanticError → Prop
  | nil : ResolvesEach known [] [] []
  | cons {env : Env} {es es' : List Expr} {errors : List SemanticError} (henv : env.Knows known)
      (e : Expr) (hrest : ResolvesEach known es es' errors) :
      ResolvesEach known (e :: es) ((env.expr e).value :: es')
        (macroArityErrors (env.expr e).errors ++ errors)

namespace ResolvesEach

variable {known : SemanticContext} {es es' fs fs' : List Expr} {errors more : List SemanticError}

theorem append (h : ResolvesEach known es es' errors) (h' : ResolvesEach known fs fs' more) :
    ResolvesEach known (es ++ fs) (es' ++ fs') (errors ++ more) := by
  induction h with
  | nil => exact h'
  | cons henv e hrest ih =>
    rw [List.append_assoc]
    exact ih.cons henv e

/-- Each resolved expression comes from an expression and an environment. -/
theorem exists_of_mem (h : ResolvesEach known es es' errors) {e' : Expr} (he' : e' ∈ es') :
    ∃ env : Env, env.Knows known ∧ ∃ e ∈ es, (env.expr e).value = e' := by
  induction h with
  | nil => exact absurd he' List.not_mem_nil
  | @cons env _ _ _ henv e _ ih =>
    rcases List.mem_cons.mp he' with rfl | he'
    · exact ⟨env, henv, e, List.mem_cons_self, rfl⟩
    · obtain ⟨env', henv', e₁, he₁, heq⟩ := ih he'
      exact ⟨env', henv', e₁, List.mem_cons_of_mem _ he₁, heq⟩

end ResolvesEach

/-! ## Expressions -/

namespace Env

variable {env : Env}

theorem span_ident (name : DottedName) : (env.ident name).value.span = name.span := by
  simp only [ident, Report.value_bind]
  cases (env.find name).value with
  | none => rfl
  | some found =>
    dsimp only
    split <;> rfl

theorem span_expr (e : Expr) : (env.expr e).value.span = e.span := by
  cases e
  rfl

theorem span_value (v : Value) : (env.value v).value.span = v.span := by
  cases v with
  | ident name => exact span_ident name
  | paren inner => exact span_expr inner
  | _ => rfl

/-- The target of an assignment is resolved like an expression. -/
theorem value_alone (v : Value) : (env.expr v.alone).value = (env.value v).value.alone := by
  rw [Value.alone, Value.alone, span_value]
  rfl

theorem errors_alone (v : Value) : (env.expr v.alone).errors = (env.value v).errors := by
  simp only [Value.alone, expr, chain, Report.errors_bind, Report.errors_pure, List.append_nil]

/-! ## Types -/

theorem errors_annotate (t : TypeExpr) : macroArityErrors (env.annotate t).errors = [] := by
  unfold annotate
  split <;> rfl

theorem errors_annotateEach (ts : List TypeExpr) :
    macroArityErrors (env.annotateEach ts).errors = [] := by
  induction ts with
  | nil => rfl
  | cons t ts ih =>
    simp only [annotateEach, Report.errors_bind, Report.errors_pure, macroArityErrors_append,
      errors_annotate, ih, List.append_nil]

theorem errors_annotateRest (rest : Rest TypeExpr) :
    macroArityErrors (env.annotateRest rest).errors = [] := by
  cases rest with
  | typed elem =>
    simp only [annotateRest, Report.errors_bind, Report.errors_pure, errors_annotate, List.append_nil]
  | _ => rfl

theorem errors_head (item : Function) : macroArityErrors (env.head item).errors = [] := by
  simp only [head, Report.errors_bind, Report.errors_pure, macroArityErrors_append, errors_annotate,
    errors_annotateEach, errors_annotateRest, List.append_nil]

/-- Annotating parameters keeps their defaults. -/
theorem defaults_annotateEach (ps : List Param) :
    (ps.zipWith (fun p (r : TypeExpr × Ty) => { p with ty := r.1 })
      (env.annotateEach (ps.map (·.ty))).value).filterMap (·.default) =
      ps.filterMap (·.default) := by
  induction ps with
  | nil => rfl
  | cons p ps ih =>
    simp only [List.map_cons, annotateEach, Report.value_bind, Report.value_pure,
      List.zipWith_cons_cons, List.filterMap_cons]
    rw [ih]

theorem exprs_head (item : Function) :
    Node.exprs (.function (env.head item).value.1) = Node.exprs (.function item) :=
  congrArg (· ++ item.exprs) (defaults_annotateEach item.params)

variable {known : SemanticContext}

theorem Knows.resolves_expr (henv : env.Knows known) (e : Expr) :
    ResolvesEach known [e] [(env.expr e).value] (macroArityErrors (env.expr e).errors) := by
  rw [← List.append_nil (macroArityErrors _)]
  exact ResolvesEach.nil.cons henv e

theorem Knows.resolves_expr? (henv : env.Knows known) (e : Option Expr) :
    ResolvesEach known e.toList (env.expr? e).value.toList
      (macroArityErrors (env.expr? e).errors) := by
  cases e with
  | none => exact .nil
  | some e =>
    simp only [expr?, Report.errors_bind, Report.errors_pure, List.append_nil]
    exact henv.resolves_expr e

end Env

/-! ## Steps -/

namespace Resolver

variable {α β : Type} {known : SemanticContext}

/-- The step leaves aliases and headers alone and finds no errors about macros, and its result
satisfies `Q`. -/
def IsQuiet (known : SemanticContext) (Q : α → Prop) (m : ResolveM α) : Prop :=
  ∀ env : Env, env.Knows known → (m env).value.2.Knows known ∧
    macroArityErrors (m env).errors = [] ∧ Q (m env).value.1

/-- The step leaves aliases and headers alone and resolves the expressions; `Q` relates its result
to what they are resolved to. -/
def Visits (known : SemanticContext) (es : List Expr) (Q : α → List Expr → Prop)
    (m : ResolveM α) : Prop :=
  ∀ env : Env, env.Knows known → (m env).value.2.Knows known ∧
    ∃ es', ResolvesEach known es es' (macroArityErrors (m env).errors) ∧ Q (m env).value.1 es'

theorem errors_bind (m : ResolveM α) (f : α → ResolveM β) (env : Env) :
    ((m >>= f) env).errors = (m env).errors ++ (f (m env).value.1 (m env).value.2).errors := rfl

theorem errors_report (r : Env → Report α) (env : Env) :
    (report r env).errors = (r env).errors := List.append_nil _

theorem get_bind (f : Env → ResolveM β) (env : Env) :
    ((do f (← get) : ResolveM β) env) = f env env := rfl

namespace IsQuiet

variable {Q : α → Prop} {R : β → Prop}

theorem pure {a : α} (h : Q a) : IsQuiet known Q (Pure.pure a) := fun _ henv => ⟨henv, rfl, h⟩

theorem bind {m : ResolveM α} {f : α → ResolveM β} (hm : IsQuiet known Q m)
    (hf : ∀ a, Q a → IsQuiet known R (f a)) : IsQuiet known R (m >>= f) := by
  intro env henv
  obtain ⟨henv', herrors, ha⟩ := hm env henv
  obtain ⟨henv'', herrors', hb⟩ := hf _ ha _ henv'
  exact ⟨henv'', by rw [errors_bind, macroArityErrors_append, herrors, herrors', List.nil_append],
    hb⟩

theorem report {r : Env → Report α} (herrors : ∀ env, macroArityErrors (r env).errors = [])
    (h : ∀ env, Q (r env).value) : IsQuiet known Q (Resolver.report r) :=
  fun env henv => ⟨henv, by rw [errors_report, herrors], h env⟩

theorem get : IsQuiet known (fun _ => True) (MonadState.get : ResolveM Env) :=
  fun _ henv => ⟨henv, rfl, trivial⟩

theorem modifyEnv {f : Env → Env} (h : ∀ env : Env, env.Knows known → (f env).Knows known) :
    IsQuiet known (fun _ => True) (Resolver.modifyEnv f) :=
  fun env henv => ⟨h env henv, rfl, trivial⟩

theorem bind_visits {es : List Expr} {R : β → List Expr → Prop} {m : ResolveM α}
    {f : α → ResolveM β} (hm : IsQuiet known Q m) (hf : ∀ a, Q a → Visits known es R (f a)) :
    Visits known es R (m >>= f) := by
  intro env henv
  obtain ⟨henv', herrors, ha⟩ := hm env henv
  obtain ⟨henv'', es', heach, hb⟩ := hf _ ha _ henv'
  refine ⟨henv'', es', ?_, hb⟩
  rwa [errors_bind, macroArityErrors_append, herrors, List.nil_append]

end IsQuiet

namespace Visits

variable {es fs : List Expr} {Q : α → List Expr → Prop} {R : β → List Expr → Prop}

theorem pure {a : α} (h : Q a []) : Visits known [] Q (Pure.pure a) :=
  fun _ henv => ⟨henv, [], .nil, h⟩

theorem bind {m : ResolveM α} {f : α → ResolveM β} (hm : Visits known es Q m)
    (hf : ∀ a es', Q a es' → Visits known fs (fun b fs' => R b (es' ++ fs')) (f a)) :
    Visits known (es ++ fs) R (m >>= f) := by
  intro env henv
  obtain ⟨henv', es', heach, ha⟩ := hm env henv
  obtain ⟨henv'', fs', heach', hb⟩ := hf _ es' ha _ henv'
  refine ⟨henv'', es' ++ fs', ?_, hb⟩
  rw [errors_bind, macroArityErrors_append]
  exact heach.append heach'

/-- Nothing is resolved after the step. -/
theorem bind_quiet {m : ResolveM α} {f : α → ResolveM β} (hm : Visits known es Q m)
    (hf : ∀ a es', Q a es' → IsQuiet known (R · es') (f a)) : Visits known es R (m >>= f) := by
  intro env henv
  obtain ⟨henv', es', heach, ha⟩ := hm env henv
  obtain ⟨henv'', herrors, hb⟩ := hf _ es' ha _ henv'
  refine ⟨henv'', es', ?_, hb⟩
  rwa [errors_bind, macroArityErrors_append, herrors, List.append_nil]

end Visits

theorem Visits.report {es : List Expr} {Q : α → List Expr → Prop} {r : Env → Report α}
    (h : ∀ env : Env, env.Knows known →
      ∃ es', ResolvesEach known es es' (macroArityErrors (r env).errors) ∧ Q (r env).value es') :
    Visits known es Q (Resolver.report r) :=
  fun env henv => ⟨henv, by rw [errors_report]; exact h env henv⟩

theorem visits_expr (e : Expr) :
    Visits known [e] (fun e' es' => es' = [e']) (report (·.expr e)) :=
  .report fun _ henv => ⟨_, henv.resolves_expr e, rfl⟩

theorem visits_expr? (e : Option Expr) :
    Visits known e.toList (fun e' es' => es' = e'.toList) (report (·.expr? e)) :=
  .report fun _ henv => ⟨_, henv.resolves_expr? e, rfl⟩

theorem visits_target (v : Value) :
    Visits known [v.alone] (fun v' es' => es' = [v'.alone]) (report (·.value v)) := by
  refine .report fun _ henv => ⟨_, ?_, rfl⟩
  rw [← Env.value_alone, ← Env.errors_alone]
  exact henv.resolves_expr v.alone

theorem visits_guard (g : Guard) :
    Visits known g.cond?.toList (fun g' es' => es' = g'.cond?.toList) (report (·.guard g)) := by
  refine .report fun env henv => ⟨_, ?_, rfl⟩
  cases g with
  | otherwise => exact .nil
  | first cond | next cond =>
    simp only [Env.guard, Report.errors_bind, Report.errors_pure, List.append_nil]
    exact henv.resolves_expr cond

/-! ## Statements -/

theorem push_quiet (info : DeclInfo) : IsQuiet known (fun _ => True) (push info) :=
  fun _ henv => ⟨⟨henv.aliases, henv.bridge⟩, rfl, trivial⟩

theorem declare_quiet (name : Ident) (kind : DeclKind) (ty : Ty) (order : Nat) :
    IsQuiet known (fun _ => True) (declare name kind ty order) := by
  unfold declare
  refine IsQuiet.get.bind fun env _ => ?_
  split
  · exact (IsQuiet.report (Q := fun _ => True) (fun _ => rfl) fun _ => trivial).bind fun _ _ =>
      .pure trivial
  · exact (push_quiet _).bind fun _ _ => .pure trivial

theorem openScope_quiet : IsQuiet known (fun _ => True) openScope :=
  .modifyEnv fun _ henv => ⟨henv.aliases, henv.bridge⟩

theorem closeScope_quiet : IsQuiet known (fun _ => True) closeScope :=
  .modifyEnv fun _ henv => ⟨henv.aliases, henv.bridge⟩

theorem annotate_quiet (t : TypeExpr) : IsQuiet known (fun _ => True) (report (·.annotate t)) :=
  .report (fun _ => Env.errors_annotate t) fun _ => trivial

theorem visits_localVar (var : VarDecl) :
    Visits known var.init.toList (fun var' es' => es' = var'.init.toList) (localVar var) := by
  unfold localVar
  refine (annotate_quiet var.ty).bind_visits fun ty _ => ?_
  refine (visits_expr? var.init).bind_quiet fun init es' hinit => ?_
  exact (declare_quiet _ _ _ _).bind fun decl _ => .pure hinit

/-- The body of a loop, a block or a branch, which is a scope. -/
theorem Visits.scope {es : List Expr} {Q : List Stmt → List Expr → Prop} {R : β → List Expr → Prop}
    {m : ResolveM (List Stmt)} {f : List Stmt → β} (hm : Visits known es Q m)
    (h : ∀ body es', Q body es' → R (f body) es') :
    Visits known es R (do
      openScope
      let body ← m
      closeScope
      return f body) := by
  refine openScope_quiet.bind_visits fun _ _ => ?_
  refine hm.bind_quiet fun body es' hbody => ?_
  exact closeScope_quiet.bind fun _ _ => .pure (h body es' hbody)

mutual

theorem visits_stmt : ∀ s : Stmt, Visits known s.exprs (fun s' es' => es' = s'.exprs) (stmt s)
  | .expr e => by
    rw [stmt]
    exact (visits_expr e).bind_quiet fun _ _ he' => .pure he'
  | .decl var => by
    rw [stmt]
    exact (visits_localVar var).bind_quiet fun _ _ hvar' => .pure hvar'
  | .assign span target op value => by
    rw [stmt]
    show Visits known ([target.alone] ++ [value]) _ _
    refine (visits_target target).bind fun target' _ htarget' => ?_
    refine (visits_expr value).bind_quiet fun value' _ hvalue' => .pure ?_
    rw [htarget', hvalue']
    rfl
  | .ret span value => by
    rw [stmt]
    exact (visits_expr? value).bind_quiet fun _ _ hvalue' => .pure hvalue'
  | .cond list => by
    rw [stmt]
    exact (visits_branches list).bind_quiet fun _ _ hlist' => .pure hlist'
  | .loop span cond body => by
    rw [stmt]
    refine (visits_expr cond).bind fun cond' _ hcond' => ?_
    refine (visits_stmts body).scope fun body' _ hbody' => ?_
    rw [hcond', hbody']
    rfl
  | .block span body => by
    rw [stmt]
    exact (visits_stmts body).scope fun _ _ hbody' => hbody'

theorem visits_stmts : ∀ ss : List Stmt,
    Visits known (Stmt.exprsEach ss) (fun ss' es' => es' = Stmt.exprsEach ss') (stmts ss)
  | [] => .pure rfl
  | s :: ss => by
    rw [stmts]
    refine (visits_stmt s).bind fun s' _ hs' => ?_
    refine (visits_stmts ss).bind_quiet fun ss' _ hss' => .pure ?_
    rw [hs', hss']
    rfl

theorem visits_branch : ∀ b : Branch,
    Visits known b.exprs (fun b' es' => es' = b'.exprs) (branch b)
  | .mk span g body => by
    rw [branch]
    refine (visits_guard g).bind fun g' _ hg' => ?_
    refine (visits_stmts body).scope fun body' _ hbody' => ?_
    rw [hg', hbody']
    rfl

theorem visits_branches : ∀ bs : List Branch,
    Visits known (Branch.exprsEach bs) (fun bs' es' => es' = Branch.exprsEach bs') (branches bs)
  | [] => .pure rfl
  | b :: bs => by
    rw [branches]
    refine (visits_branch b).bind fun b' _ hb' => ?_
    refine (visits_branches bs).bind_quiet fun bs' _ hbs' => .pure ?_
    rw [hb', hbs']
    rfl

end

/-! ## Parts of the unit -/

theorem annotateAliases_quiet (ns : List Node) (defined : List Bool) :
    IsQuiet known (fun ns' => ns'.flatMap Node.exprs = ns.flatMap Node.exprs)
      (annotateAliases ns defined) := by
  induction ns generalizing defined with
  | nil => exact .pure rfl
  | cons n ns ih =>
    have hrest : ∀ (defined : List Bool) (n' : Node), n'.exprs = n.exprs →
        IsQuiet known (fun ns' => ns'.flatMap Node.exprs = (n :: ns).flatMap Node.exprs)
          (do return n' :: (← annotateAliases ns defined)) := fun defined n' hn' =>
      (ih defined).bind fun ns' hns' => .pure (congrArg₂ (· ++ ·) hn' hns')
    obtain ⟨item, rfl⟩ | hother := isAlias_cases n
    · rcases defined with _ | ⟨_ | _, defined⟩
      · exact hrest [] _ rfl
      · exact hrest defined _ rfl
      · exact (annotate_quiet item.target).bind fun ty _ => hrest defined _ rfl
    · rw [annotateAliases_other hother]
      exact hrest defined.tail n rfl

theorem update_quiet (id : DeclId) (f : DeclInfo → DeclInfo) :
    IsQuiet known (fun _ => True) (modifyEnv (·.update id f)) :=
  .modifyEnv fun _ henv => ⟨henv.aliases, henv.bridge⟩

theorem functionDecl_quiet (name : Ident) (sig : Signature Ty) (paramCount : Nat) (hasBody : Bool) :
    IsQuiet known (fun _ => True) (functionDecl name sig paramCount hasBody) := by
  have hredefinition : IsQuiet known (fun _ => True)
      (do report fun _ => Report.error (.redefinition name.text name.span)
          return none : ResolveM (Option DeclId)) :=
    (IsQuiet.report (Q := fun _ => True) (fun _ => rfl) fun _ => trivial).bind fun _ _ =>
      .pure trivial
  unfold functionDecl
  refine IsQuiet.get.bind fun env _ => ?_
  dsimp only
  split
  · split
    · exact hredefinition
    · split
      · exact (update_quiet _ _).bind fun _ _ => .pure trivial
      · exact hredefinition
  · split
    · exact hredefinition
    · exact (push_quiet _).bind fun _ _ => .pure trivial

theorem declareNode_quiet (order : Nat) (n : Node) :
    IsQuiet known (fun n' => n'.exprs = n.exprs) (declareNode order n) := by
  cases n with
  | function item =>
    have hhead : IsQuiet known (fun r => Node.exprs (.function r.1) = Node.exprs (.function item))
        (report (·.head item)) :=
      .report (fun _ => Env.errors_head item) fun _ => Env.exprs_head item
    refine (hhead.bind (R := fun f => Node.exprs (.function f) = Node.exprs (.function item))
      fun r hr => ?_).bind fun _ hf => .pure hf
    exact (functionDecl_quiet _ _ _ _).bind fun _ _ => .pure hr
  | global item =>
    refine (annotate_quiet item.ty).bind fun ty _ => ?_
    exact (declare_quiet _ _ _ _).bind fun _ _ => .pure rfl
  | _ => exact .pure rfl

theorem declareNodes_quiet (order : Nat) (ns : List Node) :
    IsQuiet known (fun ns' => ns'.flatMap Node.exprs = ns.flatMap Node.exprs)
      (declareNodes order ns) := by
  induction ns generalizing order with
  | nil => exact .pure rfl
  | cons n ns ih =>
    rw [declareNodes]
    refine (declareNode_quiet order n).bind fun n' hn' => ?_
    exact (ih _).bind fun ns' hns' => .pure (congrArg₂ (· ++ ·) hn' hns')

theorem visits_defaults (decl : Option DeclId) (index : Nat) (ps : List Param) :
    Visits known (ps.filterMap (·.default)) (fun ps' es' => es' = ps'.filterMap (·.default))
      (defaults decl index ps) := by
  induction ps generalizing index with
  | nil => exact .pure rfl
  | cons p ps ih =>
    have hcons : ∀ (p : Param) (ps : List Param),
        (p :: ps).filterMap (·.default) = p.default.toList ++ ps.filterMap (·.default) := by
      intro p ps
      rw [List.filterMap_cons]
      cases p.default <;> rfl
    rw [defaults, hcons]
    refine (visits_expr? p.default).bind fun default _ hdefault => ?_
    have hset : IsQuiet known (fun _ => True) (modifyEnv (·.setDefault decl index default)) := by
      refine .modifyEnv fun env henv => ?_
      unfold Env.setDefault
      split
      · exact ⟨henv.aliases, henv.bridge⟩
      · exact henv
    refine hset.bind_visits fun _ _ => ?_
    refine (ih (index + 1)).bind_quiet fun ps' _ hps' => .pure ?_
    rw [hcons, hdefault, hps']

theorem declareParams_quiet (ps : List Param) (tys : List Ty) :
    IsQuiet known (fun _ => True) (declareParams ps tys) := by
  induction ps generalizing tys with
  | nil => exact .pure trivial
  | cons p ps ih =>
    cases tys with
    | nil => exact .pure trivial
    | cons ty tys => exact (declare_quiet _ _ _ _).bind fun _ _ => ih tys

theorem vargs_quiet (vargs : Option Ty) :
    IsQuiet known (fun _ => True) (modifyEnv fun env => { env with vargs }) :=
  .modifyEnv fun _ henv => ⟨henv.aliases, henv.bridge⟩

theorem visits_functionBody (sig : Option (Signature Ty)) (ps : List Param) (body : List Stmt) :
    Visits known (Stmt.exprsEach body) (fun body' es' => es' = Stmt.exprsEach body')
      (functionBody sig ps body) := by
  unfold functionBody
  refine (vargs_quiet _).bind_visits fun _ _ => openScope_quiet.bind_visits fun _ _ => ?_
  refine (declareParams_quiet _ _).bind_visits fun _ _ => ?_
  refine (visits_stmts body).bind_quiet fun body' _ hbody' => closeScope_quiet.bind fun _ _ => ?_
  exact (vargs_quiet _).bind fun _ _ => .pure hbody'

theorem visits_function (item : Function) :
    Visits known (Node.exprs (.function item)) (fun f es' => es' = Node.exprs (.function f))
      (function item) := by
  unfold function
  cases hbody : item.body with
  | none =>
    have hexprs : Node.exprs (.function item) = item.defaults ++ [] := by
      simp [Node.exprs, Function.exprs, hbody, Stmt.exprsEach]
    rw [hexprs]
    refine (visits_defaults item.decl 0 item.params).bind fun params _ hparams => .pure ?_
    rw [hparams]
    rfl
  | some body =>
    have hexprs : Node.exprs (.function item) = item.defaults ++ Stmt.exprsEach body := by
      simp [Node.exprs, Function.exprs, hbody]
    rw [hexprs]
    refine (visits_defaults item.decl 0 item.params).bind fun params _ hparams => ?_
    refine (visits_functionBody item.sig params body).bind_quiet fun body' _ hbody' => .pure ?_
    rw [hparams, hbody']
    rfl

theorem visits_global (item : VarDecl) :
    Visits known item.init.toList (fun g es' => es' = g.init.toList) (global item) := by
  have hinit : Visits known item.init.toList (fun e' es' => es' = e'.toList)
      (report fun env =>
        Env.expr? { env with limit := orderOf env.context.decls item } item.init) := by
    refine .report fun env henv => ⟨_, ?_, rfl⟩
    have hlimit : Env.Knows { env with limit := orderOf env.context.decls item } known :=
      ⟨henv.aliases, henv.bridge⟩
    exact hlimit.resolves_expr? item.init
  exact hinit.bind_quiet fun _ _ hinit' => .pure hinit'

theorem visits_node (n : Node) :
    Visits known n.exprs (fun n' es' => es' = n'.exprs) (node n) := by
  cases n with
  | function item => exact (visits_function item).bind_quiet fun _ _ hf => .pure hf
  | global item => exact (visits_global item).bind_quiet fun _ _ hg => .pure hg
  | _ => exact .pure rfl

theorem visits_nodes (ns : List Node) :
    Visits known (ns.flatMap Node.exprs) (fun ns' es' => es' = ns'.flatMap Node.exprs) (nodes ns) := by
  induction ns with
  | nil => exact .pure rfl
  | cons n ns ih =>
    rw [nodes, List.flatMap_cons]
    refine (visits_node n).bind fun n' _ hn' => ?_
    refine ih.bind_quiet fun ns' _ hns' => .pure ?_
    rw [hn', hns', List.flatMap_cons]

end Resolver

/-! ## The aliases of the unit -/

/-- A definition that is refused changes nothing. -/
theorem AliasTable.snd_perform (t : AliasTable) (d : Definition) :
    (t.perform d).2 = match t.define d.name d.target d.kind d.span with
      | .ok t' => t'
      | .error _ => t := by
  have hupdate : t.update d.name d.target d.kind d.span = t.perform d := rfl
  rw [define, hupdate]
  obtain ⟨-, heq⟩ | ⟨-, _, -, heq⟩ | ⟨-, -, heq⟩ := t.perform_cases d <;> rw [heq]

namespace Resolver

/-- The definitions of the aliases of a unit, in order. -/
def aliasDefinitions : List Node → List Definition
  | [] => []
  | .alias item :: ns =>
    ⟨item.name.text, targetOf item.target, .type, item.name.span⟩ :: aliasDefinitions ns
  | _ :: ns => aliasDefinitions ns

theorem aliasDefinitions_other {n : Node} {ns : List Node} (h : isAlias n = false) :
    aliasDefinitions (n :: ns) = aliasDefinitions ns := by
  cases n <;> first | rfl | exact nomatch h

/-- The aliases of the unit are defined as far as possible, and the errors are about aliases. -/
theorem defineAliases_run (ns : List Node) (env : Env) :
    (defineAliases ns env).value.2 =
        withAliases env (env.context.aliases.afterEach (aliasDefinitions ns)) ∧
      macroArityErrors (defineAliases ns env).errors = [] := by
  induction ns generalizing env with
  | nil => exact ⟨rfl, rfl⟩
  | cons n ns ih =>
    have hrest : ∀ (defined : Bool) (env : Env),
        ((do return defined :: (← defineAliases ns) : ResolveM (List Bool)) env).value.2 =
            withAliases env (env.context.aliases.afterEach (aliasDefinitions ns)) ∧
          macroArityErrors
            ((do return defined :: (← defineAliases ns) : ResolveM (List Bool)) env).errors = [] := by
      intro defined env
      simp only [value_bind, value_pure, errors_bind, macroArityErrors_append, ih env]
      exact ⟨trivial, rfl⟩
    obtain ⟨item, rfl⟩ | hother := isAlias_cases n
    · have hperform := env.context.aliases.snd_perform
        ⟨item.name.text, targetOf item.target, .type, item.name.span⟩
      rw [aliasDefinitions, AliasTable.afterEach, List.foldl_cons, hperform, defineAliases, get_bind]
      cases env.context.aliases.define item.name.text (targetOf item.target) .type
          item.name.span with
      | ok t => exact hrest true (withAliases env t)
      | error e => exact hrest false env
    · rw [defineAliases_other hother, aliasDefinitions_other hother]
      exact hrest false env

end Resolver

/-! ## The unit -/

namespace SourceUnit

/-- The aliases of a unit and what its headers offer. -/
def known (unit : SourceUnit) : SemanticContext :=
  (Resolver.withAliases unit.start ((Resolver.bridgeContext unit.nodes).aliases.afterEach
    (Resolver.aliasDefinitions unit.nodes))).context

/-- The errors that resolving a unit finds. -/
def resolutionErrors (unit : SourceUnit) : List SemanticError :=
  match unit.resolve.2 with
  | .ok _ => []
  | .error errors => errors

theorem resolutionErrors_eq (unit : SourceUnit) :
    unit.resolutionErrors = (Resolver.unit unit.nodes unit.start).errors := by
  unfold resolutionErrors resolve
  rw [show (⟨Resolver.bridgeContext unit.nodes, [[]], none, none⟩ : Env) = unit.start from rfl]
  generalize Resolver.unit unit.nodes unit.start = result
  obtain ⟨⟨nodes, env⟩, _ | ⟨e, es⟩⟩ := result <;> rfl

/-- Each expression of a resolved unit comes from an expression of the unit, resolved where all
aliases and headers of the unit are known. -/
theorem resolvesEach (unit : SourceUnit) :
    ResolvesEach unit.known (unit.nodes.flatMap Node.exprs)
      (unit.resolve.1.nodes.flatMap Node.exprs) (macroArityErrors unit.resolutionErrors) := by
  rw [resolutionErrors_eq]
  obtain ⟨henv, herrors⟩ := Resolver.defineAliases_run unit.nodes unit.start
  have hrest : ∀ defined, Resolver.Visits unit.known (unit.nodes.flatMap Node.exprs)
      (fun ns es => es = ns.flatMap Node.exprs) (do
        let list ← Resolver.annotateAliases unit.nodes defined
        let list ← Resolver.declareNodes 0 list
        Resolver.nodes list) := by
    intro defined
    refine (Resolver.annotateAliases_quiet unit.nodes defined).bind_visits fun annotated hann => ?_
    refine (Resolver.declareNodes_quiet 0 annotated).bind_visits fun declared hdecl => ?_
    rw [← hann, ← hdecl]
    exact Resolver.visits_nodes declared
  obtain ⟨-, es, heach, rfl⟩ := hrest (Resolver.defineAliases unit.nodes unit.start).value.1
    (Resolver.defineAliases unit.nodes unit.start).value.2 (by rw [henv]; exact ⟨rfl, rfl⟩)
  rw [Resolver.unit, Resolver.errors_bind, macroArityErrors_append, herrors, List.nil_append]
  exact heach

end SourceUnit

/-! ## Units without bound names -/

/-- No name in an expression is bound yet. -/
def SourceUnit.Unresolved (unit : SourceUnit) : Prop :=
  ∀ n ∈ unit.nodes, ∀ e ∈ n.exprs, e.Every (·.resolved = none)

section Slots

variable {f : Slots}

theorem Value.alone_refill (v : Value) : (v.refill f).alone = v.alone.refill f := by
  rw [Value.alone, Value.span_refill]
  rfl

mutual

/-- The expressions of a statement with other slots. -/
theorem Stmt.exprs_refill : ∀ s : Stmt, (s.refill f).exprs = s.exprs.map (·.refill f)
  | .expr _ => rfl
  | .decl var => by
    simp only [Stmt.refill, Stmt.exprs, VarDecl.refill]
    cases var.init <;> rfl
  | .assign _ target _ value => by
    simp only [Stmt.refill, Stmt.exprs, Value.alone_refill, List.map_cons, List.map_nil]
  | .ret _ value => by cases value <;> rfl
  | .cond list => Branch.exprs_refillEach list
  | .loop _ cond body => by
    simp only [Stmt.refill, Stmt.exprs, Stmt.exprs_refillEach body, List.map_cons]
  | .block _ body => Stmt.exprs_refillEach body

theorem Stmt.exprs_refillEach : ∀ ss : List Stmt,
    Stmt.exprsEach (Stmt.refillEach f ss) = (Stmt.exprsEach ss).map (·.refill f)
  | [] => rfl
  | s :: ss => by
    simp only [Stmt.refillEach, Stmt.exprsEach, Stmt.exprs_refill s, Stmt.exprs_refillEach ss,
      List.map_append]

theorem Branch.exprs_refill : ∀ b : Branch, (b.refill f).exprs = b.exprs.map (·.refill f)
  | .mk _ guard body => by
    have hguard : (guard.refill f).cond?.toList = guard.cond?.toList.map (·.refill f) := by
      cases guard <;> rfl
    simp only [Branch.refill, Branch.exprs, hguard, Stmt.exprs_refillEach body, List.map_append]

theorem Branch.exprs_refillEach : ∀ bs : List Branch,
    Branch.exprsEach (Branch.refillEach f bs) = (Branch.exprsEach bs).map (·.refill f)
  | [] => rfl
  | b :: bs => by
    simp only [Branch.refillEach, Branch.exprsEach, Branch.exprs_refill b,
      Branch.exprs_refillEach bs, List.map_append]

end

/-- The expressions of a part with other slots. -/
theorem Node.exprs_refill (n : Node) : (n.refill f).exprs = n.exprs.map (·.refill f) := by
  cases n with
  | header item => rfl
  | «alias» item => rfl
  | global g =>
    simp only [Node.refill, Node.exprs, VarDecl.refill]
    cases g.init <;> rfl
  | function g =>
    have hdefaults : (g.refill f).defaults = g.defaults.map (·.refill f) := by
      simp only [Function.defaults, Function.refill, List.filterMap_map, List.map_filterMap]
      rfl
    have hbody : (g.refill f).exprs = g.exprs.map (·.refill f) := by
      simp only [Function.exprs, Function.refill]
      cases g.body with
      | none => rfl
      | some body => exact Stmt.exprs_refillEach body
    simp only [Node.refill, Node.exprs, hdefaults, hbody, List.map_append]

end Slots

mutual

theorem Expr.unresolved_emptied : ∀ e : Expr, (e.refill .emptied).Every (·.resolved = none)
  | .mk _ c => Chain.unresolved_emptied c

theorem Chain.unresolved_emptied : ∀ c : Chain,
    ∀ n ∈ (c.refill .emptied).names, n.resolved = none
  | .operand v => Value.unresolved_emptied v
  | .link v _ rest => by
    rw [Chain.refill, Chain.names, List.forall_mem_append]
    exact ⟨Value.unresolved_emptied v, Chain.unresolved_emptied rest⟩

theorem Value.unresolved_emptied : ∀ v : Value,
    ∀ n ∈ (v.refill .emptied).names, n.resolved = none
  | .ident _ => List.forall_mem_singleton.mpr rfl
  | .call _ _ args _ _ => List.forall_mem_cons.mpr ⟨rfl, Value.unresolved_emptiedEach args⟩
  | .index _ base position => by
    rw [Value.refill, Value.names, List.forall_mem_append]
    exact ⟨Value.unresolved_emptied base, Expr.unresolved_emptied position⟩
  | .ref _ inner | .prefixed _ _ inner | .suffixed _ _ inner => Value.unresolved_emptied inner
  | .paren inner => Expr.unresolved_emptied inner
  | .number _ | .decimal _ | .string _ | .char _ | .bool _ _ | .null _ => List.forall_mem_nil _

theorem Value.unresolved_emptiedEach : ∀ es : List Expr,
    ∀ n ∈ Value.namesEach (Value.refillEach .emptied es), n.resolved = none
  | [] => List.forall_mem_nil _
  | e :: es => by
    rw [Value.refillEach, Value.namesEach, List.forall_mem_append]
    exact ⟨Expr.unresolved_emptied e, Value.unresolved_emptiedEach es⟩

end

/-- Reading a text binds no names, and neither does attaching headers. -/
theorem SourceUnit.unresolved_of_bridge {file : Nat} {text : String} {unit bridged : SourceUnit}
    {l : Locator} {cache : HeaderCache} (hparse : SourceUnit.parse file text = .ok unit)
    (hbridge : ((unit.bridge l).run cache).1 = .ok bridged) : bridged.Unresolved := by
  intro n hn e he
  rcases (bridge_keeps hbridge).2 n hn with hheader | hn
  · cases n with
    | header item => exact absurd he List.not_mem_nil
    | _ => cases hheader
  · rw [← (plain_of_parse hparse n hn).1, Node.exprs_refill] at he
    obtain ⟨e₀, -, rfl⟩ := List.mem_map.mp he
    exact e₀.unresolved_emptied

/-- The unit of a text with its headers, from a test of the result. -/
theorem SourceUnit.exists_bridged {file : Nat} {text : String} {l : Locator} {p : SourceUnit → Bool}
    (h : ((SourceUnit.parse file text).toOption.any fun unit =>
      ((unit.bridge l).run .empty).1.toOption.any p) = true) :
    ∃ unit bridged, SourceUnit.parse file text = .ok unit ∧
      ((unit.bridge l).run .empty).1 = .ok bridged ∧ bridged.Unresolved ∧ p bridged := by
  cases hparse : SourceUnit.parse file text with
  | error e => simp [hparse, Except.toOption] at h
  | ok unit =>
    cases hbridge : ((unit.bridge l).run .empty).1 with
    | error e => simp [hparse, hbridge, Except.toOption] at h
    | ok bridged =>
      exact ⟨unit, bridged, rfl, hbridge, unresolved_of_bridge hparse hbridge,
        by simpa [hparse, hbridge, Except.toOption] using h⟩

/-! ## Bound names -/

/-- If the name is bound, the environment finds what it is bound to. -/
def DottedName.FoundIn (env : Env) (name : DottedName) : Prop :=
  ∀ found, name.resolved = some found → (env.lookup name).1 = some found

namespace Env

variable {env : Env} {name : DottedName}

theorem value_find (name : DottedName) : (env.find name).value = (env.lookup name).1 := by
  unfold find
  split <;> simp only [*]

theorem foundIn_ident (h : name.resolved = none) : (env.ident name).value.FoundIn env := by
  simp only [ident, Report.value_bind, value_find]
  cases hlookup : (env.lookup name).1 with
  | none =>
    intro found hfound
    cases h.symm.trans hfound
  | some r =>
    have hname : DottedName.FoundIn env { name with resolved := some r } := by
      rintro found ⟨⟩
      exact hlookup
    dsimp only
    split <;> exact hname

theorem foundIn_callee (h : name.resolved = none) (count : Nat) (span : Span) :
    (env.callee name count span).value.1.FoundIn env := by
  simp only [callee, Report.value_bind, value_find]
  cases hlookup : (env.lookup name).1 with
  | none =>
    intro found hfound
    cases h.symm.trans hfound
  | some r =>
    rintro found ⟨⟩
    exact hlookup

mutual

/-- An expression without bound names is resolved to one whose names are bound to what they stand
for where it is resolved. -/
theorem foundIn_expr : ∀ {e : Expr}, e.Every (·.resolved = none) →
    (env.expr e).value.Every (·.FoundIn env)
  | .mk _ _, h => foundIn_chain h

theorem foundIn_chain : ∀ {c : Chain}, (∀ n ∈ c.names, n.resolved = none) →
    ∀ n ∈ (env.chain c).value.names, n.FoundIn env
  | .operand _, h => foundIn_value h
  | .link v _ rest, h => by
    rw [Chain.names, List.forall_mem_append] at h
    simp only [chain, Report.value_bind, Report.value_pure, Chain.names, List.forall_mem_append]
    exact ⟨foundIn_value h.1, foundIn_chain h.2⟩

theorem foundIn_value : ∀ {v : Value}, (∀ n ∈ v.names, n.resolved = none) →
    ∀ n ∈ (env.value v).value.names, n.FoundIn env
  | .ident name, h => List.forall_mem_singleton.mpr (foundIn_ident (h name List.mem_cons_self))
  | .call span callee args target defaulted, h => by
    rw [Value.names, List.forall_mem_cons] at h
    simp only [value, Report.value_bind, Report.value_pure, Value.names, List.forall_mem_cons]
    exact ⟨foundIn_callee h.1 _ _, foundIn_exprs h.2⟩
  | .index _ base position, h => by
    rw [Value.names, List.forall_mem_append] at h
    simp only [value, Report.value_bind, Report.value_pure, Value.names, List.forall_mem_append]
    exact ⟨foundIn_value h.1, foundIn_expr h.2⟩
  | .ref _ inner, h | .prefixed _ _ inner, h | .suffixed _ _ inner, h => foundIn_value (v := inner) h
  | .paren inner, h => foundIn_expr (e := inner) h
  | .number _, _ | .decimal _, _ | .string _, _ | .char _, _ | .bool _ _, _ | .null _, _ =>
    List.forall_mem_nil _

theorem foundIn_exprs : ∀ {es : List Expr}, (∀ n ∈ Value.namesEach es, n.resolved = none) →
    ∀ n ∈ Value.namesEach (env.exprs es).value, n.FoundIn env
  | [], _ => List.forall_mem_nil _
  | e :: es, h => by
    rw [Value.namesEach, List.forall_mem_append] at h
    simp only [exprs, Report.value_bind, Report.value_pure, Value.namesEach, List.forall_mem_append]
    exact ⟨foundIn_expr h.1, foundIn_exprs h.2⟩

end

end Env

/-- In a resolved unit, every bound name stands for what is found where all aliases and headers of
the unit are known. -/
theorem SourceUnit.Unresolved.exists_env {unit : SourceUnit} (h : unit.Unresolved) {n : Node}
    (hn : n ∈ unit.resolve.1.nodes) {e : Expr} (he : e ∈ n.exprs) :
    ∃ env : Env, env.Knows unit.known ∧ e.Every (·.FoundIn env) := by
  obtain ⟨env, henv, e₀, he₀, rfl⟩ :=
    unit.resolvesEach.exists_of_mem (List.mem_flatMap.mpr ⟨n, hn, he⟩)
  obtain ⟨n₀, hn₀, he₀⟩ := List.mem_flatMap.mp he₀
  exact ⟨env, henv, Env.foundIn_expr (h n₀ hn₀ e₀ he₀)⟩

/-! ## Macros -/

/-- The name stands for a macro of a header. -/
def Binding.isMacro : Binding → Bool
  | .macroConstant | .macroFunction _ _ => true
  | _ => false

namespace Env

variable {env : Env} {name : DottedName} {known : SemanticContext} {ty : Ty}

theorem isMacro_inScopes? {text : String} {found : Resolution} {scopes : List Scope}
    (h : env.inScopes? text scopes = some found) : found.binding.isMacro = false := by
  induction scopes with
  | nil => exact nomatch h
  | cons scope outer ih =>
    rw [inScopes?] at h
    split at h
    · exact ih h
    · split at h
      · exact ih h
      · rename_i info _
        split at h
        · exact ih h
        · cases h
          rw [DeclInfo.binding]
          cases info.kind <;> rfl

/-- A macro is a single name. It is found among the aliases or among the symbols of headers. -/
theorem lookup_isMacro {found : Resolution} (h : (env.lookup name).1 = some found)
    (hcalled : found.binding.isMacro = true) : ∃ text, name.parts.map (·.text) = [text] ∧
      ((∃ errors, env.asAlias? text name.span = some (found, errors)) ∨
        env.asBridge? text = some found) := by
  rw [lookup] at h
  split at h
  · rename_i text htext
    refine ⟨text, htext, ?_⟩
    rw [lookupName] at h
    split at h
    · rename_i other hfound
      cases h
      rcases Option.or_eq_some_iff.mp hfound with hscopes | ⟨-, hvargs⟩
      · exact absurd hcalled (by rw [isMacro_inScopes? hscopes]; decide)
      · unfold asVarArgs? at hvargs
        split at hvargs
        · obtain ⟨elem, -, rfl⟩ := Option.map_eq_some_iff.mp hvargs
          cases hcalled
        · cases hvargs
    · split at h
      · rename_i other errors halias
        cases h
        exact .inl ⟨errors, halias⟩
      · exact .inr h
  · obtain ⟨elem, -, rfl⟩ := Option.map_eq_some_iff.mp h
    cases hcalled
  · cases h

/-- A constant of a header is an alias for a value, and has the type that the alias leads to. -/
theorem Knows.lookup_macroConstant (henv : env.Knows known)
    (h : (env.lookup name).1 = some ⟨.macroConstant, ty⟩) :
    ∃ text, name.parts.map (·.text) = [text] ∧ known.aliases.kind? text = some .value ∧
      ((known.aliases.resolve text name.span).toOption).getD .any = ty := by
  obtain ⟨text, htext, ⟨errors, halias⟩ | hbridge⟩ := lookup_isMacro h rfl
  · refine ⟨text, htext, ?_⟩
    rw [asAlias?, henv.aliases] at halias
    obtain ⟨kind, hkind, hfound⟩ := Option.map_eq_some_iff.mp halias
    rw [hkind]
    cases kind <;> cases hresolve : known.aliases.resolve text name.span <;>
      rw [hresolve] at hfound <;> cases hfound <;> exact ⟨rfl, rfl⟩
  · obtain ⟨symbol, -, hfound⟩ := Option.map_eq_some_iff.mp hbridge
    cases symbol <;> cases hfound

/-- A macro with parameters is a symbol of a header. -/
theorem Knows.lookup_macroFunction {k : Nat} {variadic : Bool} (henv : env.Knows known)
    (h : (env.lookup name).1 = some ⟨.macroFunction k variadic, ty⟩) :
    ∃ text, name.parts.map (·.text) = [text] ∧
      known.bridge.lookup text = some (.macroFn k variadic ty) := by
  obtain ⟨text, htext, ⟨errors, halias⟩ | hbridge⟩ := lookup_isMacro h rfl
  · obtain ⟨kind, -, hfound⟩ := Option.map_eq_some_iff.mp halias
    cases kind <;> cases hresolve : env.context.aliases.resolve text name.span <;>
      rw [hresolve] at hfound <;> cases hfound
  · refine ⟨text, htext, ?_⟩
    rw [asBridge?, henv.bridge] at hbridge
    obtain ⟨symbol, hsymbol, hfound⟩ := Option.map_eq_some_iff.mp hbridge
    rw [hsymbol]
    cases symbol <;> cases hfound
    rfl

end Env

end KilnLang
