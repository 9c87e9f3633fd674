import Mathlib.Data.List.Forall2
import KilnLang.Semantic.Resolve

/-!
# Steps that find no error

What each step of resolution does if it finds no error: one equivalence for each step, by which
later proofs take resolution apart and put it together again. Errors are never dropped, so a
sequence of steps finds no error exactly if each of them finds none (`succeeds_bind`).
-/

namespace KilnLang

/-! ## Reports -/

namespace Report

variable {α β : Type}

theorem bind_eq_pure {r : Report α} {f : α → Report β} {b : β} :
    r >>= f = pure b ↔ ∃ a, r = pure a ∧ f a = pure b := by
  constructor
  · intro h
    have hvalue : (f r.value).value = b := congrArg value h
    have herrors : r.errors ++ (f r.value).errors = [] := congrArg errors h
    obtain ⟨hr, hf⟩ := List.append_eq_nil_iff.mp herrors
    exact ⟨r.value, ext rfl hr, ext hvalue hf⟩
  · rintro ⟨a, rfl, h⟩
    exact (pure_bind a f).trans h

theorem pure_inj {a b : α} : (pure a : Report α) = pure b ↔ a = b :=
  ⟨fun h => congrArg value h, fun h => h ▸ rfl⟩

theorem error_ne_pure (e : SemanticError) (u : Unit) : error e ≠ pure u :=
  fun h => List.cons_ne_nil _ _ (congrArg errors h)

end Report

theorem Env.annotate_eq_pure {env : Env} {t t' : TypeExpr} {ty : Ty} :
    env.annotate t = pure (t', ty) ↔ env.context.aliases.annotate t = (t', .ok ty) := by
  unfold Env.annotate
  rcases env.context.aliases.annotate t with ⟨expr, _ | found⟩
  · constructor <;> intro h <;> cases h
  · exact ⟨fun h => by cases h; rfl, fun h => by cases h; rfl⟩

namespace Resolver

variable {α β : Type}

/-! ## Sequences of steps -/

/-- The step finds no error: from `env` it gives `a` and leads to `env'`. -/
def Succeeds (m : ResolveM α) (env : Env) (a : α) (env' : Env) : Prop := m env = pure (a, env')

theorem succeeds_pure {a b : α} {env env' : Env} :
    Succeeds (pure a) env b env' ↔ a = b ∧ env = env' := by
  show pure (a, env) = pure (b, env') ↔ _
  rw [Report.pure_inj, Prod.mk.injEq]

theorem succeeds_bind {m : ResolveM α} {f : α → ResolveM β} {env env' : Env} {b : β} :
    Succeeds (m >>= f) env b env' ↔
      ∃ a env₁, Succeeds m env a env₁ ∧ Succeeds (f a) env₁ b env' := by
  show m env >>= (fun r => f r.1 r.2) = pure (b, env') ↔ _
  rw [Report.bind_eq_pure, Prod.exists]
  rfl

theorem succeeds_report_bind {r : Env → Report α} {f : α → ResolveM β} {env env' : Env} {b : β} :
    Succeeds (report r >>= f) env b env' ↔ ∃ a, r env = pure a ∧ Succeeds (f a) env b env' := by
  show (r env >>= fun a => pure (a, env)) >>= (fun r => f r.1 r.2) = pure (b, env') ↔ _
  rw [bind_assoc, Report.bind_eq_pure]
  simp only [pure_bind]
  rfl

theorem not_succeeds_error_bind {e : SemanticError} {f : Unit → ResolveM β} {env env' : Env}
    {b : β} : ¬ Succeeds (report (fun _ => Report.error e) >>= f) env b env' := by
  simp only [succeeds_report_bind, Report.error_ne_pure, false_and, exists_false,
    not_false_eq_true]

theorem succeeds_modifyEnv_bind {g : Env → Env} {f : Unit → ResolveM β} {env env' : Env} {b : β} :
    Succeeds (modifyEnv g >>= f) env b env' ↔ Succeeds (f ()) (g env) b env' := .rfl

theorem succeeds_get_bind {f : Env → ResolveM β} {env env' : Env} {b : β} :
    Succeeds (get >>= f) env b env' ↔ Succeeds (f env) env b env' := .rfl

theorem succeeds_push_bind {info : DeclInfo} {f : DeclId → ResolveM β} {env env' : Env} {b : β} :
    Succeeds (push info >>= f) env b env' ↔
      Succeeds (f env.context.decls.length) (env.push info) b env' := .rfl

/-! ## Statements -/

/-- A declaration needs a free name. -/
theorem succeeds_declare_bind {name : Ident} {kind : DeclKind} {ty : Ty} {order : Nat}
    {f : Option DeclId → ResolveM β} {env env' : Env} {b : β} :
    Succeeds (declare name kind ty order >>= f) env b env' ↔ env.isTaken name.text = false ∧
      Succeeds (f (some env.context.decls.length))
        (env.push ⟨name.text, name.span, kind, ty, [], order, false⟩) b env' := by
  rw [declare, bind_assoc, succeeds_get_bind]
  cases env.isTaken name.text with
  | false =>
    simp only [Bool.false_eq_true, if_false, bind_assoc, pure_bind, succeeds_push_bind, true_and]
  | true =>
    simp only [if_true, bind_assoc, not_succeeds_error_bind, Bool.true_eq_false, false_and]

theorem succeeds_localVar {var var' : VarDecl} {env env' : Env} :
    Succeeds (localVar var) env var' env' ↔ ∃ ty varTy init,
      env.annotate var.ty = pure (ty, varTy) ∧ env.expr? var.init = pure init ∧
        env.isTaken var.name.text = false ∧
        { var with ty, init, decl := some env.context.decls.length } = var' ∧
        env.push ⟨var.name.text, var.name.span, .local, varTy, [], 0, false⟩ = env' := by
  simp only [localVar, succeeds_report_bind, succeeds_declare_bind, succeeds_pure, Prod.exists,
    exists_and_left]

theorem succeeds_expr {e : Expr} {t : Stmt} {env env' : Env} :
    Succeeds (stmt (.expr e)) env t env' ↔
      ∃ e', env.expr e = pure e' ∧ .expr e' = t ∧ env = env' := by
  simp only [stmt, succeeds_report_bind, succeeds_pure]

example (env : Env) (span : Span) :
    Succeeds (stmt (.expr (.mk span (.operand (.null span))))) env
      (.expr (.mk span (.operand (.null span)))) env := by
  cbv

theorem succeeds_decl {var : VarDecl} {t : Stmt} {env env' : Env} :
    Succeeds (stmt (.decl var)) env t env' ↔
      ∃ var', Succeeds (localVar var) env var' env' ∧ .decl var' = t := by
  simp only [stmt, succeeds_bind, succeeds_pure, exists_eq_right_right]

theorem succeeds_assign {span : Span} {target : Value} {op : Option AssignOp} {value : Expr}
    {t : Stmt} {env env' : Env} :
    Succeeds (stmt (.assign span target op value)) env t env' ↔ ∃ target' value',
      env.value target = pure target' ∧ env.expr value = pure value' ∧
        .assign span target' op value' = t ∧ env = env' := by
  simp only [stmt, succeeds_report_bind, succeeds_pure, exists_and_left]

theorem succeeds_ret {span : Span} {value : Option Expr} {t : Stmt} {env env' : Env} :
    Succeeds (stmt (.ret span value)) env t env' ↔
      ∃ value', env.expr? value = pure value' ∧ .ret span value' = t ∧ env = env' := by
  simp only [stmt, succeeds_report_bind, succeeds_pure]

theorem succeeds_cond {list : List Branch} {t : Stmt} {env env' : Env} :
    Succeeds (stmt (.cond list)) env t env' ↔
      ∃ list', Succeeds (branches list) env list' env' ∧ .cond list' = t := by
  simp only [stmt, succeeds_bind, succeeds_pure, exists_eq_right_right]

/-- Statements between the opening and the closing of a scope. -/
theorem succeeds_scoped_bind {body : List Stmt} {f : List Stmt → ResolveM β} {env env' : Env}
    {b : β} :
    Succeeds (openScope >>= fun _ => stmts body >>= fun body => closeScope >>= fun _ => f body)
      env b env' ↔ ∃ body' env₁, Succeeds (stmts body) env.enter body' env₁ ∧
        Succeeds (f body') env₁.leave b env' := by
  rw [openScope, succeeds_modifyEnv_bind, succeeds_bind]
  rfl

theorem succeeds_loop {span : Span} {cond : Expr} {body : List Stmt} {t : Stmt} {env env' : Env} :
    Succeeds (stmt (.loop span cond body)) env t env' ↔ ∃ cond' body' env₁,
      env.expr cond = pure cond' ∧ Succeeds (stmts body) env.enter body' env₁ ∧
        .loop span cond' body' = t ∧ env₁.leave = env' := by
  simp only [stmt, succeeds_report_bind, succeeds_scoped_bind, succeeds_pure, exists_and_left]

theorem succeeds_block {span : Span} {body : List Stmt} {t : Stmt} {env env' : Env} :
    Succeeds (stmt (.block span body)) env t env' ↔ ∃ body' env₁,
      Succeeds (stmts body) env.enter body' env₁ ∧ .block span body' = t ∧ env₁.leave = env' := by
  simp only [stmt, succeeds_scoped_bind, succeeds_pure]

theorem succeeds_stmts_nil {ts : List Stmt} {env env' : Env} :
    Succeeds (stmts []) env ts env' ↔ [] = ts ∧ env = env' := by
  rw [stmts, succeeds_pure]

theorem succeeds_stmts_cons {s : Stmt} {ss ts : List Stmt} {env env' : Env} :
    Succeeds (stmts (s :: ss)) env ts env' ↔ ∃ t env₁ ts',
      Succeeds (stmt s) env t env₁ ∧ Succeeds (stmts ss) env₁ ts' env' ∧ t :: ts' = ts := by
  simp only [stmts, succeeds_bind, succeeds_pure, exists_and_left, exists_eq_right_right]

theorem succeeds_branch {span : Span} {g : Guard} {body : List Stmt} {b : Branch} {env env' : Env} :
    Succeeds (branch (.mk span g body)) env b env' ↔ ∃ g' body' env₁,
      env.guard g = pure g' ∧ Succeeds (stmts body) env.enter body' env₁ ∧
        .mk span g' body' = b ∧ env₁.leave = env' := by
  simp only [branch, succeeds_report_bind, succeeds_scoped_bind, succeeds_pure, exists_and_left]

theorem succeeds_branches_nil {bs : List Branch} {env env' : Env} :
    Succeeds (branches []) env bs env' ↔ [] = bs ∧ env = env' := by
  rw [branches, succeeds_pure]

theorem succeeds_branches_cons {b : Branch} {bs cs : List Branch} {env env' : Env} :
    Succeeds (branches (b :: bs)) env cs env' ↔ ∃ c env₁ cs',
      Succeeds (branch b) env c env₁ ∧ Succeeds (branches bs) env₁ cs' env' ∧ c :: cs' = cs := by
  simp only [branches, succeeds_bind, succeeds_pure, exists_and_left, exists_eq_right_right]

/-! ## Parts of the unit -/

/-- A function shares the declaration of the functions of its name, or gets a new one. -/
theorem succeeds_functionDecl {name : Ident} {sig : Signature Ty} {count : Nat} {hasBody : Bool}
    {decl : Option DeclId} {env env' : Env} :
    Succeeds (functionDecl name sig count hasBody) env decl env' ↔
      (∃ id info, (env.scopes.head?).bind (·.lookup name.text) = some id ∧
        env.context.decls[id]? = some info ∧
        (info.kind = .function ∧ info.ty = .func sig ∧ !(info.defined && hasBody)) ∧
        some id = decl ∧
        (env.update id fun info => { info with defined := info.defined || hasBody }) = env') ∨
      ((env.scopes.head?).bind (·.lookup name.text) = none ∧
        env.context.aliases.contains name.text = false ∧
        some env.context.decls.length = decl ∧
        env.push ⟨name.text, name.span, .function, .func sig, List.replicate count none, 0,
          hasBody⟩ = env') := by
  rw [functionDecl, succeeds_get_bind]
  cases (env.scopes.head?).bind (·.lookup name.text) with
  | none =>
    cases env.context.aliases.contains name.text
    · simp only [Bool.false_eq_true, if_false, succeeds_push_bind, succeeds_pure, reduceCtorEq,
        false_and, exists_false, true_and, false_or]
    · simp only [if_true, not_succeeds_error_bind, reduceCtorEq, Bool.true_eq_false, false_and,
        and_false, exists_false, or_self]
  | some id =>
    simp only [Option.some.injEq, exists_and_left, exists_eq_left', reduceCtorEq, false_and,
      or_false]
    cases hinfo : env.context.decls[id]? with
    | none => simp only [not_succeeds_error_bind, reduceCtorEq, false_and, exists_false]
    | some info =>
      simp only [Option.some.injEq, exists_eq_left']
      split
      · rename_i hfits
        simp only [succeeds_modifyEnv_bind, succeeds_pure, hfits, true_and]
      · rename_i hfits
        simp only [not_succeeds_error_bind, hfits, false_and]

theorem succeeds_declareNode_function {order : Nat} {item : Function} {node : Node}
    {env env' : Env} :
    Succeeds (declareNode order (.function item)) env node env' ↔ ∃ item' sig decl,
      env.head item = pure (item', sig) ∧
        Succeeds (functionDecl item'.name sig item'.params.length item'.body.isSome) env decl env' ∧
        .function { item' with decl } = node := by
  simp only [declareNode, declareFunction, bind_assoc, pure_bind, succeeds_report_bind, Prod.exists]
  simp only [succeeds_bind, succeeds_pure, exists_and_left, exists_eq_right_right]

theorem succeeds_declareNode_global {order : Nat} {item : VarDecl} {node : Node} {env env' : Env} :
    Succeeds (declareNode order (.global item)) env node env' ↔ ∃ ty varTy,
      env.annotate item.ty = pure (ty, varTy) ∧ env.isTaken item.name.text = false ∧
        .global { item with ty, decl := some env.context.decls.length } = node ∧
        env.push ⟨item.name.text, item.name.span, .global, varTy, [], order, false⟩ = env' := by
  simp only [declareNode, succeeds_report_bind, succeeds_declare_bind, succeeds_pure, Prod.exists]

theorem succeeds_declareNodes_nil {order : Nat} {nodes : List Node} {env env' : Env} :
    Succeeds (declareNodes order []) env nodes env' ↔ [] = nodes ∧ env = env' := by
  rw [declareNodes, succeeds_pure]

theorem succeeds_declareNodes_cons {order : Nat} {node : Node} {nodes nodes' : List Node}
    {env env' : Env} :
    Succeeds (declareNodes order (node :: nodes)) env nodes' env' ↔ ∃ n env₁ ns,
      Succeeds (declareNode order node) env n env₁ ∧
        Succeeds (declareNodes (order + globalCount node) nodes) env₁ ns env' ∧
        n :: ns = nodes' := by
  simp only [declareNodes, succeeds_bind, succeeds_pure, exists_and_left, exists_eq_right_right]

theorem succeeds_defaults_nil {decl : Option DeclId} {index : Nat} {ps : List Param}
    {env env' : Env} :
    Succeeds (defaults decl index []) env ps env' ↔ [] = ps ∧ env = env' := by
  rw [defaults, succeeds_pure]

theorem succeeds_defaults_cons {decl : Option DeclId} {index : Nat} {param : Param}
    {params ps : List Param} {env env' : Env} :
    Succeeds (defaults decl index (param :: params)) env ps env' ↔ ∃ default ps',
      env.expr? param.default = pure default ∧
        Succeeds (defaults decl (index + 1) params) (env.setDefault decl index default) ps' env' ∧
        { param with default } :: ps' = ps := by
  simp only [defaults, succeeds_report_bind, succeeds_modifyEnv_bind]
  simp only [succeeds_bind, succeeds_pure, exists_and_left, exists_eq_right_right]

theorem succeeds_declareParams_cons {param : Param} {params : List Param} {ty : Ty} {tys : List Ty}
    {env env' : Env} :
    Succeeds (declareParams (param :: params) (ty :: tys)) env () env' ↔
      env.isTaken param.name.text = false ∧ Succeeds (declareParams params tys)
        (env.push ⟨param.name.text, param.name.span, .parameter, ty, [], 0, false⟩) () env' := by
  simp only [declareParams, succeeds_declare_bind]

theorem succeeds_functionBody {sig : Option (Signature Ty)} {params : List Param}
    {body body' : List Stmt} {env env' : Env} :
    Succeeds (functionBody sig params body) env body' env' ↔ ∃ env₁ env₂,
      Succeeds (declareParams params ((sig.map (·.params)).getD []))
        { env with vargs := sig.bind (·.rest.elem?) }.enter () env₁ ∧
      Succeeds (stmts body) env₁ body' env₂ ∧ { env₂.leave with vargs := none } = env' := by
  simp only [functionBody, openScope, closeScope, succeeds_modifyEnv_bind]
  simp only [succeeds_bind (m := declareParams _ _), succeeds_bind (m := stmts _),
    succeeds_modifyEnv_bind, succeeds_pure]
  constructor
  · rintro ⟨⟨⟩, env₁, hparams, body', env₂, hbody, rfl, rfl⟩
    exact ⟨env₁, env₂, hparams, hbody, rfl⟩
  · rintro ⟨env₁, env₂, hparams, hbody, rfl⟩
    exact ⟨(), env₁, hparams, _, env₂, hbody, rfl, rfl⟩

theorem succeeds_function {item item' : Function} {env env' : Env} :
    Succeeds (function item) env item' env' ↔ ∃ params env₁,
      Succeeds (defaults item.decl 0 item.params) env params env₁ ∧
      ((item.body = none ∧ { item with params } = item' ∧ env₁ = env') ∨
        ∃ body body', item.body = some body ∧
          Succeeds (functionBody item.sig params body) env₁ body' env' ∧
          { item with params, body := some body' } = item') := by
  simp only [function, succeeds_bind]
  cases item.body with
  | none => simp only [succeeds_pure, reduceCtorEq, false_and, exists_false, or_false, true_and]
  | some body =>
    simp only [succeeds_bind, succeeds_pure, reduceCtorEq, false_and, false_or, Option.some.injEq,
      exists_eq_left', exists_eq_right_right, exists_and_left]

/-- The order of the global whose initial value is resolved. -/
def orderOf (decls : DeclTable) (item : VarDecl) : Option Nat :=
  (item.decl.bind (decls[·]?)).map (·.order)

theorem succeeds_global {item item' : VarDecl} {env env' : Env} :
    Succeeds (global item) env item' env' ↔ ∃ init,
      Env.expr? { env with limit := orderOf env.context.decls item } item.init = pure init ∧
        { item with init } = item' ∧ env = env' := by
  simp only [global, succeeds_report_bind, succeeds_pure]
  rfl

theorem succeeds_node_function {item : Function} {n : Node} {env env' : Env} :
    Succeeds (node (.function item)) env n env' ↔
      ∃ item', Succeeds (function item) env item' env' ∧ .function item' = n := by
  simp only [node, succeeds_bind, succeeds_pure, exists_eq_right_right]

theorem succeeds_node_global {item : VarDecl} {n : Node} {env env' : Env} :
    Succeeds (node (.global item)) env n env' ↔
      ∃ item', Succeeds (global item) env item' env' ∧ .global item' = n := by
  simp only [node, succeeds_bind, succeeds_pure, exists_eq_right_right]

theorem succeeds_nodes_nil {ns : List Node} {env env' : Env} :
    Succeeds (nodes []) env ns env' ↔ [] = ns ∧ env = env' := by
  rw [nodes, succeeds_pure]

theorem succeeds_nodes_cons {n : Node} {ns ns' : List Node} {env env' : Env} :
    Succeeds (nodes (n :: ns)) env ns' env' ↔ ∃ m env₁ ms,
      Succeeds (node n) env m env₁ ∧ Succeeds (nodes ns) env₁ ms env' ∧ m :: ms = ns' := by
  simp only [nodes, succeeds_bind, succeeds_pure, exists_and_left, exists_eq_right_right]

/-! ## Aliases -/

/-- The part is an alias. -/
def isAlias : Node → Bool
  | .alias _ => true
  | _ => false

/-- The aliases after those of the parts, all of which can be defined. -/
def defineEach (t : AliasTable) : List Node → Except AliasError AliasTable
  | [] => .ok t
  | .alias item :: ns =>
    match t.define item.name.text (targetOf item.target) .type item.name.span with
    | .ok t => defineEach t ns
    | .error e => .error e
  | _ :: ns => defineEach t ns

/-- The part with its type annotated if it is an alias. -/
inductive AnnotatedAlias (aliases : AliasTable) : Node → Node → Prop
  | alias {item : Alias} {target : TypeExpr} {ty : Ty}
      (type : aliases.annotate item.target = (target, .ok ty)) :
      AnnotatedAlias aliases (.alias item) (.alias { item with target })
  | other {n : Node} (other : isAlias n = false) : AnnotatedAlias aliases n n

/-- The environment with other aliases. -/
def withAliases (env : Env) (aliases : AliasTable) : Env :=
  { env with context := { env.context with aliases } }

theorem isAlias_cases (n : Node) : (∃ item, n = .alias item) ∨ isAlias n = false := by
  cases n <;> simp [isAlias]

theorem defineAliases_other {n : Node} {ns : List Node} (h : isAlias n = false) :
    defineAliases (n :: ns) = do return false :: (← defineAliases ns) := by
  cases n <;> first | rfl | exact nomatch h

theorem defineEach_other {t : AliasTable} {n : Node} {ns : List Node} (h : isAlias n = false) :
    defineEach t (n :: ns) = defineEach t ns := by
  cases n <;> first | rfl | exact nomatch h

theorem annotateAliases_other {n : Node} {ns : List Node} {defined : List Bool}
    (h : isAlias n = false) :
    annotateAliases (n :: ns) defined = do return n :: (← annotateAliases ns defined.tail) := by
  cases n <;> first | rfl | exact nomatch h

theorem succeeds_defineAliases {ns : List Node} {defined : List Bool} {env env' : Env} :
    Succeeds (defineAliases ns) env defined env' ↔ ∃ aliases,
      defineEach env.context.aliases ns = .ok aliases ∧ ns.map isAlias = defined ∧
        withAliases env aliases = env' := by
  induction ns generalizing env env' defined with
  | nil =>
    simp only [defineAliases, defineEach, succeeds_pure, Except.ok.injEq, exists_eq_left',
      List.map_nil]
    rfl
  | cons n ns ih =>
    obtain ⟨item, rfl⟩ | hn := isAlias_cases n
    · rw [defineAliases, succeeds_get_bind]
      simp only [defineEach]
      cases env.context.aliases.define item.name.text (targetOf item.target) .type
          item.name.span with
      | error e =>
        simp only [not_succeeds_error_bind, reduceCtorEq, false_and, exists_false]
      | ok t =>
        simp only [pure_bind, succeeds_modifyEnv_bind]
        rw [succeeds_bind]
        simp only [ih, succeeds_pure]
        constructor
        · rintro ⟨ds, env₁, ⟨aliases, hdef, rfl, rfl⟩, rfl, rfl⟩
          exact ⟨aliases, hdef, rfl, rfl⟩
        · rintro ⟨aliases, hdef, rfl, rfl⟩
          exact ⟨_, _, ⟨aliases, hdef, rfl, rfl⟩, rfl, rfl⟩
    · rw [defineAliases_other hn, defineEach_other hn, List.map_cons, hn]
      simp only [succeeds_bind, ih, succeeds_pure]
      constructor
      · rintro ⟨ds, env₁, ⟨aliases, hdef, rfl, rfl⟩, rfl, rfl⟩
        exact ⟨aliases, hdef, rfl, rfl⟩
      · rintro ⟨aliases, hdef, rfl, rfl⟩
        exact ⟨_, _, ⟨aliases, hdef, rfl, rfl⟩, rfl, rfl⟩

theorem succeeds_annotateAliases {ns ns' : List Node} {env env' : Env} :
    Succeeds (annotateAliases ns (ns.map isAlias)) env ns' env' ↔
      List.Forall₂ (AnnotatedAlias env.context.aliases) ns ns' ∧ env = env' := by
  induction ns generalizing ns' env' with
  | nil => simp [annotateAliases, succeeds_pure, eq_comm]
  | cons n ns ih =>
    rw [List.forall₂_cons_left_iff]
    obtain ⟨item, rfl⟩ | hn := isAlias_cases n
    · simp only [List.map_cons, isAlias, annotateAliases, succeeds_report_bind, Prod.exists,
        Env.annotate_eq_pure]
      simp only [succeeds_bind, ih, succeeds_pure]
      constructor
      · rintro ⟨target, ty, htype, ns', _, ⟨hns, rfl⟩, rfl, rfl⟩
        exact ⟨⟨_, ns', .alias htype, hns, rfl⟩, rfl⟩
      · rintro ⟨⟨_, ns', ⟨htype⟩ | h, hns, rfl⟩, rfl⟩
        · exact ⟨_, _, htype, ns', env, ⟨hns, rfl⟩, rfl, rfl⟩
        · exact nomatch h
    · rw [annotateAliases_other hn]
      simp only [List.map_cons, List.tail_cons, succeeds_bind, ih, succeeds_pure]
      constructor
      · rintro ⟨ns', _, ⟨hns, rfl⟩, rfl, rfl⟩
        exact ⟨⟨_, ns', .other hn, hns, rfl⟩, rfl⟩
      · rintro ⟨⟨_, ns', htype | h, hns, rfl⟩, rfl⟩
        · exact nomatch hn
        · exact ⟨ns', env, ⟨hns, rfl⟩, rfl, rfl⟩

/-! ## The unit -/

theorem succeeds_unit {list list' : List Node} {env env' : Env} :
    Succeeds (unit list) env list' env' ↔ ∃ aliases annotated declared env₁,
      defineEach env.context.aliases list = .ok aliases ∧
        List.Forall₂ (AnnotatedAlias aliases) list annotated ∧
        Succeeds (declareNodes 0 annotated) (withAliases env aliases) declared env₁ ∧
        Succeeds (nodes declared) env₁ list' env' := by
  simp only [unit, succeeds_bind, succeeds_defineAliases]
  constructor
  · rintro ⟨_, _, ⟨aliases, hdef, rfl, rfl⟩, annotated, _, hann, declared, env₁, hdecl, hnodes⟩
    obtain ⟨hann', rfl⟩ := succeeds_annotateAliases.mp hann
    exact ⟨aliases, annotated, declared, env₁, hdef, hann', hdecl, hnodes⟩
  · rintro ⟨aliases, annotated, declared, env₁, hdef, hann, hdecl, hnodes⟩
    exact ⟨_, _, ⟨aliases, hdef, rfl, rfl⟩, annotated, _,
      succeeds_annotateAliases.mpr ⟨hann, rfl⟩, declared, env₁, hdecl, hnodes⟩

end Resolver

/-- Where the resolution of a unit starts. -/
def SourceUnit.start (unit : SourceUnit) : Env :=
  ⟨Resolver.bridgeContext unit.nodes, [[]], none, none⟩

/-- The resolution of a unit succeeds exactly if its steps do. -/
theorem SourceUnit.resolve_eq_ok {unit unit' : SourceUnit} {context : SemanticContext} :
    unit.resolve = (unit', .ok context) ↔ ∃ nodes env,
      Resolver.Succeeds (Resolver.unit unit.nodes) unit.start nodes env ∧
        { unit with nodes } = unit' ∧ env.context = context := by
  unfold resolve Resolver.Succeeds
  rw [show (⟨Resolver.bridgeContext unit.nodes, [[]], none, none⟩ : Env) = unit.start from rfl]
  generalize Resolver.unit unit.nodes unit.start = result
  obtain ⟨⟨nodes, env⟩, errors⟩ := result
  constructor
  · intro h
    cases errors with
    | nil =>
      cases h
      exact ⟨nodes, env, rfl, rfl, rfl⟩
    | cons e es => exact nomatch congrArg Prod.snd h
  · rintro ⟨nodes', env', h, rfl, rfl⟩
    cases h
    rfl

end KilnLang
