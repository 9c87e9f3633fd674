import Mathlib.Data.List.Forall2
import KilnLang.Proofs.Semantic.Spanless
import KilnLang.Proofs.Semantic.Success

/-!
# Resolution of units without spans

**Theorem (`SourceUnit.resolve_unspanned`).** A unit without spans is resolved to what the unit is
resolved to, less the spans, and with the same errors up to spans.

The steps of resolution thread an environment. A step **mirrors** another (`Mirrors`) if it does
without spans what the other does with them, from every environment. Mirroring goes through
`bind`, so that each step has one lemma, which follows the definition of the step.

The bridge to headers is no data but awaits all aliases, so bridges are compared by what they give
for aliases without spans (`Bridging.Unspanned`).
-/

namespace KilnLang

namespace Resolver

/-! ## Steps -/

section Steps

variable {α β γ δ : Type}

/-- The step `m'` does without spans what `m` does, where `g` takes the spans from results. -/
def Mirrors (g : α → β) (m : ResolveM α) (m' : ResolveM β) : Prop :=
  ∀ env, m' env.unspanned = Prod.map g Env.unspanned <$> (m env).unspanned

namespace Mirrors

variable {g : α → β} {k : γ → δ}

theorem pure {a : α} {b : β} (h : b = g a) : Mirrors g (Pure.pure a) (Pure.pure b) := by
  intro env
  rw [h]
  rfl

theorem bind {m : ResolveM α} {m' : ResolveM β} {f : α → ResolveM γ} {f' : β → ResolveM δ}
    (hm : Mirrors g m m') (hf : ∀ a, Mirrors k (f a) (f' (g a))) :
    Mirrors k (m >>= f) (m' >>= f') := by
  intro env
  have hrun : ∀ p : α × Env, f' (g p.1) p.2.unspanned =
      Prod.map k Env.unspanned <$> (f p.1 p.2).unspanned := fun p => hf p.1 p.2
  change (m' env.unspanned >>= fun p => f' p.1 p.2) =
    Prod.map k Env.unspanned <$> (m env >>= fun p => f p.1 p.2).unspanned
  rw [hm env, bind_map_left, Report.unspanned_bind, map_bind]
  exact bind_congr hrun

theorem report {r : Env → Report α} {r' : Env → Report β}
    (h : ∀ env, r' env.unspanned = g <$> (r env).unspanned) :
    Mirrors g (Resolver.report r) (Resolver.report r') := by
  intro env
  simp only [Resolver.report, h, Report.unspanned_bind, Report.unspanned_pure, map_bind, map_pure,
    bind_map_left]
  rfl

theorem get : Mirrors Env.unspanned MonadState.get MonadState.get := fun _ => rfl

theorem modifyEnv {f f' : Env → Env} (h : ∀ env, f' env.unspanned = (f env).unspanned) :
    Mirrors id (Resolver.modifyEnv f) (Resolver.modifyEnv f') := by
  intro env
  simp only [Resolver.modifyEnv, h]
  rfl

end Mirrors

end Steps

theorem push_mirrored (info : DeclInfo) : Mirrors id (push info) (push info.unspanned) := by
  intro env
  have hlength : env.unspanned.context.decls.length = env.context.decls.length :=
    List.length_map ..
  have hpush : env.unspanned.push info.unspanned = (env.push info).unspanned := by
    unfold Env.push
    rw [hlength]
    simp only [Env.unspanned, SemanticContext.unspanned, DeclTable.unspanned, List.map_append]
    rfl
  unfold push
  rw [hlength, hpush]
  rfl

theorem declare_mirrored (name : Ident) (kind : DeclKind) (ty : Ty) (order : Nat) :
    Mirrors id (declare name kind ty order) (declare name.unspanned kind ty order) := by
  unfold declare
  refine Mirrors.get.bind fun env => ?_
  have htaken : env.unspanned.isTaken name.unspanned.text = env.isTaken name.text := by
    unfold Env.isTaken
    exact congrArg (_ || _ && ·) (env.context.aliases.contains_unspanned name.text)
  rw [htaken]
  split
  · refine (Mirrors.report (g := id) fun _ => rfl).bind fun _ => ?_
    exact .pure rfl
  · refine (push_mirrored _).bind fun id => ?_
    exact .pure rfl

theorem openScope_mirrored : Mirrors id openScope openScope := .modifyEnv fun _ => rfl

theorem closeScope_mirrored : Mirrors id closeScope closeScope := .modifyEnv fun _ => rfl

/-! ## Statements -/

theorem localVar_mirrored (var : VarDecl) :
    Mirrors (·.unspanned) (localVar var) (localVar var.unspanned) := by
  unfold localVar
  refine (Mirrors.report fun env => env.annotate_unspanned var.ty).bind fun ⟨ty, varTy⟩ => ?_
  refine (Mirrors.report fun env => env.expr?_unspanned var.init).bind fun init => ?_
  refine (declare_mirrored var.name .local varTy 0).bind fun decl => ?_
  exact .pure rfl

mutual

theorem stmt_mirrored : ∀ s : Stmt, Mirrors (·.unspanned) (stmt s) (stmt s.unspanned)
  | .expr value => by
    rw [Stmt.unspanned, stmt, stmt]
    refine (Mirrors.report fun env => env.expr_unspanned value).bind fun value => ?_
    exact .pure rfl
  | .decl var => by
    rw [Stmt.unspanned, stmt, stmt]
    refine (localVar_mirrored var).bind fun var => ?_
    exact .pure rfl
  | .assign span target op value => by
    rw [Stmt.unspanned, stmt, stmt]
    refine (Mirrors.report fun env => env.value_unspanned target).bind fun target => ?_
    refine (Mirrors.report fun env => env.expr_unspanned value).bind fun value => ?_
    exact .pure rfl
  | .ret span value => by
    rw [Stmt.unspanned, stmt, stmt]
    refine (Mirrors.report fun env => env.expr?_unspanned value).bind fun value => ?_
    exact .pure rfl
  | .cond list => by
    rw [Stmt.unspanned, stmt, stmt]
    refine (branches_mirrored list).bind fun list => ?_
    exact .pure rfl
  | .loop span cond body => by
    rw [Stmt.unspanned, stmt, stmt]
    refine (Mirrors.report fun env => env.expr_unspanned cond).bind fun cond => ?_
    refine openScope_mirrored.bind fun _ => ?_
    refine (stmts_mirrored body).bind fun body => ?_
    refine closeScope_mirrored.bind fun _ => ?_
    exact .pure rfl
  | .block span body => by
    rw [Stmt.unspanned, stmt, stmt]
    refine openScope_mirrored.bind fun _ => ?_
    refine (stmts_mirrored body).bind fun body => ?_
    refine closeScope_mirrored.bind fun _ => ?_
    exact .pure rfl

theorem stmts_mirrored : ∀ ss : List Stmt,
    Mirrors Stmt.unspannedEach (stmts ss) (stmts (Stmt.unspannedEach ss))
  | [] => .pure rfl
  | s :: ss => by
    rw [Stmt.unspannedEach, stmts, stmts]
    refine (stmt_mirrored s).bind fun s => ?_
    refine (stmts_mirrored ss).bind fun ss => ?_
    exact .pure rfl

theorem branch_mirrored : ∀ b : Branch, Mirrors (·.unspanned) (branch b) (branch b.unspanned)
  | .mk span g body => by
    rw [Branch.unspanned, branch, branch]
    refine (Mirrors.report fun env => env.guard_unspanned g).bind fun g => ?_
    refine openScope_mirrored.bind fun _ => ?_
    refine (stmts_mirrored body).bind fun body => ?_
    refine closeScope_mirrored.bind fun _ => ?_
    exact .pure rfl

theorem branches_mirrored : ∀ bs : List Branch,
    Mirrors Branch.unspannedEach (branches bs) (branches (Branch.unspannedEach bs))
  | [] => .pure rfl
  | b :: bs => by
    rw [Branch.unspannedEach, branches, branches]
    refine (branch_mirrored b).bind fun b => ?_
    refine (branches_mirrored bs).bind fun bs => ?_
    exact .pure rfl

end

/-! ## Headers and aliases -/

theorem isAlias_unspanned (n : Node) : isAlias n.unspanned = isAlias n := by
  cases n <;> rfl

/-- The aliases are the same without spans, and the bridges give the same for them. -/
structure Bridging.Unspanned (b b' : Bridging) : Prop where
  aliases : b'.aliases = b.aliases.unspanned
  bridge : List.Forall₂ (fun e e' => e'.1 = e.1 ∧ ∀ t : AliasTable, e'.2 t.unspanned = e.2 t)
    b.bridge b'.bridge

theorem aliasOf?_unspanned (span : Span) (symbol : HeaderSymbol) :
    aliasOf? default symbol =
      (aliasOf? span symbol).map fun (target, kind) => (target.unspanned, kind) := by
  cases symbol with
  | constant name value => cases value <;> rfl
  | _ => rfl

theorem macroResult_unspanned (t : AliasTable) (span : Span) (value : MacroValue) :
    macroResult t.unspanned default value = macroResult t span value := by
  cases value with
  | name other =>
    rw [macroResult, macroResult, t.resolve_unspanned other span]
    cases t.resolve other span <;> rfl
  | _ => rfl

theorem bridgeOf?_unspanned (span : Span) (symbol : HeaderSymbol) :
    Option.Rel (fun e e' => ∀ t : AliasTable, e' t.unspanned = e t) (bridgeOf? span symbol)
      (bridgeOf? default symbol) := by
  cases symbol with
  | macroFn name arity variadic value =>
    exact .some fun t => congrArg _ (macroResult_unspanned t span value)
  | constant | typedef => exact .none
  | _ => exact .some fun _ => rfl

namespace Bridging.Unspanned

variable {b b' : Bridging}

theorem isSome_lookup (h : Unspanned b b') (name : String) :
    (b'.bridge.lookup name).isSome = (b.bridge.lookup name).isSome := by
  obtain ⟨-, hbridge⟩ := h
  generalize b.bridge = entries, b'.bridge = entries' at hbridge
  induction hbridge with
  | nil => rfl
  | @cons e e' _ _ hentry _ ih =>
    rw [List.lookup_cons, List.lookup_cons, hentry.1]
    cases name == e.1 with
    | true => rfl
    | false => exact ih

theorem add (h : Unspanned b b') (span : Span) (symbol : HeaderSymbol) :
    Unspanned (b.add span symbol) (b'.add default symbol) := by
  unfold Bridging.add
  dsimp only
  rw [h.aliases, AliasTable.contains_unspanned, h.isSome_lookup]
  split
  · exact h
  · have hbridge := bridgeOf?_unspanned span symbol
    rw [aliasOf?_unspanned span symbol]
    cases aliasOf? span symbol with
    | some entry =>
      obtain ⟨target, kind⟩ := entry
      dsimp only [Option.map_some]
      rw [AliasTable.define_unspanned _ _ _ _ span]
      cases b.aliases.define symbol.name target kind span with
      | ok aliases => exact ⟨rfl, h.bridge⟩
      | error e => exact h
    | none =>
      generalize bridgeOf? span symbol = entry, bridgeOf? default symbol = entry' at hbridge
      cases hbridge with
      | none => exact h
      | some hentry => exact ⟨rfl, List.rel_append h.bridge (.cons ⟨rfl, hentry⟩ .nil)⟩

theorem addNode (h : Unspanned b b') (n : Node) :
    Unspanned (b.addNode n) (b'.addNode n.unspanned) := by
  cases n with
  | header item =>
    obtain ⟨span, path, _ | table⟩ := item
    · exact h
    · dsimp only [Node.unspanned, Bridging.addNode]
      generalize table.symbols = symbols
      induction symbols generalizing b b' with
      | nil => exact h
      | cons symbol symbols ih => exact ih (h.add span symbol)
  | _ => exact h

end Bridging.Unspanned

/-- Headers offer the same to a unit without spans. -/
theorem bridgeContext_unspanned (nodes : List Node) :
    bridgeContext (nodes.map (·.unspanned)) = (bridgeContext nodes).unspanned := by
  have hadd : ∀ b b' : Bridging, Bridging.Unspanned b b' →
      Bridging.Unspanned (nodes.foldl Bridging.addNode b)
        ((nodes.map (·.unspanned)).foldl Bridging.addNode b') := by
    induction nodes with
    | nil => exact fun _ _ h => h
    | cons n nodes ih => exact fun _ _ h => ih _ _ (h.addNode n)
  obtain ⟨haliases, hbridge⟩ := hadd ⟨.empty, []⟩ ⟨.empty, []⟩ ⟨rfl, .nil⟩
  unfold bridgeContext SemanticContext.unspanned
  dsimp only
  rw [haliases]
  congr 1
  generalize (nodes.foldl Bridging.addNode ⟨.empty, []⟩).aliases = aliases
  generalize (nodes.foldl Bridging.addNode ⟨.empty, []⟩).bridge = entries at hbridge
  generalize ((nodes.map (·.unspanned)).foldl Bridging.addNode ⟨.empty, []⟩).bridge = entries'
    at hbridge
  induction hbridge with
  | nil => rfl
  | cons hentry _ ih => rw [List.map_cons, List.map_cons, ih, hentry.1, hentry.2 aliases]

theorem targetOf_unspanned (ty : TypeExpr) : targetOf ty.unspanned = (targetOf ty).unspanned := by
  cases ty with
  | named name =>
    rcases name with ⟨span, _ | ⟨part, _ | ⟨next, more⟩⟩, resolved⟩ <;> rfl
  | _ => rfl

theorem defineAliases_mirrored (nodes : List Node) :
    Mirrors id (defineAliases nodes) (defineAliases (nodes.map (·.unspanned))) := by
  induction nodes with
  | nil => exact .pure rfl
  | cons node nodes ih =>
    rw [List.map_cons]
    obtain ⟨item, rfl⟩ | hnode := isAlias_cases node
    · have hrest : ∀ defined : Bool, Mirrors id
          (do return defined :: (← defineAliases nodes))
          (do return defined :: (← defineAliases (nodes.map (·.unspanned)))) :=
        fun defined => ih.bind fun more => .pure rfl
      rw [Node.unspanned, defineAliases, defineAliases]
      refine Mirrors.get.bind fun env => ?_
      have hdefine : env.unspanned.context.aliases.define item.name.unspanned.text
          (targetOf item.target.unspanned) .type item.name.unspanned.span = _ :=
        targetOf_unspanned item.target ▸ env.context.aliases.define_unspanned item.name.text
          (targetOf item.target) .type item.name.span
      dsimp only
      rw [hdefine]
      cases env.context.aliases.define item.name.text (targetOf item.target) .type
        item.name.span with
      | ok aliases =>
        refine (Mirrors.modifyEnv fun env => ?_).bind fun _ => hrest true
        rfl
      | error e =>
        refine (Mirrors.report (g := id) fun _ => ?_).bind fun _ => hrest false
        rfl
    · rw [defineAliases_other hnode, defineAliases_other (by rwa [isAlias_unspanned])]
      exact ih.bind fun more => .pure rfl

theorem annotateAliases_mirrored (nodes : List Node) (defined : List Bool) :
    Mirrors (List.map (·.unspanned)) (annotateAliases nodes defined)
      (annotateAliases (nodes.map (·.unspanned)) defined) := by
  induction nodes generalizing defined with
  | nil => exact .pure rfl
  | cons node nodes ih =>
    rw [List.map_cons]
    obtain ⟨item, rfl⟩ | hnode := isAlias_cases node
    · rcases defined with _ | ⟨_ | _, defined⟩
      · exact (ih []).bind fun more => .pure rfl
      · exact (ih defined).bind fun more => .pure rfl
      · refine (Mirrors.report fun env => env.annotate_unspanned item.target).bind
          fun ⟨target, _⟩ => ?_
        exact (ih defined).bind fun more => .pure rfl
    · rw [annotateAliases_other hnode, annotateAliases_other (by rwa [isAlias_unspanned])]
      exact (ih defined.tail).bind fun more => .pure rfl

/-! ## Parts of the unit -/

theorem functionDecl_mirrored (name : Ident) (sig : Signature Ty) (paramCount : Nat)
    (hasBody : Bool) :
    Mirrors id (functionDecl name sig paramCount hasBody)
      (functionDecl name.unspanned sig paramCount hasBody) := by
  have hredefinition : Mirrors id
      (do report fun _ => Report.error (.redefinition name.text name.span)
          return none : ResolveM (Option DeclId))
      (do report fun _ => Report.error (.redefinition name.unspanned.text name.unspanned.span)
          return none : ResolveM (Option DeclId)) :=
    (Mirrors.report (g := id) fun _ => rfl).bind fun _ => .pure rfl
  unfold functionDecl
  refine Mirrors.get.bind fun env => ?_
  dsimp only
  have hscopes : env.unspanned.scopes = env.scopes := rfl
  have hcontains : env.unspanned.context.aliases.contains name.text =
      env.context.aliases.contains name.text := env.context.aliases.contains_unspanned name.text
  rw [hscopes, Ident.text_unspanned, hcontains]
  cases (env.scopes.head?).bind (·.lookup name.text) with
  | some id =>
    dsimp only
    rw [env.decl?_unspanned]
    cases env.context.decls[id]? with
    | none => exact hredefinition
    | some info =>
      dsimp only [Option.map_some, DeclInfo.unspanned]
      split
      · refine (Mirrors.modifyEnv fun env => env.update_unspanned id fun _ => ?_).bind
          fun _ => .pure rfl
        rfl
      · exact hredefinition
  | none =>
    dsimp only
    split
    · exact hredefinition
    · have hinfo : (⟨name.text, name.unspanned.span, .function, .func sig,
          List.replicate paramCount none, 0, hasBody⟩ : DeclInfo) =
          DeclInfo.unspanned ⟨name.text, name.span, .function, .func sig,
            List.replicate paramCount none, 0, hasBody⟩ := by
        simp [DeclInfo.unspanned, Ident.unspanned]
      rw [hinfo]
      exact (push_mirrored _).bind fun id => .pure rfl

theorem declareFunction_mirrored (item : Function) :
    Mirrors (·.unspanned) (declareFunction item) (declareFunction item.unspanned) := by
  unfold declareFunction
  refine (Mirrors.report fun env => env.head_unspanned item).bind fun ⟨item, sig⟩ => ?_
  have hparams : item.unspanned.params.length = item.params.length := List.length_map ..
  have hbody : item.unspanned.body.isSome = item.body.isSome := Option.isSome_map
  dsimp only
  rw [hparams, hbody]
  exact (functionDecl_mirrored item.name sig _ _).bind fun decl => .pure rfl

theorem declareNode_mirrored (order : Nat) (n : Node) :
    Mirrors (·.unspanned) (declareNode order n) (declareNode order n.unspanned) := by
  cases n with
  | function item => exact (declareFunction_mirrored item).bind fun item => .pure rfl
  | global item =>
    refine (Mirrors.report fun env => env.annotate_unspanned item.ty).bind fun ⟨ty, varTy⟩ => ?_
    refine (declare_mirrored item.name .global varTy order).bind fun decl => ?_
    exact .pure rfl
  | _ => exact .pure rfl

theorem declareNodes_mirrored (order : Nat) (nodes : List Node) :
    Mirrors (List.map (·.unspanned)) (declareNodes order nodes)
      (declareNodes order (nodes.map (·.unspanned))) := by
  induction nodes generalizing order with
  | nil => exact .pure rfl
  | cons n nodes ih =>
    have hcount : globalCount n.unspanned = globalCount n := by cases n <;> rfl
    rw [List.map_cons, declareNodes, declareNodes, hcount]
    refine (declareNode_mirrored order n).bind fun n => ?_
    exact (ih _).bind fun nodes => .pure rfl

theorem defaults_mirrored (decl : Option DeclId) (index : Nat) (params : List Param) :
    Mirrors (List.map (·.unspanned)) (defaults decl index params)
      (defaults decl index (params.map (·.unspanned))) := by
  induction params generalizing index with
  | nil => exact .pure rfl
  | cons param params ih =>
    rw [List.map_cons, defaults, defaults]
    refine (Mirrors.report fun env => env.expr?_unspanned param.default).bind fun default => ?_
    refine (Mirrors.modifyEnv fun env => env.setDefault_unspanned decl index default).bind
      fun _ => ?_
    exact (ih _).bind fun params => .pure rfl

theorem declareParams_mirrored (params : List Param) (tys : List Ty) :
    Mirrors id (declareParams params tys) (declareParams (params.map (·.unspanned)) tys) := by
  induction params generalizing tys with
  | nil => exact .pure rfl
  | cons param params ih =>
    cases tys with
    | nil => exact .pure rfl
    | cons ty tys => exact (declare_mirrored param.name .parameter ty 0).bind fun _ => ih tys

theorem functionBody_mirrored (sig : Option (Signature Ty)) (params : List Param)
    (body : List Stmt) :
    Mirrors Stmt.unspannedEach (functionBody sig params body)
      (functionBody sig (params.map (·.unspanned)) (Stmt.unspannedEach body)) := by
  unfold functionBody
  refine (Mirrors.modifyEnv fun env => ?_).bind fun _ => ?_
  · rfl
  refine openScope_mirrored.bind fun _ => ?_
  refine (declareParams_mirrored params _).bind fun _ => ?_
  refine (stmts_mirrored body).bind fun body => ?_
  refine closeScope_mirrored.bind fun _ => ?_
  refine (Mirrors.modifyEnv fun env => ?_).bind fun _ => .pure rfl
  rfl

theorem function_mirrored (item : Function) :
    Mirrors (·.unspanned) (function item) (function item.unspanned) := by
  unfold function
  refine (defaults_mirrored item.decl 0 item.params).bind fun params => ?_
  obtain ⟨span, ret, name, written, rest, _ | body, decl, sig⟩ := item
  · exact .pure rfl
  · exact (functionBody_mirrored sig params body).bind fun body => .pure rfl

theorem global_mirrored (item : VarDecl) :
    Mirrors (·.unspanned) (global item) (global item.unspanned) := by
  have horder : ∀ env : Env, (item.unspanned.decl.bind (env.unspanned.context.decls[·]?)).map
      (·.order) = (item.decl.bind (env.context.decls[·]?)).map (·.order) := by
    intro env
    change (item.decl.bind _).map _ = _
    cases item.decl with
    | none => rfl
    | some id =>
      simp only [Option.bind_some, env.decl?_unspanned, Option.map_map]
      rfl
  unfold global
  refine (Mirrors.report fun env => ?_).bind fun init => .pure rfl
  dsimp only
  rw [horder]
  generalize (item.decl.bind (env.context.decls[·]?)).map (·.order) = limit
  exact Env.expr?_unspanned { env with limit } item.init

theorem node_mirrored (n : Node) : Mirrors (·.unspanned) (node n) (node n.unspanned) := by
  cases n with
  | function item => exact (function_mirrored item).bind fun item => .pure rfl
  | global item => exact (global_mirrored item).bind fun item => .pure rfl
  | _ => exact .pure rfl

theorem nodes_mirrored (list : List Node) :
    Mirrors (List.map (·.unspanned)) (nodes list) (nodes (list.map (·.unspanned))) := by
  induction list with
  | nil => exact .pure rfl
  | cons n list ih => exact (node_mirrored n).bind fun n => ih.bind fun list => .pure rfl

theorem unit_mirrored (list : List Node) :
    Mirrors (List.map (·.unspanned)) (unit list) (unit (list.map (·.unspanned))) := by
  unfold unit
  refine (defineAliases_mirrored list).bind fun defined => ?_
  refine (annotateAliases_mirrored list defined).bind fun list => ?_
  refine (declareNodes_mirrored 0 list).bind fun list => ?_
  exact nodes_mirrored list

end Resolver

/-- **Resolution does not depend on spans.** A unit without spans is resolved to the same unit
without spans, with the same errors up to spans. -/
theorem SourceUnit.resolve_unspanned (unit : SourceUnit) :
    unit.unspanned.resolve = (unit.resolve.1.unspanned,
      (unit.resolve.2.map (·.unspanned)).mapError (List.map (·.unspanned))) := by
  unfold SourceUnit.resolve
  have hunit := Resolver.unit_mirrored unit.nodes
    ⟨Resolver.bridgeContext unit.nodes, [[]], none, none⟩
  have hcontext : (⟨Resolver.bridgeContext unit.unspanned.nodes, [[]], none, none⟩ : Env) =
      Env.unspanned ⟨Resolver.bridgeContext unit.nodes, [[]], none, none⟩ := by
    simp only [Env.unspanned, SourceUnit.unspanned, Resolver.bridgeContext_unspanned]
  rw [hcontext]
  dsimp only [SourceUnit.unspanned]
  rw [hunit, Report.errors_map]
  obtain ⟨⟨nodes, env⟩, errors⟩ := Resolver.unit unit.nodes
    ⟨Resolver.bridgeContext unit.nodes, [[]], none, none⟩
  cases errors <;> rfl

end KilnLang
