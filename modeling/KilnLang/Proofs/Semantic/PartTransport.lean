import KilnLang.Proofs.Semantic.Transport

/-!
# Parts of a unit under other numbers

What `Transport` says of statements, for the parts of a unit: while they are declared, and while
they are resolved. A part that is declared is the same part under the other numbers but for its
declaration (`Node.renumberDecl`), and a part that is resolved is renumbered throughout.

**Frames.** A part changes little: the declaration of its name, and what is found under that name
(`Env.Touches`).
-/

namespace KilnLang

/-- The part with the number of its declaration changed. -/
def Node.renumberDecl (ρ : DeclId → DeclId) : Node → Node
  | .function f => .function { f with decl := f.decl.map ρ }
  | .global g => .global { g with decl := g.decl.map ρ }
  | other => other

/-! ## Frames -/

/-- Of what was there, only the declarations of `W` and what is found under the names of `Q` may have
changed. -/
structure Env.Touches (W : DeclId → Prop) (Q : String → Prop) (env env' : Env) : Prop where
  grows : env.Grows env'
  scopes : ∃ top top', env.scopes = [top] ∧ env'.scopes = [top'] ∧
    ∀ name, ¬ Q name → top'.lookup name = top.lookup name
  entries : ∀ id < env.context.decls.length, ¬ W id →
    env'.context.decls[id]? = env.context.decls[id]?

theorem DeclTable.Extends.length_le {t t' : DeclTable} (h : t.Extends t') :
    t.length ≤ t'.length := by
  simpa using List.IsPrefix.length_le h

namespace Resolver

theorem defaults_touches {decl : Option DeclId} {index : Nat} {ps ps' : List Param}
    {env env' : Env} (h : Succeeds (defaults decl index ps) env ps' env') :
    env.Grows env' ∧ env'.scopes = env.scopes ∧
      ∀ id, decl ≠ some id → env'.context.decls[id]? = env.context.decls[id]? := by
  induction ps generalizing index env ps' with
  | nil =>
    obtain ⟨-, rfl⟩ := succeeds_defaults_nil.mp h
    exact ⟨.refl _, rfl, fun _ _ => rfl⟩
  | cons p ps ih =>
    obtain ⟨default, ps', -, hps, -⟩ := succeeds_defaults_cons.mp h
    obtain ⟨hgrows, hscopes, hentries⟩ := ih hps
    refine ⟨(Env.grows_setDefault env decl index default).trans hgrows,
      hscopes.trans (Env.scopes_setDefault env decl index default), fun id hid => ?_⟩
    rw [hentries id hid]
    unfold Env.setDefault
    split
    · rename_i other
      have hne : other ≠ id := fun heq => hid (congrArg some heq)
      simp only [Env.update, List.getElem?_modify, if_neg hne, id_map']
    · rfl

theorem functionBody_pushes {sig : Option (Signature Ty)} {ps : List Param}
    {body body' : List Stmt} {env env' : Env}
    (h : Succeeds (functionBody sig ps body) env body' env') (hvargs : env.vargs = none) :
    env.Pushes env' ∧ env'.scopes = env.scopes := by
  obtain ⟨env₁, env₂, hparams, hstmts, rfl⟩ := succeeds_functionBody.mp h
  obtain ⟨hpushes, hscopes⟩ := declareParams_pushes hparams
  obtain ⟨hpushes', hscopes'⟩ := stmts_pushes hstmts
  have hall := hpushes.trans hpushes'
  exact ⟨⟨hall.decls, hall.aliases, hall.bridge, hvargs.symm, hall.limit⟩, hscopes'.trans hscopes⟩

/-- Resolving a part adds declarations and changes the defaults of its own. -/
theorem node_touches {n n' : Node} {env env' : Env} {top : Scope}
    (h : Succeeds (node n) env n' env') (hscopes : env.scopes = [top])
    (hvargs : env.vargs = none) :
    env.Touches (n.decl? = some ·) (fun _ => False) env' ∧ env'.scopes = [top] := by
  suffices hgoal : env.Grows env' ∧ env'.scopes = env.scopes ∧
      ∀ id < env.context.decls.length, n.decl? ≠ some id →
        env'.context.decls[id]? = env.context.decls[id]? by
    obtain ⟨hgrows, hsame, hentries⟩ := hgoal
    exact ⟨⟨hgrows, ⟨top, top, hscopes, hsame.trans hscopes, fun _ _ => rfl⟩, hentries⟩,
      hsame.trans hscopes⟩
  cases n with
  | function f =>
    obtain ⟨f', hf, -⟩ := succeeds_node_function.mp h
    obtain ⟨ps, env₁, hps, hbody⟩ := succeeds_function.mp hf
    obtain ⟨hgrows, hscopes₁, hentries⟩ := defaults_touches hps
    rcases hbody with ⟨-, -, rfl⟩ | ⟨body, body', -, hbody, -⟩
    · exact ⟨hgrows, hscopes₁, fun id _ => hentries id⟩
    · obtain ⟨hpushes, hscopes₂⟩ := functionBody_pushes hbody (hgrows.vargs.trans hvargs)
      refine ⟨hgrows.trans hpushes.grows, hscopes₂.trans hscopes₁, fun id hlt hid => ?_⟩
      obtain ⟨added, hadded, -⟩ := hpushes.decls
      have hlt₁ := Nat.lt_of_lt_of_le hlt hgrows.context.decls.length_le
      rw [hadded, List.getElem?_append_left hlt₁, hentries id hid]
  | global g =>
    obtain ⟨g', hg, -⟩ := succeeds_node_global.mp h
    obtain ⟨_, -, -, rfl⟩ := succeeds_global.mp hg
    exact ⟨.refl _, rfl, fun _ _ _ => rfl⟩
  | _ =>
    obtain ⟨-, rfl⟩ := succeeds_pure.mp h
    exact ⟨.refl _, rfl, fun _ _ _ => rfl⟩

theorem nodes_frame {ns ns' : List Node} {env env' : Env} {top : Scope}
    (h : Succeeds (nodes ns) env ns' env') (hscopes : env.scopes = [top])
    (hvargs : env.vargs = none) :
    env'.scopes = [top] ∧ env'.vargs = none ∧
      env.context.decls.length ≤ env'.context.decls.length := by
  induction ns generalizing env ns' with
  | nil =>
    obtain ⟨-, rfl⟩ := succeeds_nodes_nil.mp h
    exact ⟨hscopes, hvargs, Nat.le_refl _⟩
  | cons n ns ih =>
    obtain ⟨n₁, env₁, ns₁, hn, hns, -⟩ := succeeds_nodes_cons.mp h
    obtain ⟨htouches, hscopes₁⟩ := node_touches hn hscopes hvargs
    obtain ⟨hscopes', hvargs', hle⟩ := ih hns hscopes₁ (htouches.grows.vargs.trans hvargs)
    exact ⟨hscopes', hvargs', Nat.le_trans htouches.grows.context.decls.length_le hle⟩

/-! ## Resolving parts -/

variable {ρ : Equiv.Perm DeclId} {start start' stop : Nat} {P : DeclId → Prop} {Q : String → Prop}

theorem setDefault_twins {env env' : Env} (ht : Env.Twins ρ start start' P Q env env')
    (decl : Option DeclId) (index : Nat) (default : Option Expr) :
    Env.Twins ρ start start' P Q (env.setDefault decl index default)
      (env'.setDefault (decl.map ρ) index (default.map (·.refill (.renumber ρ)))) := by
  cases default with
  | none => exact ht
  | some e =>
    cases decl with
    | none => exact ht
    | some id =>
      refine ht.update id (fun _ => rfl) (fun _ => rfl) fun info => ?_
      simp only [DeclInfo.refill, List.map_set, Option.map_some]

theorem defaults_twins (hQ : ∀ name, Q name) {decl : Option DeclId} {index : Nat}
    {ps ps₁ : List Param} {env env₁ env' : Env}
    (h : Succeeds (defaults decl index ps) env ps₁ env₁)
    (ht : Env.Twins ρ start start' P Q env env') :
    ∃ env₁', Succeeds (defaults (decl.map ρ) index ps) env'
        (ps₁.map (·.refill (.renumber ρ))) env₁' ∧ Env.Twins ρ start start' P Q env₁ env₁' := by
  induction ps generalizing index env env' ps₁ with
  | nil =>
    obtain ⟨rfl, rfl⟩ := succeeds_defaults_nil.mp h
    exact ⟨env', succeeds_defaults_nil.mpr ⟨rfl, rfl⟩, ht⟩
  | cons p ps ih =>
    obtain ⟨default, ps₁, hdefault, hps, rfl⟩ := succeeds_defaults_cons.mp h
    obtain ⟨env₁', hps', ht'⟩ := ih hps (setDefault_twins ht decl index default)
    exact ⟨env₁', succeeds_defaults_cons.mpr
      ⟨_, _, (ht.concurs hQ).expr? hdefault, hps', rfl⟩, ht'⟩

theorem declareParams_twins (hmoves : Moves ρ start start' stop) (hQ : ∀ name, Q name)
    {ps : List Param} {tys : List Ty} {env env₁ env' : Env}
    (h : Succeeds (declareParams ps tys) env () env₁)
    (hstop : env₁.context.decls.length ≤ stop) (ht : Env.Twins ρ start start' P Q env env') :
    ∃ env₁', Succeeds (declareParams (ps.map (·.refill (.renumber ρ))) tys) env' () env₁' ∧
      Env.Twins ρ start start' P Q env₁ env₁' := by
  induction ps generalizing tys env env' with
  | nil =>
    obtain ⟨-, rfl⟩ := succeeds_pure.mp h
    exact ⟨env', succeeds_pure.mpr ⟨rfl, rfl⟩, ht⟩
  | cons p ps ih =>
    cases tys with
    | nil =>
      obtain ⟨-, rfl⟩ := succeeds_pure.mp h
      exact ⟨env', succeeds_pure.mpr ⟨rfl, rfl⟩, ht⟩
    | cons ty tys =>
      obtain ⟨htaken, hps⟩ := succeeds_declareParams_cons.mp h
      have hle := (declareParams_pushes hps).1.length_le
      have hnew : ρ env.context.decls.length + start = env.context.decls.length + start' := by
        refine hmoves _ ht.first (Nat.lt_of_lt_of_le ?_ (Nat.le_trans hle hstop))
        simp [Env.push]
      obtain ⟨env₁', hps', ht'⟩ := ih hps (ht.push rfl hnew)
      exact ⟨env₁', succeeds_declareParams_cons.mpr
        ⟨(ht.isTaken (hQ _)).trans htaken, hps'⟩, ht'⟩

theorem functionBody_twins (hmoves : Moves ρ start start' stop) (hQ : ∀ name, Q name)
    {sig : Option (Signature Ty)} {ps : List Param} {body body₁ : List Stmt} {env env₁ env' : Env}
    (h : Succeeds (functionBody sig ps body) env body₁ env₁)
    (hstop : env₁.context.decls.length ≤ stop) (ht : Env.Twins ρ start start' P Q env env') :
    ∃ env₁', Succeeds (functionBody sig (ps.map (·.refill (.renumber ρ))) body) env'
        (Stmt.refillEach (.renumber ρ) body₁) env₁' ∧ Env.Twins ρ start start' P Q env₁ env₁' := by
  obtain ⟨env₂, env₃, hparams, hstmts, rfl⟩ := succeeds_functionBody.mp h
  have hle := (stmts_pushes hstmts).1.length_le
  obtain ⟨env₂', hparams', ht₂⟩ := declareParams_twins hmoves hQ hparams (Nat.le_trans hle hstop)
    (ht.withVargs (sig.bind (·.rest.elem?))).enter
  obtain ⟨env₃', hstmts', ht₃⟩ := stmts_twins hmoves hQ hstmts hstop ht₂
  exact ⟨_, succeeds_functionBody.mpr ⟨env₂', env₃', hparams', hstmts', rfl⟩,
    ht₃.leave.withVargs none⟩

theorem Rest.refill_renumber (rest : Rest TypeExpr) : Rest.refill (.renumber ρ) rest = rest := by
  cases rest <;> rfl

theorem function_twins (hmoves : Moves ρ start start' stop) (hQ : ∀ name, Q name)
    {f f₁ : Function} {env env₁ env' : Env} (h : Succeeds (function f) env f₁ env₁)
    (hstop : env₁.context.decls.length ≤ stop) (ht : Env.Twins ρ start start' P Q env env') :
    ∃ env₁', Succeeds (function { f with decl := f.decl.map ρ }) env'
        (f₁.refill (.renumber ρ)) env₁' ∧ Env.Twins ρ start start' P Q env₁ env₁' := by
  obtain ⟨ps, env₂, hps, hbody⟩ := succeeds_function.mp h
  obtain ⟨env₂', hps', ht₂⟩ := defaults_twins hQ hps ht
  rcases hbody with ⟨hnone, rfl, rfl⟩ | ⟨body, body₁, hsome, hbody, rfl⟩
  · refine ⟨env₂', succeeds_function.mpr ⟨_, env₂', hps', .inl ⟨hnone, ?_, rfl⟩⟩, ht₂⟩
    simp only [Function.refill, Rest.refill_renumber, hnone, Option.map_none]
    rfl
  · obtain ⟨env₁', hbody', ht₁⟩ := functionBody_twins hmoves hQ hbody hstop ht₂
    refine ⟨env₁', succeeds_function.mpr
      ⟨_, env₂', hps', .inr ⟨body, _, hsome, hbody', ?_⟩⟩, ht₁⟩
    simp only [Function.refill, Rest.refill_renumber, Option.map_some]
    rfl

/-- The globals before a global are as many under other numbers. -/
theorem orderOf_twins {g : VarDecl} {env env' : Env} (ht : Env.Twins ρ start start' P Q env env')
    (hdecl : ∀ id, g.decl = some id → id < env.context.decls.length ∧ P id) :
    orderOf env'.context.decls { g with decl := g.decl.map ρ } = orderOf env.context.decls g := by
  unfold orderOf
  cases hg : g.decl with
  | none => rfl
  | some id =>
    obtain ⟨hlt, hP⟩ := hdecl id hg
    simp only [Option.map_some, Option.bind_some, ht.entries id hlt hP, Option.map_map]
    rfl

/-- A part is resolved to the same part under other numbers. -/
theorem node_twins (hmoves : Moves ρ start start' stop) (hQ : ∀ name, Q name) {n n₁ : Node}
    {env env₁ env' : Env} (h : Succeeds (node n) env n₁ env₁)
    (hdecl : ∀ id, n.decl? = some id → id < env.context.decls.length ∧ P id)
    (hstop : env₁.context.decls.length ≤ stop) (ht : Env.Twins ρ start start' P Q env env') :
    ∃ env₁', Succeeds (node (n.renumberDecl ρ)) env' (n₁.refill (.renumber ρ)) env₁' ∧
      Env.Twins ρ start start' P Q env₁ env₁' := by
  cases n with
  | function f =>
    obtain ⟨f₁, hf, rfl⟩ := succeeds_node_function.mp h
    obtain ⟨env₁', hf', ht'⟩ := function_twins hmoves hQ hf hstop ht
    exact ⟨env₁', succeeds_node_function.mpr ⟨_, hf', rfl⟩, ht'⟩
  | global g =>
    obtain ⟨g₁, hg, rfl⟩ := succeeds_node_global.mp h
    obtain ⟨init, hinit, rfl, rfl⟩ := succeeds_global.mp hg
    have hlimit := orderOf_twins ht hdecl
    refine ⟨env', succeeds_node_global.mpr ⟨_, succeeds_global.mpr ⟨_, ?_, rfl, rfl⟩, rfl⟩, ht⟩
    rw [hlimit]
    exact ((ht.withLimit _).concurs hQ).expr? hinit
  | _ =>
    obtain ⟨rfl, rfl⟩ := succeeds_pure.mp h
    exact ⟨env', succeeds_pure.mpr ⟨rfl, rfl⟩, ht⟩

/-- Parts are resolved to the same parts under other numbers. -/
theorem nodes_twins {start start' stop : Nat} (hmoves : Moves ρ start start' stop)
    {ns ns₁ : List Node} {env env₁ env' : Env} {top : Scope}
    (h : Succeeds (nodes ns) env ns₁ env₁) (hscopes : env.scopes = [top])
    (hvargs : env.vargs = none)
    (hdecl : ∀ n ∈ ns, ∀ id, n.decl? = some id → id < env.context.decls.length)
    (hstop : env₁.context.decls.length ≤ stop)
    (ht : Env.Twins ρ start start' (fun _ => True) (fun _ => True) env env') :
    ∃ env₁', Succeeds (nodes (ns.map (·.renumberDecl ρ))) env'
        (ns₁.map (·.refill (.renumber ρ))) env₁' ∧
      Env.Twins ρ start start' (fun _ => True) (fun _ => True) env₁ env₁' := by
  induction ns generalizing env env' ns₁ with
  | nil =>
    obtain ⟨rfl, rfl⟩ := succeeds_nodes_nil.mp h
    exact ⟨env', succeeds_nodes_nil.mpr ⟨rfl, rfl⟩, ht⟩
  | cons n ns ih =>
    obtain ⟨n₁, env₂, ns₁, hn, hns, rfl⟩ := succeeds_nodes_cons.mp h
    obtain ⟨hhead, htail⟩ := List.forall_mem_cons.mp hdecl
    obtain ⟨htouches, hscopes₂⟩ := node_touches hn hscopes hvargs
    have hvargs₂ := htouches.grows.vargs.trans hvargs
    have hle := htouches.grows.context.decls.length_le
    obtain ⟨-, -, hle'⟩ := nodes_frame hns hscopes₂ hvargs₂
    obtain ⟨env₂', hn', ht₂⟩ := node_twins hmoves (fun _ => trivial) hn
      (fun id hid => ⟨hhead id hid, trivial⟩) (Nat.le_trans hle' hstop) ht
    obtain ⟨env₁', hns', ht₁⟩ := ih hns hscopes₂ hvargs₂
      (fun m hm id hid => Nat.lt_of_lt_of_le (htail m hm id hid) hle) ht₂
    exact ⟨env₁', succeeds_nodes_cons.mpr ⟨_, env₂', _, hn', hns', rfl⟩, ht₁⟩

/-! ## Declaring parts -/

theorem declareNode_order {order order' : Nat} {n : Node} (h : globalCount n = 0) :
    declareNode order n = declareNode order' n := by
  cases n with
  | global g => exact nomatch h
  | _ => rfl

/-- Declaring a part changes its own declaration, and what is found under its name. -/
theorem declareNode_touches {order : Nat} {n n₁ : Node} {env env₁ : Env} {top : Scope}
    (h : Succeeds (declareNode order n) env n₁ env₁) (hscopes : env.scopes = [top]) :
    env.Touches (n₁.decl? = some ·) (n₁.declares ·) env₁ := by
  have hpush : ∀ info : DeclInfo, n₁.declares info.name → env₁ = env.push info →
      env.Touches (n₁.decl? = some ·) (n₁.declares ·) env₁ := by
    rintro info hname rfl
    refine ⟨⟨⟨.push _ _, rfl, rfl⟩, rfl, rfl⟩,
      ⟨top, (info.name, env.context.decls.length) :: top, hscopes, ?_, ?_⟩, fun id hlt _ => ?_⟩
    · simp only [Env.push, hscopes]
    · intro name hother
      rw [Scope.lookup_cons, if_neg]
      rintro rfl
      exact hother hname
    · exact List.getElem?_append_left hlt
  cases n with
  | function f =>
    obtain ⟨f₁, sig, decl, -, hdecl, rfl⟩ := succeeds_declareNode_function.mp h
    rcases succeeds_functionDecl.mp hdecl with ⟨id, info, hid, -, -, rfl, rfl⟩ | ⟨-, -, -, rfl⟩
    · refine ⟨⟨⟨.modify _ _ fun _ => rfl, rfl, rfl⟩, rfl, rfl⟩,
        ⟨top, top, hscopes, hscopes, fun _ _ => rfl⟩, fun other _ hne => ?_⟩
      have hne : id ≠ other := fun heq => hne (congrArg some heq)
      simp only [Env.update, List.getElem?_modify, if_neg hne, id_map']
    · exact hpush _ (by simp [Node.declares, Node.name?]) rfl
  | global g =>
    obtain ⟨ty, varTy, -, -, rfl, rfl⟩ := succeeds_declareNode_global.mp h
    exact hpush _ (by simp [Node.declares, Node.name?]) rfl
  | _ =>
    obtain ⟨rfl, rfl⟩ := succeeds_pure.mp h
    exact ⟨.refl _, ⟨top, top, hscopes, hscopes, fun _ _ => rfl⟩, fun _ _ _ => rfl⟩

/-- The declaration of a part is in the table, and what it adds is its declaration. -/
theorem declareNode_decl {order : Nat} {n n₁ : Node} {env env₁ : Env}
    (h : Succeeds (declareNode order n) env n₁ env₁) :
    (∀ id, n₁.decl? = some id → id < env₁.context.decls.length) ∧
      ∀ id < env₁.context.decls.length, env.context.decls.length ≤ id → n₁.decl? = some id := by
  have hpush : ∀ info : DeclInfo, n₁.decl? = some env.context.decls.length →
      env₁ = env.push info → (∀ id, n₁.decl? = some id → id < env₁.context.decls.length) ∧
        ∀ id < env₁.context.decls.length, env.context.decls.length ≤ id → n₁.decl? = some id := by
    rintro info hdecl rfl
    simp only [hdecl, Env.push, List.length_append, List.length_singleton, Option.some.injEq]
    exact ⟨fun id hid => hid ▸ Nat.lt_succ_self _,
      fun id hlt hle => Nat.le_antisymm hle (Nat.le_of_lt_succ hlt)⟩
  cases n with
  | function f =>
    obtain ⟨f₁, sig, decl, -, hdecl, rfl⟩ := succeeds_declareNode_function.mp h
    rcases succeeds_functionDecl.mp hdecl with ⟨id, info, -, hinfo, -, rfl, rfl⟩ | ⟨-, -, rfl, rfl⟩
    · have hlt := (List.getElem?_eq_some_iff.mp hinfo).1
      simp only [Env.update, List.length_modify]
      refine ⟨fun other hother => ?_, fun other hlt hle => ?_⟩
      · exact Option.some.inj hother ▸ hlt
      · exact absurd hlt (Nat.not_lt.mpr hle)
    · exact hpush _ rfl rfl
  | global g =>
    obtain ⟨ty, varTy, -, -, rfl, rfl⟩ := succeeds_declareNode_global.mp h
    exact hpush _ rfl rfl
  | _ =>
    obtain ⟨rfl, rfl⟩ := succeeds_pure.mp h
    exact ⟨fun _ hid => by (cases hid), fun id hlt hle => absurd hlt (Nat.not_lt.mpr hle)⟩

/-- A part is declared as the same part under other numbers. -/
theorem declareNode_twins (hmoves : Moves ρ start start' stop) {order : Nat} {n n₁ : Node}
    {env env₁ env' : Env} (h : Succeeds (declareNode order n) env n₁ env₁)
    (hQ : ∀ name, n₁.declares name → Q name)
    (hP : ∀ id < env.context.decls.length, n₁.decl? = some id → P id)
    (hstop : env₁.context.decls.length ≤ stop) (ht : Env.Twins ρ start start' P Q env env') :
    ∃ env₁', Succeeds (declareNode order n) env' (n₁.renumberDecl ρ) env₁' ∧
      Env.Twins ρ start start' P Q env₁ env₁' := by
  have hnew : ∀ info : DeclInfo, env₁ = env.push info →
      ρ env.context.decls.length + start = env.context.decls.length + start' := by
    rintro info rfl
    refine hmoves _ ht.first (Nat.lt_of_lt_of_le ?_ hstop)
    simp [Env.push]
  have hnumber : ∀ info : DeclInfo, env₁ = env.push info →
      env'.context.decls.length = ρ env.context.decls.length :=
    fun info hinfo => Nat.add_right_cancel (ht.aligned.trans (hnew info hinfo).symm)
  cases n with
  | function f =>
    obtain ⟨f₁, sig, decl, hhead, hdecl, rfl⟩ := succeeds_declareNode_function.mp h
    have hname : Q f₁.name.text := hQ _ (by simp [Node.declares, Node.name?])
    -- Only the innermost scope is looked into, and the two agree there on names of this kind.
    have hlook : (env'.scopes.head?).bind (·.lookup f₁.name.text) =
        ((env.scopes.head?).bind (·.lookup f₁.name.text)).map ρ := by
      have hall := ht.scopes
      generalize env.scopes = scopes at hall
      generalize env'.scopes = scopes' at hall
      cases hall with
      | nil => rfl
      | cons hscope _ => exact hscope _ hname
    rw [← ht.aliases.head] at hhead
    rcases succeeds_functionDecl.mp hdecl with
      ⟨id, info, hid, hinfo, hfits, rfl, rfl⟩ | ⟨hfree, hfresh, rfl, rfl⟩
    · have hlt := (List.getElem?_eq_some_iff.mp hinfo).1
      have hinfo' := ht.entries id hlt (hP id hlt rfl)
      rw [hinfo, Option.map_some] at hinfo'
      rw [hid, Option.map_some] at hlook
      refine ⟨_, succeeds_declareNode_function.mpr ⟨f₁, sig, _, hhead, succeeds_functionDecl.mpr
        (.inl ⟨ρ id, _, hlook, hinfo', hfits, rfl, rfl⟩), rfl⟩, ?_⟩
      exact ht.update id (fun _ => rfl) (fun _ => rfl) fun _ => rfl
    · rw [hfree, Option.map_none] at hlook
      rw [← ht.aliases.contains] at hfresh
      refine ⟨_, succeeds_declareNode_function.mpr ⟨f₁, sig, _, hhead, succeeds_functionDecl.mpr
        (.inr ⟨hlook, hfresh, rfl, rfl⟩), ?_⟩, ht.push ?_ (hnew _ rfl)⟩
      · rw [hnumber _ rfl]
        rfl
      · simp [DeclInfo.refill]
  | global g =>
    obtain ⟨ty, varTy, hty, htaken, rfl, rfl⟩ := succeeds_declareNode_global.mp h
    have hname : Q g.name.text := hQ _ (by simp [Node.declares, Node.name?])
    rw [← ht.aliases.annotateReport] at hty
    rw [← ht.isTaken hname] at htaken
    refine ⟨_, succeeds_declareNode_global.mpr ⟨ty, varTy, hty, htaken, ?_, rfl⟩,
      ht.push rfl (hnew _ rfl)⟩
    rw [hnumber _ rfl]
    rfl
  | _ =>
    obtain ⟨rfl, rfl⟩ := succeeds_pure.mp h
    exact ⟨env', succeeds_pure.mpr ⟨rfl, rfl⟩, ht⟩

theorem declareNodes_length_le {order : Nat} {ns ns₁ : List Node} {env env₁ : Env} {top : Scope}
    (h : Succeeds (declareNodes order ns) env ns₁ env₁) (hscopes : env.scopes = [top]) :
    env.context.decls.length ≤ env₁.context.decls.length ∧ ∃ top₁, env₁.scopes = [top₁] := by
  induction ns generalizing order env ns₁ top with
  | nil =>
    obtain ⟨-, rfl⟩ := succeeds_declareNodes_nil.mp h
    exact ⟨Nat.le_refl _, top, hscopes⟩
  | cons n ns ih =>
    obtain ⟨n₁, env₂, ns₁, hn, hns, -⟩ := succeeds_declareNodes_cons.mp h
    have htouches := declareNode_touches hn hscopes
    obtain ⟨_, top₂, -, hscopes₂, -⟩ := htouches.scopes
    obtain ⟨hle, hscopes₁⟩ := ih hns hscopes₂
    exact ⟨Nat.le_trans htouches.grows.context.decls.length_le hle, hscopes₁⟩

/-- Parts are declared as the same parts under other numbers. -/
theorem declareNodes_twins {start start' stop : Nat} (hmoves : Moves ρ start start' stop)
    {order : Nat} {ns ns₁ : List Node} {env env₁ env' : Env} {top : Scope}
    (h : Succeeds (declareNodes order ns) env ns₁ env₁) (hscopes : env.scopes = [top])
    (hstop : env₁.context.decls.length ≤ stop)
    (ht : Env.Twins ρ start start' (fun _ => True) (fun _ => True) env env') :
    ∃ env₁', Succeeds (declareNodes order ns) env' (ns₁.map (·.renumberDecl ρ)) env₁' ∧
      Env.Twins ρ start start' (fun _ => True) (fun _ => True) env₁ env₁' := by
  induction ns generalizing order env env' ns₁ top with
  | nil =>
    obtain ⟨rfl, rfl⟩ := succeeds_declareNodes_nil.mp h
    exact ⟨env', succeeds_declareNodes_nil.mpr ⟨rfl, rfl⟩, ht⟩
  | cons n ns ih =>
    obtain ⟨n₁, env₂, ns₁, hn, hns, rfl⟩ := succeeds_declareNodes_cons.mp h
    obtain ⟨_, top₂, -, hscopes₂, -⟩ := (declareNode_touches hn hscopes).scopes
    obtain ⟨hle, -⟩ := declareNodes_length_le hns hscopes₂
    obtain ⟨env₂', hn', ht₂⟩ := declareNode_twins hmoves hn (fun _ _ => trivial)
      (fun _ _ _ => trivial) (Nat.le_trans hle hstop) ht
    obtain ⟨env₁', hns', ht₁⟩ := ih hns hscopes₂ ht₂
    exact ⟨env₁', succeeds_declareNodes_cons.mpr ⟨_, env₂', _, hn', hns', rfl⟩, ht₁⟩

end Resolver

end KilnLang
