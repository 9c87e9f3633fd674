import KilnLang.Proofs.Syntax.Unspanned
import KilnLang.Semantic.Resolve

/-!
# Resolution of names without spans

Resolution copies spans into errors, aliases and declarations, and never decides anything by them.
So it commutes with `unspanned`: names, types and expressions without spans, in an environment
without spans, are resolved to what they are resolved to with spans, less the spans, and with the
same errors up to spans (`Env.annotate_unspanned`, `Env.expr_unspanned`).

Each definition of the tables and of the environment has one lemma, which later proofs rewrite with.
-/

namespace KilnLang

/-! ## Errors -/

/-- The error without its span. -/
def AliasError.unspanned : AliasError → AliasError
  | .cycle chain _ => .cycle chain default
  | .unknown name _ => .unknown name default
  | .duplicate name _ => .duplicate name default
  | .notAType name _ => .notAType name default

/-- The error without its span. -/
def SemanticError.unspanned : SemanticError → SemanticError
  | .unresolvedIdentifier name _ => .unresolvedIdentifier name default
  | .macroArityMismatch name expected found _ => .macroArityMismatch name expected found default
  | .functionTypeMismatch position expected found _ =>
    .functionTypeMismatch position expected found default
  | .invalidReferenceArgument what _ => .invalidReferenceArgument what default
  | .typeMismatch expected found _ => .typeMismatch expected found default
  | .argumentCount name expected found _ => .argumentCount name expected found default
  | .notCallable name _ => .notCallable name default
  | .redefinition name _ => .redefinition name default
  | .notAValue name what _ => .notAValue name what default
  | .alias error => .alias error.unspanned

theorem SemanticError.code_unspanned (e : SemanticError) : e.unspanned.code = e.code := by
  cases e with
  | «alias» error => cases error <;> rfl
  | _ => rfl

/-- The report without the spans of its errors. -/
def Report.unspanned {α : Type} (r : Report α) : Report α :=
  ⟨r.value, r.errors.map (·.unspanned)⟩

namespace Report

variable {α β : Type}

@[simp] theorem errors_map (f : α → β) (r : Report α) : (f <$> r).errors = r.errors :=
  List.append_nil r.errors

@[simp] theorem unspanned_pure (a : α) : (pure a : Report α).unspanned = pure a := rfl

@[simp] theorem unspanned_bind (r : Report α) (f : α → Report β) :
    (r >>= f).unspanned = r.unspanned >>= fun a => (f a).unspanned :=
  ext rfl List.map_append

@[simp] theorem unspanned_map (f : α → β) (r : Report α) :
    (f <$> r).unspanned = f <$> r.unspanned :=
  ext rfl List.map_append

@[simp] theorem unspanned_error (e : SemanticError) :
    (error e).unspanned = error e.unspanned := rfl

@[simp] theorem unspanned_errorIf (wrong : Bool) (e : SemanticError) :
    (errorIf wrong e).unspanned = errorIf wrong e.unspanned := by
  cases wrong <;> rfl

end Report

/-! ## Type expressions -/

@[simp] theorem Ident.text_unspanned (name : Ident) : name.unspanned.text = name.text := rfl

@[simp] theorem DottedName.span_unspanned (name : DottedName) : name.unspanned.span = default := rfl

@[simp] theorem DottedName.text_unspanned (name : DottedName) : name.unspanned.text = name.text := by
  simp [DottedName.text, DottedName.unspanned, Function.comp_def]

namespace TypeExpr

mutual

theorem names_unspanned : ∀ ty : TypeExpr, ty.unspanned.names = ty.names
  | .named name => by rw [unspanned, names, names, name.text_unspanned]
  | .ref _ inner => names_unspanned inner
  | .array _ elem _ => names_unspanned elem
  | .func _ sig => namesSignature_unspanned sig

theorem namesSignature_unspanned : ∀ sig : Signature TypeExpr,
    namesSignature (Signature.unspanned sig) = namesSignature sig
  | ⟨ret, params, rest⟩ => by
    rw [Signature.unspanned, namesSignature, namesSignature, names_unspanned ret,
      namesEach_unspanned params, namesRest_unspanned rest]

theorem namesEach_unspanned : ∀ tys : List TypeExpr, namesEach (unspannedEach tys) = namesEach tys
  | [] => rfl
  | ty :: tys => by
    rw [unspannedEach, namesEach, namesEach, names_unspanned ty, namesEach_unspanned tys]

theorem namesRest_unspanned : ∀ rest : Rest TypeExpr,
    namesRest (Rest.unspanned rest) = namesRest rest
  | .none => rfl
  | .untyped => rfl
  | .typed elem => names_unspanned elem

end

section Annotating

variable {look look' : DottedName → Except AliasError Ty}

theorem mapError_map {ε ε' α β : Type} (f : ε → ε') (g : α → β) (run : Except ε α) :
    (run.map g).mapError f = (run.mapError f).map g := by
  cases run <;> rfl

mutual

theorem annotateWith_unspanned (h : ∀ n, look' n.unspanned = (look n).mapError (·.unspanned)) :
    ∀ ty : TypeExpr, annotateWith look' ty.unspanned =
      ((annotateWith look ty).1.unspanned, (annotateWith look ty).2.mapError (·.unspanned))
  | .named name => by
    rw [unspanned, annotateWith, annotateWith, h]
    cases look name <;> rfl
  | .ref _ inner => by
    rw [unspanned, annotateWith, annotateWith, annotateWith_unspanned h inner, mapError_map,
      unspanned]
  | .array _ elem _ => by
    rw [unspanned, annotateWith, annotateWith, annotateWith_unspanned h elem, mapError_map,
      unspanned]
  | .func _ sig => by
    rw [unspanned, annotateWith, annotateWith, annotateSignature_unspanned h sig, mapError_map,
      unspanned]

theorem annotateSignature_unspanned (h : ∀ n, look' n.unspanned = (look n).mapError (·.unspanned)) :
    ∀ sig : Signature TypeExpr, annotateSignature look' (Signature.unspanned sig) =
      (Signature.unspanned (annotateSignature look sig).1,
        (annotateSignature look sig).2.mapError (·.unspanned))
  | ⟨ret, params, rest⟩ => by
    rw [Signature.unspanned, annotateSignature, annotateSignature, annotateWith_unspanned h ret,
      annotateEach_unspanned h params, annotateRest_unspanned h rest]
    rcases annotateWith look ret with ⟨ret, _ | retTy⟩
    · rfl
    · rcases annotateEach look params with ⟨params, _ | paramTys⟩
      · rfl
      · rcases annotateRest look rest with ⟨rest, _ | restTy⟩ <;> rfl

theorem annotateEach_unspanned (h : ∀ n, look' n.unspanned = (look n).mapError (·.unspanned)) :
    ∀ tys : List TypeExpr, annotateEach look' (unspannedEach tys) =
      (unspannedEach (annotateEach look tys).1, (annotateEach look tys).2.mapError (·.unspanned))
  | [] => rfl
  | ty :: tys => by
    rw [unspannedEach, annotateEach, annotateEach, annotateWith_unspanned h ty,
      annotateEach_unspanned h tys]
    rcases annotateWith look ty with ⟨ty, _ | found⟩
    · rfl
    · exact congrArg (Prod.mk _) (mapError_map ..).symm

theorem annotateRest_unspanned (h : ∀ n, look' n.unspanned = (look n).mapError (·.unspanned)) :
    ∀ rest : Rest TypeExpr, annotateRest look' (Rest.unspanned rest) =
      (Rest.unspanned (annotateRest look rest).1,
        (annotateRest look rest).2.mapError (·.unspanned))
  | .none => rfl
  | .untyped => rfl
  | .typed elem => by
    rw [Rest.unspanned, annotateRest, annotateRest, annotateWith_unspanned h elem, mapError_map,
      Rest.unspanned]

end

end Annotating

end TypeExpr

/-! ## Aliases -/

/-- The target without spans. -/
def AliasTarget.unspanned : AliasTarget → AliasTarget
  | .name text _ => .name text default
  | .composite expr => .composite expr.unspanned
  | .terminal ty => .terminal ty

/-- The alias without spans. -/
def AliasEntry.unspanned (e : AliasEntry) : AliasEntry := ⟨e.target.unspanned, e.kind, default⟩

/-- The aliases without spans. -/
def AliasTable.unspanned (t : AliasTable) : AliasTable :=
  ⟨t.entries.map fun (name, e) => (name, e.unspanned)⟩

theorem lookup_map_snd {α β : Type} (f : α → β) (name : String) (entries : List (String × α)) :
    (entries.map fun (n, a) => (n, f a)).lookup name = (entries.lookup name).map f := by
  induction entries with
  | nil => rfl
  | cons entry entries ih =>
    rw [List.map_cons, List.lookup_cons, List.lookup_cons, ih]
    cases name == entry.1 <;> rfl

theorem AliasTarget.names_unspanned (t : AliasTarget) : t.unspanned.names = t.names := by
  cases t with
  | composite expr => exact expr.names_unspanned
  | _ => rfl

namespace AliasTable

variable (t : AliasTable)

@[simp] theorem size_unspanned : t.unspanned.size = t.size := List.length_map ..

theorem lookup?_unspanned (name : String) :
    t.unspanned.lookup? name = (t.lookup? name).map (·.unspanned) :=
  lookup_map_snd ..

@[simp] theorem kind?_unspanned (name : String) : t.unspanned.kind? name = t.kind? name := by
  unfold kind?
  rw [lookup?_unspanned, Option.map_map]
  rfl

@[simp] theorem contains_unspanned (name : String) :
    t.unspanned.contains name = t.contains name := by
  rw [contains, contains, kind?_unspanned]

theorem mentions_unspanned (name : String) : t.unspanned.mentions name = t.mentions name := by
  unfold mentions
  rw [lookup?_unspanned, Option.map_map]
  cases t.lookup? name with
  | none => rfl
  | some e => exact e.target.names_unspanned

theorem wayBack?_unspanned (start : String) (depth : Nat) (chain : List String) (current : String) :
    t.unspanned.wayBack? start depth chain current = t.wayBack? start depth chain current := by
  induction depth generalizing chain current with
  | zero => rfl
  | succ depth ih => simp only [wayBack?, mentions_unspanned, ih]

theorem extend_unspanned (name : String) (target : AliasTarget) (kind : AliasKind) (span : Span) :
    (t.extend name target kind span).unspanned =
      t.unspanned.extend name target.unspanned kind default := rfl

theorem define_unspanned (name : String) (target : AliasTarget) (kind : AliasKind) (span : Span) :
    t.unspanned.define name target.unspanned kind default =
      ((t.define name target kind span).mapError (·.unspanned)).map (·.unspanned) := by
  unfold define update
  rw [contains_unspanned, ← extend_unspanned t name target kind span]
  cases t.contains name with
  | true => rfl
  | false =>
    dsimp only [Bool.false_eq_true, if_false]
    rw [size_unspanned, wayBack?_unspanned]
    cases (t.extend name target kind span).wayBack? name _ [name] name <;> rfl

theorem follow_unspanned (depth : Nat) (visiting : List String) (name : String) (span : Span) :
    t.unspanned.follow depth visiting name default =
      (t.follow depth visiting name span).mapError (·.unspanned) := by
  induction depth generalizing visiting name span with
  | zero => rfl
  | succ depth ih =>
    rw [follow, follow, lookup?_unspanned]
    cases Builtin.find? name with
    | some p => rfl
    | none =>
      cases t.lookup? name with
      | none => rfl
      | some entry =>
        obtain ⟨target, kind, span'⟩ := entry
        dsimp only [Option.map_some, AliasEntry.unspanned]
        split
        · rfl
        · cases target with
          | terminal ty => rfl
          | name next span => exact ih _ next span
          | composite expr =>
            refine congrArg Prod.snd (TypeExpr.annotateWith_unspanned (fun n => ?_) expr)
            rw [kind?_unspanned, n.text_unspanned]
            split
            · rfl
            · exact ih _ n.text n.span

theorem resolve_unspanned (name : String) (span : Span) :
    t.unspanned.resolve name default = (t.resolve name span).mapError (·.unspanned) := by
  rw [resolve, resolve, size_unspanned, follow_unspanned]

theorem annotate_unspanned (ty : TypeExpr) :
    t.unspanned.annotate ty.unspanned =
      ((t.annotate ty).1.unspanned, (t.annotate ty).2.mapError (·.unspanned)) := by
  refine TypeExpr.annotateWith_unspanned (fun n => ?_) ty
  rw [resolveType, resolveType, kind?_unspanned, n.text_unspanned]
  split
  · rfl
  · exact t.resolve_unspanned n.text n.span

end AliasTable

/-! ## Environments -/

theorem Expr.unspannedEach_eq_map (es : List Expr) :
    Expr.unspannedEach es = es.map (·.unspanned) := by
  induction es with
  | nil => rfl
  | cons e es ih => rw [Expr.unspannedEach, ih, List.map_cons]

@[simp] theorem Expr.length_unspannedEach (es : List Expr) :
    (Expr.unspannedEach es).length = es.length := by
  rw [Expr.unspannedEach_eq_map, List.length_map]

/-- The declaration without spans. -/
def DeclInfo.unspanned (info : DeclInfo) : DeclInfo :=
  { info with span := default, defaults := info.defaults.map (Option.map (·.unspanned)) }

/-- The declarations without spans. -/
def DeclTable.unspanned (t : DeclTable) : DeclTable := t.map (·.unspanned)

/-- The function without spans. -/
def Function.unspanned (item : Function) : Function :=
  { item with
    span := default
    ret := item.ret.unspanned
    name := item.name.unspanned
    params := item.params.map (·.unspanned)
    rest := Rest.unspanned item.rest
    body := item.body.map Stmt.unspannedEach }

/-- What is known about a unit, without spans. -/
def SemanticContext.unspanned (c : SemanticContext) : SemanticContext :=
  ⟨c.decls.unspanned, c.aliases.unspanned, c.bridge⟩

/-- What is visible, without spans. -/
def Env.unspanned (env : Env) : Env := { env with context := env.context.unspanned }

namespace Env

variable (env : Env)

theorem decl?_unspanned (id : DeclId) :
    env.unspanned.context.decls[id]? = (env.context.decls[id]?).map (·.unspanned) :=
  List.getElem?_map ..

theorem update_unspanned (id : DeclId) {f f' : DeclInfo → DeclInfo}
    (h : ∀ info, f' info.unspanned = (f info).unspanned) :
    env.unspanned.update id f' = (env.update id f).unspanned := by
  have hdecls : env.context.decls.unspanned.modify id f' =
      DeclTable.unspanned (env.context.decls.modify id f) := by
    refine List.ext_getElem? fun i => ?_
    simp only [DeclTable.unspanned, List.getElem?_modify, List.getElem?_map, Option.map_eq_map, Option.map_map]
    refine congrArg (Option.map · _) (funext fun info => ?_)
    simp only [Function.comp_apply]
    split
    · exact h info
    · rfl
  simp only [update, unspanned, SemanticContext.unspanned, hdecls]

theorem setDefault_unspanned (decl : Option DeclId) (index : Nat) (e : Option Expr) :
    env.unspanned.setDefault decl index (e.map (·.unspanned)) =
      (env.setDefault decl index e).unspanned := by
  cases e with
  | none => rfl
  | some e =>
    cases decl with
    | none => rfl
    | some id =>
      refine env.update_unspanned id fun info => ?_
      simp only [DeclInfo.unspanned, List.map_set, Option.map_some]

theorem inScopes?_unspanned (name : String) (scopes : List Scope) :
    env.unspanned.inScopes? name scopes = env.inScopes? name scopes := by
  induction scopes with
  | nil => rfl
  | cons scope outer ih =>
    rw [inScopes?, inScopes?, ih]
    cases scope.lookup name with
    | none => rfl
    | some id =>
      dsimp only
      rw [decl?_unspanned]
      cases env.context.decls[id]? <;> rfl

theorem asAlias?_unspanned (name : String) (span : Span) :
    env.unspanned.asAlias? name default =
      (env.asAlias? name span).map fun (found, errors) => (found, errors.map (·.unspanned)) := by
  unfold asAlias? unspanned SemanticContext.unspanned
  dsimp only
  rw [AliasTable.kind?_unspanned, AliasTable.resolve_unspanned _ _ span, Option.map_map]
  congr 1
  funext kind
  cases kind <;> cases env.context.aliases.resolve name span <;> rfl

theorem lookupName_unspanned (name : String) (span : Span) :
    env.unspanned.lookupName name default =
      ((env.lookupName name span).1, (env.lookupName name span).2.map (·.unspanned)) := by
  unfold lookupName
  rw [inScopes?_unspanned, asAlias?_unspanned env name span]
  have hscopes : env.unspanned.scopes = env.scopes := rfl
  have hvargs : env.unspanned.asVarArgs? name = env.asVarArgs? name := rfl
  rw [hscopes, hvargs]
  cases (env.inScopes? name env.scopes).or (env.asVarArgs? name) with
  | some found => rfl
  | none => cases env.asAlias? name span <;> rfl

theorem lookup_unspanned (name : DottedName) :
    env.unspanned.lookup name.unspanned =
      ((env.lookup name).1, (env.lookup name).2.map (·.unspanned)) := by
  have hparts : name.unspanned.parts.map (·.text) = name.parts.map (·.text) := by
    simp [DottedName.unspanned, Function.comp_def]
  unfold lookup
  rw [hparts]
  split
  · exact env.lookupName_unspanned _ name.span
  · rfl
  · rfl

theorem find_unspanned (name : DottedName) :
    env.unspanned.find name.unspanned = (env.find name).unspanned := by
  unfold find
  rw [lookup_unspanned]
  rcases env.lookup name with ⟨_ | found, errors⟩
  · simp [Report.unspanned, Function.comp_def, SemanticError.unspanned]
  · simp [Report.unspanned, Function.comp_def, SemanticError.unspanned]

/-! ## Expressions -/

theorem ident_unspanned (name : DottedName) :
    env.unspanned.ident name.unspanned = (·.unspanned) <$> (env.ident name).unspanned := by
  unfold ident
  simp only [find_unspanned, Report.unspanned_bind, map_bind]
  refine bind_congr fun found => ?_
  cases found with
  | none => rfl
  | some found =>
    obtain ⟨binding, ty⟩ := found
    simp only [DottedName.text_unspanned, DottedName.span_unspanned]
    cases binding <;> rfl

theorem target_unspanned (name : String) (count : Nat) (span : Span) (found : Resolution) :
    target name count default found = (target name count span found).unspanned := by
  obtain ⟨binding, ty⟩ := found
  unfold target
  cases binding with
  | function decl => cases ty <;> rfl
  | macroFunction arity variadic => simp [SemanticError.unspanned]
  | type => simp [SemanticError.unspanned]
  | _ => rfl

theorem callee_unspanned (name : DottedName) (count : Nat) (span : Span) :
    env.unspanned.callee name.unspanned count default =
      (fun (name, target) => (name.unspanned, target)) <$>
        (env.callee name count span).unspanned := by
  unfold callee
  simp only [find_unspanned, Report.unspanned_bind, map_bind]
  refine bind_congr fun found => ?_
  cases found with
  | none => rfl
  | some found =>
    simp only [DottedName.text_unspanned, DottedName.span_unspanned,
      target_unspanned name.text count span, Report.unspanned_bind, Report.unspanned_errorIf,
      Report.unspanned_pure, map_bind, map_pure]
    rfl

mutual

theorem expr_unspanned : ∀ e : Expr,
    env.unspanned.expr e.unspanned = (·.unspanned) <$> (env.expr e).unspanned
  | .mk _ ops => by
    simp only [Expr.unspanned, expr, chain_unspanned ops, Report.unspanned_bind,
      Report.unspanned_pure, map_bind, map_pure, bind_map_left]

theorem chain_unspanned : ∀ c : Chain,
    env.unspanned.chain c.unspanned = (·.unspanned) <$> (env.chain c).unspanned
  | .operand v => by
    simp only [Chain.unspanned, chain, value_unspanned v, Report.unspanned_bind,
      Report.unspanned_pure, map_bind, map_pure, bind_map_left]
  | .link v op rest => by
    simp only [Chain.unspanned, chain, value_unspanned v, chain_unspanned rest,
      Report.unspanned_bind, Report.unspanned_pure, map_bind, map_pure, bind_map_left]

theorem value_unspanned : ∀ v : Value,
    env.unspanned.value v.unspanned = (·.unspanned) <$> (env.value v).unspanned
  | .ident name => by
    simp only [Value.unspanned, value, ident_unspanned, Report.unspanned_bind,
      Report.unspanned_pure, map_bind, map_pure, bind_map_left]
  | .call span name args _ defaulted => by
    simp only [Value.unspanned, value, exprs_unspanned args, Report.unspanned_bind,
      Report.unspanned_pure, map_bind, map_pure, bind_map_left, Expr.length_unspannedEach,
      callee_unspanned env name _ span]
  | .index _ base position => by
    simp only [Value.unspanned, value, value_unspanned base, expr_unspanned position,
      Report.unspanned_bind, Report.unspanned_pure, map_bind, map_pure, bind_map_left]
  | .ref _ inner | .prefixed _ _ inner | .suffixed _ _ inner => by
    simp only [Value.unspanned, value, value_unspanned inner, Report.unspanned_bind,
      Report.unspanned_pure, map_bind, map_pure, bind_map_left]
  | .paren inner => by
    simp only [Value.unspanned, value, expr_unspanned inner, Report.unspanned_bind,
      Report.unspanned_pure, map_bind, map_pure, bind_map_left]
  | .number _ | .decimal _ | .string _ | .char _ | .bool _ _ | .null _ => rfl

theorem exprs_unspanned : ∀ es : List Expr,
    env.unspanned.exprs (Expr.unspannedEach es) = Expr.unspannedEach <$> (env.exprs es).unspanned
  | [] => rfl
  | e :: es => by
    simp only [Expr.unspannedEach, exprs, expr_unspanned e, exprs_unspanned es,
      Report.unspanned_bind, Report.unspanned_pure, map_bind, map_pure, bind_map_left]

end

theorem expr?_unspanned (e : Option Expr) :
    env.unspanned.expr? (e.map (·.unspanned)) =
      Option.map (·.unspanned) <$> (env.expr? e).unspanned := by
  cases e with
  | none => rfl
  | some e =>
    simp only [Option.map_some, expr?, expr_unspanned, Report.unspanned_bind,
      Report.unspanned_pure, map_bind, map_pure, bind_map_left]

theorem guard_unspanned (g : Guard) :
    env.unspanned.guard g.unspanned = (·.unspanned) <$> (env.guard g).unspanned := by
  cases g with
  | otherwise => rfl
  | _ =>
    simp only [Guard.unspanned, guard, expr_unspanned, Report.unspanned_bind,
      Report.unspanned_pure, map_bind, map_pure, bind_map_left]

/-! ## Types -/

theorem annotate_unspanned (ty : TypeExpr) :
    env.unspanned.annotate ty.unspanned =
      (fun (expr, found) => (expr.unspanned, found)) <$> (env.annotate ty).unspanned := by
  unfold annotate
  have haliases : env.unspanned.context.aliases = env.context.aliases.unspanned := rfl
  rw [haliases, AliasTable.annotate_unspanned]
  rcases env.context.aliases.annotate ty with ⟨expr, _ | found⟩ <;> rfl

theorem annotateEach_unspanned (tys : List TypeExpr) :
    env.unspanned.annotateEach (tys.map (·.unspanned)) =
      List.map (fun (expr, found) => (expr.unspanned, found)) <$>
        (env.annotateEach tys).unspanned := by
  induction tys with
  | nil => rfl
  | cons ty tys ih =>
    simp only [List.map_cons, annotateEach, annotate_unspanned, ih, Report.unspanned_bind,
      Report.unspanned_pure, map_bind, map_pure, bind_map_left]

theorem annotateRest_unspanned (rest : Rest TypeExpr) :
    env.unspanned.annotateRest (Rest.unspanned rest) =
      (fun (expr, found) => (Rest.unspanned expr, found)) <$>
        (env.annotateRest rest).unspanned := by
  cases rest with
  | typed elem =>
    simp only [Rest.unspanned, annotateRest, annotate_unspanned, Report.unspanned_bind,
      Report.unspanned_pure, map_bind, map_pure, bind_map_left]
  | _ => rfl

theorem head_unspanned (item : Function) :
    env.unspanned.head item.unspanned =
      (fun (item, sig) => (item.unspanned, sig)) <$> (env.head item).unspanned := by
  have htys : item.unspanned.params.map (·.ty) = (item.params.map (·.ty)).map (·.unspanned) := by
    simp [Function.unspanned, Function.comp_def, Param.unspanned]
  have hparams : ∀ tys : List (TypeExpr × Ty),
      item.unspanned.params.zipWith (fun p x => { p with ty := x.1 })
          (tys.map fun x => (x.1.unspanned, x.2)) =
        (item.params.zipWith (fun p x => { p with ty := x.1 }) tys).map (·.unspanned) := by
    intro tys
    simp only [Function.unspanned, List.zipWith_map, List.map_zipWith]
    rfl
  have hret : item.unspanned.ret = item.ret.unspanned := rfl
  have hrest : item.unspanned.rest = Rest.unspanned item.rest := rfl
  unfold head
  rw [htys, hret, hrest]
  simp only [annotate_unspanned, annotateEach_unspanned, annotateRest_unspanned,
    Report.unspanned_bind, Report.unspanned_pure, map_bind, map_pure, bind_map_left, hparams]
  simp only [List.map_map]
  rfl

end Env

end KilnLang
