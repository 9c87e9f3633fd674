import KilnLang.Proofs.Semantic.DefaultSlots
import KilnLang.Proofs.Semantic.Operands

/-!
# Resolved units have no empty slot

**Theorem (`resolved_units_have_no_empty_slot`).** If resolution finds no error, it has filled every
slot of the unit: every name of a type has its type, every name that is used or called is bound,
every call has a target of the kind that its callee is bound to, and every function and variable has
a declaration. The declarations that slots refer to are in the table, with the name, the kind and
the type that the slot says.

What a name is bound to is known from lexical scoping (`SourceUnit.resolve_bound`). What is left
does not depend on what is visible: an operand is decided where it is resolved (`Value.Decided`),
and a variable is in the table from its declaration on, which only grows. Both are proved for a statement
and carried to the unit. The defaults in the table are those of parameters
(`SourceUnit.default_of_slot`).
-/

namespace KilnLang

/-! ## Filled slots -/

/-- The declaration that a name is bound to. -/
def Binding.decl? : Binding → Option DeclId
  | .local decl | .parameter decl | .global decl | .function decl => some decl
  | _ => none

/-- Whether a name that is bound so can be used as a value. -/
def Binding.isValue : Binding → Bool
  | .type | .macroFunction _ _ => false
  | _ => true

/-- Whether the name is bound to the further arguments of a function or to their number. -/
def Binding.isFurther : Binding → Bool
  | .varArgs | .varArgsLength => true
  | _ => false

/-- Whether the name is bound to a variable. -/
def Binding.isVariable : Binding → Bool
  | .local _ | .parameter _ | .global _ | .cVariable => true
  | _ => false

/-- The name is bound to `r`. A declaration that it is bound to is in the table, with the same name,
kind and type; `typed` says whether it may be bound to further arguments. -/
structure DottedName.Holds (decls : DeclTable) (typed : Prop) (name : DottedName)
    (r : Resolution) : Prop where
  slot : name.resolved = some r
  declared : ∀ id, r.binding.decl? = some id → ∃ info, decls[id]? = some info ∧
    info.name = name.text ∧ info.binding id = r.binding ∧ info.ty = r.ty
  further : r.binding.isFurther → typed

/-- The target of a call is of the kind that its callee is bound to, and has its type. -/
inductive CallTarget.Fits : Resolution → CallTarget → Prop
  | function {decl : DeclId} {sig : Signature Ty} :
      Fits ⟨.function decl, .func sig⟩ (.function decl sig)
  | functionValue {r : Resolution} {sig : Signature Ty} (kind : r.binding.isVariable)
      (ty : r.ty.signature? = some sig) : Fits r (.functionValue sig)
  | cFunction {r : Resolution} {sig : Signature Ty} (kind : r.binding = .cFunction)
      (ty : r.ty.signature? = some sig) : Fits r (.cFunction sig)
  | macroCall {arity : Nat} {variadic : Bool} {result : Ty} :
      Fits ⟨.macroFunction arity variadic, result⟩ (.macroCall arity variadic result)
  | cast {ty : Ty} : Fits ⟨.type, ty⟩ (.cast ty)

/-- The slots of an operand are filled, not counting those of operands in it. -/
def Value.Filled (decls : DeclTable) (typed : Prop) : Value → Prop
  | .ident name => ∃ r, name.Holds decls typed r ∧ r.binding.isValue
  | .call _ callee _ target _ => ∃ r t, callee.Holds decls typed r ∧ target = some t ∧ t.Fits r
  | _ => True

/-- All slots of an expression are filled. `typed` says that it stands in the body of a function
which takes further arguments of one type. -/
def Expr.Filled (decls : DeclTable) (typed : Prop) (e : Expr) : Prop :=
  ∀ o ∈ e.operands [], o.value.Filled decls typed

/-- All names of a type have the type that they stand for. -/
def TypeExpr.Filled (aliases : AliasTable) (t : TypeExpr) : Prop :=
  ∀ n ∈ t.typeNames, ∃ ty, n.resolved = some ⟨.type, ty⟩ ∧
    aliases.resolveType n.text n.span = .ok ty

/-- The slots of a variable are filled, not counting those of its initial value. -/
structure VarDecl.Filled (context : SemanticContext) (kind : DeclKind) (var : VarDecl) : Prop where
  type : var.ty.Filled context.aliases
  declared : ∃ id info, var.decl = some id ∧ context.decls[id]? = some info ∧
    info.name = var.name.text ∧ info.kind = kind ∧
    (context.aliases.annotate var.ty).2 = .ok info.ty

/-- The types in the head of a function are filled. -/
structure Function.HeadFilled (aliases : AliasTable) (f : Function) : Prop where
  ret : f.ret.Filled aliases
  params : ∀ p ∈ f.params, p.ty.Filled aliases
  rest : ∀ t ∈ f.rest.elem?, t.Filled aliases

/-- All slots of a function are filled. Only the body sees further arguments. -/
structure Function.Filled (context : SemanticContext) (f : Function) : Prop where
  head : f.HeadFilled context.aliases
  declared : ∃ id sig info, f.decl = some id ∧ f.sig = some sig ∧
    context.decls[id]? = some info ∧ info.name = f.name.text ∧ info.kind = .function ∧
    info.ty = .func sig
  defaults : ∀ e ∈ f.defaults, e.Filled context.decls False
  vars : ∀ v ∈ f.vars, v.Filled context .local
  exprs : ∀ e ∈ f.exprs, e.Filled context.decls (f.rest.elem?.isSome)

/-- All slots of a part are filled. -/
def Node.Filled (context : SemanticContext) : Node → Prop
  | .header _ => True
  | .alias item => item.target.Filled context.aliases
  | .function f => f.Filled context
  | .global g => g.Filled context .global ∧ ∀ e ∈ g.init.toList, e.Filled context.decls False

/-! ## Names -/

theorem DottedName.text_single {name : DottedName} {part : Ident} (h : name.parts = [part]) :
    name.text = part.text := by
  rw [DottedName.text, h]
  rfl

theorem DeclInfo.decl?_binding (info : DeclInfo) (id : DeclId) :
    (info.binding id).decl? = some id := by
  unfold DeclInfo.binding
  cases info.kind <;> rfl

theorem DeclInfo.isFurther_binding (info : DeclInfo) (id : DeclId) :
    (info.binding id).isFurther = false := by
  unfold DeclInfo.binding
  cases info.kind <;> rfl

/-- What lexical scoping says of a name fills its slot. -/
theorem DottedName.Bound.holds {context : SemanticContext} {visible : List Node}
    {scopes : List Frame} {vargs : Option Ty} {name : DottedName}
    (h : name.Bound context visible scopes vargs) :
    ∃ r, name.Holds context.decls vargs.isSome r := by
  -- A single name is bound by a scope or by the unit; a dotted one is the number of arguments.
  obtain ⟨r, hr, ⟨part, hpart, hbound⟩ | ⟨-, hvargs, rfl⟩⟩ := h
  · refine ⟨r, hr, fun id hid => ?_, fun hfurther => ?_⟩
    · rw [DottedName.text_single hpart]
      cases hbound with
      | @inner d id' info hinner _ hentry hmatch =>
        rw [DeclInfo.decl?_binding, Option.some.injEq] at hid
        subst hid
        exact ⟨info, hentry, hmatch.name.trans (Frame.innermost?_mem hinner).1, rfl, rfl⟩
      | @unit id' info _ hsome hdecl hentry =>
        rw [DeclInfo.decl?_binding, Option.some.injEq] at hid
        subst hid
        obtain ⟨n, hn, hdeclares⟩ := hsome
        have hname := (hdecl n hn hdeclares).2.declares
        exact ⟨info, hentry, Node.declares_inj hname hdeclares, rfl, rfl⟩
      | outside _ _ hout =>
        cases hout with
        | @symbol s => cases s <;> cases hid
        | _ => cases hid
    · cases hbound with
      | inner => simp [DeclInfo.isFurther_binding] at hfurther
      | unit => simp [DeclInfo.isFurther_binding] at hfurther
      | outside _ _ hout =>
        cases hout with
        | furtherArgs _ htyped => simp [htyped]
        | @symbol s => cases s <;> cases hfurther
        | _ => cases hfurther
  · exact ⟨_, hr, by simp [Binding.decl?], fun _ => hvargs⟩

/-! ## Operands -/

/-- What is decided of an operand where it is resolved. -/
def Value.Decided : Value → Prop
  | .ident name => ∃ r, name.resolved = some r ∧ r.binding.isValue
  | .call _ callee args target _ => ∃ r t, callee.resolved = some r ∧ target = some t ∧ t.Fits r ∧
    ∀ ty, t = .cast ty → args.length = 1
  | _ => True

/-- All operands of the expression are decided. -/
def Expr.Decided (e : Expr) : Prop := ∀ o ∈ e.operands [], o.value.Decided

theorem Expr.Decided.filled {context : SemanticContext} {visible : List Node}
    {scopes : List Frame} {vargs : Option Ty} {e : Expr} (h : e.Decided)
    (hbound : e.Every (·.Bound context visible scopes vargs)) :
    e.Filled context.decls vargs.isSome := by
  intro o ho
  have hdecided := h o ho
  have hname := Expr.name_mem_names o ho
  obtain ⟨inside, v⟩ := o
  cases v with
  | ident name =>
    obtain ⟨r, hr, hvalue⟩ := hdecided
    obtain ⟨r', hholds⟩ := (hbound name (hname name rfl)).holds
    obtain rfl : r = r' := Option.some.inj (hr.symm.trans hholds.slot)
    exact ⟨r, hholds, hvalue⟩
  | call span callee args target defaulted =>
    obtain ⟨r, t, hr, htarget, hfits, -⟩ := hdecided
    obtain ⟨r', hholds⟩ := (hbound callee (hname callee rfl)).holds
    obtain rfl : r = r' := Option.some.inj (hr.symm.trans hholds.slot)
    exact ⟨r, t, hholds, htarget, hfits⟩
  | _ => trivial

theorem Report.errorIf_eq_pure {wrong : Bool} {e : SemanticError} {u : Unit} :
    Report.errorIf wrong e = pure u ↔ wrong = false := by
  cases wrong
  · exact ⟨fun _ => rfl, fun _ => rfl⟩
  · exact ⟨fun h => absurd (congrArg Report.errors h) (List.cons_ne_nil _ _), by simp⟩

namespace Env

variable {env : Env}

theorem decided_ident {name name' : DottedName} (h : env.ident name = pure name') :
    ∃ r, name'.resolved = some r ∧ r.binding.isValue := by
  simp only [ident, Report.bind_eq_pure] at h
  obtain ⟨found, hfound, h⟩ := h
  obtain ⟨⟨binding, ty⟩, rfl, -⟩ := find_eq_pure hfound
  cases binding with
  | type | macroFunction =>
    simp only [Report.bind_eq_pure, Report.error_ne_pure, false_and, exists_false] at h
  | _ =>
    rw [← Report.pure_inj.mp h]
    exact ⟨_, rfl, rfl⟩

theorem fits_target {name : String} {count : Nat} {span : Span} {r : Resolution} {t : CallTarget}
    (h : target name count span r = pure (some t)) :
    t.Fits r ∧ ∀ ty, t = .cast ty → count = 1 := by
  obtain ⟨binding, ty⟩ := r
  cases binding with
  | function decl =>
    cases ty with
    | func sig =>
      obtain rfl := Option.some.inj (Report.pure_inj.mp h)
      exact ⟨.function, by simp⟩
    | _ => cases Report.pure_inj.mp h
  | macroFunction arity variadic =>
    simp only [target, Report.bind_eq_pure, Report.pure_inj, Option.some.injEq] at h
    obtain ⟨-, -, rfl⟩ := h
    exact ⟨.macroCall, by simp⟩
  | type =>
    simp only [target, Report.bind_eq_pure, Report.pure_inj, Option.some.injEq,
      Report.errorIf_eq_pure] at h
    obtain ⟨-, hcount, rfl⟩ := h
    exact ⟨.cast, fun _ _ => by simpa using hcount⟩
  | cFunction =>
    obtain ⟨sig, hsig, rfl⟩ := Option.map_eq_some_iff.mp (Report.pure_inj.mp h)
    exact ⟨.cFunction rfl hsig, by simp⟩
  | «local» | parameter | global | cVariable =>
    obtain ⟨sig, hsig, rfl⟩ := Option.map_eq_some_iff.mp (Report.pure_inj.mp h)
    exact ⟨.functionValue rfl hsig, by simp⟩
  | _ => cases Report.pure_inj.mp h

theorem decided_callee {name name' : DottedName} {count : Nat} {span : Span}
    {found : Option CallTarget} (h : env.callee name count span = pure (name', found)) :
    ∃ r t, name'.resolved = some r ∧ found = some t ∧ t.Fits r ∧
      ∀ ty, t = .cast ty → count = 1 := by
  simp only [callee, Report.bind_eq_pure] at h
  obtain ⟨found, hfound, h⟩ := h
  obtain ⟨r, rfl, -⟩ := find_eq_pure hfound
  simp only [Report.bind_eq_pure, Report.pure_inj, Prod.mk.injEq, Report.errorIf_eq_pure] at h
  obtain ⟨target, htarget, -, hsome, rfl, rfl⟩ := h
  cases target with
  | none => cases hsome
  | some t => exact ⟨r, t, rfl, rfl, fits_target htarget⟩

mutual

theorem decided_expr : ∀ {e e' : Expr}, env.expr e = pure e' → ∀ {inside : List DeclId},
    ∀ o ∈ e'.operands inside, o.value.Decided
  | .mk span ops, e', h, inside => by
    simp only [expr, Report.bind_eq_pure, Report.pure_inj] at h
    obtain ⟨ops', hops, rfl⟩ := h
    simp only [Expr.operands]
    exact decided_chain hops
termination_by structural e => e

theorem decided_chain : ∀ {c c' : Chain}, env.chain c = pure c' → ∀ {inside : List DeclId},
    ∀ o ∈ c'.operands inside, o.value.Decided
  | .operand v, c', h, inside => by
    simp only [chain, Report.bind_eq_pure, Report.pure_inj] at h
    obtain ⟨v', hv, rfl⟩ := h
    simp only [Chain.operands]
    exact decided_value hv
  | .link v op rest, c', h, inside => by
    simp only [chain, Report.bind_eq_pure, Report.pure_inj] at h
    obtain ⟨v', hv, rest', hrest, rfl⟩ := h
    simp only [Chain.operands]
    exact List.forall_mem_append.mpr ⟨decided_value hv, decided_chain hrest⟩
termination_by structural c => c

theorem decided_value : ∀ {v v' : Value}, env.value v = pure v' → ∀ {inside : List DeclId},
    ∀ o ∈ v'.operands inside, o.value.Decided
  | .ident name, v', h, inside => by
    simp only [value, Report.bind_eq_pure, Report.pure_inj] at h
    obtain ⟨name', hname, rfl⟩ := h
    simp only [Value.operands]
    exact List.forall_mem_singleton.mpr (decided_ident hname)
  | .call span name args target defaulted, v', h, inside => by
    simp only [value, Report.bind_eq_pure, Report.pure_inj, Prod.exists] at h
    obtain ⟨args', hargs, name', target', hcallee, rfl⟩ := h
    simp only [Value.operands]
    exact List.forall_mem_cons.mpr ⟨decided_callee hcallee, decided_exprs hargs⟩
  | .index span base position, v', h, inside => by
    simp only [value, Report.bind_eq_pure, Report.pure_inj] at h
    obtain ⟨base', hbase, position', hposition, rfl⟩ := h
    simp only [Value.operands]
    exact List.forall_mem_cons.mpr ⟨trivial,
      List.forall_mem_append.mpr ⟨decided_value hbase, decided_expr hposition⟩⟩
  | .ref span inner, v', h, inside | .prefixed span op inner, v', h, inside
  | .suffixed span op inner, v', h, inside => by
    simp only [value, Report.bind_eq_pure, Report.pure_inj] at h
    obtain ⟨inner', hinner, rfl⟩ := h
    simp only [Value.operands]
    exact List.forall_mem_cons.mpr ⟨trivial, decided_value hinner⟩
  | .paren inner, v', h, inside => by
    simp only [value, Report.bind_eq_pure, Report.pure_inj] at h
    obtain ⟨inner', hinner, rfl⟩ := h
    simp only [Value.operands]
    exact List.forall_mem_cons.mpr ⟨trivial, decided_expr hinner⟩
  | .number _, v', h, _ | .decimal _, v', h, _ | .string _, v', h, _
  | .char _, v', h, _ | .bool _ _, v', h, _ | .null _, v', h, _ => by
    rw [← Report.pure_inj.mp h]
    simp [Value.operands, Value.Decided]
termination_by structural v => v

theorem decided_exprs : ∀ {es es' : List Expr}, env.exprs es = pure es' →
    ∀ {inside copied : List DeclId} {written : Nat},
      ∀ o ∈ Value.operandsEach inside copied written es', o.value.Decided
  | [], es', h, _, _, _ => by
    rw [← Report.pure_inj.mp h]
    simp [Value.operandsEach]
  | e :: es, es', h, _, _, _ => by
    simp only [exprs, Report.bind_eq_pure, Report.pure_inj] at h
    obtain ⟨e', he, es', hes, rfl⟩ := h
    simp only [Value.operandsEach]
    exact List.forall_mem_append.mpr ⟨decided_expr he, decided_exprs hes⟩
termination_by structural es => es

end

theorem decided_expr? {e e' : Option Expr} (h : env.expr? e = pure e') :
    ∀ x ∈ e'.toList, x.Decided := by
  cases e with
  | none => simp [← Report.pure_inj.mp h]
  | some e =>
    simp only [expr?, Report.bind_eq_pure, Report.pure_inj] at h
    obtain ⟨e', he, rfl⟩ := h
    exact List.forall_mem_singleton.mpr (decided_expr he)

end Env

/-! ## Types -/

namespace TypeExpr

variable {look : DottedName → Except AliasError Ty}

mutual

/-- An annotated type has the type of each of its names. -/
theorem named_annotateWith (hlook : IgnoresSlots look) :
    ∀ {t t' : TypeExpr} {ty : Ty}, t.annotateWith look = (t', .ok ty) →
      ∀ n ∈ t'.typeNames, ∃ ty, n.resolved = some ⟨.type, ty⟩ ∧ look n = .ok ty
  | .named name, t', ty, h => by
    rw [annotateWith] at h
    cases hn : look name with
    | error e => simp [hn] at h
    | ok found =>
      rw [hn] at h
      cases h
      simp only [typeNames]
      exact List.forall_mem_singleton.mpr ⟨ty, rfl, (hlook name _).trans hn⟩
  | .ref span inner, t', ty, h => by
    rw [annotateWith] at h
    rcases hinner : inner.annotateWith look with ⟨inner', _ | innerTy⟩
    · simp [hinner, Except.map] at h
    · simp only [hinner, Except.map] at h
      cases h
      simp only [typeNames]
      exact named_annotateWith hlook hinner
  | .array span elem length, t', ty, h => by
    rw [annotateWith] at h
    rcases helem : elem.annotateWith look with ⟨elem', _ | elemTy⟩
    · simp [helem, Except.map] at h
    · simp only [helem, Except.map] at h
      cases h
      simp only [typeNames]
      exact named_annotateWith hlook helem
  | .func span sig, t', ty, h => by
    rw [annotateWith] at h
    rcases hsig : annotateSignature look sig with ⟨sig', _ | sigTy⟩
    · simp [hsig, Except.map] at h
    · simp only [hsig, Except.map] at h
      cases h
      simp only [typeNames]
      exact named_annotateSignature hlook hsig
termination_by structural t => t

theorem named_annotateSignature (hlook : IgnoresSlots look) :
    ∀ {sig sig' : Signature TypeExpr} {ty : Signature Ty},
      annotateSignature look sig = (sig', .ok ty) →
      ∀ n ∈ typeNamesOf sig', ∃ ty, n.resolved = some ⟨.type, ty⟩ ∧ look n = .ok ty
  | ⟨ret, params, rest⟩, sig', ty, h => by
    rw [annotateSignature] at h
    rcases hret : annotateWith look ret with ⟨ret', _ | retTy⟩
    · simp [hret] at h
    rcases hparams : annotateEach look params with ⟨params', _ | paramTys⟩
    · simp [hret, hparams] at h
    rcases hrest : annotateRest look rest with ⟨rest', _ | restTy⟩
    · simp [hret, hparams, hrest] at h
    simp only [hret, hparams, hrest] at h
    cases h
    simp only [typeNamesOf]
    refine List.forall_mem_append.mpr ⟨List.forall_mem_append.mpr ⟨?_, ?_⟩, ?_⟩
    · exact named_annotateWith hlook hret
    · exact named_annotateEach hlook hparams
    · exact named_annotateRest hlook hrest
termination_by structural sig => sig

theorem named_annotateEach (hlook : IgnoresSlots look) :
    ∀ {ts ts' : List TypeExpr} {tys : List Ty}, annotateEach look ts = (ts', .ok tys) →
      ∀ n ∈ typeNamesEach ts', ∃ ty, n.resolved = some ⟨.type, ty⟩ ∧ look n = .ok ty
  | [], ts', tys, h => by
    cases h
    simp [typeNamesEach]
  | t :: ts, ts', tys, h => by
    rw [annotateEach] at h
    rcases ht : annotateWith look t with ⟨t', _ | ty⟩
    · simp [ht] at h
    rcases hts : annotateEach look ts with ⟨ts₁, _ | tys₁⟩
    · simp [ht, hts, Except.map] at h
    simp only [ht, hts, Except.map] at h
    cases h
    simp only [typeNamesEach]
    exact List.forall_mem_append.mpr
      ⟨named_annotateWith hlook ht, named_annotateEach hlook hts⟩
termination_by structural ts => ts

theorem named_annotateRest (hlook : IgnoresSlots look) :
    ∀ {rest rest' : Rest TypeExpr} {ty : Rest Ty}, annotateRest look rest = (rest', .ok ty) →
      ∀ n ∈ typeNamesRest rest', ∃ ty, n.resolved = some ⟨.type, ty⟩ ∧ look n = .ok ty
  | .none, rest', ty, h => by
    cases h
    simp [typeNamesRest]
  | .untyped, rest', ty, h => by
    cases h
    simp [typeNamesRest]
  | .typed elem, rest', ty, h => by
    rw [annotateRest] at h
    rcases helem : elem.annotateWith look with ⟨elem', _ | elemTy⟩
    · simp [helem, Except.map] at h
    · simp only [helem, Except.map] at h
      cases h
      simp only [typeNamesRest]
      exact named_annotateWith hlook helem
termination_by structural rest => rest

end

end TypeExpr

theorem AliasTable.filled_of_annotate {t : AliasTable} {expr expr' : TypeExpr} {ty : Ty}
    (h : t.annotate expr = (expr', .ok ty)) : expr'.Filled t :=
  TypeExpr.named_annotateWith (fun _ _ => rfl) h

/-- The head of a function that is annotated has no empty slot. -/
theorem Env.filled_head {env : Env} {f f' : Function} {sig : Signature Ty}
    (h : env.head f = pure (f', sig)) : f'.HeadFilled env.context.aliases := by
  obtain ⟨ret, retTy, params, rest, restTy, hret, hparams, hrest, rfl, rfl⟩ := head_eq_pure.mp h
  rw [annotateEach_eq_pure] at hparams
  refine ⟨AliasTable.filled_of_annotate (annotate_eq_pure.mp hret), fun p hp => ?_, fun t ht => ?_⟩
  · obtain ⟨q, r, -, hr, rfl⟩ : ∃ q r, q ∈ f.params ∧ r ∈ params ∧ { q with ty := r.1 } = p := by
      obtain ⟨i, hi⟩ := List.mem_iff_getElem?.mp hp
      obtain ⟨q, r, hq, hr, hqr⟩ := List.getElem?_zipWith_eq_some.mp hi
      exact ⟨q, r, List.mem_of_getElem? hq, List.mem_of_getElem? hr, hqr⟩
    obtain ⟨t, -, ht⟩ := forall₂_right hparams hr
    exact AliasTable.filled_of_annotate ht
  · cases hcase : f.rest with
    | typed elem =>
      simp only [hcase, annotateRest, Report.bind_eq_pure, Report.pure_inj, Prod.exists,
        Prod.mk.injEq] at hrest
      obtain ⟨elem', ty, helem, rfl, rfl⟩ := hrest
      obtain rfl : elem' = t := Option.some.inj ht
      exact AliasTable.filled_of_annotate (annotate_eq_pure.mp helem)
    | _ =>
      simp only [hcase, annotateRest, Report.pure_inj, Prod.mk.injEq] at hrest
      rw [← hrest.1] at ht
      cases ht

/-! ## Statements -/

theorem VarDecl.Filled.grows {c c' : SemanticContext} {kind : DeclKind} {var : VarDecl}
    (h : var.Filled c kind) (hgrows : c.Grows c') : var.Filled c' kind := by
  obtain ⟨htype, id, info, hid, hinfo, hname, hkind, hty⟩ := h
  obtain ⟨info', hinfo', hname', -, hkind', hty', -⟩ := hgrows.entry hinfo
  refine ⟨hgrows.aliases ▸ htype, id, info', hid, hinfo', hname'.trans hname,
    hkind'.trans hkind, ?_⟩
  rw [hgrows.aliases, hty, hty']

namespace Resolver

mutual

/-- A resolved statement: its expressions are decided, and its variables are in the table. -/
theorem stmt_filled : ∀ {s t : Stmt} {env env' : Env}, Succeeds (stmt s) env t env' →
    (∀ e ∈ t.exprs, e.Decided) ∧ ∀ v ∈ t.vars, v.Filled env'.context .local
  | .expr e, t, env, env', h => by
    obtain ⟨e', he, rfl, rfl⟩ := succeeds_expr.mp h
    exact ⟨List.forall_mem_singleton.mpr (Env.decided_expr he), by simp [Stmt.vars]⟩
  | .decl var, t, env, env', h => by
    obtain ⟨var', hvar, rfl⟩ := succeeds_decl.mp h
    obtain ⟨ty, varTy, init, hty, hinit, -, rfl, rfl⟩ := succeeds_localVar.mp hvar
    refine ⟨Env.decided_expr? hinit, List.forall_mem_singleton.mpr ?_⟩
    have hann := Env.annotate_eq_pure.mp hty
    refine ⟨AliasTable.filled_of_annotate hann, env.context.decls.length,
      ⟨var.name.text, var.name.span, .local, varTy, [], 0, false⟩, rfl, by simp [Env.push],
      rfl, rfl, ?_⟩
    exact congrArg Prod.snd (AliasTable.annotate_annotated hann)
  | .assign span target op value, t, env, env', h => by
    obtain ⟨target', value', htarget, hvalue, rfl, rfl⟩ := succeeds_assign.mp h
    refine ⟨?_, by simp [Stmt.vars]⟩
    simp only [Stmt.exprs]
    exact List.forall_mem_cons.mpr ⟨Env.decided_value htarget,
      List.forall_mem_singleton.mpr (Env.decided_expr hvalue)⟩
  | .ret span value, t, env, env', h => by
    obtain ⟨value', hvalue, rfl, rfl⟩ := succeeds_ret.mp h
    exact ⟨Env.decided_expr? hvalue, by simp [Stmt.vars]⟩
  | .cond list, t, env, env', h => by
    obtain ⟨list', hlist, rfl⟩ := succeeds_cond.mp h
    exact branches_filled hlist
  | .loop span cond body, t, env, env', h => by
    obtain ⟨cond', body', env₁, hcond, hbody, rfl, rfl⟩ := succeeds_loop.mp h
    obtain ⟨hexprs, hvars⟩ := stmts_filled hbody
    exact ⟨List.forall_mem_cons.mpr ⟨Env.decided_expr hcond, hexprs⟩, hvars⟩
  | .block span body, t, env, env', h => by
    obtain ⟨body', env₁, hbody, rfl, rfl⟩ := succeeds_block.mp h
    obtain ⟨hexprs, hvars⟩ := stmts_filled hbody
    exact ⟨hexprs, hvars⟩
termination_by structural s => s

theorem stmts_filled : ∀ {ss ts : List Stmt} {env env' : Env}, Succeeds (stmts ss) env ts env' →
    (∀ e ∈ Stmt.exprsEach ts, e.Decided) ∧ ∀ v ∈ Stmt.varsEach ts, v.Filled env'.context .local
  | [], ts, env, env', h => by
    obtain ⟨rfl, rfl⟩ := succeeds_stmts_nil.mp h
    exact ⟨by simp [Stmt.exprsEach], by simp [Stmt.varsEach]⟩
  | s :: ss, ts, env, env', h => by
    obtain ⟨t, env₁, ts, hs, hss, rfl⟩ := succeeds_stmts_cons.mp h
    obtain ⟨hexprs, hvars⟩ := stmt_filled hs
    obtain ⟨hexprs', hvars'⟩ := stmts_filled hss
    have hgrows := (stmts_pushes hss).1.grows.context
    exact ⟨List.forall_mem_append.mpr ⟨hexprs, hexprs'⟩,
      List.forall_mem_append.mpr ⟨fun v hv => (hvars v hv).grows hgrows, hvars'⟩⟩
termination_by structural ss => ss

theorem branch_filled : ∀ {b c : Branch} {env env' : Env}, Succeeds (branch b) env c env' →
    (∀ e ∈ c.exprs, e.Decided) ∧ ∀ v ∈ c.vars, v.Filled env'.context .local
  | .mk span g body, c, env, env', h => by
    obtain ⟨g', body', env₁, hg, hbody, rfl, rfl⟩ := succeeds_branch.mp h
    obtain ⟨hexprs, hvars⟩ := stmts_filled hbody
    exact ⟨List.forall_mem_append.mpr ⟨Env.decided_expr? (Env.guard_eq_pure hg), hexprs⟩, hvars⟩
termination_by structural b => b

theorem branches_filled : ∀ {bs cs : List Branch} {env env' : Env},
    Succeeds (branches bs) env cs env' →
    (∀ e ∈ Branch.exprsEach cs, e.Decided) ∧ ∀ v ∈ Branch.varsEach cs, v.Filled env'.context .local
  | [], cs, env, env', h => by
    obtain ⟨rfl, rfl⟩ := succeeds_branches_nil.mp h
    exact ⟨by simp [Branch.exprsEach], by simp [Branch.varsEach]⟩
  | b :: bs, cs, env, env', h => by
    obtain ⟨c, env₁, cs, hb, hbs, rfl⟩ := succeeds_branches_cons.mp h
    obtain ⟨hexprs, hvars⟩ := branch_filled hb
    obtain ⟨hexprs', hvars'⟩ := branches_filled hbs
    have hgrows := (branches_pushes hbs).1.grows.context
    exact ⟨List.forall_mem_append.mpr ⟨hexprs, hexprs'⟩,
      List.forall_mem_append.mpr ⟨fun v hv => (hvars v hv).grows hgrows, hvars'⟩⟩
termination_by structural bs => bs

end

/-! ## Parts of the unit -/

theorem defaults_decided {decl : Option DeclId} {index : Nat} {ps ps' : List Param}
    {env env' : Env} (h : Succeeds (defaults decl index ps) env ps' env') :
    ∀ p ∈ ps', ∀ e ∈ p.default.toList, e.Decided := by
  induction ps generalizing index env ps' with
  | nil =>
    obtain ⟨rfl, -⟩ := succeeds_defaults_nil.mp h
    simp
  | cons p ps ih =>
    obtain ⟨default, ps', hdefault, hps, rfl⟩ := succeeds_defaults_cons.mp h
    exact List.forall_mem_cons.mpr ⟨Env.decided_expr? hdefault, ih hps⟩

/-- The types in the head of a part are filled. -/
def HeadFilled (aliases : AliasTable) : Node → Prop
  | .header _ => True
  | .alias item => item.target.Filled aliases
  | .function f => f.HeadFilled aliases
  | .global g => g.ty.Filled aliases

/-- The expressions of a part are decided, and its variables are in the table. -/
def BodyFilled (context : SemanticContext) : Node → Prop
  | .header _ | .alias _ => True
  | .function f => (∀ p ∈ f.params, ∀ e ∈ p.default.toList, e.Decided) ∧
    (∀ e ∈ f.exprs, e.Decided) ∧ ∀ v ∈ f.vars, v.Filled context .local
  | .global g => ∀ e ∈ g.init.toList, e.Decided

theorem BodyFilled.grows {c c' : SemanticContext} {n : Node} (h : BodyFilled c n)
    (hgrows : c.Grows c') : BodyFilled c' n := by
  cases n with
  | function f => exact ⟨h.1, h.2.1, fun v hv => (h.2.2 v hv).grows hgrows⟩
  | _ => exact h

/-- Declaring a part fills the types in its head. -/
theorem declareNode_filled {order : Nat} {n n' : Node} {env env' : Env}
    (h : Succeeds (declareNode order n) env n' env')
    (halias : isAlias n → HeadFilled env.context.aliases n) :
    HeadFilled env.context.aliases n' ∧ env'.context.aliases = env.context.aliases := by
  cases n with
  | function f =>
    obtain ⟨f', sig, decl, hhead, hdecl, rfl⟩ := succeeds_declareNode_function.mp h
    have hfilled := Env.filled_head hhead
    refine ⟨⟨hfilled.ret, hfilled.params, hfilled.rest⟩, ?_⟩
    rcases succeeds_functionDecl.mp hdecl with ⟨_, _, -, -, -, -, rfl⟩ | ⟨-, -, -, rfl⟩ <;> rfl
  | global g =>
    obtain ⟨ty, varTy, hty, -, rfl, rfl⟩ := succeeds_declareNode_global.mp h
    exact ⟨AliasTable.filled_of_annotate (Env.annotate_eq_pure.mp hty), rfl⟩
  | header item =>
    obtain ⟨rfl, rfl⟩ := succeeds_pure.mp h
    exact ⟨trivial, rfl⟩
  | «alias» item =>
    obtain ⟨rfl, rfl⟩ := succeeds_pure.mp h
    exact ⟨halias rfl, rfl⟩

theorem declareNodes_filled {order : Nat} {ns ns' : List Node} {env env' : Env}
    (h : Succeeds (declareNodes order ns) env ns' env')
    (halias : ∀ n ∈ ns, isAlias n → HeadFilled env.context.aliases n) :
    ∀ n ∈ ns', HeadFilled env.context.aliases n := by
  induction ns generalizing order env ns' with
  | nil =>
    obtain ⟨rfl, -⟩ := succeeds_declareNodes_nil.mp h
    simp
  | cons n ns ih =>
    obtain ⟨n', env₁, ns', hn, hns, rfl⟩ := succeeds_declareNodes_cons.mp h
    obtain ⟨hfirst, hmore⟩ := List.forall_mem_cons.mp halias
    obtain ⟨hfilled, haliases⟩ := declareNode_filled hn hfirst
    have hrest := ih hns (haliases ▸ hmore)
    exact List.forall_mem_cons.mpr ⟨hfilled, haliases ▸ hrest⟩

/-- Resolving a part keeps its head and fills the rest. -/
theorem node_filled {n n' : Node} {env env' : Env} {aliases : AliasTable}
    (h : Succeeds (node n) env n' env') (hhead : HeadFilled aliases n) :
    HeadFilled aliases n' ∧ BodyFilled env'.context n' := by
  cases n with
  | function f =>
    obtain ⟨f', hf, rfl⟩ := succeeds_node_function.mp h
    obtain ⟨ps, env₁, hps, hbody⟩ := succeeds_function.mp hf
    have hdefaults := defaults_decided hps
    have hparams : ∀ p ∈ ps, p.ty.Filled aliases := by
      have htys : ∀ t ∈ ps.map (·.ty), t.Filled aliases := by
        rw [params_defaults hps]
        exact List.forall_mem_map.mpr hhead.params
      exact List.forall_mem_map.mp htys
    rcases hbody with ⟨hnone, rfl, rfl⟩ | ⟨body, body', -, hrun, rfl⟩
    · refine ⟨⟨hhead.ret, hparams, hhead.rest⟩, hdefaults, ?_, ?_⟩
      · simp [Function.exprs, hnone, Stmt.exprsEach]
      · simp [Function.vars, hnone, Stmt.varsEach]
    · obtain ⟨env₂, env₃, -, hstmts, rfl⟩ := succeeds_functionBody.mp hrun
      obtain ⟨hexprs, hvars⟩ := stmts_filled hstmts
      exact ⟨⟨hhead.ret, hparams, hhead.rest⟩, hdefaults, hexprs, hvars⟩
  | global g =>
    obtain ⟨g', hg, rfl⟩ := succeeds_node_global.mp h
    obtain ⟨init, hinit, rfl, rfl⟩ := succeeds_global.mp hg
    exact ⟨hhead, Env.decided_expr? hinit⟩
  | _ =>
    obtain ⟨rfl, -⟩ := succeeds_pure.mp h
    exact ⟨hhead, trivial⟩

theorem nodes_grows {ns ns' : List Node} {env env' : Env} {top : Scope}
    (h : Succeeds (nodes ns) env ns' env') (hscopes : env.scopes = [top])
    (hvargs : env.vargs = none) : env.context.Grows env'.context := by
  induction ns generalizing env ns' with
  | nil =>
    obtain ⟨-, rfl⟩ := succeeds_nodes_nil.mp h
    exact .refl _
  | cons n ns ih =>
    obtain ⟨n', env₁, ns', hn, hns, -⟩ := succeeds_nodes_cons.mp h
    obtain ⟨htouches, hscopes₁⟩ := node_touches hn hscopes hvargs
    exact htouches.grows.context.trans (ih hns hscopes₁ (htouches.grows.vargs.trans hvargs))

/-- All parts, one after the other. -/
theorem nodes_filled {ns ns' : List Node} {env env' : Env} {aliases : AliasTable} {top : Scope}
    (h : Succeeds (nodes ns) env ns' env') (hscopes : env.scopes = [top])
    (hvargs : env.vargs = none) (hheads : ∀ n ∈ ns, HeadFilled aliases n) :
    ∀ n ∈ ns', HeadFilled aliases n ∧ BodyFilled env'.context n := by
  induction ns generalizing env ns' with
  | nil =>
    obtain ⟨rfl, -⟩ := succeeds_nodes_nil.mp h
    simp
  | cons n ns ih =>
    obtain ⟨n', env₁, ns', hn, hns, rfl⟩ := succeeds_nodes_cons.mp h
    obtain ⟨hfirst, hmore⟩ := List.forall_mem_cons.mp hheads
    obtain ⟨htouches, hscopes₁⟩ := node_touches hn hscopes hvargs
    have hvargs₁ := htouches.grows.vargs.trans hvargs
    obtain ⟨hhead, hbody⟩ := node_filled hn hfirst
    exact List.forall_mem_cons.mpr
      ⟨⟨hhead, hbody.grows (nodes_grows hns hscopes₁ hvargs₁)⟩, ih hns hscopes₁ hvargs₁ hmore⟩

end Resolver

/-! ## The unit -/

namespace SourceUnit

variable {unit unit' : SourceUnit} {context : SemanticContext}

theorem resolve_filled (h : unit.resolve = (unit', .ok context)) : ∀ n ∈ unit'.nodes,
    Resolver.HeadFilled context.aliases n ∧ Resolver.BodyFilled context n := by
  obtain ⟨nodes, env', hs, rfl, rfl⟩ := resolve_eq_ok.mp h
  obtain ⟨aliases, annotated, declared, env, -, hann, hdecl, hnodes⟩ :=
    Resolver.succeeds_unit.mp hs
  have hempty : DeclaredIn (Resolver.withAliases unit.start aliases).context.aliases [] [] [] :=
    .empty
  obtain ⟨⟨top, decls, rfl, -⟩, -, -⟩ := Resolver.declareNodes_declared hempty hdecl
  have halias : ∀ n ∈ annotated, Resolver.isAlias n → Resolver.HeadFilled aliases n := by
    intro n hn hisAlias
    obtain ⟨m, -, hm⟩ := forall₂_right hann hn
    cases hm with
    | other hother => simp [hother] at hisAlias
    | _ htype => exact AliasTable.filled_of_annotate htype
  have hheads := Resolver.declareNodes_filled hdecl halias
  have hgrows := Resolver.nodes_grows hnodes rfl rfl
  rw [hgrows.aliases]
  exact Resolver.nodes_filled hnodes rfl rfl hheads

/-- Every part that declares a name is described by the declaration that it refers to. -/
theorem resolve_described (h : unit.resolve = (unit', .ok context)) {n : Node}
    (hn : n ∈ unit'.nodes) {name : String} (hname : n.declares name) :
    ∃ id info, n.decl? = some id ∧ context.decls[id]? = some info ∧
      info.Describes context.aliases n := by
  obtain ⟨declared, env, env', top, -, hdeclared, -, -, hscopes, hvargs, -, hnodes, rfl⟩ :=
    resolve_passes h
  have hmem : n.outline ∈ declared.map Node.outline :=
    Resolver.outline_nodes hnodes ▸ List.mem_map_of_mem hn
  obtain ⟨m, hm, hsame⟩ := List.mem_map.mp hmem
  have hmname : m.declares name := by
    rwa [← Node.declares_outline, hsame, Node.declares_outline]
  obtain ⟨id, hid, hdecl⟩ := hdeclared.found m hm name hmname
  obtain ⟨info, hinfo, -⟩ := hdeclared.info name id hid
  have hdescribes := (hdeclared.describes hid hinfo m hm hmname).2
  have hgrows := Resolver.nodes_grows hnodes hscopes hvargs
  obtain ⟨info', hinfo', hname', hspan, hkind, hty, -⟩ := hgrows.entry hinfo
  refine ⟨id, info', ?_, hinfo', ?_⟩
  · rw [← Node.decl?_outline, ← hsame, Node.decl?_outline, hdecl]
  · rw [hgrows.aliases, ← DeclInfo.describes_outline, ← hsame, DeclInfo.describes_outline]
    exact hdescribes.congr hname' hspan hkind hty

theorem function_filled (h : unit.resolve = (unit', .ok context)) {f : Function}
    (hf : .function f ∈ unit'.nodes) : f.Filled context := by
  obtain ⟨hparts, -, hfunctions, -⟩ := resolve_bound h
  obtain ⟨hhead, hdefaults, hexprs, hvars⟩ := resolve_filled h _ hf
  have hdeclares : (Node.function f).declares f.name.text := by simp [Node.declares, Node.name?]
  obtain ⟨id, info, hid, hinfo, hname, hkind, hty⟩ := resolve_described h hf hdeclares
  obtain ⟨sig, hsig, hrest⟩ := hparts.typed f hf
  obtain ⟨⟨first, hsites⟩, hbound⟩ := hfunctions f hf
  rw [hsig, Option.map_some, Option.some.injEq] at hty
  refine ⟨hhead, ⟨id, sig, info, hid, hsig, hinfo, hname, hkind, hty.symm⟩, fun e he => ?_, hvars,
    fun e he => ?_⟩
  · obtain ⟨p, hp, hpe⟩ := List.mem_filterMap.mp he
    have hmem : e ∈ p.default.toList := by simp [hpe]
    simpa using (hdefaults p hp e hmem).filled (hbound p hp e hmem)
  · obtain ⟨s, hs, rfl⟩ := List.mem_map.mp (f.expr_sites first ▸ he)
    have hfilled := (hexprs s.expr he).filled (hsites s hs).names
    have hvargs : (Resolver.vargsOf f).isSome = f.rest.elem?.isSome := by
      rw [← hrest, Resolver.vargsOf, hsig]
      rfl
    rwa [hvargs] at hfilled

theorem global_filled (h : unit.resolve = (unit', .ok context)) {g : VarDecl}
    (hg : .global g ∈ unit'.nodes) :
    g.Filled context .global ∧ ∀ e ∈ g.init.toList, e.Filled context.decls False := by
  obtain ⟨-, -, -, hglobals⟩ := resolve_bound h
  obtain ⟨htype, hinit⟩ := resolve_filled h _ hg
  have hdeclares : (Node.global g).declares g.name.text := by simp [Node.declares, Node.name?]
  obtain ⟨id, info, hid, hinfo, hname, hkind, -, hty⟩ := resolve_described h hg hdeclares
  obtain ⟨before, after, hsplit⟩ := List.append_of_mem hg
  refine ⟨⟨htype, id, info, hid, hinfo, hname, hkind, hty⟩, fun e he => ?_⟩
  simpa using (hinit e he).filled (hglobals before g after hsplit e he)

end SourceUnit

/-- **No slot is empty.** Every part of a resolved unit has all its slots filled, and so has every
default in the declaration table. -/
theorem resolved_units_have_no_empty_slot {unit unit' : SourceUnit} {context : SemanticContext}
    (h : unit.resolve = (unit', .ok context)) :
    (∀ n ∈ unit'.nodes, n.Filled context) ∧
      ∀ info ∈ context.decls, ∀ e, some e ∈ info.defaults → e.Filled context.decls False := by
  constructor
  · intro n hn
    cases n with
    | header item => trivial
    | «alias» item => exact (SourceUnit.resolve_filled h _ hn).1
    | function f => exact SourceUnit.function_filled h hn
    | global g => exact SourceUnit.global_filled h hn
  · intro info hinfo e he
    obtain ⟨id, hid⟩ := List.mem_iff_getElem?.mp hinfo
    have hslot : some e ∈ context.decls.defaultsOf id := by
      rw [DeclTable.defaultsOf, hid]
      exact he
    obtain ⟨i, hi⟩ := List.mem_iff_getElem?.mp hslot
    obtain ⟨f, p, hf, -, hp, hpe⟩ := SourceUnit.default_of_slot h hi
    exact (SourceUnit.function_filled h hf).defaults e
      (List.mem_filterMap.mpr ⟨p, List.mem_of_getElem? hp, hpe⟩)

/-- An alias, further arguments of one type, and a call that leaves out an argument. -/
theorem further_arguments_are_filled : ∃ unit unit' context,
    SourceUnit.parse 0
        "alias int n\nn f(n a = 1, n...) { return a + vargs.length }\nn g() { return f() }" =
      .ok unit ∧
    unit.resolve = (unit', .ok context) ∧ ∀ n ∈ unit'.nodes, n.Filled context := by
  have hok : ((SourceUnit.parse 0
      "alias int n\nn f(n a = 1, n...) { return a + vargs.length }\nn g() { return f() }").toOption.any
      fun unit => unit.resolve.2.toOption.isSome) = true := by
    rw [SourceUnit.parse_ofList]
    decide +kernel
  obtain ⟨unit, hparse, hresolved⟩ := SourceUnit.exists_parsed hok
  rcases hresolve : unit.resolve with ⟨unit', _ | context⟩
  · simp [hresolve, Except.toOption] at hresolved
  · exact ⟨unit, unit', context, hparse, hresolve,
      (resolved_units_have_no_empty_slot hresolve).1⟩

end KilnLang
