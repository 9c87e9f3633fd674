import Mathlib.Data.List.ReduceOption
import KilnLang.Analysis
import KilnLang.Proofs.Semantic.Scoping

/-!
# Completed calls

Checking completes calls and changes nothing else, so the sites of a checked function are those of
the function, with completed expressions (`sites_function`).

**Theorem (`mentions_expr`).** A name in a completed expression was written in the expression, or it
is copied from a default. Copies are completed in turn; a copy of a copy comes from a default, too.
-/

namespace KilnLang

/-! ## Mentions -/

/-- A name that is written to C. `copied` says that it stands in an argument which was not written
but comes from the defaults of the function that is called. -/
structure Mention where
  copied : Bool
  name : DottedName

/-- Whether a call is a cast, whose callee is a type and which has one argument. -/
def CallTarget.isCast : Option CallTarget → Bool
  | some (.cast _) => true
  | _ => false

mutual

/-- The names of an expression that are written to C; `copied` is said of the expression. -/
def Expr.mentions (copied : Bool) : Expr → List Mention
  | .mk _ chain => chain.mentions copied

/-- The names of operands that are written to C. -/
def Chain.mentions (copied : Bool) : Chain → List Mention
  | .operand value => value.mentions copied
  | .link value _ rest => value.mentions copied ++ rest.mentions copied

/-- The names of an operand that are written to C. -/
def Value.mentions (copied : Bool) : Value → List Mention
  | .ident name => [⟨copied, name⟩]
  | .call _ callee args target defaulted =>
    (if CallTarget.isCast target then [] else [⟨copied, callee⟩]) ++
      Value.mentionsEach copied (args.length - defaulted)
        (if CallTarget.isCast target then 1 else args.length) args
  | .index _ base position => base.mentions copied ++ position.mentions copied
  | .ref _ inner => inner.mentions copied
  | .prefixed _ _ inner => inner.mentions copied
  | .suffixed _ _ inner => inner.mentions copied
  | .paren inner => inner.mentions copied
  | .number _ | .decimal _ | .string _ | .char _ | .bool _ _ | .null _ => []

/-- The names of arguments that are written to C. The first `written` arguments were written, and
the first `kept` ones are written to C. -/
def Value.mentionsEach (copied : Bool) (written kept : Nat) : List Expr → List Mention
  | [] => []
  | e :: es =>
    (if kept = 0 then [] else e.mentions (copied || written == 0)) ++
      Value.mentionsEach copied (written - 1) (kept - 1) es

end

theorem Value.mentionsEach_append (copied : Bool) (written kept : Nat) (es fs : List Expr) :
    Value.mentionsEach copied written kept (es ++ fs) = Value.mentionsEach copied written kept es ++
      Value.mentionsEach copied (written - es.length) (kept - es.length) fs := by
  induction es generalizing written kept with
  | nil => rfl
  | cons e es ih =>
    simp only [List.cons_append, Value.mentionsEach, ih, List.append_assoc, List.length_cons,
      Nat.sub_sub, Nat.add_comm 1]

/-- Arguments after the written ones are copies. -/
theorem Value.mentionsEach_omitted {P : Mention → Prop} {es : List Expr}
    (h : ∀ e ∈ es, ∀ m ∈ e.mentions true, P m) (copied : Bool) (kept : Nat) :
    ∀ m ∈ Value.mentionsEach copied 0 kept es, P m := by
  induction es generalizing kept with
  | nil => simp [Value.mentionsEach]
  | cons e es ih =>
    obtain ⟨he, hes⟩ := List.forall_mem_cons.mp h
    simp only [Value.mentionsEach, List.forall_mem_append, BEq.rfl, Bool.or_true]
    refine ⟨fun m hm => ?_, ih hes _⟩
    split at hm
    · cases hm
    · exact he m hm

/-! ## Completed expressions -/

namespace Check

variable {decls : DeclTable} {complete : Completion} {P Q : DottedName → Prop}

/-- What is known of a name in a completed expression: it was there, or it is copied. -/
def Known (P Q : DottedName → Prop) (copied : Bool) (m : Mention) : Prop :=
  (m.copied = copied ∧ P m.name) ∨ (m.copied = true ∧ Q m.name)

/-- The names of a copy are copied, and they have `Q`. -/
def Copy (Q : DottedName → Prop) (e : Expr) : Prop :=
  ∀ m ∈ e.mentions true, m.copied = true ∧ Q m.name

/-- What completes calls are copies. -/
def Copies (Q : DottedName → Prop) (complete : Completion) : Prop :=
  ∀ id count, ∀ e ∈ (complete id count).value, Copy Q e

theorem length_exprs (es : List Expr) : (exprs decls complete es).value.length = es.length := by
  induction es with
  | nil => rfl
  | cons e es ih =>
    simp only [exprs, Report.value_bind, Report.value_pure, List.length_cons, ih]

/-- The value of a call is the call with copies for the arguments that it leaves out. -/
theorem call_value (decls : DeclTable) (hcopies : Copies Q complete) (span : Span)
    (callee : DottedName) (args : List Expr) (target : Option CallTarget) : ∃ more,
      (call decls complete span callee args target).value =
        .call span callee (args ++ more) target more.length ∧ ∀ e ∈ more, Copy Q e := by
  cases target with
  | none => exact ⟨[], rfl, by simp⟩
  | some t =>
    refine ⟨_, rfl, ?_⟩
    simp only [arguments]
    split
    · simp
    · split
      · simp only [Report.value_bind, Report.value_pure]
        cases t with
        | function decl sig => exact hcopies decl _
        | _ => simp [omitted]
      · simp only [Report.value_bind, Report.value_pure, List.not_mem_nil, false_imp_iff,
          implies_true]

mutual

/-- The names of a completed expression. -/
theorem mentions_expr (hcopies : Copies Q complete) :
    ∀ {e : Expr}, (∀ n ∈ e.names, P n) → ∀ {copied : Bool},
      ∀ m ∈ (expr decls complete e).value.mentions copied, Known P Q copied m
  | .mk span c, h, copied => by
    simp only [expr, Report.value_bind, Report.value_pure, Expr.mentions, Expr.names] at h ⊢
    exact mentions_chain hcopies h

theorem mentions_chain (hcopies : Copies Q complete) :
    ∀ {c : Chain}, (∀ n ∈ c.names, P n) → ∀ {copied : Bool},
      ∀ m ∈ (chain decls complete c).value.mentions copied, Known P Q copied m
  | .operand v, h, copied => by
    simp only [chain, Report.value_bind, Report.value_pure, Chain.mentions, Chain.names] at h ⊢
    exact mentions_value hcopies h
  | .link v op rest, h, copied => by
    simp only [chain, Report.value_bind, Report.value_pure, Chain.mentions, Chain.names,
      List.forall_mem_append] at h ⊢
    exact ⟨mentions_value hcopies h.1, mentions_chain hcopies h.2⟩

theorem mentions_value (hcopies : Copies Q complete) :
    ∀ {v : Value}, (∀ n ∈ v.names, P n) → ∀ {copied : Bool},
      ∀ m ∈ (value decls complete v).value.mentions copied, Known P Q copied m
  | .call span callee args target defaulted, h, copied => by
    simp only [Value.names, List.forall_mem_cons] at h
    simp only [value, Report.value_bind]
    obtain ⟨more, hvalue, hmore⟩ := call_value decls hcopies span callee
      (exprs decls complete args).value target
    -- Written arguments come first, and copies follow.
    rw [hvalue, Value.mentions, Value.mentionsEach_append, List.length_append, Nat.add_sub_cancel,
      Nat.sub_self, List.forall_mem_append, List.forall_mem_append]
    refine ⟨?_, mentions_exprs hcopies h.2 (Nat.le_of_eq (length_exprs args).symm),
      Value.mentionsEach_omitted (fun e he m hm => .inr (hmore e he m hm)) _ _⟩
    split
    · simp
    · exact List.forall_mem_singleton.mpr (.inl ⟨rfl, h.1⟩)
  | .index span base position, h, copied => by
    simp only [value, Report.value_bind, Report.value_pure, Value.mentions, Value.names,
      List.forall_mem_append] at h ⊢
    exact ⟨mentions_value hcopies h.1, mentions_expr hcopies h.2⟩
  | .ref span inner, h, copied | .prefixed span op inner, h, copied
  | .suffixed span op inner, h, copied => by
    simp only [value, Report.value_bind, Report.value_pure, Value.mentions, Value.names] at h ⊢
    exact mentions_value hcopies h
  | .paren inner, h, copied => by
    simp only [value, Report.value_bind, Report.value_pure, Value.mentions, Value.names] at h ⊢
    exact mentions_expr hcopies h
  | .ident name, h, copied => by
    simp only [value, Report.value_pure, Value.mentions, Value.names,
      List.forall_mem_singleton] at h ⊢
    exact .inl ⟨rfl, h⟩
  | .number _, _, _ | .decimal _, _, _ | .string _, _, _ | .char _, _, _ | .bool _ _, _, _
  | .null _, _, _ => by
    simp [value, Value.mentions]

theorem mentions_exprs (hcopies : Copies Q complete) :
    ∀ {es : List Expr}, (∀ n ∈ Value.namesEach es, P n) → ∀ {copied : Bool} {written kept : Nat},
      es.length ≤ written →
      ∀ m ∈ Value.mentionsEach copied written kept (exprs decls complete es).value,
        Known P Q copied m
  | [], _, _, _, _, _ => by simp [exprs, Value.mentionsEach]
  | e :: es, h, copied, written, kept, hwritten => by
    rw [List.length_cons] at hwritten
    have hpos : (written == 0) = false := by simpa using Nat.ne_of_gt (by omega)
    simp only [exprs, Report.value_bind, Report.value_pure, Value.mentionsEach, Value.namesEach,
      List.forall_mem_append, hpos, Bool.or_false] at h ⊢
    refine ⟨fun m hm => ?_, mentions_exprs hcopies h.2 (by omega)⟩
    split at hm
    · cases hm
    · exact mentions_expr hcopies h.1 m hm

end

/-! ## Copies -/

/-- The completed expression. -/
def completed (decls : DeclTable) (e : Expr) : Expr := (expr decls (Check.complete decls) e).value

theorem mem_exprs {es : List Expr} {e' : Expr} (h : e' ∈ (exprs decls complete es).value) :
    ∃ e ∈ es, e' = (expr decls complete e).value := by
  induction es with
  | nil => cases h
  | cons e es ih =>
    simp only [exprs, Report.value_bind, Report.value_pure, List.mem_cons] at h
    rcases h with rfl | h
    · exact ⟨e, List.mem_cons_self, rfl⟩
    · obtain ⟨e, he, rfl⟩ := ih h
      exact ⟨e, List.mem_cons_of_mem _ he, rfl⟩

/-- Copies are completed in turn, to any depth. -/
theorem copies_completion (htable : ∀ info ∈ decls, ∀ e, some e ∈ info.defaults → e.Every Q) :
    ∀ (depth : Nat) (active : List DeclId), Copies Q (completion decls depth active)
  | 0, _, _, _, _, he => nomatch he
  | depth + 1, active, decl, count, e', he => by
    rw [completion] at he
    split at he
    · cases he
    · obtain ⟨e, hsome, rfl⟩ := mem_exprs he
      have hmem : some e ∈ decls.defaultsOf decl :=
        List.mem_of_mem_drop (List.reduceOption_mem_iff.mp hsome)
      have hevery : e.Every Q := by
        unfold DeclTable.defaultsOf at hmem
        cases hinfo : decls[decl]? with
        | none => simp [hinfo] at hmem
        | some info =>
          rw [hinfo] at hmem
          exact htable info (List.mem_of_getElem? hinfo) e hmem
      intro m hm
      exact (mentions_expr (copies_completion htable depth (decl :: active)) hevery m hm).elim id id

/-! ## Completed functions -/

theorem span_value (v : Value) : (value decls complete v).value.span = v.span := by
  cases v with
  | call span callee args target defaulted =>
    cases target <;> rfl
  | paren inner => cases inner; rfl
  | _ => rfl

theorem completed_alone (v : Value) :
    completed decls v.alone = (value decls (Check.complete decls) v).value.alone := by
  simp only [completed, Value.alone, expr, chain, Report.value_bind, Report.value_pure, span_value]

/-- The site with its expression completed. -/
def completedSite (decls : DeclTable) (s : Site) : Site := { s with expr := completed decls s.expr }

theorem declare_stmt {returned : Ty} (scopes : List Frame) (s : Stmt) :
    (stmt decls returned s).value.declare scopes = s.declare scopes := by
  cases s with
  | decl var =>
    obtain ⟨span, ty, name, _ | init, decl⟩ := var <;> rfl
  | assign span target op e => cases op <;> rfl
  | _ => rfl

mutual

/-- The sites of a checked statement. -/
theorem sites_stmt {returned : Ty} : ∀ (scopes : List Frame) (s : Stmt),
    (stmt decls returned s).value.sites scopes = (s.sites scopes).map (completedSite decls)
  | scopes, .expr e => rfl
  | scopes, .decl ⟨span, ty, name, none, decl⟩ => rfl
  | scopes, .decl ⟨span, ty, name, some init, decl⟩ => rfl
  | scopes, .assign span target none e => by
    simp only [stmt, Report.value_bind, Report.value_pure, Stmt.sites, List.map_cons, List.map_nil,
      completedSite, completed_alone]
    rfl
  | scopes, .assign span target (some op) e => by
    simp only [stmt, Report.value_bind, Report.value_pure, Stmt.sites, List.map_cons, List.map_nil,
      completedSite, completed_alone]
    rfl
  | scopes, .ret span none => rfl
  | scopes, .ret span (some e) => by
    simp only [stmt, ret, Report.value_bind, Report.value_pure, Stmt.sites]
    split <;> rfl
  | scopes, .cond list => by
    simp only [stmt, Report.value_bind, Report.value_pure, Stmt.sites]
    exact sites_branches scopes list
  | scopes, .loop span cond body => by
    simp only [stmt, Report.value_bind, Report.value_pure, Stmt.sites, List.map_cons,
      sites_stmts ([] :: scopes) body]
    rfl
  | scopes, .block span body => by
    simp only [stmt, Report.value_bind, Report.value_pure, Stmt.sites]
    exact sites_stmts ([] :: scopes) body

theorem sites_stmts {returned : Ty} : ∀ (scopes : List Frame) (ss : List Stmt),
    Stmt.sitesEach scopes (stmts decls returned ss).value =
      (Stmt.sitesEach scopes ss).map (completedSite decls)
  | scopes, [] => rfl
  | scopes, s :: ss => by
    simp only [stmts, Report.value_bind, Report.value_pure, Stmt.sitesEach, List.map_append,
      sites_stmt scopes s, declare_stmt, sites_stmts (s.declare scopes) ss]

theorem sites_branch {returned : Ty} : ∀ (scopes : List Frame) (b : Branch),
    (branch decls returned b).value.sites scopes = (b.sites scopes).map (completedSite decls)
  | scopes, .mk span g body => by
    simp only [branch, Report.value_bind, Report.value_pure, Branch.sites, List.map_append,
      sites_stmts ([] :: scopes) body]
    cases g <;> rfl

theorem sites_branches {returned : Ty} : ∀ (scopes : List Frame) (bs : List Branch),
    Branch.sitesEach scopes (branches decls returned bs).value =
      (Branch.sitesEach scopes bs).map (completedSite decls)
  | scopes, [] => rfl
  | scopes, b :: bs => by
    simp only [branches, Report.value_bind, Report.value_pure, Branch.sitesEach, List.map_append,
      sites_branch scopes b, sites_branches scopes bs]

end

theorem ofParams_params : ∀ (frame : Frame) (first : DeclId) (ps : List Param) (tys : List Ty),
    Frame.ofParams frame first (params decls ps tys).value = Frame.ofParams frame first ps
  | _, _, [], _ => rfl
  | _, _, _ :: _, [] => rfl
  | frame, first, p :: ps, ty :: tys => by
    simp only [params, Frame.ofParams]
    cases p.default <;> exact ofParams_params _ _ ps tys

/-- The sites of a checked function are those of the function, completed. -/
theorem sites_function {f : Function} (hsig : f.sig.isSome) (first : DeclId) :
    (function decls f).value.sites first = (f.sites first).map (completedSite decls) := by
  obtain ⟨sig, hsig⟩ := Option.isSome_iff_exists.mp hsig
  simp only [function, hsig, Function.sites]
  cases f.body with
  | none => rfl
  | some body =>
    simp only [Report.value_bind, Report.value_pure, Option.getD_some, ofParams_params, sites_stmts]

/-! ## Completed units -/

theorem nodes_value (ns : List Node) :
    (nodes decls ns).value = ns.map fun n => (node decls n).value := by
  induction ns with
  | nil => rfl
  | cons n ns ih => simp only [nodes, Report.value_bind, Report.value_pure, List.map_cons, ih]

theorem nodes_eq_pure {ns ns' : List Node} :
    nodes decls ns = pure ns' ↔ List.Forall₂ (fun n n' => node decls n = pure n') ns ns' := by
  induction ns generalizing ns' with
  | nil => simp [nodes, Report.pure_inj, eq_comm]
  | cons n ns ih =>
    simp only [nodes, Report.bind_eq_pure, Report.pure_inj, ih, List.forall₂_cons_left_iff]
    constructor
    · rintro ⟨n', hn, ns', hns, rfl⟩
      exact ⟨n', ns', hn, hns, rfl⟩
    · rintro ⟨n', ns', hn, hns, rfl⟩
      exact ⟨n', hn, ns', hns, rfl⟩

theorem outline_function (decls : DeclTable) (f : Function) :
    (Node.function (function decls f).value).outline = (Node.function f).outline := by
  obtain ⟨span, ret, name, params, rest, body, decl, sig⟩ := f
  cases sig with
  | none => rfl
  | some sig => cases body <;> rfl

theorem outline_node (n : Node) : (node decls n).value.outline = n.outline := by
  cases n with
  | function f => exact outline_function decls f
  | global g =>
    obtain ⟨span, ty, name, _ | init, decl⟩ := g <;> rfl
  | _ => rfl

end Check

/-- The site is placed. Its written names are bound there, and its copied names in the unit. -/
structure Site.Completed (context : SemanticContext) (visible : List Node) (vargs : Option Ty)
    (s : Site) : Prop where
  placed : s.Placed context
  written : ∀ m ∈ s.expr.mentions false, m.copied = false →
    m.name.Bound context visible s.scopes vargs
  copied : ∀ m ∈ s.expr.mentions false, m.copied = true → m.name.Bound context visible [] none

theorem Site.Bound.completed {context : SemanticContext} {visible : List Node} {vargs : Option Ty}
    {s : Site} (h : s.Bound context visible vargs)
    (htable : Resolver.DefaultsBound context visible) :
    (Check.completedSite context.decls s).Completed context visible vargs := by
  have hknown : ∀ m ∈ (Check.completed context.decls s.expr).mentions false,
      Check.Known (·.Bound context visible s.scopes vargs) (·.Bound context visible [] none) false m :=
    Check.mentions_expr (Check.copies_completion htable context.decls.length []) h.names
  refine ⟨⟨h.placed.inside, h.placed.entries, h.placed.distinct, h.placed.own⟩,
    fun m hm hwritten => ?_, fun m hm hcopied => ?_⟩
  · rcases hknown m hm with ⟨-, hname⟩ | ⟨hcopied, -⟩
    · exact hname
    · exact absurd (hwritten.symm.trans hcopied) Bool.false_ne_true
  · rcases hknown m hm with ⟨hwritten, -⟩ | ⟨-, hname⟩
    · exact absurd (hwritten.symm.trans hcopied) Bool.false_ne_true
    · exact hname

/-- The analysis of a unit succeeds exactly if its passes do. -/
theorem SourceUnit.analyzeBridged_eq_ok {unit : SourceUnit} {a : Analyzed} :
    unit.analyzeBridged = .ok a ↔ ∃ unit', unit.resolve = (unit', .ok a.context) ∧
      unit'.check a.context = pure a.unit := by
  unfold SourceUnit.analyzeBridged
  rcases unit.resolve with ⟨unit', _ | context⟩
  · simp
  · dsimp only
    constructor
    · intro h
      split at h
      · rename_i hempty
        cases h
        exact ⟨unit', rfl, Report.ext rfl (List.isEmpty_iff.mp hempty)⟩
      · cases h
    · rintro ⟨unit', ⟨⟩, hcheck⟩
      rw [hcheck]
      rfl

/-- The analysis of a text, from a test of its result. -/
theorem SourceUnit.exists_analyzed {file : Nat} {text : String} {p : Analyzed → Bool}
    (h : ((SourceUnit.parse file text).toOption.any fun unit =>
      unit.analyzeBridged.toOption.any p) = true) :
    ∃ unit a, SourceUnit.parse file text = .ok unit ∧ unit.analyzeBridged = .ok a ∧ p a := by
  cases hparse : SourceUnit.parse file text with
  | error e => simp [hparse, Except.toOption] at h
  | ok unit =>
    cases hanalyze : unit.analyzeBridged with
    | error e => simp [hparse, hanalyze, Except.toOption] at h
    | ok a => exact ⟨unit, a, rfl, hanalyze, by simpa [hparse, hanalyze, Except.toOption] using h⟩

/-- The resolution of a text, from a test of its result. -/
theorem SourceUnit.exists_resolved {file : Nat} {text : String}
    {p : SourceUnit → SemanticContext → Bool}
    (h : ((SourceUnit.parse file text).toOption.any fun unit =>
      unit.resolve.2.toOption.any (p unit.resolve.1)) = true) :
    ∃ unit unit' context, SourceUnit.parse file text = .ok unit ∧
      unit.resolve = (unit', .ok context) ∧ p unit' context := by
  cases hparse : SourceUnit.parse file text with
  | error e => simp [hparse, Except.toOption] at h
  | ok unit =>
    rcases hresolve : unit.resolve with ⟨unit', _ | context⟩
    · simp [hparse, hresolve, Except.toOption] at h
    · exact ⟨unit, unit', context, rfl, hresolve,
        by simpa [hparse, hresolve, Except.toOption] using h⟩

/-- The sites of a checked unit are completed. -/
theorem SourceUnit.analyze_completed {unit : SourceUnit} {a : Analyzed}
    (h : unit.analyzeBridged = .ok a) :
    WellDeclared a.context.aliases a.unit.nodes ∧ ∀ f, .function f ∈ a.unit.nodes →
      ∃ first, ∀ s ∈ f.sites first, s.Completed a.context a.unit.nodes (Resolver.vargsOf f) := by
  obtain ⟨unit', hresolve, hcheck⟩ := SourceUnit.analyzeBridged_eq_ok.mp h
  obtain ⟨hparts, htable, hfunctions, -⟩ := SourceUnit.resolve_bound hresolve
  obtain ⟨checked, context⟩ := a
  obtain rfl : { unit' with nodes := (Check.nodes context.decls unit'.nodes).value } = checked :=
    congrArg Report.value hcheck
  rw [Check.nodes_value]
  -- The checker fills slots only, which the outlines of the parts leave out.
  have houtline : unit'.nodes.map Node.outline =
      (unit'.nodes.map fun n => (Check.node context.decls n).value).map Node.outline := by
    rw [List.map_map]
    exact List.map_congr_left fun n _ => (Check.outline_node n).symm
  refine ⟨hparts.outline houtline, fun f' hf' => ?_⟩
  obtain ⟨n, hn, hf⟩ := List.mem_map.mp hf'
  cases n with
  | function f =>
    obtain rfl : (Check.function context.decls f).value = f' := Node.function.inj hf
    obtain ⟨sig, hsig, -⟩ := hparts.typed f hn
    obtain ⟨⟨first, hsites⟩, -⟩ := hfunctions f hn
    refine ⟨first, fun s hs => ?_⟩
    rw [Check.sites_function (by simp [hsig])] at hs
    obtain ⟨s₀, hs₀, rfl⟩ := List.mem_map.mp hs
    have hvargs : Resolver.vargsOf (Check.function context.decls f).value = Resolver.vargsOf f := by
      have houtlines := Node.function.inj (Check.outline_function context.decls f)
      simp only [Resolver.vargsOf, (Function.mk.inj houtlines).2.2.2.2.2.2.2]
    have hcompleted := (hsites s₀ hs₀).completed htable
    rw [hvargs]
    exact ⟨hcompleted.placed, fun m hm hm' => (hcompleted.written m hm hm').outline houtline,
      fun m hm hm' => (hcompleted.copied m hm hm').outline houtline⟩
  | _ => cases hf

end KilnLang
