import KilnLang.Proofs.Semantic.Arguments
import KilnLang.Proofs.Semantic.DefaultSlots
import KilnLang.Proofs.Semantic.Checking

/-!
# Errors in copies of defaults

Calls are completed with copies of defaults, in which calls are completed in turn, and the errors in
copies are dropped. `SourceUnit.dropped` lists them, for every call that is completed and however deep
in copies it stands; no other completions are asked for (`Check.expr_eq_of_expansions`).

**Theorem (`dropped_errors_are_reported`).** Every error that is dropped is reported for the unit. So
if nothing is reported, no completion of any call finds an error.

Which errors an expression has does not depend on how its calls are completed, nor on what filled
slots hold (`Check.errors_expr`): the arguments that are checked are the written ones, and storing
does not look at the arguments of calls. A copy therefore has the errors of the default, wherever it
is copied to and whatever functions are being completed there. The default stands in a part of the
unit, also if it comes from a prototype (`SourceUnit.default_of_slot`), and every part is checked.
-/

namespace KilnLang

/-! ## What is dropped -/

/-- The function by which a call is completed, if the call has an accepted number of arguments, and
that number. -/
def Value.expansion? (decls : DeclTable) : Value → Option (DeclId × Nat)
  | .call _ _ args (some (.function decl sig)) _ =>
    if sig.accepts (sig.required (decls.defaultsOf decl)) args.length then some (decl, args.length)
    else none
  | _ => none

/-- The completions that checking the expression asks for. -/
def Expr.expansions (decls : DeclTable) (e : Expr) : List (DeclId × Nat) :=
  (e.operands []).filterMap (·.value.expansion? decls)

namespace Check

/-- The defaults that complete a call of a function with a number of written arguments. -/
def copied (decls : DeclTable) (decl : DeclId) (written : Nat) : List Expr :=
  ((decls.defaultsOf decl).drop written).reduceOption

/-- The errors that are dropped when an expression is checked while the functions of `active` are
being completed: those of each completion, and those that are dropped in its copies. -/
def dropped (decls : DeclTable) : Nat → List DeclId → Expr → List SemanticError
  | 0, _, _ => []
  | depth + 1, active, e =>
    (e.expansions decls).flatMap fun (decl, written) =>
      if decl ∈ active then []
      else (completion decls (depth + 1) active decl written).errors ++
        (copied decls decl written).flatMap (dropped decls depth (decl :: active))

end Check

/-- The errors that are dropped when the unit is checked. -/
def SourceUnit.dropped (unit : SourceUnit) (context : SemanticContext) : List SemanticError :=
  unit.nodes.flatMap fun n =>
    n.exprs.flatMap (Check.dropped context.decls context.decls.length [])

/-- The declarations have the same types, and the same slots are filled. -/
structure DeclTable.SameSlots (t t' : DeclTable) : Prop where
  typeOf : ∀ id, t.typeOf id = t'.typeOf id
  filled : ∀ id, (t.defaultsOf id).map (·.isSome) = (t'.defaultsOf id).map (·.isSome)

namespace DeclTable.SameSlots

theorem refl (t : DeclTable) : t.SameSlots t := ⟨fun _ => rfl, fun _ => rfl⟩

variable {t t' : DeclTable}

/-- As many arguments are required. -/
theorem required (h : t.SameSlots t') (sig : Signature Ty) (target : CallTarget) :
    sig.required (Check.defaults t target) = sig.required (Check.defaults t' target) := by
  have hfilled : (Check.defaults t target).map (·.isSome) =
      (Check.defaults t' target).map (·.isSome) := by
    cases target with
    | function decl _ => exact h.filled decl
    | _ => rfl
  have hfirst := congrArg (List.findIdx? id) hfilled
  rw [List.findIdx?_map, List.findIdx?_map] at hfirst
  rw [Signature.required, Signature.required]
  exact congrArg (fun first => min (Option.getD first sig.params.length) sig.params.length) hfirst

end DeclTable.SameSlots

theorem Report.bind_congr_value {α β : Type} {r : Report α} {f g : α → Report β}
    (h : f r.value = g r.value) : r >>= f = r >>= g :=
  Report.ext (by simp only [Report.value_bind, h]) (by simp only [Report.errors_bind, h])

namespace Check

variable {decls : DeclTable}

/-! ## Completions that are asked for -/

section Congruence

variable {complete complete' : Completion}

/-- The completions that an operand asks for are the same. -/
def Agree (decls : DeclTable) (complete complete' : Completion) (v : Value) : Prop :=
  ∀ d ∈ v.expansion? decls, complete d.1 d.2 = complete' d.1 d.2

theorem call_congr {span : Span} {callee : DottedName} {args args' : List Expr}
    {target : Option CallTarget} {defaulted : Nat} (hlength : args'.length = args.length)
    (h : Agree decls complete complete' (.call span callee args target defaulted)) :
    call decls complete span callee args' target = call decls complete' span callee args' target := by
  cases target with
  | none => rfl
  | some t =>
    cases t with
    | function decl sig =>
      simp only [call, arguments, CallTarget.signature?, defaults, omitted]
      by_cases haccepts : sig.accepts (sig.required (decls.defaultsOf decl)) args'.length
      · have hsame : complete decl args'.length = complete' decl args'.length := by
          rw [hlength] at haccepts ⊢
          exact h (decl, args.length) (if_pos haccepts)
        rw [hsame]
      · simp only [haccepts, Bool.false_eq_true, if_false]
    | _ => rfl

mutual

/-- Checking an expression asks for no other completions than those of its calls. -/
theorem expr_congr : ∀ {e : Expr} {place : List DeclId},
    (∀ o ∈ e.operands place, Agree decls complete complete' o.value) →
      expr decls complete e = expr decls complete' e
  | .mk _ c, _, h => by
    rw [Expr.operands] at h
    rw [expr, expr, chain_congr h]

theorem chain_congr : ∀ {c : Chain} {place : List DeclId},
    (∀ o ∈ c.operands place, Agree decls complete complete' o.value) →
      chain decls complete c = chain decls complete' c
  | .operand _, _, h => by
    rw [Chain.operands] at h
    rw [chain, chain, value_congr h]
  | .link _ _ _, _, h => by
    simp only [Chain.operands, List.forall_mem_append] at h
    rw [chain, chain, value_congr h.1, chain_congr h.2]

theorem value_congr : ∀ {v : Value} {place : List DeclId},
    (∀ o ∈ v.operands place, Agree decls complete complete' o.value) →
      value decls complete v = value decls complete' v
  | .call span callee args target defaulted, _, h => by
    simp only [Value.operands, List.forall_mem_cons] at h
    rw [value, value, exprs_congr h.2]
    exact Report.bind_congr_value (call_congr (length_exprs args) h.1)
  | .index _ _ _, _, h => by
    simp only [Value.operands, List.forall_mem_cons, List.forall_mem_append] at h
    rw [value, value, value_congr h.2.1, expr_congr h.2.2]
  | .ref _ _, _, h => by
    simp only [Value.operands, List.forall_mem_cons] at h
    rw [value, value, value_congr h.2]
  | .prefixed _ _ _, _, h => by
    simp only [Value.operands, List.forall_mem_cons] at h
    rw [value, value, value_congr h.2]
  | .suffixed _ _ _, _, h => by
    simp only [Value.operands, List.forall_mem_cons] at h
    rw [value, value, value_congr h.2]
  | .paren _, _, h => by
    simp only [Value.operands, List.forall_mem_cons] at h
    rw [value, value, expr_congr h.2]
  | .number _, _, _ | .decimal _, _, _ | .string _, _, _ | .char _, _, _ | .bool _ _, _, _
  | .null _, _, _ | .ident _, _, _ => rfl

theorem exprs_congr : ∀ {es : List Expr} {place copied : List DeclId} {written : Nat},
    (∀ o ∈ Value.operandsEach place copied written es, Agree decls complete complete' o.value) →
      exprs decls complete es = exprs decls complete' es
  | [], _, _, _, _ => rfl
  | _ :: _, _, _, _, h => by
    simp only [Value.operandsEach, List.forall_mem_append] at h
    rw [exprs, exprs, expr_congr h.1, exprs_congr h.2]

end

/-- The listed completions are all that checking asks for. -/
theorem expr_eq_of_expansions {e : Expr}
    (h : ∀ d ∈ e.expansions decls, complete d.1 d.2 = complete' d.1 d.2) :
    expr decls complete e = expr decls complete' e := by
  apply expr_congr
  intro o ho d hd
  exact h d (List.mem_filterMap.mpr ⟨o, ho, hd⟩)

end Congruence

/-! ## Errors do not depend on completion -/

section Errors

variable {decls' : DeclTable} (complete complete' : Completion)

theorem errors_call (hslots : decls.SameSlots decls') (span : Span) (callee : DottedName)
    (args : List Expr) (target : Option CallTarget) :
    (call decls complete span callee (exprs decls complete args).value target).errors =
      (call decls' complete' span callee (exprs decls' complete' args).value target).errors := by
  cases target with
  | none => simp only [call, Report.errors_bind, Report.errors_pure]
  | some t =>
    simp only [call, arguments]
    cases t.signature? with
    | none => simp only [Report.errors_bind, Report.errors_pure]
    | some sig =>
      simp only [length_exprs, storeArgs_exprs, ← hslots.required]
      by_cases haccepts : sig.accepts (sig.required (defaults decls t)) args.length
      · simp only [haccepts, if_true, Report.errors_bind, Report.errors_pure]
      · simp only [haccepts, Bool.false_eq_true, if_false, Report.errors_bind, Report.errors_pure]

mutual

/-- The errors of an expression do not depend on what completes its calls, nor on what filled slots
hold. -/
theorem errors_expr (hslots : decls.SameSlots decls') : ∀ e : Expr,
    (expr decls complete e).errors = (expr decls' complete' e).errors
  | .mk _ c => by simp only [expr, Report.errors_bind, Report.errors_pure, errors_chain hslots c]

theorem errors_chain (hslots : decls.SameSlots decls') : ∀ c : Chain,
    (chain decls complete c).errors = (chain decls' complete' c).errors
  | .operand v => by simp only [chain, Report.errors_bind, Report.errors_pure, errors_value hslots v]
  | .link v _ rest => by
    simp only [chain, Report.errors_bind, Report.errors_pure, errors_value hslots v,
      errors_chain hslots rest]

theorem errors_value (hslots : decls.SameSlots decls') : ∀ v : Value,
    (value decls complete v).errors = (value decls' complete' v).errors
  | .call span callee args target _ => by
    simp only [value, Report.errors_bind, errors_exprs hslots args]
    rw [errors_call complete complete' hslots]
  | .index _ base position => by
    simp only [value, Report.errors_bind, Report.errors_pure, errors_value hslots base,
      errors_expr hslots position]
  | .ref span inner => by
    simp only [value, Report.errors_bind, Report.errors_pure, errors_value hslots inner,
      isAddressable_value, describe_value]
  | .prefixed _ _ inner => by
    simp only [value, Report.errors_bind, Report.errors_pure, errors_value hslots inner]
  | .suffixed _ _ inner => by
    simp only [value, Report.errors_bind, Report.errors_pure, errors_value hslots inner]
  | .paren inner => by
    simp only [value, Report.errors_bind, Report.errors_pure, errors_expr hslots inner]
  | .number _ | .decimal _ | .string _ | .char _ | .bool _ _ | .null _ | .ident _ => rfl

theorem errors_exprs (hslots : decls.SameSlots decls') : ∀ es : List Expr,
    (exprs decls complete es).errors = (exprs decls' complete' es).errors
  | [] => rfl
  | e :: es => by
    simp only [exprs, Report.errors_bind, Report.errors_pure, errors_expr hslots e,
      errors_exprs hslots es]

end

end Errors

theorem mem_errors_exprs {complete : Completion} {err : SemanticError} {es : List Expr} :
    err ∈ (exprs decls complete es).errors ↔ ∃ e ∈ es, err ∈ (expr decls complete e).errors := by
  induction es with
  | nil => simp [exprs]
  | cons e es ih =>
    simp only [exprs, Report.errors_bind, Report.errors_pure, List.append_nil, List.mem_append, ih,
      List.exists_mem_cons_iff]

/-- **Copies.** The errors of a completion are errors of the defaults that it copies. -/
theorem exists_default_of_completion {depth : Nat} {active : List DeclId} {decl : DeclId}
    {written : Nat} {err : SemanticError}
    (h : err ∈ (completion decls depth active decl written).errors) :
    ∃ i e, decls.slot? decl i = some (some e) ∧ err ∈ (expr decls (complete decls) e).errors := by
  cases depth with
  | zero => cases h
  | succ depth =>
    rw [completion] at h
    split_ifs at h with hactive
    · cases h
    · obtain ⟨e, he, herr⟩ := mem_errors_exprs.mp h
      have hslot : some e ∈ decls.defaultsOf decl :=
        List.mem_of_mem_drop (List.reduceOption_mem_iff.mp he)
      obtain ⟨i, hi⟩ := List.mem_iff_getElem?.mp hslot
      rw [errors_expr _ (complete decls) (.refl decls)] at herr
      exact ⟨i, e, hi, herr⟩

/-- Whatever is dropped is an error of some completion. -/
theorem exists_completion_of_dropped {err : SemanticError} {depth : Nat} {active : List DeclId}
    {e : Expr} (h : err ∈ dropped decls depth active e) :
    ∃ depth active decl written, err ∈ (completion decls depth active decl written).errors := by
  induction depth generalizing active e with
  | zero => cases h
  | succ depth ih =>
    rw [dropped] at h
    obtain ⟨⟨decl, written⟩, -, h⟩ := List.mem_flatMap.mp h
    dsimp only at h
    split_ifs at h with hactive
    · cases h
    · rcases List.mem_append.mp h with h | h
      · exact ⟨depth + 1, active, decl, written, h⟩
      · obtain ⟨copy, -, h⟩ := List.mem_flatMap.mp h
        exact ih h

/-! ## Defaults are checked where they are declared -/

section Declared

variable {err : SemanticError} {e : Expr}

theorem mem_errors_into {ty : Ty} (h : err ∈ (expr decls (complete decls) e).errors) :
    err ∈ (into decls ty e).errors := List.mem_append_left _ h

theorem mem_errors_params {ps : List Param} {tys : List Ty} (hlength : ps.length = tys.length)
    {p : Param} (hp : p ∈ ps) (hpe : p.default = some e)
    (h : err ∈ (expr decls (complete decls) e).errors) : err ∈ (params decls ps tys).errors := by
  induction ps generalizing tys with
  | nil => cases hp
  | cons q ps ih =>
    cases tys with
    | nil => cases hlength
    | cons ty tys =>
      rw [params]
      rcases List.mem_cons.mp hp with rfl | hp
      · rw [hpe]
        simp only [Report.errors_bind, List.mem_append]
        exact .inl (mem_errors_into h)
      · have hrest := ih (Nat.succ.inj hlength) hp
        cases q.default with
        | none =>
          simp only [Report.errors_bind, List.mem_append]
          exact .inr (.inl hrest)
        | some d =>
          simp only [Report.errors_bind, List.mem_append]
          exact .inr (.inr (.inl hrest))

theorem mem_errors_function {f : Function} {sig : Signature Ty} (hsig : f.sig = some sig)
    (h : err ∈ (params decls f.params sig.params).errors) : err ∈ (function decls f).errors := by
  rw [function, hsig]
  exact List.mem_append_left _ h

theorem mem_errors_nodes {ns : List Node} {n : Node} (hn : n ∈ ns)
    (h : err ∈ (node decls n).errors) : err ∈ (nodes decls ns).errors := by
  induction ns with
  | nil => cases hn
  | cons m ms ih =>
    simp only [nodes, Report.errors_bind, List.mem_append]
    rcases List.mem_cons.mp hn with rfl | hn
    · exact .inl h
    · exact .inr (.inl (ih hn))

end Declared

end Check

section Unit

variable {unit unit' : SourceUnit} {context : SemanticContext}

/-- What a completion finds has been found where the default is declared. -/
theorem SourceUnit.errors_completion (h : unit.resolve = (unit', .ok context)) {depth : Nat}
    {active : List DeclId} {decl : DeclId} {written : Nat} :
    ∀ err ∈ (Check.completion context.decls depth active decl written).errors,
      err ∈ (unit'.check context).errors := by
  intro err herr
  obtain ⟨i, e, hslot, herr⟩ := Check.exists_default_of_completion herr
  obtain ⟨f, p, hf, -, hp, hpe⟩ := default_of_slot h hslot
  obtain ⟨id, sig, -, hsig, hlength, -, -⟩ := resolve_slots h hf
  have hparams := Check.mem_errors_params hlength (List.mem_of_getElem? hp) hpe herr
  have hfunction := Check.mem_errors_function hsig hparams
  have hnode : err ∈ (Check.node context.decls (.function f)).errors :=
    List.mem_append_left _ hfunction
  exact List.mem_append_left _ (Check.mem_errors_nodes hf hnode)

/-- **Dropped errors.** Every error that is dropped in a copy of a default is reported for the unit,
and if nothing is reported, completions find no errors. -/
theorem dropped_errors_are_reported (h : unit.resolve = (unit', .ok context)) :
    (∀ err ∈ unit'.dropped context, err ∈ (unit'.check context).errors) ∧
      ((unit'.check context).errors = [] → ∀ depth active decl written,
        (Check.completion context.decls depth active decl written).errors = []) := by
  constructor
  · intro err herr
    obtain ⟨n, -, herr⟩ := List.mem_flatMap.mp herr
    obtain ⟨e, -, herr⟩ := List.mem_flatMap.mp herr
    obtain ⟨depth, active, decl, written, herr⟩ := Check.exists_completion_of_dropped herr
    exact SourceUnit.errors_completion h err herr
  · intro hnone depth active decl written
    apply List.eq_nil_iff_forall_not_mem.mpr
    intro err herr
    have hreported := SourceUnit.errors_completion h err herr
    rw [hnone] at hreported
    cases hreported

end Unit

/-- The default of `f` lacks an argument, which is reported once and dropped once. -/
theorem missing_argument_is_reported : ∃ unit unit' context,
    SourceUnit.parse 0
        "int g(int a) { return a }\nint f(int x = g()) { return x }\nint main() { return f() }" =
      .ok unit ∧
    unit.resolve = (unit', .ok context) ∧ (unit'.dropped context).length = 1 ∧
    ∀ err ∈ unit'.dropped context, err ∈ (unit'.check context).errors := by
  have hok : ((SourceUnit.parse 0
      "int g(int a) { return a }\nint f(int x = g()) { return x }\nint main() { return f() }"
      ).toOption.any fun unit => unit.resolve.2.toOption.any fun context =>
        (unit.resolve.1.dropped context).length == 1) = true := by
    rw [SourceUnit.parse_ofList]
    decide +kernel
  obtain ⟨unit, unit', context, hparse, hresolve, hlength⟩ := SourceUnit.exists_resolved
    (p := fun unit' context => (unit'.dropped context).length == 1) hok
  exact ⟨unit, unit', context, hparse, hresolve, eq_of_beq hlength,
    (dropped_errors_are_reported hresolve).1⟩

end KilnLang
