import KilnLang.Proofs.Header.MacroDefinitions
import KilnLang.Proofs.Semantic.AliasSources
import KilnLang.Proofs.Semantic.ResolvedExpressions

/-!
# Calls of macros

A header declares how many arguments a macro takes, and every call of the macro is held to it.
Resolving a unit reports one error for each call that does not fit, whatever else it reports
(`SourceUnit.Unresolved.errors_perm`): environments add none of their own, and the errors of a call
stand in the order in which its arguments and its callee are resolved.
-/

namespace KilnLang

/-- The number of arguments that a macro takes: that of its names, or at least that many. -/
def ArgCount.ofMacro (arity : Nat) (variadic : Bool) : ArgCount :=
  if variadic then .atLeast arity else .exactly arity

/-- A macro does not take that number of arguments. -/
def Misfits (arity : Nat) (variadic : Bool) (count : Nat) : Prop :=
  if variadic then count < arity else count ≠ arity

instance (arity : Nat) (variadic : Bool) (count : Nat) : Decidable (Misfits arity variadic count) :=
  inferInstanceAs (Decidable (if variadic then count < arity else count ≠ arity))

/-- The error of a call with `count` arguments, if its callee is bound to a macro that takes another
number of them. -/
def DottedName.macroArityError? (callee : DottedName) (count : Nat) (span : Span) :
    Option SemanticError :=
  match callee.binding? with
  | some (.macroFunction arity variadic) =>
    if Misfits arity variadic count then
      some (.macroArityMismatch callee.text (.ofMacro arity variadic) count span)
    else none
  | _ => none

theorem DottedName.macroArityError?_eq_some {callee : DottedName} {count : Nat} {span : Span}
    {error : SemanticError} : callee.macroArityError? count span = some error ↔
      ∃ arity variadic, callee.binding? = some (.macroFunction arity variadic) ∧
        Misfits arity variadic count ∧
        error = .macroArityMismatch callee.text (.ofMacro arity variadic) count span := by
  unfold macroArityError?
  constructor
  · intro h
    split at h
    · rename_i arity variadic hbinding
      obtain ⟨hmisfits, heq⟩ := Option.ite_none_right_eq_some.mp h
      exact ⟨arity, variadic, hbinding, hmisfits, (Option.some.inj heq).symm⟩
    · cases h
  · rintro ⟨arity, variadic, hbinding, hmisfits, rfl⟩
    simp only [hbinding, if_pos hmisfits]

theorem ArgCount.ofMacro_inj {k k' : Nat} {variadic variadic' : Bool}
    (h : ofMacro k variadic = ofMacro k' variadic') : k = k' ∧ variadic = variadic' := by
  cases variadic <;> cases variadic' <;> cases h <;> exact ⟨rfl, rfl⟩

/-- The error of an operand that calls a macro with a wrong number of arguments. -/
def Value.macroArityError? : Value → Option SemanticError
  | .call span callee args _ _ => callee.macroArityError? args.length span
  | _ => none

theorem Value.exists_call {v : Value} {error : SemanticError}
    (h : v.macroArityError? = some error) : ∃ span callee args called defaulted,
      v = .call span callee args called defaulted ∧
        callee.macroArityError? args.length span = some error := by
  unfold macroArityError? at h
  split at h
  · exact ⟨_, _, _, _, _, rfl, h⟩
  · cases h

/-- The errors of the operands that call macros. -/
def Operand.macroArityErrors (operands : List Operand) : List SemanticError :=
  operands.filterMap (·.value.macroArityError?)

@[simp] theorem Operand.macroArityErrors_append (os os' : List Operand) :
    macroArityErrors (os ++ os') = macroArityErrors os ++ macroArityErrors os' :=
  List.filterMap_append

theorem Operand.macroArityErrors_cons (o : Operand) (os : List Operand) :
    macroArityErrors (o :: os) = o.value.macroArityError?.toList ++ macroArityErrors os := by
  rw [macroArityErrors, List.filterMap_cons]
  cases o.value.macroArityError? <;> rfl

theorem Operand.macroArityErrors_cons_other {o : Operand} {os : List Operand}
    (h : o.value.macroArityError? = none) : macroArityErrors (o :: os) = macroArityErrors os :=
  List.filterMap_cons_none h

namespace Env

variable {env : Env} {name : DottedName}

theorem errors_find (name : DottedName) : macroArityErrors (env.find name).errors = [] := by
  unfold find
  split
  · exact macroArityErrors_alias _
  · rw [macroArityErrors_append, macroArityErrors_alias]
    rfl

theorem errors_ident (name : DottedName) : macroArityErrors (env.ident name).errors = [] := by
  simp only [ident, Report.errors_bind, macroArityErrors_append, errors_find, List.nil_append]
  cases (env.find name).value with
  | none => rfl
  | some found => cases hbinding : found.binding <;> simp only [hbinding] <;> rfl

/-- Binding the target of a call finds the error that the call has with the bound callee. -/
theorem errors_target (name : DottedName) (count : Nat) (span : Span) (found : Resolution) :
    macroArityErrors (target name.text count span found).errors =
      (DottedName.macroArityError? { name with resolved := some found } count span).toList := by
  obtain ⟨binding, ty⟩ := found
  unfold target DottedName.macroArityError? DottedName.binding?
  cases binding with
  | macroFunction k variadic =>
    have hwrong : (!(if variadic then decide (k ≤ count) else count == k)) =
        decide (Misfits k variadic count) := by
      cases variadic with
      | false => exact Bool.eq_iff_iff.mpr (by simp [Misfits])
      | true => exact Bool.eq_iff_iff.mpr (by simp [Misfits])
    show macroArityErrors ((Report.errorIf (!(if variadic then decide (k ≤ count) else count == k))
      (.macroArityMismatch name.text (.ofMacro k variadic) count span)).errors ++ []) =
        Option.toList (if Misfits k variadic count then _ else none)
    rw [hwrong, List.append_nil, Report.errorIf]
    by_cases h : Misfits k variadic count
    · rw [decide_eq_true h, if_pos h]
      rfl
    · rw [decide_eq_false h, if_neg h]
      rfl
  | function decl => cases ty <;> rfl
  | type =>
    show macroArityErrors ((Report.errorIf (count != 1) _).errors ++ []) = []
    cases count != 1 <;> rfl
  | _ => rfl

theorem errors_callee (h : name.resolved = none) (count : Nat) (span : Span) :
    macroArityErrors (env.callee name count span).errors =
      ((env.callee name count span).value.1.macroArityError? count span).toList := by
  simp only [callee, Report.errors_bind, Report.value_bind, macroArityErrors_append, errors_find,
    List.nil_append]
  cases (env.find name).value with
  | none => simp [DottedName.macroArityError?, DottedName.binding?, h]
  | some found =>
    have hcallable : ∀ wrong, macroArityErrors
        (Report.errorIf wrong (.notCallable name.text name.span)).errors = [] := by
      intro wrong
      cases wrong <;> rfl
    simp only [Report.errors_bind, macroArityErrors_append, errors_target, hcallable]
    exact List.append_nil _

mutual

/-- An expression without bound names has the errors of its calls, once they are resolved: those of
the arguments of a call before that of the call. -/
theorem errors_expr : ∀ {e : Expr}, e.Every (·.resolved = none) → ∀ inside,
    (macroArityErrors (env.expr e).errors).Perm
      (Operand.macroArityErrors ((env.expr e).value.operands inside))
  | .mk _ c, h, inside => by
    simp only [expr, Report.errors_bind, Report.errors_pure, List.append_nil, Report.value_bind,
      Report.value_pure, Expr.operands]
    exact errors_chain h inside

theorem errors_chain : ∀ {c : Chain}, (∀ n ∈ c.names, n.resolved = none) → ∀ inside,
    (macroArityErrors (env.chain c).errors).Perm
      (Operand.macroArityErrors ((env.chain c).value.operands inside))
  | .operand v, h, inside => by
    simp only [chain, Report.errors_bind, Report.errors_pure, List.append_nil, Report.value_bind,
      Report.value_pure, Chain.operands]
    exact errors_value h inside
  | .link v _ rest, h, inside => by
    rw [Chain.names, List.forall_mem_append] at h
    simp only [chain, Report.errors_bind, Report.errors_pure, List.append_nil, Report.value_bind,
      Report.value_pure, Chain.operands, macroArityErrors_append, Operand.macroArityErrors_append]
    exact (errors_value h.1 inside).append (errors_chain h.2 inside)

theorem errors_value : ∀ {v : Value}, (∀ n ∈ v.names, n.resolved = none) → ∀ inside,
    (macroArityErrors (env.value v).errors).Perm
      (Operand.macroArityErrors ((env.value v).value.operands inside))
  | .ident name, _, inside => by
    simp only [value, Report.errors_bind, Report.errors_pure, List.append_nil, errors_ident]
    exact .refl _
  | .call span callee args target defaulted, h, inside => by
    rw [Value.names, List.forall_mem_cons] at h
    simp only [value, Report.errors_bind, Report.errors_pure, List.append_nil, Report.value_bind,
      Report.value_pure, Value.operands, macroArityErrors_append, Operand.macroArityErrors_cons,
      errors_callee h.1]
    exact List.perm_append_comm.trans ((List.Perm.refl _).append (errors_exprs h.2 _ _ _))
  | .index _ base position, h, inside => by
    rw [Value.names, List.forall_mem_append] at h
    simp only [value, Report.errors_bind, Report.errors_pure, List.append_nil, Report.value_bind,
      Report.value_pure, Value.operands, macroArityErrors_append]
    rw [Operand.macroArityErrors_cons_other rfl, Operand.macroArityErrors_append]
    exact (errors_value h.1 inside).append (errors_expr h.2 inside)
  | .ref _ inner, h, inside | .prefixed _ _ inner, h, inside | .suffixed _ _ inner, h, inside => by
    simp only [value, Report.errors_bind, Report.errors_pure, List.append_nil, Report.value_bind,
      Report.value_pure, Value.operands]
    rw [Operand.macroArityErrors_cons_other rfl]
    exact errors_value (v := inner) h inside
  | .paren inner, h, inside => by
    simp only [value, Report.errors_bind, Report.errors_pure, List.append_nil, Report.value_bind,
      Report.value_pure, Value.operands]
    rw [Operand.macroArityErrors_cons_other rfl]
    exact errors_expr (e := inner) h inside
  | .number _, _, _ | .decimal _, _, _ | .string _, _, _ | .char _, _, _ | .bool _ _, _, _
  | .null _, _, _ => .refl _

theorem errors_exprs : ∀ {es : List Expr}, (∀ n ∈ Value.namesEach es, n.resolved = none) →
    ∀ inside copied written, (macroArityErrors (env.exprs es).errors).Perm
      (Operand.macroArityErrors (Value.operandsEach inside copied written (env.exprs es).value))
  | [], _, _, _, _ => .refl _
  | e :: es, h, inside, copied, written => by
    rw [Value.namesEach, List.forall_mem_append] at h
    simp only [exprs, Report.errors_bind, Report.errors_pure, List.append_nil, Report.value_bind,
      Report.value_pure, Value.operandsEach, macroArityErrors_append,
      Operand.macroArityErrors_append]
    exact (errors_expr h.1 _).append (errors_exprs h.2 _ _ _)

end

end Env

theorem ResolvesEach.errors_perm {known : SemanticContext} {es es' : List Expr}
    {errors : List SemanticError} (h : ResolvesEach known es es' errors)
    (hes : ∀ e ∈ es, e.Every (·.resolved = none)) :
    errors.Perm (Operand.macroArityErrors (es'.flatMap (·.operands []))) := by
  induction h with
  | nil => exact .refl _
  | cons henv e hrest ih =>
    obtain ⟨he, hes⟩ := List.forall_mem_cons.mp hes
    rw [List.flatMap_cons, Operand.macroArityErrors_append]
    exact (Env.errors_expr he []).append (ih hes)

/-- The operands of a unit, those of arguments included. -/
def SourceUnit.operands (unit : SourceUnit) : List Operand :=
  (unit.nodes.flatMap Node.exprs).flatMap (·.operands [])

/-- The errors about the number of arguments of macros are those of the calls of the resolved unit.
-/
theorem SourceUnit.Unresolved.errors_perm {unit : SourceUnit} (h : unit.Unresolved) :
    (macroArityErrors unit.resolutionErrors).Perm
      (Operand.macroArityErrors unit.resolve.1.operands) := by
  refine unit.resolvesEach.errors_perm fun e he => ?_
  obtain ⟨n, hn, he⟩ := List.mem_flatMap.mp he
  exact h n hn e he

/-- A call of a macro is reported exactly if it does not fit. -/
theorem SourceUnit.Unresolved.mismatch_iff {unit : SourceUnit} (h : unit.Unresolved) {o : Operand}
    (ho : o ∈ unit.resolve.1.operands) {span : Span} {callee : DottedName} {args : List Expr}
    {called : Option CallTarget} {defaulted : Nat}
    (hcall : o.value = .call span callee args called defaulted) {k : Nat} {variadic : Bool}
    (hbound : callee.binding? = some (.macroFunction k variadic)) :
    .macroArityMismatch callee.text (.ofMacro k variadic) args.length span ∈ unit.resolutionErrors ↔
      Misfits k variadic args.length := by
  have hreported : ∀ error : SemanticError, error.isMacroArity = true →
      (error ∈ unit.resolutionErrors ↔
        ∃ o ∈ unit.resolve.1.operands, o.value.macroArityError? = some error) := by
    intro error herror
    rw [← List.mem_filterMap, ← Operand.macroArityErrors, ← h.errors_perm.mem_iff, macroArityErrors,
      List.mem_filter, and_iff_left herror]
  rw [hreported _ rfl]
  constructor
  · rintro ⟨o', -, herror⟩
    obtain ⟨_, _, args', _, _, -, herror⟩ := Value.exists_call herror
    obtain ⟨k', variadic', -, hmisfits, heq⟩ := DottedName.macroArityError?_eq_some.mp herror
    injection heq with _ hcount hargs
    obtain ⟨rfl, rfl⟩ := ArgCount.ofMacro_inj hcount
    rwa [hargs]
  · intro hmisfits
    refine ⟨o, ho, ?_⟩
    rw [hcall]
    exact DottedName.macroArityError?_eq_some.mpr ⟨k, variadic, hbound, hmisfits, rfl⟩

/-! ## Macros of headers -/

/-- A header that the parts include has a macro of this name with these parameters. -/
def HasMacro (nodes : List Node) (name : String) (arity : Nat) (variadic : Bool) : Prop :=
  ∃ span path table value, .header ⟨span, path, some table⟩ ∈ nodes ∧
    .macroFn name arity variadic value ∈ table.symbols

namespace Resolver

/-- The macros among the entries are those of headers, whatever the aliases are. -/
def MacrosFrom (nodes : List Node) (bridge : List (String × (AliasTable → BridgeSymbol))) : Prop :=
  ∀ p ∈ bridge, ∀ aliases k variadic ty, p.2 aliases = .macroFn k variadic ty →
    HasMacro nodes p.1 k variadic

theorem MacrosFrom.add {nodes : List Node} {span : Span} {path : List Ident} {table : HeaderTable}
    (hnode : .header ⟨span, path, some table⟩ ∈ nodes) {symbol : HeaderSymbol}
    (hsymbol : symbol ∈ table.symbols) {b : Bridging} (h : MacrosFrom nodes b.bridge) :
    MacrosFrom nodes (b.add span symbol).bridge := by
  unfold Bridging.add
  dsimp only
  split
  · exact h
  · split
    · split <;> exact h
    · rename_i entry _ hentry
      refine List.forall_mem_append.mpr ⟨h, List.forall_mem_singleton.mpr ?_⟩
      intro aliases k variadic ty hcalled
      cases symbol <;> cases hentry <;> cases hcalled
      exact ⟨span, path, table, _, hnode, hsymbol⟩
    · exact h

end Resolver

/-- What the unit knows as a macro with parameters is one of a header. -/
theorem SourceUnit.hasMacro_of_bridge {unit : SourceUnit} {name : String} {k : Nat}
    {variadic : Bool} {ty : Ty} (h : unit.known.bridge.lookup name = some (.macroFn k variadic ty)) :
    HasMacro unit.nodes name k variadic := by
  have hmacros := Resolver.Bridging.addNodes_induction
    (P := fun b => Resolver.MacrosFrom unit.nodes b.bridge)
    (fun _ _ _ hnode _ hsymbol _ hb => hb.add hnode hsymbol)
    (b := ⟨.empty, []⟩) (List.forall_mem_nil _)
  have hmem : (name, BridgeSymbol.macroFn k variadic ty) ∈
      (Resolver.bridgeContext unit.nodes).bridge := by
    obtain ⟨before, after, heq, -⟩ := List.lookup_eq_some_iff.mp h
    exact heq ▸ List.mem_append_right _ List.mem_cons_self
  obtain ⟨p, hp, heq⟩ := List.mem_map.mp hmem
  obtain ⟨rfl, hentry⟩ := Prod.mk.inj heq
  exact hmacros p hp _ _ _ _ hentry

/-- A call of the resolved unit that is bound to a macro is bound to one of a header. -/
theorem SourceUnit.Unresolved.hasMacro_of_call {unit : SourceUnit} (h : unit.Unresolved)
    {o : Operand} (ho : o ∈ unit.resolve.1.operands) {callee : DottedName}
    (hcallee : o.value.name? = some callee) {k : Nat} {variadic : Bool}
    (hbound : callee.binding? = some (.macroFunction k variadic)) :
    ∃ text, callee.parts.map (·.text) = [text] ∧ HasMacro unit.nodes text k variadic := by
  obtain ⟨e, he, ho⟩ := List.mem_flatMap.mp ho
  obtain ⟨n, hn, he⟩ := List.mem_flatMap.mp he
  obtain ⟨env, henv, hfound⟩ := h.exists_env hn he
  obtain ⟨⟨_, ty⟩, hresolved, rfl⟩ := Option.map_eq_some_iff.mp hbound
  obtain ⟨text, htext, hbridge⟩ := henv.lookup_macroFunction
    (hfound callee (Expr.name_mem_names o ho callee hcallee) _ hresolved)
  exact ⟨text, htext, hasMacro_of_bridge hbridge⟩

open Header in
/-- A macro with parameters takes as many arguments as its list has names, or more if the list ends
in dots: a definition whose parenthesis touches the name gives the macro that its list of parameters
declares, or only a warning if there is no such list, and resolving a unit reports exactly the calls
of macros that do not fit. -/
theorem macro_arity_declared_and_enforced :
    (∀ before gap blanks name rest, EndsLine before → Separates gap blanks → IsIdentifier name →
      ∃ line ∈ linesOf (String.ofList (before ++ openingOf gap name ++ rest)),
        line.number = before.count '\n' + 1 ∧
        (∀ arity variadic body, Declares rest arity variadic body →
          line.Adds (.macroFn (String.ofList name) arity variadic (bodyAt body)) ∧
            .macroFn (String.ofList name) arity variadic (bodyAt body) ∈
              (scan (String.ofList (before ++ openingOf gap name ++ rest))).symbols) ∧
        ((∀ arity variadic body, ¬ Declares rest arity variadic body) →
          ∃ flaw ∈ [.unterminatedParameters (String.ofList name),
              .invalidParameters (String.ofList name)],
            line.Warns flaw ∧ (line.number, flaw) ∈
              (scan (String.ofList (before ++ openingOf gap name ++ rest))).warnings)) ∧
    (∀ unit : SourceUnit, unit.Unresolved →
      (macroArityErrors unit.resolutionErrors).Perm
        (Operand.macroArityErrors unit.resolve.1.operands) ∧
      ∀ o ∈ unit.resolve.1.operands, ∀ span callee args called defaulted,
        o.value = .call span callee args called defaulted → ∀ k variadic,
        callee.binding? = some (.macroFunction k variadic) →
          (∃ text, callee.parts.map (·.text) = [text] ∧ HasMacro unit.nodes text k variadic) ∧
          (.macroArityMismatch callee.text (.ofMacro k variadic) args.length span ∈
            unit.resolutionErrors ↔ Misfits k variadic args.length)) := by
  refine ⟨fun before gap blanks name rest hbefore hgap hname => ?_, fun unit h => ?_⟩
  · have hline := exists_definition_line hbefore hgap hname rest
    refine ⟨_, hline, rfl, fun arity variadic body hlist => ?_, fun hnone => ?_⟩
    · have hadds := adds_of_declares hgap hname hlist (before.count '\n' + 1)
      exact ⟨hadds, mem_symbols_of_adds hline hadds⟩
    · obtain ⟨flaw, hflaw, hwarns⟩ := warns_of_not_declares hgap hname hnone _
      exact ⟨flaw, hflaw, hwarns, mem_warnings_of_warns hline hwarns⟩
  · refine ⟨h.errors_perm, fun o ho span callee args called defaulted hcall k variadic hbound => ?_⟩
    exact ⟨h.hasMacro_of_call ho (by rw [hcall]; rfl) hbound, h.mismatch_iff ho hcall hbound⟩

open Header in
/-- A macro with two names and dots, and a call of it with one argument. -/
theorem variadic_macro_mismatch_reported :
    (∃ line ∈ linesOf "// at least two\n#define M(a, /* and */ b, \\\n  ...) f(a, b)\n",
      line.number = 2 ∧ line.Adds (.macroFn "M" 2 true .other)) ∧
    (∃ line ∈ linesOf "#define M(1)\n", ∃ flaw, line.Warns flaw) ∧
    ∃ unit bridged span, SourceUnit.parse 0 "include m\nint x = M(1)\n" = .ok unit ∧
      ((unit.bridge (.memory [("m.h", "#define M(a, b, ...) f(a, b)\n")])).run .empty).1 =
        .ok bridged ∧
      .macroArityMismatch "M" (.atLeast 2) 1 span ∈ bridged.resolutionErrors := by
  have hgap : Separates [' '] [' '] :=
    ⟨.of_calm (by decide), List.forall_mem_singleton.mpr (by decide), by decide⟩
  have hname : IsIdentifier ['M'] := ⟨'M', [], rfl, by decide, List.forall_mem_nil _⟩
  refine ⟨?_, ?_, ?_⟩
  · have hbefore : EndsLine "// at least two\n".toList :=
      .inr ⟨[' '], fun _ => rfl, by rintro raw ⟨⟩; rfl⟩
    have hlist : Declares "a, /* and */ b, \\\n  ...) f(a, b)\n".toList 2 true
        " f(a, b)\n".toList := by
      have hand := @Spacing.comment [' ', 'a', 'n', 'd', ' '] (by decide) (by decide)
      have hbreak := @Spacing.continued [] (.inl rfl)
      have hdots : Reads WideSpacing "  ...".toList "  ...".toList := .of_calm (by decide)
      have hb : Reads WideSpacing " b, ".toList " b, ".toList := .of_calm (by decide)
      have ha : Reads WideSpacing "a, ".toList "a, ".toList := .of_calm (by decide)
      have hlist := ha.append (.space (.spacing hand) (hb.append (.space (.spacing hbreak) hdots)))
      exact ⟨_, _, rfl, hlist, macroParams?_eq_some.mp (by decide)⟩
    obtain ⟨line, hline, hnumber, hadds, -⟩ := macro_arity_declared_and_enforced.1
      _ _ _ _ "a, /* and */ b, \\\n  ...) f(a, b)\n".toList hbefore hgap hname
    have hbody : bodyAt " f(a, b)\n".toList = .other := by decide +kernel
    exact ⟨line, hline, hnumber, hbody ▸ (hadds 2 true _ hlist).1⟩
  · obtain ⟨line, hline, -, -, hwarns⟩ := macro_arity_declared_and_enforced.1
      [] _ _ _ "1)\n".toList (.inl rfl) hgap hname
    obtain ⟨flaw, -, hwarns, -⟩ := hwarns fun arity variadic body hlist => by
      -- A number is no parameter.
      have hinvalid : definition ([' '] ++ ['M'] ++ '(' ::
          lineText (stripComments .plain "1)\n".toList)) = .error (.invalidParameters "M") := by
        decide +kernel
      exact nomatch hinvalid.symm.trans (definition_of_declares hgap.blank hname hlist)
    exact ⟨line, hline, flaw, hwarns⟩
  · have hok : ((SourceUnit.parse 0 "include m\nint x = M(1)\n").toOption.any fun unit =>
        ((unit.bridge (.memory [("m.h", "#define M(a, b, ...) f(a, b)\n")])).run
          .empty).1.toOption.any fun bridged =>
          bridged.resolve.1.operands.any fun o => match o.value with
            | .call _ callee args _ _ => callee.text == "M" && args.length == 1 &&
                callee.binding? == some (.macroFunction 2 true)
            | _ => false) = true := by
      decide +kernel
    obtain ⟨unit, bridged, hparse, hbridge, hunresolved, hp⟩ := SourceUnit.exists_bridged hok
    obtain ⟨o, ho, hcall⟩ := List.any_eq_true.mp hp
    split at hcall
    · rename_i span callee args called defaulted hvalue
      simp only [Bool.and_eq_true, beq_iff_eq] at hcall
      obtain ⟨⟨htext, hcount⟩, hbound⟩ := hcall
      have hreported := ((macro_arity_declared_and_enforced.2 bridged hunresolved).2
        o ho _ _ _ _ _ hvalue _ _ hbound).2
      rw [htext, hcount] at hreported
      exact ⟨unit, bridged, span, hparse, hbridge, hreported.mpr (by decide)⟩
    · cases hcall

open Header in
/-- A backslash before a comment with a line break joins two lines of a list, though no line ends
in it. -/
theorem backslash_before_comment_continues :
    (scan "#define M(a, \\/*\n*/ b)\n").symbols = [.macroFn "M" 2 false .other] ∧
    (scan "#define M(a, \\/*\n*/ b)\n").warnings = [] ∧
    ¬ ∃ list params body arity variadic, "a, \\/*\n*/ b)\n".toList = list ++ ')' :: body ∧
      Reads Spacing list params ∧ IsParams params arity variadic := by
  refine ⟨by decide +kernel, by decide +kernel, ?_⟩
  rintro ⟨list, params, body, -, -, heq, hreads, -⟩
  have hstart : ['a', ',', ' ', '\\', '/'] ++ "*\n*/ b)\n".toList = list ++ ')' :: body := heq
  rcases List.append_eq_append_iff.mp hstart with ⟨more, rfl, -⟩ | ⟨more, hlist, hmore⟩
  · exact not_reads_backslash ['a', ',', ' '] (by decide) hreads
  · cases more with
    | nil => exact nomatch hmore
    | cons c more =>
      obtain rfl := (List.cons.inj hmore).1
      have hmem : ')' ∈ ['a', ',', ' ', '\\', '/'] := hlist ▸ by simp
      exact absurd hmem (by decide)

end KilnLang
