import KilnLang.Proofs.Semantic.DroppedErrors
import KilnLang.Proofs.Semantic.Parentheses
import KilnLang.Proofs.Semantic.SpanlessChecking

/-!
# Parentheses in a unit

`SourceUnit.AddsParens` puts parentheses around one operand of a unit: an initial value, a default, an
assigned or a returned value, or an argument, however deep it stands. It knows the type that the
operand is checked against, if there is one: arguments of macros and casts are not checked, nor are
those that follow the parameters without a type or come with a wrong number of others.

**Theorem (`parentheses_are_redundant_iff`).** The unit breaks the same rules before and after exactly
if the operand is not checked or its slot does not mind the parentheses. So then it is accepted with
them if and only if it is accepted without them.

**Counterexample (`parenthesized_reference_is_accepted`).** An explicit reference is rejected where a
number is expected, and accepted there in parentheses.

Storing does not look at arguments (`Ty.store_withoutArgs`), so parentheses around an argument show
only where the argument itself is checked (`Check.ShowsParens`). Everything beside it has the same
errors before and after, also if the parentheses are in a default and the table holds another copy of
it (`Check.errors_expr`, `Check.codes_stmt`). These errors cancel, construct by construct.
-/

namespace KilnLang

/-- Parentheses around the operand do not change what is reported of the slot, if there is one. -/
def Value.IgnoresParens (v : Value) (slot : Option Ty) : Prop :=
  ∀ t ∈ slot, t.mindsParens v = false

/-! ## Adding parentheses -/

/-- The type that argument `i` of a call with `count` arguments is checked against, if there is one.
No argument is checked if the call may not have so many. -/
def CallTarget.slot? (decls : DeclTable) (t : CallTarget) (count i : Nat) : Option Ty :=
  t.signature?.bind fun sig =>
    if sig.accepts (sig.required (Check.defaults decls t)) count then
      sig.params[i]?.or sig.rest.elem?
    else none

section Parentheses

variable (decls : DeclTable) (slot : Option Ty) (v : Value)

mutual

/-- The second expression is the first one with parentheses around `v`, an argument of one of its
calls that is checked against `slot`. -/
inductive Expr.AddsParens : Expr → Expr → Prop
  | mk {span : Span} {c c' : Chain} (h : Chain.AddsParens c c') :
    Expr.AddsParens (.mk span c) (.mk span c')

/-- The second chain is the first one with parentheses around an argument. -/
inductive Chain.AddsParens : Chain → Chain → Prop
  | operand {w w' : Value} (h : Value.AddsParens w w') :
    Chain.AddsParens (.operand w) (.operand w')
  | first {w w' : Value} {op : Operator} {rest : Chain} (h : Value.AddsParens w w') :
    Chain.AddsParens (.link w op rest) (.link w' op rest)
  | rest {w : Value} {op : Operator} {rest rest' : Chain} (h : Chain.AddsParens rest rest') :
    Chain.AddsParens (.link w op rest) (.link w op rest')

/-- The second operand is the first one with parentheses around an argument. -/
inductive Value.AddsParens : Value → Value → Prop
  | arg {span : Span} {callee : DottedName} {before after : List Expr} {e e' : Expr}
      {target : Option CallTarget} {defaulted : Nat}
      (h : Expr.StoresParens
        (target.bind (·.slot? decls (before ++ e :: after).length before.length)) e e') :
    Value.AddsParens (.call span callee (before ++ e :: after) target defaulted)
      (.call span callee (before ++ e' :: after) target defaulted)
  | base {span : Span} {w w' : Value} {position : Expr} (h : Value.AddsParens w w') :
    Value.AddsParens (.index span w position) (.index span w' position)
  | position {span : Span} {base : Value} {e e' : Expr} (h : Expr.AddsParens e e') :
    Value.AddsParens (.index span base e) (.index span base e')
  | ref {span : Span} {w w' : Value} (h : Value.AddsParens w w') :
    Value.AddsParens (.ref span w) (.ref span w')
  | prefixed {span : Span} {op : UnaryOp} {w w' : Value} (h : Value.AddsParens w w') :
    Value.AddsParens (.prefixed span op w) (.prefixed span op w')
  | suffixed {span : Span} {op : UnaryOp} {w w' : Value} (h : Value.AddsParens w w') :
    Value.AddsParens (.suffixed span op w) (.suffixed span op w')
  | paren {e e' : Expr} (h : Expr.AddsParens e e') : Value.AddsParens (.paren e) (.paren e')

/-- The second expression is the first one with parentheses around `v`, which is the whole
expression and what is stored is checked against the first type, or which is an argument in it. -/
inductive Expr.StoresParens : Option Ty → Expr → Expr → Prop
  | whole {place outer inner : Span} :
    Expr.StoresParens slot (.mk place (.operand v))
      (.mk outer (.operand (.paren (.mk inner (.operand v)))))
  | within {here : Option Ty} {e e' : Expr} (h : Expr.AddsParens e e') :
    Expr.StoresParens here e e'

end

/-- The second variable is the first one with parentheses around an operand of its initial value. -/
inductive VarDecl.AddsParens : VarDecl → VarDecl → Prop
  | init {var : VarDecl} {e e' : Expr}
      (h : e.StoresParens decls slot v (some (decls.typeOf var.decl)) e') :
    AddsParens { var with init := some e } { var with init := some e' }

/-- The second guard is the first one with parentheses around an argument. -/
inductive Guard.AddsParens : Guard → Guard → Prop
  | first {e e' : Expr} (h : e.AddsParens decls slot v e') : AddsParens (.first e) (.first e')
  | next {e e' : Expr} (h : e.AddsParens decls slot v e') : AddsParens (.next e) (.next e')

mutual

/-- The second statement of a function that returns `returned` is the first one with parentheses
around `v`, which is stored or is an argument. Compound assignments and functions that return nothing
check no type. -/
inductive Stmt.AddsParens (returned : Ty) : Stmt → Stmt → Prop
  | expr {e e' : Expr} (h : e.AddsParens decls slot v e') :
    Stmt.AddsParens returned (.expr e) (.expr e')
  | decl {var var' : VarDecl} (h : var.AddsParens decls slot v var') :
    Stmt.AddsParens returned (.decl var) (.decl var')
  | target {span : Span} {w w' : Value} {op : Option AssignOp} {e : Expr}
      (h : Value.AddsParens decls slot v w w') :
    Stmt.AddsParens returned (.assign span w op e) (.assign span w' op e)
  | assigned {span : Span} {target : Value} {e e' : Expr}
      (h : e.StoresParens decls slot v (some target.ty) e') :
    Stmt.AddsParens returned (.assign span target none e) (.assign span target none e')
  | combined {span : Span} {target : Value} {op : AssignOp} {e e' : Expr}
      (h : e.StoresParens decls slot v none e') :
    Stmt.AddsParens returned (.assign span target (some op) e) (.assign span target (some op) e')
  | ret {span : Span} {e e' : Expr}
      (h : e.StoresParens decls slot v (if returned.isVoid then none else some returned) e') :
    Stmt.AddsParens returned (.ret span (some e)) (.ret span (some e'))
  | cond {before after : List Branch} {b b' : Branch} (h : Branch.AddsParens returned b b') :
    Stmt.AddsParens returned (.cond (before ++ b :: after)) (.cond (before ++ b' :: after))
  | loopCond {span : Span} {e e' : Expr} {body : List Stmt} (h : e.AddsParens decls slot v e') :
    Stmt.AddsParens returned (.loop span e body) (.loop span e' body)
  | loopBody {span : Span} {cond : Expr} {before after : List Stmt} {s s' : Stmt}
      (h : Stmt.AddsParens returned s s') :
    Stmt.AddsParens returned (.loop span cond (before ++ s :: after))
      (.loop span cond (before ++ s' :: after))
  | block {span : Span} {before after : List Stmt} {s s' : Stmt}
      (h : Stmt.AddsParens returned s s') :
    Stmt.AddsParens returned (.block span (before ++ s :: after))
      (.block span (before ++ s' :: after))

/-- The second branch is the first one with parentheses around an operand. -/
inductive Branch.AddsParens (returned : Ty) : Branch → Branch → Prop
  | guard {span : Span} {g g' : Guard} {body : List Stmt} (h : g.AddsParens decls slot v g') :
    Branch.AddsParens returned (.mk span g body) (.mk span g' body)
  | body {span : Span} {g : Guard} {before after : List Stmt} {s s' : Stmt}
      (h : Stmt.AddsParens returned s s') :
    Branch.AddsParens returned (.mk span g (before ++ s :: after))
      (.mk span g (before ++ s' :: after))

end

/-- The second function is the first one with parentheses around an operand of a default or of a
statement. -/
inductive Function.AddsParens : Function → Function → Prop
  | default {f : Function} {sig : Signature Ty} {before after : List Param} {p : Param} {t : Ty}
      {e e' : Expr} (hsig : f.sig = some sig) (ht : sig.params[before.length]? = some t)
      (h : e.StoresParens decls slot v (some t) e') :
    AddsParens { f with params := before ++ { p with default := some e } :: after }
      { f with params := before ++ { p with default := some e' } :: after }
  | body {f : Function} {sig : Signature Ty} {before after : List Stmt} {s s' : Stmt}
      (hsig : f.sig = some sig) (h : s.AddsParens decls slot v sig.ret s') :
    AddsParens { f with body := some (before ++ s :: after) }
      { f with body := some (before ++ s' :: after) }

/-- The second part is the first one with parentheses around an operand. -/
inductive Node.AddsParens : Node → Node → Prop
  | function {f f' : Function} (h : f.AddsParens decls slot v f') :
    AddsParens (.function f) (.function f')
  | global {var var' : VarDecl} (h : var.AddsParens decls slot v var') :
    AddsParens (.global var) (.global var')

/-- The second unit is the first one with parentheses around the operand `v`, which is stored or is
an argument, and is checked against `slot`. -/
inductive SourceUnit.AddsParens : SourceUnit → SourceUnit → Prop
  | mk {file : Nat} {before after : List Node} {n n' : Node} (h : n.AddsParens decls slot v n') :
    AddsParens ⟨file, before ++ n :: after⟩ ⟨file, before ++ n' :: after⟩

end Parentheses

/-! ## Parentheses around arguments -/

section Arguments

variable {decls decls' : DeclTable} {slot : Option Ty} {v : Value}

mutual

theorem Expr.AddsParens.withoutArgs_eq : ∀ {e e' : Expr}, e.AddsParens decls slot v e' →
    e'.withoutArgs = e.withoutArgs
  | _, _, .mk h => by rw [Expr.withoutArgs, Expr.withoutArgs, h.withoutArgs_eq]

theorem Chain.AddsParens.withoutArgs_eq : ∀ {c c' : Chain}, c.AddsParens decls slot v c' →
    c'.withoutArgs = c.withoutArgs
  | _, _, .operand h => by rw [Chain.withoutArgs, Chain.withoutArgs, h.withoutArgs_eq]
  | _, _, .first h => by rw [Chain.withoutArgs, Chain.withoutArgs, h.withoutArgs_eq]
  | _, _, .rest h => by rw [Chain.withoutArgs, Chain.withoutArgs, h.withoutArgs_eq]

theorem Value.AddsParens.withoutArgs_eq : ∀ {w w' : Value}, Value.AddsParens decls slot v w w' →
    w'.withoutArgs = w.withoutArgs
  | _, _, .arg _ => by rw [Value.withoutArgs, Value.withoutArgs]
  | _, _, .base h => by rw [Value.withoutArgs, Value.withoutArgs, h.withoutArgs_eq]
  | _, _, .position h => by rw [Value.withoutArgs, Value.withoutArgs, h.withoutArgs_eq]
  | _, _, .ref h => by rw [Value.withoutArgs, Value.withoutArgs, h.withoutArgs_eq]
  | _, _, .prefixed h => by rw [Value.withoutArgs, Value.withoutArgs, h.withoutArgs_eq]
  | _, _, .suffixed h => by rw [Value.withoutArgs, Value.withoutArgs, h.withoutArgs_eq]
  | _, _, .paren h => by rw [Value.withoutArgs, Value.withoutArgs, h.withoutArgs_eq]

end

theorem Value.AddsParens.ty_eq {w w' : Value} (h : Value.AddsParens decls slot v w w') :
    w'.ty = w.ty := by
  rw [← w'.ty_withoutArgs, h.withoutArgs_eq, w.ty_withoutArgs]

theorem Value.AddsParens.isAddressable_eq {w w' : Value} (h : Value.AddsParens decls slot v w w') :
    w'.isAddressable = w.isAddressable := by
  rw [← w'.isAddressable_withoutArgs, h.withoutArgs_eq, w.isAddressable_withoutArgs]

theorem Expr.AddsParens.store_eq {e e' : Expr} (h : e.AddsParens decls slot v e') (t : Ty) :
    t.store e' = t.store e := by
  rw [← t.store_withoutArgs, h.withoutArgs_eq, t.store_withoutArgs]

end Arguments

/-- One argument is checked against its own type. -/
theorem Rest.codes_storeArgs_iff (rest : Rest Ty) (params : List Ty) (before after : List Expr)
    (e e' : Expr) : (rest.storeArgs params (before ++ e :: after)).codes =
        (rest.storeArgs params (before ++ e' :: after)).codes ↔
      ∀ t ∈ params[before.length]?.or rest.elem?, (t.store e).codes = (t.store e').codes := by
  induction before generalizing params with
  | nil =>
    cases params with
    | nil => cases rest <;> simp [Rest.storeArgs, Rest.elem?]
    | cons param params => simp [Rest.storeArgs]
  | cons arg before ih =>
    cases params with
    | nil => cases rest <;> simpa [Rest.storeArgs] using ih []
    | cons param params => simpa [Rest.storeArgs] using ih params

namespace Check

/-- Two lists that agree but in one place give the same codes exactly if that place does. -/
theorem flatMap_eq_iff {α : Type} {f g : α → List String} (h : ∀ a, f a = g a)
    (before after : List α) (a a' : α) :
    (before ++ a :: after).flatMap f = (before ++ a' :: after).flatMap g ↔ f a = g a' := by
  obtain rfl : f = g := funext h
  simp

section Calls

variable {decls decls' : DeclTable} {complete : Completion}

theorem codes_exprs (es : List Expr) : (exprs decls complete es).codes =
    es.flatMap fun e => (expr decls complete e).codes := by
  induction es with
  | nil => rfl
  | cons e es ih =>
    simp only [exprs, Report.codes_bind, Report.codes_pure, List.append_nil, ih, List.flatMap_cons]

/-- One argument of a call is checked against its slot. -/
theorem codes_call_iff (complete complete' : Completion) (hslots : decls.SameSlots decls')
    (span : Span) (callee : DottedName) (before after : List Expr) (e e' : Expr)
    (target : Option CallTarget) :
    (call decls complete span callee
        (exprs decls complete (before ++ e :: after)).value target).codes =
      (call decls' complete' span callee
        (exprs decls' complete' (before ++ e' :: after)).value target).codes ↔
      ∀ t ∈ target.bind (·.slot? decls (before ++ e :: after).length before.length),
        (t.store e).codes = (t.store e').codes := by
  cases target with
  | none => simp [call]
  | some t =>
    simp only [call, arguments, Option.bind_some, CallTarget.slot?]
    cases t.signature? with
    | none => simp
    | some sig =>
      simp only [length_exprs, storeArgs_exprs, ← hslots.required, Option.bind_some]
      have hlength : (before ++ e' :: after).length = (before ++ e :: after).length := by simp
      rw [hlength]
      by_cases haccepts : sig.accepts (sig.required (defaults decls t)) (before ++ e :: after).length
      · simp only [haccepts, if_true, Report.codes_bind, Report.codes_pure, List.append_nil]
        exact sig.rest.codes_storeArgs_iff sig.params before after e e'
      · simp only [haccepts, Bool.false_eq_true, if_false, Report.codes_bind, Report.codes_pure,
          Report.codes_error]
        refine iff_of_true trivial fun t ht => ?_
        cases ht

end Calls

section Arguments

variable {decls decls' : DeclTable} (complete complete' : Completion) {slot : Option Ty} {v : Value}

theorem codes_expr (hslots : decls.SameSlots decls') (e : Expr) :
    (expr decls complete e).codes = (expr decls' complete' e).codes :=
  congrArg (List.map _) (errors_expr complete complete' hslots e)

theorem codes_chain (hslots : decls.SameSlots decls') (c : Chain) :
    (chain decls complete c).codes = (chain decls' complete' c).codes :=
  congrArg (List.map _) (errors_chain complete complete' hslots c)

theorem codes_value (hslots : decls.SameSlots decls') (w : Value) :
    (value decls complete w).codes = (value decls' complete' w).codes :=
  congrArg (List.map _) (errors_value complete complete' hslots w)

/-- Where parentheses show when an expression is stored: around the whole expression in what is
reported of the store, and around an argument in what is reported of the expression. -/
def ShowsParens (decls decls' : DeclTable) (same : Prop) (here : Option Ty) (e e' : Expr) : Prop :=
  ((expr decls complete e).codes = (expr decls' complete' e').codes ∧
    ((∀ t ∈ here, (t.store e).codes = (t.store e').codes) ↔ same)) ∨
  (((expr decls complete e).codes = (expr decls' complete' e').codes ↔ same) ∧
    ∀ t : Ty, (t.store e).codes = (t.store e').codes)

variable {complete complete'}

/-- Parentheses in an argument show in the call. -/
theorem codes_value_call (hslots : decls.SameSlots decls') {same : Prop} {span : Span}
    {callee : DottedName} {before after : List Expr} {e e' : Expr} {target : Option CallTarget}
    {defaulted : Nat} (h : ShowsParens complete complete' decls decls' same
      (target.bind (·.slot? decls (before ++ e :: after).length before.length)) e e') :
    (value decls complete (.call span callee (before ++ e :: after) target defaulted)).codes =
      (value decls' complete' (.call span callee (before ++ e' :: after) target defaulted)).codes ↔
        same := by
  have hargs : (exprs decls complete (before ++ e :: after)).codes =
        (exprs decls' complete' (before ++ e' :: after)).codes ↔
      (expr decls complete e).codes = (expr decls' complete' e').codes := by
    rw [codes_exprs, codes_exprs]
    exact flatMap_eq_iff (codes_expr complete complete' hslots) before after e e'
  have hcall := codes_call_iff complete complete' hslots span callee before after e e' target
  simp only [value, Report.codes_bind]
  rcases h with ⟨hexpr, hstore⟩ | ⟨hexpr, hstore⟩
  · rw [hargs.mpr hexpr, List.append_right_inj, hcall, hstore]
  · rw [hcall.mpr fun t _ => hstore t, List.append_left_inj, hargs, hexpr]

mutual

/-- Parentheses around an argument show in the expression. -/
theorem codes_expr_iff (hslots : decls.SameSlots decls') : ∀ {e e' : Expr},
    e.AddsParens decls slot v e' →
      ((expr decls complete e).codes = (expr decls' complete' e').codes ↔ v.IgnoresParens slot)
  | _, _, .mk h => by
    simpa only [expr, Report.codes_bind, Report.codes_pure, List.append_nil] using
      codes_chain_iff hslots h

theorem codes_chain_iff (hslots : decls.SameSlots decls') : ∀ {c c' : Chain},
    c.AddsParens decls slot v c' →
      ((chain decls complete c).codes = (chain decls' complete' c').codes ↔ v.IgnoresParens slot)
  | _, _, .operand h => by
    simpa only [chain, Report.codes_bind, Report.codes_pure, List.append_nil] using
      codes_value_iff hslots h
  | _, _, .first h => by
    simp only [chain, Report.codes_bind, Report.codes_pure, List.append_nil]
    rw [codes_chain complete complete' hslots, List.append_left_inj]
    exact codes_value_iff hslots h
  | _, _, .rest h => by
    simp only [chain, Report.codes_bind, Report.codes_pure, List.append_nil]
    rw [codes_value complete complete' hslots, List.append_right_inj]
    exact codes_chain_iff hslots h

theorem codes_value_iff (hslots : decls.SameSlots decls') : ∀ {w w' : Value},
    Value.AddsParens decls slot v w w' →
      ((value decls complete w).codes = (value decls' complete' w').codes ↔ v.IgnoresParens slot)
  | _, _, .arg h => codes_value_call hslots (showsParens hslots h)
  | _, _, .base h => by
    simp only [value, Report.codes_bind, Report.codes_pure, List.append_nil]
    rw [codes_expr complete complete' hslots, List.append_left_inj]
    exact codes_value_iff hslots h
  | _, _, .position h => by
    simp only [value, Report.codes_bind, Report.codes_pure, List.append_nil]
    rw [codes_value complete complete' hslots, List.append_right_inj]
    exact codes_expr_iff hslots h
  | _, _, .ref h => by
    simp only [value, Report.codes_bind, Report.codes_pure, List.append_nil, Report.codes_errorIf,
      isAddressable_value, h.isAddressable_eq, SemanticError.code]
    rw [List.append_left_inj]
    exact codes_value_iff hslots h
  | _, _, .prefixed h => by
    simpa only [value, Report.codes_bind, Report.codes_pure, List.append_nil] using
      codes_value_iff hslots h
  | _, _, .suffixed h => by
    simpa only [value, Report.codes_bind, Report.codes_pure, List.append_nil] using
      codes_value_iff hslots h
  | _, _, .paren h => by
    simpa only [value, Report.codes_bind, Report.codes_pure, List.append_nil] using
      codes_expr_iff hslots h

theorem showsParens (hslots : decls.SameSlots decls') : ∀ {here : Option Ty} {e e' : Expr},
    e.StoresParens decls slot v here e' →
      ShowsParens complete complete' decls decls' (v.IgnoresParens slot) here e e'
  | _, _, _, .whole => by
    refine .inl ⟨?_, ?_⟩
    · simpa only [expr, chain, value, Report.codes_bind, Report.codes_pure, List.append_nil] using
        codes_value complete complete' hslots v
    · exact forall₂_congr fun t _ => t.codes_storeValue_paren _
  | _, _, _, .within h => .inr ⟨codes_expr_iff hslots h, fun t => by rw [h.store_eq t]⟩

end

end Arguments

/-! ## Statements -/

section Statements

variable {decls decls' : DeclTable} {slot : Option Ty} {v : Value} {returned : Ty}

theorem codes_into_eq (t : Ty) (e : Expr) : (into decls t e).codes =
    (expr decls (complete decls) e).codes ++ (t.store e).codes := by
  simp only [into, Report.codes_bind, Report.codes_pure, List.append_nil, store_expr]

theorem codes_into (hslots : decls.SameSlots decls') (t : Ty) (e : Expr) :
    (into decls t e).codes = (into decls' t e).codes := by
  rw [codes_into_eq, codes_into_eq, codes_expr _ (complete decls') hslots]

/-- Parentheses in what is stored into a slot. -/
theorem codes_into_iff (hslots : decls.SameSlots decls') {t : Ty} {e e' : Expr}
    (h : e.StoresParens decls slot v (some t) e') :
    (into decls t e).codes = (into decls' t e').codes ↔ v.IgnoresParens slot := by
  rw [codes_into_eq, codes_into_eq]
  rcases showsParens hslots h with ⟨hexpr, hstore⟩ | ⟨hexpr, hstore⟩
  · rw [hexpr, List.append_right_inj, ← hstore]
    simp
  · rw [hstore, List.append_left_inj, hexpr]

/-- Parentheses in what is checked against no type. -/
theorem codes_unstored_iff (hslots : decls.SameSlots decls') {e e' : Expr}
    (h : e.StoresParens decls slot v none e') :
    (expr decls (complete decls) e).codes = (expr decls' (complete decls') e').codes ↔
      v.IgnoresParens slot := by
  rcases showsParens hslots h with ⟨hexpr, hstore⟩ | ⟨hexpr, -⟩
  · exact iff_of_true hexpr (hstore.mp nofun)
  · exact hexpr

theorem codes_varDecl (hslots : decls.SameSlots decls') (var : VarDecl) :
    (varDecl decls var).codes = (varDecl decls' var).codes := by
  rw [varDecl, varDecl, hslots.typeOf]
  cases var.init with
  | none => rfl
  | some e =>
    simp only [Report.codes_bind, Report.codes_pure]
    rw [codes_into hslots]

theorem codes_varDecl_iff (hslots : decls.SameSlots decls') {var var' : VarDecl}
    (h : var.AddsParens decls slot v var') :
    (varDecl decls var).codes = (varDecl decls' var').codes ↔ v.IgnoresParens slot := by
  cases h with
  | init h =>
    simp only [varDecl, Report.codes_bind, Report.codes_pure, List.append_nil, ← hslots.typeOf]
    exact codes_into_iff hslots h

theorem codes_ret (hslots : decls.SameSlots decls') (span : Span) (e : Option Expr) :
    (ret decls returned span e).codes = (ret decls' returned span e).codes := by
  cases e with
  | none => rfl
  | some e =>
    rw [ret, ret]
    cases returned.isVoid with
    | true =>
      simp only [if_true, Report.codes_bind, Report.codes_error, Report.codes_pure,
        SemanticError.code]
      rw [codes_expr _ (complete decls') hslots]
    | false =>
      simp only [Bool.false_eq_true, if_false, Report.codes_bind, Report.codes_pure]
      rw [codes_into hslots]

theorem codes_ret_iff (hslots : decls.SameSlots decls') {span : Span} {e e' : Expr}
    (h : e.StoresParens decls slot v (if returned.isVoid then none else some returned) e') :
    (ret decls returned span (some e)).codes = (ret decls' returned span (some e')).codes ↔
      v.IgnoresParens slot := by
  rw [ret, ret]
  cases hvoid : returned.isVoid with
  | true =>
    simp only [hvoid, if_true] at h
    simp only [if_true, Report.codes_bind, Report.codes_error, Report.codes_pure,
      SemanticError.code, List.append_left_inj]
    exact codes_unstored_iff hslots h
  | false =>
    simp only [hvoid, Bool.false_eq_true, if_false] at h
    simp only [Bool.false_eq_true, if_false, Report.codes_bind, Report.codes_pure, List.append_nil]
    exact codes_into_iff hslots h

theorem codes_guard (hslots : decls.SameSlots decls') (g : Guard) :
    (guard decls g).codes = (guard decls' g).codes := by
  cases g with
  | otherwise => rfl
  | _ =>
    simp only [guard, Report.codes_bind, Report.codes_pure]
    rw [codes_expr _ (complete decls') hslots]

theorem codes_guard_iff (hslots : decls.SameSlots decls') {g g' : Guard}
    (h : g.AddsParens decls slot v g') :
    (guard decls g).codes = (guard decls' g').codes ↔ v.IgnoresParens slot := by
  cases h with
  | first h | next h =>
    simp only [guard, Report.codes_bind, Report.codes_pure, List.append_nil]
    exact codes_expr_iff hslots h

theorem codes_stmts_eq (ss : List Stmt) : (stmts decls returned ss).codes =
    ss.flatMap fun s => (stmt decls returned s).codes := by
  induction ss with
  | nil => rfl
  | cons s ss ih =>
    simp only [stmts, Report.codes_bind, Report.codes_pure, List.append_nil, ih, List.flatMap_cons]

theorem codes_branches_eq (bs : List Branch) : (branches decls returned bs).codes =
    bs.flatMap fun b => (branch decls returned b).codes := by
  induction bs with
  | nil => rfl
  | cons b bs ih =>
    simp only [branches, Report.codes_bind, Report.codes_pure, List.append_nil, ih,
      List.flatMap_cons]

mutual

/-- What is reported of a statement does not depend on what the slots of functions hold. -/
theorem codes_stmt (hslots : decls.SameSlots decls') : ∀ s : Stmt,
    (stmt decls returned s).codes = (stmt decls' returned s).codes
  | .expr e => by
    simp only [stmt, Report.codes_bind, Report.codes_pure]
    rw [codes_expr _ (complete decls') hslots]
  | .decl var => by
    simp only [stmt, Report.codes_bind, Report.codes_pure, codes_varDecl hslots]
  | .assign span target none e => by
    simp only [stmt, Report.codes_bind, Report.codes_pure, ty_value]
    rw [codes_value _ (complete decls') hslots, codes_into hslots]
  | .assign span target (some op) e => by
    simp only [stmt, Report.codes_bind, Report.codes_pure]
    rw [codes_value _ (complete decls') hslots, codes_expr _ (complete decls') hslots]
  | .ret span e => by
    simp only [stmt, Report.codes_bind, Report.codes_pure, codes_ret hslots]
  | .cond list => by
    simp only [stmt, Report.codes_bind, Report.codes_pure, codes_branches hslots list]
  | .loop span cond body => by
    simp only [stmt, Report.codes_bind, Report.codes_pure, codes_stmts hslots body]
    rw [codes_expr _ (complete decls') hslots]
  | .block span body => by
    simp only [stmt, Report.codes_bind, Report.codes_pure, codes_stmts hslots body]

theorem codes_stmts (hslots : decls.SameSlots decls') : ∀ ss : List Stmt,
    (stmts decls returned ss).codes = (stmts decls' returned ss).codes
  | [] => rfl
  | s :: ss => by
    simp only [stmts, Report.codes_bind, Report.codes_pure, codes_stmt hslots s,
      codes_stmts hslots ss]

theorem codes_branch (hslots : decls.SameSlots decls') : ∀ b : Branch,
    (branch decls returned b).codes = (branch decls' returned b).codes
  | .mk span g body => by
    simp only [branch, Report.codes_bind, Report.codes_pure, codes_guard hslots,
      codes_stmts hslots body]

theorem codes_branches (hslots : decls.SameSlots decls') : ∀ bs : List Branch,
    (branches decls returned bs).codes = (branches decls' returned bs).codes
  | [] => rfl
  | b :: bs => by
    simp only [branches, Report.codes_bind, Report.codes_pure, codes_branch hslots b,
      codes_branches hslots bs]

end

/-- A statement of a block shows what its parentheses change. -/
theorem codes_stmts_iff (hslots : decls.SameSlots decls') (before after : List Stmt)
    (s s' : Stmt) : (stmts decls returned (before ++ s :: after)).codes =
        (stmts decls' returned (before ++ s' :: after)).codes ↔
      (stmt decls returned s).codes = (stmt decls' returned s').codes := by
  rw [codes_stmts_eq, codes_stmts_eq]
  exact flatMap_eq_iff (codes_stmt hslots) before after s s'

mutual

/-- Parentheses in a statement. -/
theorem codes_stmt_iff (hslots : decls.SameSlots decls') : ∀ {s s' : Stmt},
    s.AddsParens decls slot v returned s' →
      ((stmt decls returned s).codes = (stmt decls' returned s').codes ↔ v.IgnoresParens slot)
  | _, _, .expr h => by
    simp only [stmt, Report.codes_bind, Report.codes_pure, List.append_nil]
    exact codes_expr_iff hslots h
  | _, _, .decl h => by
    simp only [stmt, Report.codes_bind, Report.codes_pure, List.append_nil]
    exact codes_varDecl_iff hslots h
  | .assign span w none e, _, .target h => by
    simp only [stmt, Report.codes_bind, Report.codes_pure, List.append_nil, ty_value, h.ty_eq]
    rw [codes_into hslots, List.append_left_inj]
    exact codes_value_iff hslots h
  | .assign span w (some op) e, _, .target h => by
    simp only [stmt, Report.codes_bind, Report.codes_pure, List.append_nil]
    rw [codes_expr _ (complete decls') hslots, List.append_left_inj]
    exact codes_value_iff hslots h
  | _, _, .assigned h => by
    simp only [stmt, Report.codes_bind, Report.codes_pure, List.append_nil, ty_value]
    rw [codes_value _ (complete decls') hslots, List.append_right_inj]
    exact codes_into_iff hslots h
  | _, _, .combined h => by
    simp only [stmt, Report.codes_bind, Report.codes_pure, List.append_nil]
    rw [codes_value _ (complete decls') hslots, List.append_right_inj]
    exact codes_unstored_iff hslots h
  | _, _, .ret h => by
    simp only [stmt, Report.codes_bind, Report.codes_pure, List.append_nil]
    exact codes_ret_iff hslots h
  | _, _, .cond h => by
    simp only [stmt, Report.codes_bind, Report.codes_pure, List.append_nil, codes_branches_eq]
    -- One branch differs; the errors of the others are the same on both sides.
    rw [flatMap_eq_iff (codes_branch hslots)]
    exact codes_branch_iff hslots h
  | _, _, .loopCond h => by
    simp only [stmt, Report.codes_bind, Report.codes_pure, List.append_nil]
    rw [codes_stmts hslots, List.append_left_inj]
    exact codes_expr_iff hslots h
  | _, _, .loopBody h => by
    simp only [stmt, Report.codes_bind, Report.codes_pure, List.append_nil]
    rw [codes_expr _ (complete decls') hslots, List.append_right_inj, codes_stmts_iff hslots]
    exact codes_stmt_iff hslots h
  | _, _, .block h => by
    simp only [stmt, Report.codes_bind, Report.codes_pure, List.append_nil]
    rw [codes_stmts_iff hslots]
    exact codes_stmt_iff hslots h

theorem codes_branch_iff (hslots : decls.SameSlots decls') : ∀ {b b' : Branch},
    b.AddsParens decls slot v returned b' →
      ((branch decls returned b).codes = (branch decls' returned b').codes ↔ v.IgnoresParens slot)
  | _, _, .guard h => by
    simp only [branch, Report.codes_bind, Report.codes_pure, List.append_nil]
    rw [codes_stmts hslots, List.append_left_inj]
    exact codes_guard_iff hslots h
  | _, _, .body h => by
    simp only [branch, Report.codes_bind, Report.codes_pure, List.append_nil]
    rw [codes_guard hslots, List.append_right_inj, codes_stmts_iff hslots]
    exact codes_stmt_iff hslots h

end

end Statements

/-! ## Parts -/

section Parts

variable {decls decls' : DeclTable} {slot : Option Ty} {v : Value}

theorem codes_params (hslots : decls.SameSlots decls') (ps : List Param) (tys : List Ty) :
    (params decls ps tys).codes = (params decls' ps tys).codes := by
  induction ps generalizing tys with
  | nil => rfl
  | cons p ps ih =>
    cases tys with
    | nil => rfl
    | cons ty tys =>
      rw [params, params]
      cases p.default with
      | none => simp only [Report.codes_bind, Report.codes_pure, ih]
      | some e =>
        simp only [Report.codes_bind, Report.codes_pure, ih]
        rw [codes_into hslots]

/-- Parentheses in the default of a parameter. -/
theorem codes_params_iff (hslots : decls.SameSlots decls') (before after : List Param) (p : Param)
    {tys : List Ty} {t : Ty} {e e' : Expr} (ht : tys[before.length]? = some t)
    (h : e.StoresParens decls slot v (some t) e') :
    (params decls (before ++ { p with default := some e } :: after) tys).codes =
        (params decls' (before ++ { p with default := some e' } :: after) tys).codes ↔
      v.IgnoresParens slot := by
  induction before generalizing tys with
  | nil =>
    cases tys with
    | nil => cases ht
    | cons ty tys =>
      obtain rfl : ty = t := Option.some.inj ht
      simp only [List.nil_append, params, Report.codes_bind, Report.codes_pure, List.append_nil]
      rw [codes_params hslots, List.append_left_inj]
      exact codes_into_iff hslots h
  | cons q before ih =>
    cases tys with
    | nil => cases ht
    | cons ty tys =>
      have hrest := @ih tys ht
      simp only [List.cons_append, params]
      cases q.default with
      | none =>
        simpa only [Report.codes_bind, Report.codes_pure, List.append_nil, List.nil_append] using
          hrest
      | some d =>
        simp only [Report.codes_bind, Report.codes_pure, List.append_nil]
        rw [codes_into hslots, List.append_right_inj]
        exact hrest

theorem codes_function (hslots : decls.SameSlots decls') (f : Function) :
    (function decls f).codes = (function decls' f).codes := by
  rw [function, function]
  cases f.sig with
  | none => rfl
  | some sig =>
    cases f.body with
    | none => simp only [Report.codes_bind, Report.codes_pure, codes_params hslots]
    | some body =>
      simp only [Report.codes_bind, Report.codes_pure, codes_params hslots, codes_stmts hslots]

theorem codes_function_iff (hslots : decls.SameSlots decls') {f f' : Function}
    (h : f.AddsParens decls slot v f') :
    (function decls f).codes = (function decls' f').codes ↔ v.IgnoresParens slot := by
  cases h with
  | @default f sig before after p t e e' hsig ht h =>
    have hparams := codes_params_iff hslots before after p ht h
    cases hbody : f.body with
    | none =>
      simpa only [function, hsig, hbody, Report.codes_bind, Report.codes_pure, List.append_nil] using
        hparams
    | some body =>
      simp only [function, hsig, Report.codes_bind, Report.codes_pure, List.append_nil]
      rw [codes_stmts hslots, List.append_left_inj]
      exact hparams
  | body hsig h =>
    simp only [function, hsig, Report.codes_bind, Report.codes_pure, List.append_nil]
    rw [codes_params hslots, List.append_right_inj, codes_stmts_iff hslots]
    exact codes_stmt_iff hslots h

theorem codes_node (hslots : decls.SameSlots decls') (n : Node) :
    (node decls n).codes = (node decls' n).codes := by
  cases n with
  | function f => simp only [node, Report.codes_bind, Report.codes_pure, codes_function hslots]
  | global var => simp only [node, Report.codes_bind, Report.codes_pure, codes_varDecl hslots]
  | _ => rfl

theorem codes_node_iff (hslots : decls.SameSlots decls') {n n' : Node}
    (h : n.AddsParens decls slot v n') :
    (node decls n).codes = (node decls' n').codes ↔ v.IgnoresParens slot := by
  cases h with
  | function h =>
    simp only [node, Report.codes_bind, Report.codes_pure, List.append_nil]
    exact codes_function_iff hslots h
  | global h =>
    simp only [node, Report.codes_bind, Report.codes_pure, List.append_nil]
    exact codes_varDecl_iff hslots h

theorem codes_nodes_eq (ns : List Node) : (nodes decls ns).codes =
    ns.flatMap fun n => (node decls n).codes := by
  induction ns with
  | nil => rfl
  | cons n ns ih =>
    simp only [nodes, Report.codes_bind, Report.codes_pure, List.append_nil, ih, List.flatMap_cons]

end Parts

end Check

/-! ## Units -/

theorem SourceUnit.codes_check_iff {unit unit' : SourceUnit} {context context' : SemanticContext}
    {slot : Option Ty} {v : Value} (hslots : context.decls.SameSlots context'.decls)
    (h : unit.AddsParens context.decls slot v unit') :
    (unit.check context).codes = (unit'.check context').codes ↔ v.IgnoresParens slot := by
  cases h with
  | mk h =>
    simp only [SourceUnit.check, Report.codes_bind, Report.codes_pure, List.append_nil,
      Check.codes_nodes_eq]
    rw [Check.flatMap_eq_iff (Check.codes_node hslots)]
    exact Check.codes_node_iff hslots h

/-- What is reported of a unit does not depend on places. -/
theorem SourceUnit.codes_check_of_unspanned {unit unit' : SourceUnit}
    (h : unit.unspanned = unit'.unspanned) (context : SemanticContext) :
    (unit.check context).codes = (unit'.check context).codes := by
  have hcodes : ∀ u : SourceUnit,
      (u.check context).codes = (u.unspanned.check context.unspanned).codes := by
    intro u
    rw [u.check_unspanned, ← (u.check context).codes_unspanned, Report.codes, Report.codes,
      Report.errors_map]
  rw [hcodes, hcodes, h]

/-- **Parentheses around stored operands.** Put parentheses around a single operand that is stored
or passed as an argument. The unit then breaks the same rules as often, in the same order, exactly if
the slot does not mind the parentheses; and if so, it is accepted exactly if it was. Places may
differ, and so may the copies of defaults in the table. -/
theorem parentheses_are_redundant_iff {unit added unit' : SourceUnit}
    {context context' : SemanticContext} {slot : Option Ty} {v : Value}
    (hslots : context.decls.SameSlots context'.decls)
    (hadded : unit.AddsParens context.decls slot v added)
    (hplaces : added.unspanned = unit'.unspanned) :
    ((unit.check context).codes = (unit'.check context').codes ↔ v.IgnoresParens slot) ∧
      (v.IgnoresParens slot →
        ((unit.check context).errors = [] ↔ (unit'.check context').errors = [])) := by
  have hcodes : (unit.check context).codes = (unit'.check context').codes ↔
      v.IgnoresParens slot := by
    rw [← SourceUnit.codes_check_of_unspanned hplaces]
    exact SourceUnit.codes_check_iff hslots hadded
  refine ⟨hcodes, fun hignores => ?_⟩
  rw [← Report.codes_eq_nil, ← Report.codes_eq_nil, hcodes.mpr hignores]

/-- The part with parentheses around its initial value, if this is a single operand, with the
operand and the number of the variable. -/
def Node.parenthesized? : Node → Option (Option DeclId × Value × Node)
  | .global ⟨span, ty, name, some (.mk place (.operand v)), decl⟩ =>
    some (decl, v,
      .global ⟨span, ty, name, some (.mk place (.operand (.paren (.mk place (.operand v))))), decl⟩)
  | _ => none

theorem Node.addsParens_of_parenthesized? {decls : DeclTable} {n n' : Node} {decl : Option DeclId}
    {v : Value} (h : n.parenthesized? = some (decl, v, n')) :
    n.AddsParens decls (some (decls.typeOf decl)) v n' := by
  unfold parenthesized? at h
  split at h
  · rename_i span ty name place w decl
    cases h
    exact .global (@VarDecl.AddsParens.init _ _ _ ⟨span, ty, name, none, decl⟩ _ _ .whole)
  · cases h

/-- A unit of two parts, the second of which gets parentheses. -/
theorem SourceUnit.exists_parenthesized {text : String}
    {p : SemanticContext → Ty → Value → SourceUnit → SourceUnit → Bool}
    (h : ((SourceUnit.parse 0 text).toOption.any fun unit =>
      unit.resolve.2.toOption.any fun context => match unit.resolve.1 with
        | ⟨file, [m, n]⟩ => n.parenthesized?.any fun (decl, v, n') =>
          p context (context.decls.typeOf decl) v ⟨file, [m, n]⟩ ⟨file, [m, n']⟩
        | _ => false) = true) :
    ∃ unit unit' context t v added, SourceUnit.parse 0 text = .ok unit ∧
      unit.resolve = (unit', .ok context) ∧ unit'.AddsParens context.decls (some t) v added ∧
      p context t v unit' added := by
  obtain ⟨unit, unit', context, hparse, hresolve, hparts⟩ := SourceUnit.exists_resolved
    (p := fun unit context => match unit with
      | ⟨file, [m, n]⟩ => n.parenthesized?.any fun (decl, v, n') =>
        p context (context.decls.typeOf decl) v ⟨file, [m, n]⟩ ⟨file, [m, n']⟩
      | _ => false) h
  split at hparts
  · rename_i file m n
    obtain ⟨⟨decl, v, n'⟩, hn, hp⟩ := (Option.any_eq_true ..).mp hparts
    have hadded : SourceUnit.AddsParens context.decls (some (context.decls.typeOf decl)) v
        ⟨file, [m] ++ n :: []⟩ ⟨file, [m] ++ n' :: []⟩ :=
      .mk (Node.addsParens_of_parenthesized? hn)
    exact ⟨unit, _, context, _, v, _, hparse, hresolve, hadded, hp⟩
  · cases hparts

/-- Storage that is stored into a reference. -/
theorem parenthesized_storage_is_redundant : ∃ unit unit' context t v added,
    SourceUnit.parse 0 "int x\nref int r = x" = .ok unit ∧ unit.resolve = (unit', .ok context) ∧
    unit'.AddsParens context.decls (some t) v added ∧
    (unit'.check context).codes = (added.check context).codes := by
  have hok : ((SourceUnit.parse 0 "int x\nref int r = x").toOption.any fun unit =>
      unit.resolve.2.toOption.any fun context => match unit.resolve.1 with
        | ⟨file, [m, n]⟩ => n.parenthesized?.any fun (decl, v, n') =>
          !(context.decls.typeOf decl).mindsParens v
        | _ => false) = true := by
    decide +kernel
  obtain ⟨unit, unit', context, t, v, added, hparse, hresolve, hadded, hminds⟩ :=
    SourceUnit.exists_parenthesized (p := fun _ t v _ _ => !t.mindsParens v) hok
  have hignores : v.IgnoresParens (some t) := fun _ ht => by
    cases ht
    simpa using hminds
  exact ⟨unit, unit', context, t, v, added, hparse, hresolve, hadded,
    (parentheses_are_redundant_iff (.refl _) hadded rfl).1.mpr hignores⟩

/-- An explicit reference is no number, but in parentheses it passes for one. -/
theorem parenthesized_reference_is_accepted : ∃ unit unit' context t v added,
    SourceUnit.parse 0 "int x\nint y = ref x" = .ok unit ∧ unit.resolve = (unit', .ok context) ∧
    unit'.AddsParens context.decls (some t) v added ∧
    (unit'.check context).codes = ["E0305"] ∧ (added.check context).codes = [] := by
  have hok : ((SourceUnit.parse 0 "int x\nint y = ref x").toOption.any fun unit =>
      unit.resolve.2.toOption.any fun context => match unit.resolve.1 with
        | ⟨file, [m, n]⟩ => n.parenthesized?.any fun (decl, v, n') =>
          (SourceUnit.check ⟨file, [m, n]⟩ context).codes = ["E0305"] ∧
            (SourceUnit.check ⟨file, [m, n']⟩ context).codes = []
        | _ => false) = true := by
    decide +kernel
  obtain ⟨unit, unit', context, t, v, added, hparse, hresolve, hadded, hcodes⟩ :=
    SourceUnit.exists_parenthesized (p := fun context _ _ unit added =>
      (unit.check context).codes = ["E0305"] ∧ (added.check context).codes = []) hok
  exact ⟨unit, unit', context, t, v, added, hparse, hresolve, hadded, of_decide_eq_true hcodes⟩

end KilnLang
