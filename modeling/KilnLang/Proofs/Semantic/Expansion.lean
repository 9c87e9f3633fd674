import KilnLang.Proofs.Semantic.MergedDefaults

/-!
# Expansion of defaults

The calls in a copied default are completed in turn, also when defaults call the functions that they
belong to. Here checking is the machine that does so: it has a stack of the functions that are being
expanded, and copies no default of a function on the stack. It ends with `none` if a run needs more
nested expansions than its limit, so a run that never ends gives `none` at any limit.

**Theorem (`default_expansion_terminates`).** On a resolved unit the machine ends with the checked
unit and its errors, at any limit from the number of functions on. Whenever an expansion begins, the
functions on the stack are distinct functions of the unit, so they are no more than the unit has, and
after each part of the unit the stack is empty.

The machine is compared with checking from any state with a given stack (`Checker.Computes`). Each
construct is checked as the machine does it, if calls are completed so (`Checker.OmitsAs`), and for
calls the induction is on the number of functions that are not on the stack
(`Checker.omitsAs_completion`): what is copied is no part of what is checked, but it is checked under
a longer stack. At depth zero every function is on the stack.
-/

namespace KilnLang

/-- The functions of a table. -/
def DeclTable.functions (t : DeclTable) : List DeclId :=
  (List.range t.length).filter fun id => (t[id]?).any (·.kind = .function)

theorem DeclTable.mem_functions {t : DeclTable} {id : DeclId} :
    id ∈ t.functions ↔ ∃ info, t[id]? = some info ∧ info.kind = .function := by
  rw [functions, List.mem_filter, List.mem_range]
  constructor
  · rintro ⟨-, hfunction⟩
    cases hinfo : t[id]? with
    | none => simp [hinfo] at hfunction
    | some info => exact ⟨info, rfl, by simpa [hinfo] using hfunction⟩
  · rintro ⟨info, hinfo, hkind⟩
    exact ⟨(List.getElem?_eq_some_iff.mp hinfo).1, by simp [hinfo, hkind]⟩

/-! ## The machine -/

/-- The state of the machine: the functions that are being expanded, the innermost first; the errors
so far; and the stack at each place where an expansion began. -/
structure Checker where
  expanding : List DeclId
  errors : List SemanticError
  entered : List (List DeclId)

/-- A step of the machine, `none` if it needs more nested expansions than the limit. -/
abbrev CheckM := StateT Checker Option

/-- How the arguments that a call of a signature leaves out are found. -/
abbrev Omission := Signature Ty → Nat → CallTarget → CheckM (List Expr)

namespace Checker

/-- The state in which checking starts. -/
def start : Checker := ⟨[], [], []⟩

/-- Takes the value of a report and adds its errors. -/
def report {α : Type} (r : Report α) : CheckM α := fun s =>
  some (r.value, { s with errors := s.errors ++ r.errors })

/-- Begins the expansion of what a call calls. -/
def enter (callee : List DeclId) : CheckM Unit :=
  modify fun s => { s with
    expanding := callee ++ s.expanding
    entered := s.entered ++ [callee ++ s.expanding] }

/-- Ends the expansion of what a call calls, and drops the errors after the first `reported`. -/
def leave (callee : List DeclId) (reported : Nat) : CheckM Unit :=
  modify fun s => { s with
    expanding := s.expanding.drop callee.length
    errors := s.errors.take reported }

/-- Checks the arguments of a call and gives those that it leaves out. -/
def arguments (decls : DeclTable) (omission : Omission) (span : Span) (callee : DottedName)
    (args : List Expr) (t : CallTarget) : CheckM (List Expr) :=
  match t.signature? with
  | none => return []
  | some sig => do
    let required := sig.required (Check.defaults decls t)
    if sig.accepts required args.length then
      report (sig.rest.storeArgs sig.params args)
      omission sig args.length t
    else
      report (Report.error (.argumentCount callee.text (sig.argCount required) args.length span))
      return []

/-- Checks the arguments of a call and completes it, whatever it calls. -/
def call (decls : DeclTable) (omission : Omission) (span : Span) (callee : DottedName)
    (args : List Expr) (target : Option CallTarget) : CheckM Value := do
  let more ←
    match target with
    | some t => arguments decls omission span callee args t
    | none => pure []
  return .call span callee (args ++ more) target more.length

mutual

/-- Checks and completes the calls of an expression. -/
def expr (decls : DeclTable) (omission : Omission) : Expr → CheckM Expr
  | .mk span ops => do return .mk span (← chain decls omission ops)

/-- Checks and completes the calls of a chain. -/
def chain (decls : DeclTable) (omission : Omission) : Chain → CheckM Chain
  | .operand v => do return .operand (← value decls omission v)
  | .link v op rest => do
    let v ← value decls omission v
    let rest ← chain decls omission rest
    return .link v op rest

/-- Checks and completes the calls of an operand. -/
def value (decls : DeclTable) (omission : Omission) : Value → CheckM Value
  | .call span callee args target _ => do
    let args ← exprs decls omission args
    call decls omission span callee args target
  | .index span base position => do
    let base ← value decls omission base
    let position ← expr decls omission position
    return .index span base position
  | .ref span inner => do
    let inner ← value decls omission inner
    report (Report.errorIf (!inner.isAddressable) (.invalidReferenceArgument inner.describe span))
    return .ref span inner
  | .prefixed span op inner => do return .prefixed span op (← value decls omission inner)
  | .suffixed span op inner => do return .suffixed span op (← value decls omission inner)
  | .paren inner => do return .paren (← expr decls omission inner)
  | .ident name => return .ident name
  | .number lit => return .number lit
  | .decimal lit => return .decimal lit
  | .string lit => return .string lit
  | .char lit => return .char lit
  | .bool span b => return .bool span b
  | .null span => return .null span

/-- Checks and completes the calls of expressions. -/
def exprs (decls : DeclTable) (omission : Omission) : List Expr → CheckM (List Expr)
  | [] => return []
  | e :: es => do
    let e ← expr decls omission e
    let es ← exprs decls omission es
    return e :: es

end

/-- Completes the calls in copies of defaults, without their errors. -/
def expand (decls : DeclTable) (omission : Omission) (callee : List DeclId) (copies : List Expr) :
    CheckM (List Expr) := do
  let reported := (← get).errors.length
  enter callee
  let copies ← exprs decls omission copies
  leave callee reported
  return copies

/-- The copies for the arguments that a call leaves out, unless what it calls is being expanded.
`limit` more expansions can be nested. -/
def omitted (decls : DeclTable) (limit : Nat) : Omission := fun sig written t => do
  let callee := CallTarget.owner (some t)
  let expanding := (← get).expanding
  if written < sig.params.length ∧ ∀ decl ∈ callee, decl ∉ expanding then
    match limit with
    | 0 => failure
    | limit + 1 =>
      expand decls (omitted decls limit) callee
        (((Check.defaults decls t).take sig.params.length).drop written).reduceOption
  else
    return []

/-- Checks an expression that is stored into a slot. -/
def into (decls : DeclTable) (omission : Omission) (expected : Ty) (e : Expr) : CheckM Expr := do
  let e ← expr decls omission e
  report (expected.store e)
  return e

/-- Checks a variable with its initial value. -/
def varDecl (decls : DeclTable) (omission : Omission) (var : VarDecl) : CheckM VarDecl :=
  match var.init with
  | none => return var
  | some init => do
    return { var with init := some (← into decls omission (decls.typeOf var.decl) init) }

/-- Checks a returned value against the type that the function returns. -/
def ret (decls : DeclTable) (omission : Omission) (returned : Ty) (span : Span) :
    Option Expr → CheckM (Option Expr)
  | none => do
    report (Report.errorIf (!returned.isVoid)
      (.typeMismatch returned.render (Ty.prim .void).render span))
    return none
  | some e =>
    if returned.isVoid then do
      let e ← expr decls omission e
      report (Report.error (.typeMismatch returned.render e.ty.render e.span))
      return some e
    else do return some (← into decls omission returned e)

/-- Checks the condition of a guard. -/
def guard (decls : DeclTable) (omission : Omission) : Guard → CheckM Guard
  | .first cond => do return .first (← expr decls omission cond)
  | .next cond => do return .next (← expr decls omission cond)
  | .otherwise => return .otherwise

mutual

/-- Checks a statement of a function that returns `returned`. -/
def stmt (decls : DeclTable) (omission : Omission) (returned : Ty) : Stmt → CheckM Stmt
  | .expr e => do return .expr (← expr decls omission e)
  | .decl var => do return .decl (← varDecl decls omission var)
  | .assign span target none e => do
    let target ← value decls omission target
    let e ← into decls omission target.ty e
    return .assign span target none e
  | .assign span target (some op) e => do
    let target ← value decls omission target
    let e ← expr decls omission e
    return .assign span target (some op) e
  | .ret span e => do return .ret span (← ret decls omission returned span e)
  | .cond list => do return .cond (← branches decls omission returned list)
  | .loop span cond body => do
    let cond ← expr decls omission cond
    let body ← stmts decls omission returned body
    return .loop span cond body
  | .block span body => do return .block span (← stmts decls omission returned body)

/-- Checks statements in order. -/
def stmts (decls : DeclTable) (omission : Omission) (returned : Ty) : List Stmt → CheckM (List Stmt)
  | [] => return []
  | s :: ss => do
    let s ← stmt decls omission returned s
    let ss ← stmts decls omission returned ss
    return s :: ss

/-- Checks a branch. -/
def branch (decls : DeclTable) (omission : Omission) (returned : Ty) : Branch → CheckM Branch
  | .mk span g body => do
    let g ← guard decls omission g
    let body ← stmts decls omission returned body
    return .mk span g body

/-- Checks branches in order. -/
def branches (decls : DeclTable) (omission : Omission) (returned : Ty) :
    List Branch → CheckM (List Branch)
  | [] => return []
  | b :: bs => do
    let b ← branch decls omission returned b
    let bs ← branches decls omission returned bs
    return b :: bs

end

/-- Checks the defaults of parameters. -/
def params (decls : DeclTable) (omission : Omission) : List Param → List Ty → CheckM (List Param)
  | param :: rest, ty :: tys => do
    let default ←
      match param.default with
      | none => pure none
      | some e => do pure (some (← into decls omission ty e))
    return { param with default } :: (← params decls omission rest tys)
  | rest, _ => return rest

/-- Checks the defaults and the body of a function. -/
def function (decls : DeclTable) (omission : Omission) (item : Function) : CheckM Function :=
  match item.sig with
  | none => return item
  | some sig => do
    let params ← params decls omission item.params sig.params
    match item.body with
    | none => return { item with params }
    | some body => do
      let body ← stmts decls omission sig.ret body
      return { item with params, body := some body }

/-- Checks a part of a unit. -/
def node (decls : DeclTable) (omission : Omission) : Node → CheckM Node
  | .function item => do return .function (← function decls omission item)
  | .global item => do return .global (← varDecl decls omission item)
  | .header item => return .header item
  | .alias item => return .alias item

/-- Checks parts in order. -/
def nodes (decls : DeclTable) (omission : Omission) : List Node → CheckM (List Node)
  | [] => return []
  | n :: ns => do
    let n ← node decls omission n
    let ns ← nodes decls omission ns
    return n :: ns

/-- Checks a unit, with at most `limit` expansions nested. -/
def unit (context : SemanticContext) (limit : Nat) (u : SourceUnit) : CheckM SourceUnit := do
  return { u with nodes := ← nodes context.decls (omitted context.decls limit) u.nodes }

/-! ## Runs -/

/-- From any state with the stack, the machine ends with the value and the errors of the report. The
stack is the same then, and wherever an expansion began the stack was as `P` says. -/
def Computes {α : Type} (stack : List DeclId) (P : List DeclId → Prop) (m : CheckM α)
    (r : Report α) : Prop :=
  ∀ s : Checker, s.expanding = stack → ∃ entered,
    m s = some (r.value, ⟨stack, s.errors ++ r.errors, s.entered ++ entered⟩) ∧
    ∀ st ∈ entered, P st

namespace Computes

variable {α β : Type} {stack : List DeclId} {P : List DeclId → Prop}

protected theorem pure (a : α) : Computes stack P (pure a) (pure a) := by
  intro s hs
  subst hs
  exact ⟨[], by simp only [Report.errors_pure, List.append_nil]; rfl, by simp⟩

protected theorem report (r : Report α) : Computes stack P (Checker.report r) r := by
  intro s hs
  subst hs
  exact ⟨[], by simp only [List.append_nil]; rfl, by simp⟩

protected theorem bind {m : CheckM α} {r : Report α} {f : α → CheckM β} {g : α → Report β}
    (h : Computes stack P m r) (hf : Computes stack P (f r.value) (g r.value)) :
    Computes stack P (m >>= f) (r >>= g) := by
  intro s hs
  obtain ⟨entered, hrun, hentered⟩ := h s hs
  obtain ⟨entered', hrun', hentered'⟩ := hf ⟨stack, s.errors ++ r.errors, s.entered ++ entered⟩ rfl
  refine ⟨entered ++ entered', ?_, List.forall_mem_append.mpr ⟨hentered, hentered'⟩⟩
  show (m s).bind (fun p => f p.1 p.2) = _
  rw [hrun, Option.bind_some, hrun', Report.value_bind, Report.errors_bind, List.append_assoc,
    List.append_assoc]

end Computes

/-- The functions of the stack are distinct functions of the table. -/
structure WellStacked (decls : DeclTable) (stack : List DeclId) : Prop where
  nodup : stack.Nodup
  subset : stack ⊆ decls.functions

namespace WellStacked

variable {decls : DeclTable} {stack : List DeclId}

theorem length_le (h : WellStacked decls stack) : stack.length ≤ decls.functions.length :=
  (h.nodup.subperm h.subset).length_le

theorem cons (h : WellStacked decls stack) {decl : DeclId} (hfunction : decl ∈ decls.functions)
    (hdecl : decl ∉ stack) : WellStacked decls (decl :: stack) where
  nodup := List.nodup_cons.mpr ⟨hdecl, h.nodup⟩
  subset := List.cons_subset.mpr ⟨hfunction, h.subset⟩

end WellStacked

end Checker

/-! ## Called functions -/

/-- What is called is a function of the table, with a slot for each parameter, if it is a function of
the unit. -/
def CallTarget.Declared (decls : DeclTable) : CallTarget → Prop
  | .function decl sig =>
    decl ∈ decls.functions ∧ (decls.defaultsOf decl).length = sig.params.length
  | _ => True

/-- If the operand is a call, what it calls is declared. -/
def Value.CallsDeclared (decls : DeclTable) : Value → Prop
  | .call _ _ _ (some t) _ => t.Declared decls
  | _ => True

/-- Whatever the expression calls is declared. -/
def Expr.CallsDeclared (decls : DeclTable) (e : Expr) : Prop :=
  ∀ o ∈ e.operands [], o.value.CallsDeclared decls

namespace Checker

/-! ## Calls -/

section Calls

variable {decls : DeclTable} {omission : Omission} {limit : Nat} {stack : List DeclId}

/-- An expansion runs under the longer stack. Its errors are dropped. -/
theorem computes_expand {callee : List DeclId} {copies : List Expr} {r : Report (List Expr)}
    (hstack : WellStacked decls (callee ++ stack))
    (h : Computes (callee ++ stack) (WellStacked decls) (exprs decls omission copies) r) :
    Computes stack (WellStacked decls) (expand decls omission callee copies) (pure r.value) := by
  intro s hs
  subst hs
  obtain ⟨entered, hrun, hentered⟩ :=
    h ⟨callee ++ s.expanding, s.errors, s.entered ++ [callee ++ s.expanding]⟩ rfl
  refine ⟨(callee ++ s.expanding) :: entered, ?_, List.forall_mem_cons.mpr ⟨hstack, hentered⟩⟩
  rw [expand]
  show (exprs decls omission copies _).bind (fun p => some (p.1, _)) = _
  rw [hrun, Option.bind_some]
  simp

/-- No copies are made if the call has all arguments or what it calls is being expanded. -/
theorem computes_omitted_nil {sig : Signature Ty} {written : Nat} {t : CallTarget}
    (h : ¬ (written < sig.params.length ∧ ∀ decl ∈ CallTarget.owner (some t), decl ∉ stack)) :
    Computes stack (WellStacked decls) (omitted decls limit sig written t) (pure []) := by
  intro s hs
  subst hs
  refine ⟨[], ?_, by simp⟩
  rw [omitted.eq_def]
  show (if _ then _ else _ : CheckM (List Expr)) s = _
  rw [if_neg h]
  simp only [Report.errors_pure, List.append_nil]
  rfl

/-- Otherwise the defaults are expanded, if one more expansion can be nested. -/
theorem computes_omitted_expand {sig : Signature Ty} {written : Nat} {t : CallTarget}
    {r : Report (List Expr)}
    (hwritten : written < sig.params.length)
    (hcallee : ∀ decl ∈ CallTarget.owner (some t), decl ∉ stack)
    (h : Computes stack (WellStacked decls)
      (expand decls (omitted decls limit) (CallTarget.owner (some t))
        (((Check.defaults decls t).take sig.params.length).drop written).reduceOption) r) :
    Computes stack (WellStacked decls) (omitted decls (limit + 1) sig written t) r := by
  intro s hs
  obtain ⟨entered, hrun, hentered⟩ := h s hs
  refine ⟨entered, ?_, hentered⟩
  subst hs
  rw [omitted]
  show (if _ then _ else _ : CheckM (List Expr)) s = _
  rw [if_pos ⟨hwritten, hcallee⟩]
  exact hrun

end Calls

/-! ## Expressions -/

section Expressions

variable {decls : DeclTable} {omission : Omission} {stack : List DeclId} {complete : Completion}

/-- What a call leaves out is found as in checking. -/
def OmitsAs (decls : DeclTable) (omission : Omission) (stack : List DeclId)
    (complete : Completion) : Prop :=
  ∀ (t : CallTarget) (sig : Signature Ty) (written : Nat), t.Declared decls →
    t.signature? = some sig → sig.accepts (sig.required (Check.defaults decls t)) written →
    Computes stack (WellStacked decls) (omission sig written t)
      (pure (Check.omitted complete written t))

theorem computes_call (homits : OmitsAs decls omission stack complete) {span : Span} {callee : DottedName}
    {args : List Expr} {target : Option CallTarget}
    (hdeclared : ∀ t, target = some t → t.Declared decls) :
    Computes stack (WellStacked decls) (call decls omission span callee args target)
      (Check.call decls complete span callee args target) := by
  rw [call.eq_def, Check.call.eq_def]
  cases target with
  | none => exact (Computes.pure _).bind (.pure _)
  | some t =>
    refine Computes.bind ?_ (.pure _)
    rw [arguments, Check.arguments]
    cases hsig : t.signature? with
    | none => exact .pure _
    | some sig =>
      by_cases haccepts : sig.accepts (sig.required (Check.defaults decls t)) args.length
      · simp only [haccepts, if_true]
        exact (Computes.report _).bind (homits t sig _ (hdeclared t rfl) hsig haccepts)
      · simp only [haccepts, Bool.false_eq_true, if_false]
        exact (Computes.report _).bind (.pure _)

mutual

/-- The machine checks an expression as it is checked. -/
theorem computes_expr (homits : OmitsAs decls omission stack complete) : ∀ {e : Expr} {place : List DeclId},
    (∀ o ∈ e.operands place, o.value.CallsDeclared decls) →
    Computes stack (WellStacked decls) (expr decls omission e) (Check.expr decls complete e)
  | .mk span ops, _, h => by
    rw [Expr.operands] at h
    rw [expr, Check.expr]
    exact (computes_chain homits h).bind (.pure _)

theorem computes_chain (homits : OmitsAs decls omission stack complete) :
    ∀ {c : Chain} {place : List DeclId}, (∀ o ∈ c.operands place, o.value.CallsDeclared decls) →
    Computes stack (WellStacked decls) (chain decls omission c) (Check.chain decls complete c)
  | .operand v, _, h => by
    rw [Chain.operands] at h
    rw [chain, Check.chain]
    exact (computes_value homits h).bind (.pure _)
  | .link v op rest, _, h => by
    simp only [Chain.operands, List.forall_mem_append] at h
    rw [chain, Check.chain]
    exact (computes_value homits h.1).bind ((computes_chain homits h.2).bind (.pure _))

theorem computes_value (homits : OmitsAs decls omission stack complete) :
    ∀ {v : Value} {place : List DeclId}, (∀ o ∈ v.operands place, o.value.CallsDeclared decls) →
    Computes stack (WellStacked decls) (value decls omission v) (Check.value decls complete v)
  | .call span callee args target defaulted, _, h => by
    simp only [Value.operands, List.forall_mem_cons] at h
    rw [value, Check.value]
    refine (computes_exprs homits h.2).bind (computes_call homits fun t ht => ?_)
    subst ht
    exact h.1
  | .index span base position, _, h => by
    simp only [Value.operands, List.forall_mem_cons, List.forall_mem_append] at h
    rw [value, Check.value]
    exact (computes_value homits h.2.1).bind ((computes_expr homits h.2.2).bind (.pure _))
  | .ref span inner, _, h => by
    simp only [Value.operands, List.forall_mem_cons] at h
    rw [value, Check.value]
    exact (computes_value homits h.2).bind ((Computes.report _).bind (.pure _))
  | .prefixed span op inner, _, h | .suffixed span op inner, _, h => by
    simp only [Value.operands, List.forall_mem_cons] at h
    rw [value, Check.value]
    exact (computes_value homits h.2).bind (.pure _)
  | .paren inner, _, h => by
    simp only [Value.operands, List.forall_mem_cons] at h
    rw [value, Check.value]
    exact (computes_expr homits h.2).bind (.pure _)
  | .ident _, _, _ | .number _, _, _ | .decimal _, _, _ | .string _, _, _ | .char _, _, _
  | .bool _ _, _, _ | .null _, _, _ => by
    rw [value, Check.value]
    exact .pure _

theorem computes_exprs (homits : OmitsAs decls omission stack complete) :
    ∀ {es : List Expr} {place copied : List DeclId} {written : Nat},
    (∀ o ∈ Value.operandsEach place copied written es, o.value.CallsDeclared decls) →
    Computes stack (WellStacked decls) (exprs decls omission es) (Check.exprs decls complete es)
  | [], _, _, _, _ => by
    rw [exprs, Check.exprs]
    exact .pure _
  | e :: es, _, _, _, h => by
    simp only [Value.operandsEach, List.forall_mem_append] at h
    rw [exprs, Check.exprs]
    exact (computes_expr homits h.1).bind ((computes_exprs homits h.2).bind (.pure _))

end

theorem computes_copies (homits : OmitsAs decls omission stack complete) {es : List Expr}
    (h : ∀ e ∈ es, e.CallsDeclared decls) :
    Computes stack (WellStacked decls) (exprs decls omission es) (Check.exprs decls complete es) := by
  induction es with
  | nil =>
    rw [exprs, Check.exprs]
    exact .pure _
  | cons e es ih =>
    obtain ⟨he, hes⟩ := List.forall_mem_cons.mp h
    rw [exprs, Check.exprs]
    exact (computes_expr homits he).bind ((ih hes).bind (.pure _))

section Completion

variable {limit : Nat}

/-- What is no function of the unit needs all its arguments, so nothing is left out. -/
theorem OmitsAs.of_functions (h : ∀ (decl : DeclId) (sig : Signature Ty) (written : Nat),
    decl ∈ decls.functions → (decls.defaultsOf decl).length = sig.params.length →
    Computes stack (WellStacked decls) (omitted decls limit sig written (.function decl sig))
      (pure (complete decl written).value)) :
    OmitsAs decls (omitted decls limit) stack complete := by
  intro t sig written hdeclared hsig haccepts
  cases t with
  | function decl sig' =>
    obtain rfl : sig' = sig := Option.some.inj hsig
    exact h decl sig' written hdeclared.1 hdeclared.2
  | functionValue _ | cFunction _ =>
    apply computes_omitted_nil
    rw [show Check.defaults decls _ = [] from rfl, Signature.required_nil] at haccepts
    simp only [Signature.accepts, Bool.and_eq_true, decide_eq_true_eq] at haccepts
    exact fun hshort => Nat.not_lt.mpr haccepts.1 hshort.1
  | macroCall _ _ _ | cast _ => cases hsig

/-- While a function is expanded its calls are not completed. -/
theorem computes_omitted_active {decl : DeclId} {sig : Signature Ty} {written : Nat}
    (hdecl : decl ∈ stack) :
    Computes stack (WellStacked decls) (omitted decls limit sig written (.function decl sig))
      (pure []) :=
  computes_omitted_nil fun hfresh => hfresh.2 decl List.mem_cons_self hdecl

/-- If all functions are being expanded, nothing more is. -/
theorem omitsAs_zero (hall : decls.functions ⊆ stack) :
    OmitsAs decls (omitted decls limit) stack (Check.completion decls 0 stack) :=
  .of_functions fun _ _ _ hfunction _ => computes_omitted_active (hall hfunction)

/-- One more function is expanded as checking completes its calls with one more depth. -/
theorem omitsAs_succ (htable : decls.DefaultsHave (Value.CallsDeclared decls)) {depth : Nat}
    (hstack : WellStacked decls stack)
    (h : ∀ decl ∈ decls.functions, WellStacked decls (decl :: stack) →
      ∃ limit', limit = limit' + 1 ∧
        OmitsAs decls (omitted decls limit') (decl :: stack)
          (Check.completion decls depth (decl :: stack))) :
    OmitsAs decls (omitted decls limit) stack (Check.completion decls (depth + 1) stack) := by
  refine .of_functions fun decl sig written hfunction hslots => ?_
  rw [Check.completion]
  -- A function that is being expanded is not expanded again; all others make the stack longer.
  by_cases hdecl : decl ∈ stack
  · rw [if_pos hdecl]
    exact computes_omitted_active hdecl
  · rw [if_neg hdecl]
    by_cases hwritten : written < sig.params.length
    · have hlonger := hstack.cons hfunction hdecl
      obtain ⟨limit', rfl, homits⟩ := h decl hfunction hlonger
      have hfresh : ∀ id ∈ CallTarget.owner (some (.function decl sig)), id ∉ stack :=
        List.forall_mem_singleton.mpr hdecl
      refine computes_omitted_expand hwritten hfresh ?_
      have hslice : ((decls.defaultsOf decl).take sig.params.length).drop written =
          (decls.defaultsOf decl).drop written := by
        rw [List.take_of_length_le (Nat.le_of_eq hslots)]
      rw [Check.defaults, hslice]
      refine computes_expand hlonger (computes_copies homits fun e he => ?_)
      exact htable decl e (List.mem_of_mem_drop (List.reduceOption_mem_iff.mp he))
    · have hempty : (decls.defaultsOf decl).drop written = [] :=
        List.drop_eq_nil_of_le (by omega)
      rw [hempty]
      exact computes_omitted_nil fun hshort => hwritten hshort.1

/-- As many nested expansions as there are functions that are not on the stack are enough: the
machine completes calls as checking does with at least that depth. -/
theorem omitsAs_completion (htable : decls.DefaultsHave (Value.CallsDeclared decls)) {depth : Nat}
    (hdepth : decls.functions.length ≤ stack.length + depth)
    (hlimit : decls.functions.length ≤ stack.length + limit) (hstack : WellStacked decls stack) :
    OmitsAs decls (omitted decls limit) stack (Check.completion decls depth stack) := by
  induction depth generalizing stack limit with
  | zero =>
    have hperm := hstack.nodup.subperm hstack.subset
    exact omitsAs_zero (hperm.perm_of_length_le hdepth).symm.subset
  | succ depth ih =>
    refine omitsAs_succ htable hstack fun decl hfunction hlonger => ?_
    have hlength := hlonger.length_le
    rw [List.length_cons] at hlength
    -- the stack can grow, so the limit is not reached
    obtain ⟨limit', rfl⟩ : ∃ limit', limit = limit' + 1 := ⟨limit - 1, by omega⟩
    refine ⟨limit', rfl, ih ?_ ?_ hlonger⟩
    · rw [List.length_cons]
      omega
    · rw [List.length_cons]
      omega

end Completion

end Expressions

/-! ## Statements -/

section Statements

variable {decls : DeclTable} {omission : Omission} {returned : Ty}

/-- The machine checks every expression as it is checked, if nothing is being expanded. -/
def ChecksAs (decls : DeclTable) (omission : Omission) : Prop :=
  OmitsAs decls omission [] (Check.complete decls)

theorem computes_into (homits : ChecksAs decls omission) {expected : Ty} {e : Expr}
    (he : e.CallsDeclared decls) :
    Computes [] (WellStacked decls) (into decls omission expected e) (Check.into decls expected e) :=
  (computes_expr homits he).bind ((Computes.report _).bind (.pure _))

theorem computes_varDecl (homits : ChecksAs decls omission) {var : VarDecl}
    (hinit : ∀ e ∈ var.init.toList, e.CallsDeclared decls) :
    Computes [] (WellStacked decls) (varDecl decls omission var) (Check.varDecl decls var) := by
  rw [varDecl, Check.varDecl]
  cases hcase : var.init with
  | none => exact .pure _
  | some e => exact (computes_into homits (hinit e (by simp [hcase]))).bind (.pure _)

theorem computes_ret (homits : ChecksAs decls omission) {span : Span} {e : Option Expr}
    (he : ∀ x ∈ e.toList, x.CallsDeclared decls) :
    Computes [] (WellStacked decls) (ret decls omission returned span e)
      (Check.ret decls returned span e) := by
  cases e with
  | none => exact (Computes.report _).bind (.pure _)
  | some e =>
    have he := he e (by simp)
    rw [ret, Check.ret]
    by_cases hvoid : returned.isVoid
    · rw [if_pos hvoid, if_pos hvoid]
      exact (computes_expr homits he).bind ((Computes.report _).bind (.pure _))
    · rw [if_neg hvoid, if_neg hvoid]
      exact (computes_into homits he).bind (.pure _)

theorem computes_guard (homits : ChecksAs decls omission) {g : Guard}
    (hg : ∀ e ∈ g.cond?.toList, e.CallsDeclared decls) :
    Computes [] (WellStacked decls) (guard decls omission g) (Check.guard decls g) := by
  cases g with
  | otherwise => exact .pure _
  | first cond | next cond =>
    have hcond := hg cond (by simp [Guard.cond?])
    exact (computes_expr homits hcond).bind (.pure _)

mutual

theorem computes_stmt (homits : ChecksAs decls omission) :
    ∀ {s : Stmt}, (∀ e ∈ s.exprs, e.CallsDeclared decls) →
    Computes [] (WellStacked decls) (stmt decls omission returned s) (Check.stmt decls returned s)
  | .expr e, h => (computes_expr homits (h e List.mem_cons_self)).bind (.pure _)
  | .decl var, h => (computes_varDecl homits h).bind (.pure _)
  | .assign span target none e, h => by
    simp only [Stmt.exprs, List.forall_mem_cons] at h
    rw [stmt, Check.stmt]
    exact (computes_value homits h.1).bind ((computes_into homits h.2.1).bind (.pure _))
  | .assign span target (some op) e, h => by
    simp only [Stmt.exprs, List.forall_mem_cons] at h
    rw [stmt, Check.stmt]
    exact (computes_value homits h.1).bind ((computes_expr homits h.2.1).bind (.pure _))
  | .ret span e, h => (computes_ret homits h).bind (.pure _)
  | .cond list, h => (computes_branches homits h).bind (.pure _)
  | .loop span cond body, h => by
    simp only [Stmt.exprs, List.forall_mem_cons] at h
    rw [stmt, Check.stmt]
    exact (computes_expr homits h.1).bind ((computes_stmts homits h.2).bind (.pure _))
  | .block span body, h => (computes_stmts homits h).bind (.pure _)

theorem computes_stmts (homits : ChecksAs decls omission) :
    ∀ {ss : List Stmt}, (∀ e ∈ Stmt.exprsEach ss, e.CallsDeclared decls) →
    Computes [] (WellStacked decls) (stmts decls omission returned ss) (Check.stmts decls returned ss)
  | [], _ => .pure _
  | s :: ss, h => by
    simp only [Stmt.exprsEach, List.forall_mem_append] at h
    exact (computes_stmt homits h.1).bind ((computes_stmts homits h.2).bind (.pure _))

theorem computes_branch (homits : ChecksAs decls omission) :
    ∀ {b : Branch}, (∀ e ∈ b.exprs, e.CallsDeclared decls) →
    Computes [] (WellStacked decls) (branch decls omission returned b) (Check.branch decls returned b)
  | .mk span g body, h => by
    simp only [Branch.exprs, List.forall_mem_append] at h
    exact (computes_guard homits h.1).bind ((computes_stmts homits h.2).bind (.pure _))

theorem computes_branches (homits : ChecksAs decls omission) :
    ∀ {bs : List Branch}, (∀ e ∈ Branch.exprsEach bs, e.CallsDeclared decls) →
    Computes [] (WellStacked decls) (branches decls omission returned bs)
      (Check.branches decls returned bs)
  | [], _ => .pure _
  | b :: bs, h => by
    simp only [Branch.exprsEach, List.forall_mem_append] at h
    exact (computes_branch homits h.1).bind ((computes_branches homits h.2).bind (.pure _))

end

/-! ## Parts of the unit -/

theorem computes_params (homits : ChecksAs decls omission) {ps : List Param} {tys : List Ty}
    (h : ∀ p ∈ ps, ∀ e ∈ p.default.toList, e.CallsDeclared decls) :
    Computes [] (WellStacked decls) (params decls omission ps tys) (Check.params decls ps tys) := by
  induction ps generalizing tys with
  | nil => exact .pure _
  | cons p ps ih =>
    cases tys with
    | nil => exact .pure _
    | cons ty tys =>
      obtain ⟨hp, hps⟩ := List.forall_mem_cons.mp h
      rw [params, Check.params]
      cases hdefault : p.default with
      | none => exact (Computes.pure _).bind ((ih hps).bind (.pure _))
      | some e =>
        have he := hp e (by simp [hdefault])
        refine (computes_into homits he).bind ?_
        exact (Computes.pure _).bind ((ih hps).bind (.pure _))

theorem computes_node (homits : ChecksAs decls omission) {n : Node}
    (h : ∀ e ∈ n.exprs, e.CallsDeclared decls) :
    Computes [] (WellStacked decls) (node decls omission n) (Check.node decls n) := by
  cases n with
  | function f =>
    refine Computes.bind ?_ (.pure _)
    have hparams : ∀ p ∈ f.params, ∀ e ∈ p.default.toList, e.CallsDeclared decls := by
      intro p hp e he
      exact h e (List.mem_append_left _ (List.mem_filterMap.mpr ⟨p, hp, Option.mem_toList.mp he⟩))
    rw [function, Check.function]
    cases f.sig with
    | none => exact .pure _
    | some sig =>
      refine (computes_params homits hparams).bind ?_
      cases hbody : f.body with
      | none => exact .pure _
      | some body =>
        refine (computes_stmts homits fun e he => h e (List.mem_append_right _ ?_)).bind (.pure _)
        simpa [Function.exprs, hbody] using he
  | global g => exact (computes_varDecl homits h).bind (.pure _)
  | _ => exact .pure _

theorem computes_nodes (homits : ChecksAs decls omission) {ns : List Node}
    (h : ∀ n ∈ ns, ∀ e ∈ n.exprs, e.CallsDeclared decls) :
    Computes [] (WellStacked decls) (nodes decls omission ns) (Check.nodes decls ns) := by
  induction ns with
  | nil => exact .pure _
  | cons n ns ih =>
    obtain ⟨hn, hns⟩ := List.forall_mem_cons.mp h
    exact (computes_node homits hn).bind ((ih hns).bind (.pure _))

end Statements

end Checker

/-! ## Resolved units -/

section Unit

variable {unit unit' : SourceUnit} {context : SemanticContext}

/-- The calls of a resolved unit call what is declared. -/
theorem SourceUnit.callsDeclared (h : unit.resolve = (unit', .ok context)) :
    ∀ n ∈ unit'.nodes, ∀ e ∈ n.exprs, e.CallsDeclared context.decls := by
  intro n hn e he o ho
  cases hvalue : o.value with
  | call span callee args target defaulted =>
    cases target with
    | none => trivial
    | some t =>
      cases t with
      | function decl sig =>
        obtain ⟨f, hf, hdecl, hfsig⟩ := called_function h hn he ho hvalue
        obtain ⟨id, info, -, hid, hinfo, -, hkind, -⟩ := (functionEntries h).declared f hf
        obtain rfl : id = decl := Option.some.inj (hid.symm.trans hdecl)
        obtain ⟨id', sig', hid', hsig', -, hlength, -⟩ := resolve_slots h hf
        obtain rfl : id' = id := Option.some.inj (hid'.symm.trans hdecl)
        obtain rfl : sig' = sig := Option.some.inj (hsig'.symm.trans hfsig)
        exact ⟨DeclTable.mem_functions.mpr ⟨info, hinfo, hkind⟩, hlength⟩
      | _ => trivial
  | _ => trivial

/-- Each function of the unit is expanded once on a chain, so nothing needs more nested expansions
than there are functions. -/
theorem SourceUnit.checksAs (h : unit.resolve = (unit', .ok context)) {limit : Nat}
    (hlimit : context.decls.functions.length ≤ limit) :
    Checker.ChecksAs context.decls (Checker.omitted context.decls limit) := by
  have htable := defaults_have h (callsDeclared h)
  have hdepth : context.decls.functions.length ≤ context.decls.length :=
    (List.length_filter_le _ _).trans (Nat.le_of_eq List.length_range)
  apply Checker.omitsAs_completion htable
  · rwa [List.length_nil, Nat.zero_add]
  · rwa [List.length_nil, Nat.zero_add]
  · exact ⟨List.nodup_nil, List.nil_subset _⟩

/-- **Default expansion terminates.** On every resolved unit the machine ends with the checked unit
and its errors and with an empty stack, whatever limit it has that is no less than the number of
functions: no chain of expansions is longer. Wherever an expansion begins, the functions on the stack
are distinct functions of the unit. After each part of the unit the stack is empty. -/
theorem default_expansion_terminates (h : unit.resolve = (unit', .ok context)) {limit : Nat}
    (hlimit : context.decls.functions.length ≤ limit) :
    ∃ entered, Checker.unit context limit unit' Checker.start =
        some ((unit'.check context).value, ⟨[], (unit'.check context).errors, entered⟩) ∧
      (∀ stack ∈ entered, stack.Nodup ∧ stack ⊆ context.decls.functions ∧
        stack.length ≤ context.decls.functions.length) ∧
      ∀ before after, unit'.nodes = before ++ after → ∃ checked s,
        Checker.nodes context.decls (Checker.omitted context.decls limit) before Checker.start =
            some (checked, s) ∧
          s.expanding = [] := by
  have hchecks := SourceUnit.checksAs h hlimit
  have hcalls := SourceUnit.callsDeclared h
  have hunit : Checker.Computes [] (Checker.WellStacked context.decls)
      (Checker.unit context limit unit') (unit'.check context) :=
    (Checker.computes_nodes hchecks hcalls).bind (.pure _)
  obtain ⟨entered, hrun, hentered⟩ := hunit Checker.start rfl
  refine ⟨entered, hrun, fun stack hstack => ?_, fun before after hsplit => ?_⟩
  · have hstacked := hentered stack hstack
    exact ⟨hstacked.nodup, hstacked.subset, hstacked.length_le⟩
  · have hbefore : ∀ n ∈ before, ∀ e ∈ n.exprs, e.CallsDeclared context.decls := by
      intro n hn
      exact hcalls n (hsplit ▸ List.mem_append_left _ hn)
    obtain ⟨_, hpart, -⟩ := Checker.computes_nodes hchecks hbefore Checker.start rfl
    exact ⟨_, _, hpart, rfl⟩

end Unit

/-- Functions whose defaults call each other, and one that calls itself. -/
theorem cyclic_expansion_terminates : ∃ unit unit' context,
    SourceUnit.parse 0
      "int f(int a = g(), int b = f())\nint g(int a = f(1))\nint h() { return f() }" = .ok unit ∧
    unit.resolve = (unit', .ok context) ∧ context.decls.functions.length ≤ 3 ∧ ∃ s,
      Checker.unit context 3 unit' Checker.start = some ((unit'.check context).value, s) ∧
      s.expanding = [] ∧ ∀ stack ∈ s.entered, stack.Nodup ∧ stack ⊆ context.decls.functions := by
  have hok : ((SourceUnit.parse 0
      "int f(int a = g(), int b = f())\nint g(int a = f(1))\nint h() { return f() }"
      ).toOption.any fun unit => unit.resolve.2.toOption.any fun context =>
        decide (context.decls.functions.length ≤ 3)) = true := by
    rw [SourceUnit.parse_ofList]
    decide +kernel
  obtain ⟨unit, unit', context, hparse, hresolve, hlimit⟩ :=
    SourceUnit.exists_resolved
      (p := fun _ context => decide (context.decls.functions.length ≤ 3)) hok
  have hlimit := of_decide_eq_true hlimit
  obtain ⟨entered, hrun, hentered, -⟩ := default_expansion_terminates hresolve hlimit
  refine ⟨unit, unit', context, hparse, hresolve, hlimit, _, hrun, rfl, fun stack hstack => ?_⟩
  exact ⟨(hentered stack hstack).1, (hentered stack hstack).2.1⟩

end KilnLang
