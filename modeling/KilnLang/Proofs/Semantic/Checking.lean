import KilnLang.Proofs.Semantic.Completion
import KilnLang.Proofs.Semantic.Operands

/-!
# Checks that find no error

What is known of a unit in which checking finds no error: every expression of every part has been
checked on its own (`Gives`, `gives_node`), and so has every operand of an expression
(`checked_expr`).
-/

namespace KilnLang

/-! ## Checked expressions -/

/-- The call has an accepted number of arguments. -/
def Value.Accepted (decls : DeclTable) : Value → Prop
  | .call _ _ args (some t) _ => ∀ sig, t.signature? = some sig →
    sig.accepts (sig.required (Check.defaults decls t)) args.length
  | _ => True

namespace Check

variable {decls : DeclTable} {complete : Completion}

theorem arguments_eq_pure {span : Span} {callee : DottedName} {args more : List Expr}
    {t : CallTarget} {sig : Signature Ty} (hsig : t.signature? = some sig)
    (h : arguments decls complete span callee args t = pure more) :
    sig.accepts (sig.required (defaults decls t)) args.length ∧
      sig.rest.storeArgs sig.params args = pure () := by
  simp only [arguments, hsig] at h
  split at h
  · rename_i haccepts
    simp only [Report.bind_eq_pure] at h
    obtain ⟨⟨⟩, hstore, -⟩ := h
    exact ⟨haccepts, hstore⟩
  · simp only [Report.bind_eq_pure, Report.error_ne_pure, false_and, exists_false] at h

theorem call_eq_pure {span : Span} {callee : DottedName} {args : List Expr} {t : CallTarget}
    {sig : Signature Ty} {v : Value} (hsig : t.signature? = some sig)
    (h : call decls complete span callee args (some t) = pure v) :
    sig.accepts (sig.required (defaults decls t)) args.length ∧
      sig.rest.storeArgs sig.params args = pure () := by
  simp only [call, Report.bind_eq_pure] at h
  obtain ⟨more, hmore, -⟩ := h
  exact arguments_eq_pure hsig hmore

theorem length_of_exprs {es es' : List Expr} (h : exprs decls complete es = pure es') :
    es'.length = es.length := by
  have hlength := @length_exprs decls complete es
  rwa [h] at hlength

mutual

/-- Checking an expression checks each of its operands. -/
theorem checked_expr : ∀ {e e' : Expr}, expr decls complete e = pure e' →
    ∀ {place : List DeclId}, ∀ o ∈ e.operands place, ∃ v', value decls complete o.value = pure v'
  | .mk span c, e', h, place => by
    simp only [expr, Report.bind_eq_pure] at h
    obtain ⟨c', hc, -⟩ := h
    simp only [Expr.operands]
    exact checked_chain hc
termination_by structural e => e

theorem checked_chain : ∀ {c c' : Chain}, chain decls complete c = pure c' →
    ∀ {place : List DeclId}, ∀ o ∈ c.operands place, ∃ v', value decls complete o.value = pure v'
  | .operand v, c', h, place => by
    simp only [chain, Report.bind_eq_pure] at h
    obtain ⟨v', hv, -⟩ := h
    simp only [Chain.operands]
    exact checked_value hv
  | .link v op rest, c', h, place => by
    simp only [chain, Report.bind_eq_pure] at h
    obtain ⟨v', hv, rest', hrest, -⟩ := h
    simp only [Chain.operands, List.forall_mem_append]
    exact ⟨checked_value hv, checked_chain hrest⟩
termination_by structural c => c

theorem checked_value : ∀ {v v' : Value}, value decls complete v = pure v' →
    ∀ {place : List DeclId}, ∀ o ∈ v.operands place, ∃ v', value decls complete o.value = pure v'
  | .call span callee args target defaulted, v', h, place => by
    simp only [Value.operands, List.forall_mem_cons]
    refine ⟨⟨v', h⟩, ?_⟩
    simp only [value, Report.bind_eq_pure] at h
    obtain ⟨args', hargs, -⟩ := h
    exact checked_exprs hargs
  | .index span base position, v', h, place => by
    simp only [Value.operands, List.forall_mem_cons, List.forall_mem_append]
    refine ⟨⟨v', h⟩, ?_⟩
    simp only [value, Report.bind_eq_pure] at h
    obtain ⟨base', hbase, position', hposition, -⟩ := h
    exact ⟨checked_value hbase, checked_expr hposition⟩
  | .ref span inner, v', h, place | .prefixed span op inner, v', h, place
  | .suffixed span op inner, v', h, place => by
    simp only [Value.operands, List.forall_mem_cons]
    refine ⟨⟨v', h⟩, ?_⟩
    simp only [value, Report.bind_eq_pure] at h
    obtain ⟨inner', hinner, -⟩ := h
    exact checked_value hinner
  | .paren inner, v', h, place => by
    simp only [Value.operands, List.forall_mem_cons]
    refine ⟨⟨v', h⟩, ?_⟩
    simp only [value, Report.bind_eq_pure] at h
    obtain ⟨inner', hinner, -⟩ := h
    exact checked_expr hinner
  | .ident _, v', h, _ | .number _, v', h, _ | .decimal _, v', h, _ | .string _, v', h, _
  | .char _, v', h, _ | .bool _ _, v', h, _ | .null _, v', h, _ => by
    simp only [Value.operands, List.forall_mem_singleton]
    exact ⟨v', h⟩
termination_by structural v => v

theorem checked_exprs : ∀ {es es' : List Expr}, exprs decls complete es = pure es' →
    ∀ {place copied : List DeclId} {written : Nat},
      ∀ o ∈ Value.operandsEach place copied written es, ∃ v', value decls complete o.value = pure v'
  | [], _, _, _, _, _ => by simp [Value.operandsEach]
  | e :: es, es', h, _, _, _ => by
    simp only [exprs, Report.bind_eq_pure] at h
    obtain ⟨e', he, es', hes, -⟩ := h
    simp only [Value.operandsEach, List.forall_mem_append]
    exact ⟨checked_expr he, checked_exprs hes⟩
termination_by structural es => es

end

/-- A call without errors has an accepted number of arguments. -/
theorem accepted_of_value {v v' : Value} (h : value decls complete v = pure v') :
    v.Accepted decls := by
  cases v with
  | call span callee args target defaulted =>
    simp only [value, Report.bind_eq_pure] at h
    obtain ⟨args', hargs, hcall⟩ := h
    cases target with
    | none => trivial
    | some t =>
      intro sig hsig
      rw [← length_of_exprs hargs]
      exact (call_eq_pure hsig hcall).1
  | _ => trivial

/-! ## Checked parts -/

/-- Checking the first expression finds no error and gives the second one. -/
def Gives (decls : DeclTable) (e e' : Expr) : Prop := expr decls (Check.complete decls) e = pure e'

theorem Gives.eq_completed {e e' : Expr} (h : Gives decls e e') : e' = completed decls e :=
  (congrArg Report.value h).symm

theorem into_eq_pure {expected : Ty} {e e' : Expr} :
    into decls expected e = pure e' ↔ Gives decls e e' ∧ expected.store e' = pure () := by
  simp only [into, Report.bind_eq_pure, Report.pure_inj]
  constructor
  · rintro ⟨_, he, ⟨⟩, hstore, rfl⟩
    exact ⟨he, hstore⟩
  · rintro ⟨he, hstore⟩
    exact ⟨e', he, (), hstore, rfl⟩

theorem gives_alone {v v' : Value} (h : value decls (Check.complete decls) v = pure v') :
    Gives decls v.alone v'.alone := by
  have hspan : v'.span = v.span := by
    have := @span_value decls (Check.complete decls) v
    rwa [h] at this
  simp only [Gives, Value.alone, expr, chain, h, pure_bind, hspan]

theorem gives_guard {g g' : Guard} (h : guard decls g = pure g') :
    List.Forall₂ (Gives decls) g.cond?.toList g'.cond?.toList := by
  cases g with
  | otherwise =>
    rw [← Report.pure_inj.mp h]
    exact .nil
  | _ =>
    simp only [guard, Report.bind_eq_pure, Report.pure_inj] at h
    obtain ⟨e', he, rfl⟩ := h
    exact .cons he .nil

theorem gives_varDecl {var var' : VarDecl} (h : varDecl decls var = pure var') :
    List.Forall₂ (Gives decls) var.init.toList var'.init.toList := by
  unfold varDecl at h
  split at h
  · rename_i hinit
    rw [← Report.pure_inj.mp h, hinit]
    exact .nil
  · rename_i init hinit
    simp only [Report.bind_eq_pure, Report.pure_inj] at h
    obtain ⟨init', hinto, rfl⟩ := h
    rw [hinit]
    exact .cons (into_eq_pure.mp hinto).1 .nil

theorem gives_ret {returned : Ty} {span : Span} {e e' : Option Expr}
    (h : ret decls returned span e = pure e') : List.Forall₂ (Gives decls) e.toList e'.toList := by
  cases e with
  | none =>
    simp only [ret, Report.bind_eq_pure, Report.pure_inj] at h
    obtain ⟨-, -, rfl⟩ := h
    exact .nil
  | some e =>
    simp only [ret] at h
    split at h
    · simp only [Report.bind_eq_pure, Report.error_ne_pure, false_and, exists_false,
        and_false] at h
    · simp only [Report.bind_eq_pure, Report.pure_inj] at h
      obtain ⟨e', hinto, rfl⟩ := h
      exact .cons (into_eq_pure.mp hinto).1 .nil

mutual

/-- Checking a statement checks each of its expressions. -/
theorem gives_stmt {returned : Ty} : ∀ {s t : Stmt}, stmt decls returned s = pure t →
    List.Forall₂ (Gives decls) s.exprs t.exprs
  | .expr e, t, h => by
    simp only [stmt, Report.bind_eq_pure, Report.pure_inj] at h
    obtain ⟨e', he, rfl⟩ := h
    exact .cons he .nil
  | .decl var, t, h => by
    simp only [stmt, Report.bind_eq_pure, Report.pure_inj] at h
    obtain ⟨var', hvar, rfl⟩ := h
    exact gives_varDecl hvar
  | .assign span target none e, t, h => by
    simp only [stmt, Report.bind_eq_pure, Report.pure_inj] at h
    obtain ⟨target', htarget, e', hinto, rfl⟩ := h
    exact .cons (gives_alone htarget) (.cons (into_eq_pure.mp hinto).1 .nil)
  | .assign span target (some op) e, t, h => by
    simp only [stmt, Report.bind_eq_pure, Report.pure_inj] at h
    obtain ⟨target', htarget, e', he, rfl⟩ := h
    exact .cons (gives_alone htarget) (.cons he .nil)
  | .ret span e, t, h => by
    simp only [stmt, Report.bind_eq_pure, Report.pure_inj] at h
    obtain ⟨e', he, rfl⟩ := h
    exact gives_ret he
  | .cond list, t, h => by
    simp only [stmt, Report.bind_eq_pure, Report.pure_inj] at h
    obtain ⟨list', hlist, rfl⟩ := h
    exact gives_branches hlist
  | .loop span cond body, t, h => by
    simp only [stmt, Report.bind_eq_pure, Report.pure_inj] at h
    obtain ⟨cond', hcond, body', hbody, rfl⟩ := h
    exact .cons hcond (gives_stmts hbody)
  | .block span body, t, h => by
    simp only [stmt, Report.bind_eq_pure, Report.pure_inj] at h
    obtain ⟨body', hbody, rfl⟩ := h
    exact gives_stmts hbody
termination_by structural s => s

theorem gives_stmts {returned : Ty} : ∀ {ss ts : List Stmt}, stmts decls returned ss = pure ts →
    List.Forall₂ (Gives decls) (Stmt.exprsEach ss) (Stmt.exprsEach ts)
  | [], ts, h => by
    rw [← Report.pure_inj.mp h]
    exact .nil
  | s :: ss, ts, h => by
    simp only [stmts, Report.bind_eq_pure, Report.pure_inj] at h
    obtain ⟨t, hs, ts, hss, rfl⟩ := h
    exact List.rel_append (gives_stmt hs) (gives_stmts hss)
termination_by structural ss => ss

theorem gives_branch {returned : Ty} : ∀ {b c : Branch}, branch decls returned b = pure c →
    List.Forall₂ (Gives decls) b.exprs c.exprs
  | .mk span g body, c, h => by
    simp only [branch, Report.bind_eq_pure, Report.pure_inj] at h
    obtain ⟨g', hg, body', hbody, rfl⟩ := h
    exact List.rel_append (gives_guard hg) (gives_stmts hbody)
termination_by structural b => b

theorem gives_branches {returned : Ty} : ∀ {bs cs : List Branch},
    branches decls returned bs = pure cs →
      List.Forall₂ (Gives decls) (Branch.exprsEach bs) (Branch.exprsEach cs)
  | [], cs, h => by
    rw [← Report.pure_inj.mp h]
    exact .nil
  | b :: bs, cs, h => by
    simp only [branches, Report.bind_eq_pure, Report.pure_inj] at h
    obtain ⟨c, hb, cs, hbs, rfl⟩ := h
    exact List.rel_append (gives_branch hb) (gives_branches hbs)
termination_by structural bs => bs

end

theorem gives_params : ∀ {ps ps' : List Param} {tys : List Ty}, ps.length = tys.length →
    params decls ps tys = pure ps' →
      List.Forall₂ (Gives decls) (ps.filterMap (·.default)) (ps'.filterMap (·.default))
  | [], ps', [], _, h => by
    rw [← Report.pure_inj.mp h]
    exact .nil
  | p :: ps, ps', ty :: tys, hlength, h => by
    cases hp : p.default with
    | none =>
      simp only [params, hp, pure_bind, Report.bind_eq_pure, Report.pure_inj] at h
      obtain ⟨ps', hps, rfl⟩ := h
      simpa [hp] using gives_params (Nat.succ.inj hlength) hps
    | some e =>
      simp only [params, hp, pure_bind, Report.bind_eq_pure, Report.pure_inj] at h
      obtain ⟨e', hinto, ps', hps, rfl⟩ := h
      simpa [hp] using ⟨(into_eq_pure.mp hinto).1, gives_params (Nat.succ.inj hlength) hps⟩

/-- A function has a parameter for each of its signature. -/
def Headed : Node → Prop
  | .function f => ∃ sig, f.sig = some sig ∧ f.params.length = sig.params.length
  | _ => True

/-- Checking a part checks each of its expressions. -/
theorem gives_node {n n' : Node} (hn : Headed n) (h : node decls n = pure n') :
    List.Forall₂ (Gives decls) n.exprs n'.exprs := by
  cases n with
  | function f =>
    obtain ⟨sig, hsig, hlength⟩ := hn
    cases hbody : f.body with
    | none =>
      simp only [node, function, hsig, hbody, Report.bind_eq_pure, Report.pure_inj] at h
      obtain ⟨_, ⟨ps, hps, rfl⟩, rfl⟩ := h
      refine List.rel_append (gives_params hlength hps) ?_
      simp [Function.exprs, hbody, Stmt.exprsEach]
    | some body =>
      simp only [node, function, hsig, hbody, Report.bind_eq_pure, Report.pure_inj] at h
      obtain ⟨_, ⟨ps, hps, body', hstmts, rfl⟩, rfl⟩ := h
      refine List.rel_append (gives_params hlength hps) ?_
      simpa [Function.exprs, hbody] using gives_stmts hstmts
  | global g =>
    simp only [node, Report.bind_eq_pure, Report.pure_inj] at h
    obtain ⟨g', hg, rfl⟩ := h
    exact gives_varDecl hg
  | _ =>
    rw [← Report.pure_inj.mp h]
    exact .nil

end Check

end KilnLang
