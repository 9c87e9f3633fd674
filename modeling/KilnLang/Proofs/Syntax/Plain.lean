import KilnLang.Proofs.Semantic.Slots
import KilnLang.Proofs.Syntax.Reading

/-!
# What was written

Passes fill slots, attach tables to includes and append copies of defaults to calls. `Node.written`
takes all of it away again: it empties the slots (`refill .emptied`), and then the tables and the
copies (`uncompleted`).

**Parsed trees are plain**: there is nothing to take away from them (`SourceUnit.written_parse`). For
each parser there is a lemma that its result is plain.
-/

namespace KilnLang

/-! ## Trees without copies -/

mutual

/-- The expression without the copies of defaults in its calls. -/
def Expr.uncompleted : Expr → Expr
  | .mk span chain => .mk span chain.uncompleted

/-- The operands without the copies of defaults. -/
def Chain.uncompleted : Chain → Chain
  | .operand value => .operand value.uncompleted
  | .link value op rest => .link value.uncompleted op rest.uncompleted

/-- The operand without the copies of defaults: the last `defaulted` arguments of each call. -/
def Value.uncompleted : Value → Value
  | .call span callee args target defaulted =>
    .call span callee ((Value.uncompletedEach args).take (args.length - defaulted)) target 0
  | .index span base position => .index span base.uncompleted position.uncompleted
  | .ref span inner => .ref span inner.uncompleted
  | .prefixed span op inner => .prefixed span op inner.uncompleted
  | .suffixed span op inner => .suffixed span op inner.uncompleted
  | .paren inner => .paren inner.uncompleted
  | .ident name => .ident name
  | .number lit => .number lit
  | .decimal lit => .decimal lit
  | .string lit => .string lit
  | .char lit => .char lit
  | .bool span b => .bool span b
  | .null span => .null span

/-- The expressions without the copies of defaults in their calls. -/
def Value.uncompletedEach : List Expr → List Expr
  | [] => []
  | e :: es => e.uncompleted :: Value.uncompletedEach es

end

theorem Value.length_uncompletedEach (es : List Expr) :
    (Value.uncompletedEach es).length = es.length := by
  induction es with
  | nil => rfl
  | cons e es ih => rw [Value.uncompletedEach, List.length_cons, List.length_cons, ih]

/-- The variable without copies of defaults. -/
def VarDecl.uncompleted (var : VarDecl) : VarDecl :=
  { var with init := var.init.map (·.uncompleted) }

/-- The guard without copies of defaults. -/
def Guard.uncompleted : Guard → Guard
  | .first cond => .first cond.uncompleted
  | .next cond => .next cond.uncompleted
  | .otherwise => .otherwise

mutual

/-- The statement without copies of defaults. -/
def Stmt.uncompleted : Stmt → Stmt
  | .expr value => .expr value.uncompleted
  | .decl var => .decl var.uncompleted
  | .assign span target op value => .assign span target.uncompleted op value.uncompleted
  | .ret span value => .ret span (value.map (·.uncompleted))
  | .cond list => .cond (Branch.uncompletedEach list)
  | .loop span cond body => .loop span cond.uncompleted (Stmt.uncompletedEach body)
  | .block span body => .block span (Stmt.uncompletedEach body)

/-- The statements without copies of defaults. -/
def Stmt.uncompletedEach : List Stmt → List Stmt
  | [] => []
  | s :: ss => s.uncompleted :: Stmt.uncompletedEach ss

/-- The branch without copies of defaults. -/
def Branch.uncompleted : Branch → Branch
  | .mk span guard body => .mk span guard.uncompleted (Stmt.uncompletedEach body)

/-- The branches without copies of defaults. -/
def Branch.uncompletedEach : List Branch → List Branch
  | [] => []
  | b :: bs => b.uncompleted :: Branch.uncompletedEach bs

end

/-- The parameter without copies of defaults in its own default. -/
def Param.uncompleted (p : Param) : Param := { p with default := p.default.map (·.uncompleted) }

/-- The function without copies of defaults. -/
def Function.uncompleted (item : Function) : Function :=
  { item with
    params := item.params.map (·.uncompleted)
    body := item.body.map Stmt.uncompletedEach }

/-- The part of a unit without copies of defaults, and an include without its table. -/
def Node.uncompleted : Node → Node
  | .header item => .header { item with symbols := none }
  | .alias item => .alias item
  | .function item => .function item.uncompleted
  | .global item => .global item.uncompleted

/-- The part of a unit as it was written. -/
def Node.written (n : Node) : Node := (n.refill .emptied).uncompleted

/-- The unit as it was written. -/
def SourceUnit.written (unit : SourceUnit) : SourceUnit :=
  { unit with nodes := unit.nodes.map Node.written }

/-! ## Plain trees -/

/-- No slot of the type is filled. -/
def TypeExpr.Plain (t : TypeExpr) : Prop := t.bare = t

/-- The expression has no filled slot and no copy of a default. -/
def Expr.Plain (e : Expr) : Prop := e.refill .emptied = e ∧ e.uncompleted = e

/-- The operands have no filled slot and no copy of a default. -/
def Chain.Plain (c : Chain) : Prop := c.refill .emptied = c ∧ c.uncompleted = c

/-- The operand has no filled slot and no copy of a default. -/
def Value.Plain (v : Value) : Prop := v.refill .emptied = v ∧ v.uncompleted = v

/-- The expressions have no filled slot and no copy of a default. -/
def Value.PlainEach (es : List Expr) : Prop :=
  Value.refillEach .emptied es = es ∧ Value.uncompletedEach es = es

/-- The variable has no filled slot and no copy of a default. -/
def VarDecl.Plain (var : VarDecl) : Prop := var.refill .emptied = var ∧ var.uncompleted = var

/-- The statement has no filled slot and no copy of a default. -/
def Stmt.Plain (s : Stmt) : Prop := s.refill .emptied = s ∧ s.uncompleted = s

/-- The statements have no filled slot and no copy of a default. -/
def Stmt.PlainEach (ss : List Stmt) : Prop :=
  Stmt.refillEach .emptied ss = ss ∧ Stmt.uncompletedEach ss = ss

/-- The branches have no filled slot and no copy of a default. -/
def Branch.PlainEach (bs : List Branch) : Prop :=
  Branch.refillEach .emptied bs = bs ∧ Branch.uncompletedEach bs = bs

/-- The parameter has no filled slot and no copy of a default. -/
def Param.Plain (p : Param) : Prop := p.refill .emptied = p ∧ p.uncompleted = p

/-- The part has no filled slot and no copy of a default, and as an include no table. -/
def Node.Plain (n : Node) : Prop := n.refill .emptied = n ∧ n.uncompleted = n

theorem Node.Plain.written {n : Node} (h : n.Plain) : n.written = n := by
  rw [Node.written, h.1, h.2]

namespace Value

theorem PlainEach.cons {e : Expr} {es : List Expr} (he : e.Plain) (hes : PlainEach es) :
    PlainEach (e :: es) :=
  ⟨congrArg₂ List.cons he.1 hes.1, congrArg₂ List.cons he.2 hes.2⟩

theorem plain_ident {name : DottedName} (h : name.resolved = none) : (Value.ident name).Plain := by
  obtain ⟨span, parts, resolved⟩ := name
  cases h
  exact ⟨rfl, rfl⟩

theorem resolved_of_plain {name : DottedName} (h : (Value.ident name).Plain) :
    name.resolved = none :=
  (congrArg DottedName.resolved (Value.ident.inj h.1)).symm

theorem plain_call {span : Span} {callee : DottedName} {args : List Expr}
    (hcallee : callee.resolved = none) (hargs : PlainEach args) :
    (Value.call span callee args none 0).Plain := by
  obtain ⟨calleeSpan, parts, resolved⟩ := callee
  cases hcallee
  refine ⟨?_, ?_⟩
  · rw [Value.refill, hargs.1]
    rfl
  · rw [Value.uncompleted, hargs.2, Nat.sub_zero, List.take_length]

theorem plain_index {span : Span} {base : Value} {position : Expr} (hbase : base.Plain)
    (hposition : position.Plain) : (Value.index span base position).Plain :=
  ⟨by rw [Value.refill, hbase.1, hposition.1], by rw [Value.uncompleted, hbase.2, hposition.2]⟩

theorem plain_paren {inner : Expr} (h : inner.Plain) : (Value.paren inner).Plain :=
  ⟨congrArg Value.paren h.1, congrArg Value.paren h.2⟩

theorem plain_ref {span : Span} {inner : Value} (h : inner.Plain) : (Value.ref span inner).Plain :=
  ⟨congrArg (Value.ref span) h.1, congrArg (Value.ref span) h.2⟩

theorem plain_prefixed {span : Span} {op : UnaryOp} {inner : Value} (h : inner.Plain) :
    (Value.prefixed span op inner).Plain :=
  ⟨congrArg (Value.prefixed span op) h.1, congrArg (Value.prefixed span op) h.2⟩

theorem plain_suffixed {span : Span} {op : UnaryOp} {inner : Value} (h : inner.Plain) :
    (Value.suffixed span op inner).Plain :=
  ⟨congrArg (Value.suffixed span op) h.1, congrArg (Value.suffixed span op) h.2⟩

end Value

theorem Chain.plain_operand {v : Value} (h : v.Plain) : (Chain.operand v).Plain :=
  ⟨congrArg Chain.operand h.1, congrArg Chain.operand h.2⟩

theorem Chain.plain_link {v : Value} {op : Operator} {rest : Chain} (hv : v.Plain)
    (hrest : rest.Plain) : (Chain.link v op rest).Plain :=
  ⟨by rw [Chain.refill, hv.1, hrest.1], by rw [Chain.uncompleted, hv.2, hrest.2]⟩

theorem Expr.plain_mk {span : Span} {c : Chain} : (Expr.mk span c).Plain ↔ c.Plain := by
  simp only [Expr.Plain, Chain.Plain, Expr.refill, Expr.uncompleted, Expr.mk.injEq, true_and]

/-! ## Parsers -/

theorem Ensures.after {ε ρ σ : Type} {run : Except ε ρ} {next : ρ → Except ε σ} {R : σ → Prop}
    (hnext : ∀ r, Ensures (next r) R) : Ensures (run >>= next) R :=
  Ensures.bind (Q := fun _ => True) (fun _ _ => trivial) fun r _ => hnext r

namespace Parser

open TokenStream

/-! ### Types -/

theorem arraySuffix_plain {ty : TypeExpr} (hty : ty.Plain) (s : TokenStream) :
    Ensures (arraySuffix ty s) fun r => r.value.Plain := by
  rw [arraySuffix]
  split
  · exact .ok hty
  · refine .after ?_
    rintro ⟨length, s₂, h₂⟩
    refine .after ?_
    rintro ⟨close, s₃, h₃⟩
    have harray : (TypeExpr.array (ty.span.join close.span) ty length).Plain := by
      rw [TypeExpr.Plain, TypeExpr.bare, hty]
    refine (arraySuffix_plain harray s₃).bind ?_
    rintro ⟨ty', s₄, h₄⟩ hty'
    exact .pure hty'
termination_by s.size
decreasing_by all_goals omega

mutual

theorem typeExpr_plain (s : TokenStream) : Ensures (typeExpr s) fun r => r.value.Plain := by
  rw [typeExpr]
  split
  · refine (typeExpr_plain _).bind ?_
    rintro ⟨inner, s₂, h₂⟩ hinner
    exact .pure (congrArg (TypeExpr.ref _) hinner)
  · split
    · refine .after ?_
      rintro ⟨_, s₂, h₂⟩
      refine (typeExpr_plain _).bind ?_
      rintro ⟨ret, s₃, h₃⟩ hret
      refine .after ?_
      rintro ⟨_, s₄, h₄⟩
      refine (typeList_plain _).bind ?_
      rintro ⟨⟨params, rest⟩, s₅, h₅⟩ ⟨hparams, hrest⟩
      refine .after ?_
      rintro ⟨close, s₆, h₆⟩
      refine (arraySuffix_plain ?_ s₆).bind ?_
      · rw [TypeExpr.Plain, TypeExpr.bare, TypeExpr.bareSignature, hret, hparams, hrest]
      · rintro ⟨ty, s₇, h₇⟩ hty
        exact .pure hty
    · refine .after ?_
      rintro ⟨name, s₁, h₁⟩
      refine (arraySuffix_plain ?_ s₁).bind ?_
      · exact show TypeExpr.bare _ = _ from rfl
      · rintro ⟨ty, s₂, h₂⟩ hty
        exact .pure hty
termination_by 2 * s.size
decreasing_by all_goals omega

theorem typeList_plain (s : TokenStream) :
    Ensures (typeList s) fun r =>
      TypeExpr.bareEach r.value.1 = r.value.1 ∧ TypeExpr.bareRest r.value.2 = r.value.2 := by
  rw [typeList]
  split
  · exact .ok ⟨rfl, rfl⟩
  · split
    · refine .after ?_
      rintro ⟨_, s₂, h₂⟩
      exact .pure ⟨rfl, rfl⟩
    · refine (typeExpr_plain _).bind ?_
      rintro ⟨ty, s₁, h₁⟩ hty
      dsimp only
      split
      · refine .after ?_
        rintro ⟨_, s₃, h₃⟩
        exact .pure ⟨rfl, congrArg Rest.typed hty⟩
      · split
        · refine (typeList_plain _).bind ?_
          rintro ⟨⟨params, rest⟩, s₃, h₃⟩ ⟨hparams, hrest⟩
          exact .pure ⟨congrArg₂ List.cons hty hparams, hrest⟩
        · refine .after ?_
          rintro ⟨_, s₂, h₂⟩
          exact .pure ⟨congrArg (fun t => [t]) hty, rfl⟩
termination_by 2 * s.size + 1
decreasing_by all_goals omega

end

/-! ### Expressions -/

theorem literal?_plain {t : Token} {v : Value} (h : literal? t = some v) : v.Plain := by
  unfold literal? at h
  split at h <;> cases h <;> exact ⟨rfl, rfl⟩

theorem dottedName_plain (s : TokenStream) :
    Ensures (dottedName s) fun r => r.value.resolved = none := by
  unfold dottedName
  refine .after ?_
  rintro ⟨first, s₁, h₁⟩
  refine .after ?_
  rintro ⟨more, s₂, h₂⟩
  exact .pure rfl

theorem respan_plain {span : Span} {e : Expr} (h : e.Plain) : (respan span e).Plain := by
  obtain ⟨old, chain⟩ := e
  exact Expr.plain_mk.mpr (Expr.plain_mk.mp h)

mutual

theorem operand_plain (s : TokenStream) : Ensures (operand s) fun r => r.value.Plain := by
  rw [operand]
  split
  · refine (operand_plain _).bind ?_
    rintro ⟨value, s₂, h₂⟩ hvalue
    exact .pure (Value.plain_prefixed hvalue)
  · split
    · rename_i hliteral _
      refine (suffix_plain (literal?_plain hliteral) _).bind ?_
      rintro ⟨value, s₂, h₂⟩ hvalue
      exact .pure hvalue
    · split
      · refine (expr_plain _).bind ?_
        rintro ⟨inner, s₂, h₂⟩ hinner
        refine .after ?_
        rintro ⟨close, s₃, h₃⟩
        refine (suffix_plain (Value.plain_paren (respan_plain hinner)) _).bind ?_
        rintro ⟨value, s₄, h₄⟩ hvalue
        exact .pure hvalue
      · split
        · refine (operand_plain _).bind ?_
          rintro ⟨inner, s₂, h₂⟩ hinner
          refine (suffix_plain (Value.plain_ref hinner) _).bind ?_
          rintro ⟨value, s₃, h₃⟩ hvalue
          exact .pure hvalue
        · split
          · refine (dottedName_plain _).bind ?_
            rintro ⟨name, s₁, h₁⟩ hname
            refine (suffix_plain (Value.plain_ident hname) _).bind ?_
            rintro ⟨value, s₂, h₂⟩ hvalue
            exact .pure hvalue
          · exact .error
termination_by 3 * s.size
decreasing_by all_goals omega

theorem suffix_plain {value : Value} (hvalue : value.Plain) (s : TokenStream) :
    Ensures (suffix value s) fun r => r.value.Plain := by
  rw [suffix]
  split
  · split
    · refine (arguments_plain _).bind ?_
      rintro ⟨args, s₂, h₂⟩ hargs
      refine (suffix_plain (Value.plain_call (Value.resolved_of_plain hvalue) hargs) _).bind ?_
      rintro ⟨value', s₃, h₃⟩ hvalue'
      exact .pure hvalue'
    · exact .error
  · split
    · refine (expr_plain _).bind ?_
      rintro ⟨position, s₂, h₂⟩ hposition
      refine .after ?_
      rintro ⟨close, s₃, h₃⟩
      refine (suffix_plain (Value.plain_index hvalue hposition) _).bind ?_
      rintro ⟨value', s₄, h₄⟩ hvalue'
      exact .pure hvalue'
    · split
      · refine (suffix_plain (Value.plain_suffixed hvalue) _).bind ?_
        rintro ⟨value', s₂, h₂⟩ hvalue'
        exact .pure hvalue'
      · split
        · refine (suffix_plain (Value.plain_suffixed hvalue) _).bind ?_
          rintro ⟨value', s₂, h₂⟩ hvalue'
          exact .pure hvalue'
        · exact .ok hvalue
termination_by 3 * s.size
decreasing_by all_goals omega

theorem arguments_plain (s : TokenStream) :
    Ensures (arguments s) fun r => Value.PlainEach r.value := by
  rw [arguments]
  split
  · exact .ok ⟨rfl, rfl⟩
  · refine (expr_plain _).bind ?_
    rintro ⟨arg, s₁, h₁⟩ harg
    dsimp only
    split
    · refine (arguments_plain _).bind ?_
      rintro ⟨args, s₃, h₃⟩ hargs
      exact .pure (.cons harg hargs)
    · refine .after ?_
      rintro ⟨_, s₂, h₂⟩
      exact .pure (.cons harg ⟨rfl, rfl⟩)
termination_by 3 * s.size + 2
decreasing_by all_goals omega

theorem expr_plain (s : TokenStream) : Ensures (expr s) fun r => r.value.Plain := by
  rw [expr]
  refine (operand_plain _).bind ?_
  rintro ⟨first, s₁, h₁⟩ hfirst
  refine (chainTail_plain hfirst _).bind ?_
  rintro ⟨chain, s₂, h₂⟩ hchain
  exact .pure (Expr.plain_mk.mpr hchain)
termination_by 3 * s.size + 1
decreasing_by all_goals omega

theorem chainTail_plain {first : Value} (hfirst : first.Plain) (s : TokenStream) :
    Ensures (chainTail first s) fun r => r.value.Plain := by
  rw [chainTail]
  split
  · exact .ok (Chain.plain_operand hfirst)
  · refine (operand_plain _).bind ?_
    rintro ⟨next, s₂, h₂⟩ hnext
    refine (chainTail_plain hnext _).bind ?_
    rintro ⟨chain, s₃, h₃⟩ hchain
    exact .pure (Chain.plain_link hfirst hchain)
termination_by 3 * s.size
decreasing_by all_goals omega

end

/-! ### Statements -/

theorem varDecl_plain {ty : TypeExpr} (hty : ty.Plain) (name : Ident) (s : TokenStream) :
    Ensures (varDecl ty name s) fun r => r.value.Plain := by
  unfold varDecl
  split
  · refine .ok ⟨?_, rfl⟩
    simp only [Pause.value_stay, VarDecl.refill, Option.map_none]
    simp only [Slots.emptied, show ty.bare = ty from hty]
  · refine (expr_plain _).bind ?_
    rintro ⟨init, s₂, h₂⟩ hinit
    refine .pure ⟨?_, ?_⟩
    · simp only [VarDecl.refill, Option.map_some, hinit.1]
      simp only [Slots.emptied, show ty.bare = ty from hty]
    · simp only [VarDecl.uncompleted, Option.map_some, hinit.2]

theorem localHead?_plain {s : TokenStream} {r : Step s (TypeExpr × Ident)}
    (h : localHead? s = some r) : r.value.1.Plain := by
  unfold localHead? at h
  split at h
  · cases h
  · rename_i hty
    split at h
    · cases h
    · split_ifs at h
      cases h
      exact typeExpr_plain s _ hty

theorem simpleStmt_plain (s : TokenStream) : Ensures (simpleStmt s) fun r => r.value.Plain := by
  unfold simpleStmt
  split
  · rename_i hhead
    refine (varDecl_plain (localHead?_plain hhead) _ _).bind ?_
    rintro ⟨var, s₂, h₂⟩ hvar
    exact .pure ⟨congrArg Stmt.decl hvar.1, congrArg Stmt.decl hvar.2⟩
  · refine (operand_plain _).bind ?_
    rintro ⟨first, s₁, h₁⟩ hfirst
    dsimp only
    split
    · refine (expr_plain _).bind ?_
      rintro ⟨value, s₃, h₃⟩ hvalue
      exact .pure ⟨by rw [Stmt.refill, hfirst.1, hvalue.1],
        by rw [Stmt.uncompleted, hfirst.2, hvalue.2]⟩
    · unfold exprFrom
      rw [bind_assoc]
      refine (chainTail_plain hfirst _).bind ?_
      rintro ⟨chain, s₂, h₂⟩ hchain
      have hexpr : (Expr.mk (first.span.join s₂.last) chain).Plain := Expr.plain_mk.mpr hchain
      exact .pure ⟨congrArg Stmt.expr hexpr.1, congrArg Stmt.expr hexpr.2⟩

theorem returnValue_plain (s : TokenStream) : Ensures (returnValue s) fun r =>
    r.value.map (·.refill .emptied) = r.value ∧ r.value.map (·.uncompleted) = r.value := by
  unfold returnValue
  split
  · exact .ok ⟨rfl, rfl⟩
  · exact (expr_plain s).map fun _ h => ⟨congrArg some h.1, congrArg some h.2⟩

mutual

theorem stmt_plain (s : TokenStream) : Ensures (stmt s) fun r => r.value.Plain := by
  rw [stmt]
  refine (bareStmt_plain s).bind ?_
  rintro ⟨first, s₁, h₁⟩ hfirst
  exact .pure hfirst
termination_by 4 * s.size + 2
decreasing_by all_goals omega

theorem bareStmt_plain (s : TokenStream) : Ensures (bareStmt s) fun r => r.value.Plain := by
  rw [bareStmt]
  split
  · refine (expr_plain _).bind ?_
    rintro ⟨cond, s₂, h₂⟩ hcond
    refine (block_plain _).bind ?_
    rintro ⟨⟨body, bodySpan⟩, s₃, h₃⟩ hbody
    refine (otherBranches_plain _).bind ?_
    rintro ⟨branches, s₄, h₄⟩ hbranches
    refine .pure ⟨?_, ?_⟩
    · simp only [Stmt.refill, Branch.refillEach, Branch.refill, Guard.refill, hcond.1, hbody.1,
        hbranches.1]
    · simp only [Stmt.uncompleted, Branch.uncompletedEach, Branch.uncompleted, Guard.uncompleted,
        hcond.2, hbody.2, hbranches.2]
  · split
    · refine (expr_plain _).bind ?_
      rintro ⟨cond, s₂, h₂⟩ hcond
      refine (block_plain _).bind ?_
      rintro ⟨⟨body, bodySpan⟩, s₃, h₃⟩ hbody
      exact .pure ⟨by rw [Stmt.refill, hcond.1, hbody.1],
        by rw [Stmt.uncompleted, hcond.2, hbody.2]⟩
    · split
      · refine (returnValue_plain _).bind ?_
        rintro ⟨value, s₂, h₂⟩ hvalue
        exact .pure ⟨congrArg (Stmt.ret _) hvalue.1, congrArg (Stmt.ret _) hvalue.2⟩
      · split
        · refine (block_plain s).bind ?_
          rintro ⟨⟨body, span⟩, s₁, h₁⟩ hbody
          exact .pure ⟨congrArg (Stmt.block _) hbody.1, congrArg (Stmt.block _) hbody.2⟩
        · exact simpleStmt_plain s
termination_by 4 * s.size + 1
decreasing_by all_goals omega

theorem block_plain (s : TokenStream) :
    Ensures (block s) fun r => Stmt.PlainEach r.value.1 := by
  rw [block]
  refine .after ?_
  rintro ⟨start, s₁, h₁⟩
  refine (stmts_plain _).bind ?_
  rintro ⟨body, s₂, h₂⟩ hbody
  exact .pure hbody
termination_by 4 * s.size
decreasing_by all_goals omega

theorem stmts_plain (s : TokenStream) : Ensures (stmts s) fun r => Stmt.PlainEach r.value := by
  rw [stmts]
  split
  · exact .ok ⟨rfl, rfl⟩
  · split
    · exact .error
    · refine (stmt_plain s).bind ?_
      rintro ⟨first, s₁, h₁⟩ hfirst
      refine (stmts_plain _).bind ?_
      rintro ⟨body, s₂, h₂⟩ hbody
      exact .pure ⟨congrArg₂ List.cons hfirst.1 hbody.1, congrArg₂ List.cons hfirst.2 hbody.2⟩
termination_by 4 * s.size + 3
decreasing_by all_goals omega

theorem otherBranches_plain (s : TokenStream) :
    Ensures (otherBranches s) fun r => Branch.PlainEach r.value := by
  rw [otherBranches]
  split
  · refine (expr_plain _).bind ?_
    rintro ⟨cond, s₂, h₂⟩ hcond
    refine (block_plain _).bind ?_
    rintro ⟨⟨body, bodySpan⟩, s₃, h₃⟩ hbody
    refine (otherBranches_plain _).bind ?_
    rintro ⟨branches, s₄, h₄⟩ hbranches
    refine .pure ⟨?_, ?_⟩
    · simp only [Branch.refillEach, Branch.refill, Guard.refill, hcond.1, hbody.1, hbranches.1]
    · simp only [Branch.uncompletedEach, Branch.uncompleted, Guard.uncompleted, hcond.2, hbody.2,
        hbranches.2]
  · split
    · refine (block_plain _).bind ?_
      rintro ⟨⟨body, bodySpan⟩, s₂, h₂⟩ hbody
      refine .pure ⟨?_, ?_⟩
      · simp only [Branch.refillEach, Branch.refill, Guard.refill, hbody.1]
      · simp only [Branch.uncompletedEach, Branch.uncompleted, Guard.uncompleted, hbody.2]
    · exact .ok ⟨rfl, rfl⟩
termination_by 4 * s.size
decreasing_by all_goals omega

end

/-! ### Units -/

theorem defaultValue_plain (s : TokenStream) : Ensures (defaultValue s) fun r =>
    r.value.map (·.refill .emptied) = r.value ∧ r.value.map (·.uncompleted) = r.value := by
  unfold defaultValue
  split
  · exact .ok ⟨rfl, rfl⟩
  · refine (expr_plain _).bind ?_
    rintro ⟨value, s₂, h₂⟩ hvalue
    exact .pure ⟨congrArg some hvalue.1, congrArg some hvalue.2⟩

theorem paramList_plain (needsDefault : Bool) (s : TokenStream) :
    Ensures (paramList needsDefault s) fun r =>
      (∀ p ∈ r.value.1, p.Plain) ∧ Rest.refill .emptied r.value.2 = r.value.2 := by
  rw [paramList]
  split
  · exact .ok ⟨by simp [Step.map], rfl⟩
  · split
    · refine .after ?_
      rintro ⟨_, s₂, h₂⟩
      exact .pure ⟨by simp, rfl⟩
    · refine (typeExpr_plain _).bind ?_
      rintro ⟨ty, s₁, h₁⟩ hty
      dsimp only
      split
      · refine .after ?_
        rintro ⟨_, s₃, h₃⟩
        exact .pure ⟨by simp, congrArg Rest.typed hty⟩
      · refine .after ?_
        rintro ⟨name, s₂, h₂⟩
        refine (defaultValue_plain s₂).bind ?_
        rintro ⟨default, s₃, h₃⟩ hdefault
        have hparam : Param.Plain ⟨ty, name, default⟩ := by
          refine ⟨?_, ?_⟩
          · simp only [Param.refill, hdefault.1]
            simp only [Slots.emptied, show ty.bare = ty from hty]
          · simp only [Param.uncompleted, hdefault.2]
        dsimp only
        split
        · exact .error
        · split
          · refine (paramList_plain _ _).bind ?_
            rintro ⟨⟨params, rest⟩, s₅, h₅⟩ ⟨hparams, hrest⟩
            exact .pure ⟨List.forall_mem_cons.mpr ⟨hparam, hparams⟩, hrest⟩
          · refine .after ?_
            rintro ⟨_, s₄, h₄⟩
            exact .pure ⟨List.forall_mem_singleton.mpr hparam, rfl⟩
termination_by s.size
decreasing_by all_goals omega

theorem functionBody_plain (s : TokenStream) : Ensures (functionBody s) fun r =>
    r.value.map (Stmt.refillEach .emptied) = r.value ∧
      r.value.map Stmt.uncompletedEach = r.value := by
  unfold functionBody
  split
  · exact (block_plain s).map fun _ h => ⟨congrArg some h.1, congrArg some h.2⟩
  · exact .ok ⟨rfl, rfl⟩

theorem node_plain (s : TokenStream) : Ensures (node s) fun r => r.value.Plain := by
  unfold node
  split
  · refine .after ?_
    rintro ⟨first, s₂, h₂⟩
    refine .after ?_
    rintro ⟨more, s₃, h₃⟩
    exact .pure ⟨rfl, rfl⟩
  · split
    · refine (typeExpr_plain _).bind ?_
      rintro ⟨target, s₂, h₂⟩ htarget
      refine .after ?_
      rintro ⟨name, s₃, h₃⟩
      refine .pure ⟨?_, rfl⟩
      simp only [Node.refill, Slots.emptied, show target.bare = target from htarget]
    · refine (typeExpr_plain _).bind ?_
      rintro ⟨ty, s₁, h₁⟩ hty
      refine .after ?_
      rintro ⟨name, s₂, h₂⟩
      dsimp only
      split
      · refine (paramList_plain _ _).bind ?_
        rintro ⟨⟨params, rest⟩, s₄, h₄⟩ ⟨hparams, hrest⟩
        refine (functionBody_plain _).bind ?_
        rintro ⟨body, s₅, h₅⟩ hbody
        have hrefill : params.map (·.refill .emptied) = params :=
          (List.map_congr_left fun p hp => (hparams p hp).1).trans (List.map_id _)
        have huncompleted : params.map (·.uncompleted) = params :=
          (List.map_congr_left fun p hp => (hparams p hp).2).trans (List.map_id _)
        refine .pure ⟨?_, ?_⟩
        · simp only [Node.refill, Function.refill, hrefill, hrest, hbody.1]
          simp only [Slots.emptied, show ty.bare = ty from hty]
        · simp only [Node.uncompleted, Function.uncompleted, huncompleted, hbody.2]
      · refine (varDecl_plain hty _ _).bind ?_
        rintro ⟨var, s₃, h₃⟩ hvar
        exact .pure ⟨congrArg Node.global hvar.1, congrArg Node.global hvar.2⟩

theorem nodes_plain (s : TokenStream) : Ensures (nodes s) fun ns => ∀ n ∈ ns, n.Plain := by
  rw [nodes]
  split
  · exact .ok (List.forall_mem_nil _)
  · refine (node_plain s).bind ?_
    rintro ⟨first, s₁, h₁⟩ hfirst
    have hle := (s₁.skip .semi).notLonger
    refine (nodes_plain (s₁.skip .semi).rest).bind ?_
    intro more hmore
    exact .pure (List.forall_mem_cons.mpr ⟨hfirst, hmore⟩)
termination_by s.size
decreasing_by all_goals omega

end Parser

namespace SourceUnit

variable {file : Nat} {text : String} {unit : SourceUnit}

theorem plain_of_parse (h : SourceUnit.parse file text = .ok unit) : ∀ n ∈ unit.nodes, n.Plain := by
  obtain ⟨tokens, nodes, -, hnodes, rfl⟩ := SourceUnit.parse_eq_ok.mp h
  exact Parser.nodes_plain _ nodes hnodes

/-- A parsed unit is as it was written. -/
theorem written_parse (h : SourceUnit.parse file text = .ok unit) : unit.written = unit := by
  have hnodes : unit.nodes.map Node.written = unit.nodes :=
    (List.map_congr_left fun n hn => (plain_of_parse h n hn).written).trans (List.map_id _)
  exact congrArg (SourceUnit.mk unit.file) hnodes

end SourceUnit

end KilnLang
