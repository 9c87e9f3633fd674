import KilnLang.Proofs.Semantic.Operands
import KilnLang.Proofs.Syntax.FaithfulDump
import KilnLang.Proofs.Syntax.RereadingExpr

/-!
# The shape of operands

**Theorem (`SourceUnit.shaped_of_parse`).** In a parsed unit no suffix follows an operand that starts
with an operator or with `ref`: the suffixes of such an operand belong to what comes after its start
(`Value.Shaped`). The parser of operands reads all suffixes before it returns, so none is left for
the operand around it (`Parser.operand_again`).

The shape is a property of each operand alone. So is what it says in its own words, which are
legible as the whole unit is (`SourceUnit.readable_operands`).
-/

namespace KilnLang

/-! ## Shapes -/

/-- Whether suffixes may follow the operand. -/
def Value.takesSuffix : Value → Bool
  | .prefixed _ _ _ => false
  | .ref _ _ => false
  | _ => true

/-- A suffix follows an operand that takes suffixes, and the only operators that follow an operand
are `++` and `--`. -/
def Value.Shaped : Value → Prop
  | .index _ base _ => base.takesSuffix
  | .suffixed _ op inner => (op = .inc ∨ op = .dec) ∧ inner.takesSuffix
  | _ => True

/-- All operands of the expression are shaped. -/
def Expr.Shaped (e : Expr) : Prop := ∀ o ∈ e.operands [], o.value.Shaped

namespace Parser

open TokenStream

/-! ### Expressions -/

theorem literal?_shaped {t : Token} {v : Value} (h : literal? t = some v) :
    v.takesSuffix ∧ ∀ o ∈ v.operands [], o.value.Shaped := by
  unfold literal? at h
  split at h <;> cases h <;> simp [Value.takesSuffix, Value.operands, Value.Shaped]

theorem operands_respan (span : Span) (e : Expr) (inside : List DeclId) :
    (respan span e).operands inside = e.operands inside := by
  cases e
  rfl

theorem shaped_args {args : List Expr} (h : ∀ e ∈ args, e.Shaped) (written : Nat) :
    ∀ o ∈ Value.operandsEach [] [] written args, o.value.Shaped := by
  induction args generalizing written with
  | nil => simp [Value.operandsEach]
  | cons e es ih =>
    obtain ⟨he, hes⟩ := List.forall_mem_cons.mp h
    simp only [Value.operandsEach, ite_self, List.forall_mem_append]
    exact ⟨he, ih hes _⟩

mutual

theorem operand_shaped (s : TokenStream) :
    Ensures (operand s) fun r => ∀ o ∈ r.value.operands [], o.value.Shaped := by
  rw [operand]
  split
  · refine (operand_shaped _).bind ?_
    rintro ⟨value, s₂, h₂⟩ hvalue
    refine .pure ?_
    simp only [Value.operands, List.forall_mem_cons]
    exact ⟨trivial, hvalue⟩
  · split
    · rename_i hliteral _
      obtain ⟨htakes, hshaped⟩ := literal?_shaped hliteral
      refine (suffix_shaped htakes hshaped _).bind ?_
      rintro ⟨value, s₂, h₂⟩ hvalue
      exact .pure hvalue
    · split
      · refine (expr_shaped _).bind ?_
        rintro ⟨inner, s₂, h₂⟩ hinner
        refine .after ?_
        rintro ⟨close, s₃, h₃⟩
        refine (suffix_shaped rfl ?_ _).bind ?_
        · simp only [Value.operands, operands_respan, List.forall_mem_cons]
          exact ⟨trivial, hinner⟩
        · rintro ⟨value, s₄, h₄⟩ hvalue
          exact .pure hvalue
      · split
        · -- No suffix is left after an operand, so the reference takes none.
          rename_i start s₁ h₁ _
          have hinner : Ensures (operand s₁) fun r =>
              (∀ o ∈ r.value.operands [], o.value.Shaped) ∧
                startsSuffix (headKind r.rest.tokens) = false := fun r hr =>
            ⟨operand_shaped s₁ r hr, (operand_again s₁ r hr).1.2.2⟩
          refine hinner.bind ?_
          rintro ⟨inner, s₂, h₂⟩ ⟨hinner, hend⟩
          dsimp only
          rw [suffix_eq _ hend]
          refine .pure ?_
          simp only [Pause.value_stay, Value.operands, List.forall_mem_cons]
          exact ⟨trivial, hinner⟩
        · split
          · refine .after ?_
            rintro ⟨name, s₁, h₁⟩
            refine (suffix_shaped rfl ?_ _).bind ?_
            · simp [Value.operands, Value.Shaped]
            · rintro ⟨value, s₂, h₂⟩ hvalue
              exact .pure hvalue
          · exact .error
termination_by 3 * s.size
decreasing_by all_goals omega

theorem suffix_shaped {value : Value} (htakes : value.takesSuffix)
    (hvalue : ∀ o ∈ value.operands [], o.value.Shaped) (s : TokenStream) :
    Ensures (suffix value s) fun r => ∀ o ∈ r.value.operands [], o.value.Shaped := by
  rw [suffix]
  split
  · split
    · refine (arguments_shaped _).bind ?_
      rintro ⟨args, s₂, h₂⟩ hargs
      refine (suffix_shaped rfl ?_ _).bind ?_
      · simp only [Value.operands, CallTarget.owner, List.nil_append, List.forall_mem_cons]
        exact ⟨trivial, shaped_args hargs _⟩
      · rintro ⟨value', s₃, h₃⟩ hvalue'
        exact .pure hvalue'
    · exact .error
  · split
    · refine (expr_shaped _).bind ?_
      rintro ⟨position, s₂, h₂⟩ hposition
      refine .after ?_
      rintro ⟨close, s₃, h₃⟩
      refine (suffix_shaped rfl ?_ _).bind ?_
      · simp only [Value.operands, List.forall_mem_cons, List.forall_mem_append]
        exact ⟨htakes, hvalue, hposition⟩
      · rintro ⟨value', s₄, h₄⟩ hvalue'
        exact .pure hvalue'
    · split
      · refine (suffix_shaped rfl ?_ _).bind ?_
        · simp only [Value.operands, List.forall_mem_cons]
          exact ⟨⟨.inl rfl, htakes⟩, hvalue⟩
        · rintro ⟨value', s₂, h₂⟩ hvalue'
          exact .pure hvalue'
      · split
        · refine (suffix_shaped rfl ?_ _).bind ?_
          · simp only [Value.operands, List.forall_mem_cons]
            exact ⟨⟨.inr rfl, htakes⟩, hvalue⟩
          · rintro ⟨value', s₂, h₂⟩ hvalue'
            exact .pure hvalue'
        · exact .ok hvalue
termination_by 3 * s.size
decreasing_by all_goals omega

theorem arguments_shaped (s : TokenStream) :
    Ensures (arguments s) fun r => ∀ e ∈ r.value, e.Shaped := by
  rw [arguments]
  split
  · exact .ok (List.forall_mem_nil _)
  · refine (expr_shaped _).bind ?_
    rintro ⟨arg, s₁, h₁⟩ harg
    dsimp only
    split
    · refine (arguments_shaped _).bind ?_
      rintro ⟨args, s₃, h₃⟩ hargs
      exact .pure (List.forall_mem_cons.mpr ⟨harg, hargs⟩)
    · refine .after ?_
      rintro ⟨_, s₂, h₂⟩
      exact .pure (List.forall_mem_singleton.mpr harg)
termination_by 3 * s.size + 2
decreasing_by all_goals omega

theorem expr_shaped (s : TokenStream) : Ensures (expr s) fun r => r.value.Shaped := by
  rw [expr]
  refine (operand_shaped _).bind ?_
  rintro ⟨first, s₁, h₁⟩ hfirst
  refine (chainTail_shaped hfirst _).bind ?_
  rintro ⟨chain, s₂, h₂⟩ hchain
  exact .pure hchain
termination_by 3 * s.size + 1
decreasing_by all_goals omega

theorem chainTail_shaped {first : Value} (hfirst : ∀ o ∈ first.operands [], o.value.Shaped)
    (s : TokenStream) :
    Ensures (chainTail first s) fun r => ∀ o ∈ r.value.operands [], o.value.Shaped := by
  rw [chainTail]
  split
  · exact .ok hfirst
  · refine (operand_shaped _).bind ?_
    rintro ⟨next, s₂, h₂⟩ hnext
    refine (chainTail_shaped hnext _).bind ?_
    rintro ⟨chain, s₃, h₃⟩ hchain
    refine .pure ?_
    simp only [Chain.operands, List.forall_mem_append]
    exact ⟨hfirst, hchain⟩
termination_by 3 * s.size
decreasing_by all_goals omega

end

/-! ### Statements -/

theorem varDecl_shaped (ty : TypeExpr) (name : Ident) (s : TokenStream) :
    Ensures (varDecl ty name s) fun r => ∀ e ∈ r.value.init.toList, e.Shaped := by
  unfold varDecl
  split
  · exact .ok (by simp)
  · refine (expr_shaped _).bind ?_
    rintro ⟨init, s₂, h₂⟩ hinit
    exact .pure (by simpa using hinit)

theorem simpleStmt_shaped (s : TokenStream) :
    Ensures (simpleStmt s) fun r => ∀ e ∈ r.value.exprs, e.Shaped := by
  unfold simpleStmt
  split
  · refine (varDecl_shaped _ _ _).bind ?_
    rintro ⟨var, s₂, h₂⟩ hvar
    exact .pure hvar
  · refine (operand_shaped _).bind ?_
    rintro ⟨first, s₁, h₁⟩ hfirst
    dsimp only
    split
    · refine (expr_shaped _).bind ?_
      rintro ⟨value, s₃, h₃⟩ hvalue
      have htarget : first.alone.Shaped := hfirst
      exact .pure (List.forall_mem_cons.mpr ⟨htarget, List.forall_mem_singleton.mpr hvalue⟩)
    · unfold exprFrom
      rw [bind_assoc]
      refine (chainTail_shaped hfirst _).bind ?_
      rintro ⟨chain, s₂, h₂⟩ hchain
      exact .pure (List.forall_mem_singleton.mpr hchain)

theorem returnValue_shaped (s : TokenStream) :
    Ensures (returnValue s) fun r => ∀ e ∈ r.value.toList, e.Shaped := by
  unfold returnValue
  split
  · exact .ok (by simp)
  · exact (expr_shaped s).map fun r h e he => Option.mem_some.mp (Option.mem_toList.mp he) ▸ h

mutual

theorem stmt_shaped (s : TokenStream) :
    Ensures (stmt s) fun r => ∀ e ∈ r.value.exprs, e.Shaped := by
  rw [stmt]
  refine (bareStmt_shaped s).bind ?_
  rintro ⟨first, s₁, h₁⟩ hfirst
  exact .pure hfirst
termination_by 4 * s.size + 2
decreasing_by all_goals omega

theorem bareStmt_shaped (s : TokenStream) :
    Ensures (bareStmt s) fun r => ∀ e ∈ r.value.exprs, e.Shaped := by
  rw [bareStmt]
  split
  · refine (expr_shaped _).bind ?_
    rintro ⟨cond, s₂, h₂⟩ hcond
    refine (block_shaped _).bind ?_
    rintro ⟨⟨body, bodySpan⟩, s₃, h₃⟩ hbody
    refine (otherBranches_shaped _).bind ?_
    rintro ⟨branches, s₄, h₄⟩ hbranches
    refine .pure ?_
    simp only [Stmt.exprs, Branch.exprsEach, Branch.exprs, Guard.cond?, Option.toList_some,
      List.forall_mem_append, List.forall_mem_singleton]
    exact ⟨⟨hcond, hbody⟩, hbranches⟩
  · split
    · refine (expr_shaped _).bind ?_
      rintro ⟨cond, s₂, h₂⟩ hcond
      refine (block_shaped _).bind ?_
      rintro ⟨⟨body, bodySpan⟩, s₃, h₃⟩ hbody
      exact .pure (List.forall_mem_cons.mpr ⟨hcond, hbody⟩)
    · split
      · refine (returnValue_shaped _).bind ?_
        rintro ⟨value, s₂, h₂⟩ hvalue
        exact .pure hvalue
      · split
        · refine (block_shaped s).bind ?_
          rintro ⟨⟨body, span⟩, s₁, h₁⟩ hbody
          exact .pure hbody
        · exact simpleStmt_shaped s
termination_by 4 * s.size + 1
decreasing_by all_goals omega

theorem block_shaped (s : TokenStream) :
    Ensures (block s) fun r => ∀ e ∈ Stmt.exprsEach r.value.1, e.Shaped := by
  rw [block]
  refine .after ?_
  rintro ⟨start, s₁, h₁⟩
  refine (stmts_shaped _).bind ?_
  rintro ⟨body, s₂, h₂⟩ hbody
  exact .pure hbody
termination_by 4 * s.size
decreasing_by all_goals omega

theorem stmts_shaped (s : TokenStream) :
    Ensures (stmts s) fun r => ∀ e ∈ Stmt.exprsEach r.value, e.Shaped := by
  rw [stmts]
  split
  · exact .ok (List.forall_mem_nil _)
  · split
    · exact .error
    · refine (stmt_shaped s).bind ?_
      rintro ⟨first, s₁, h₁⟩ hfirst
      refine (stmts_shaped _).bind ?_
      rintro ⟨body, s₂, h₂⟩ hbody
      exact .pure (List.forall_mem_append.mpr ⟨hfirst, hbody⟩)
termination_by 4 * s.size + 3
decreasing_by all_goals omega

theorem otherBranches_shaped (s : TokenStream) :
    Ensures (otherBranches s) fun r => ∀ e ∈ Branch.exprsEach r.value, e.Shaped := by
  rw [otherBranches]
  split
  · refine (expr_shaped _).bind ?_
    rintro ⟨cond, s₂, h₂⟩ hcond
    refine (block_shaped _).bind ?_
    rintro ⟨⟨body, bodySpan⟩, s₃, h₃⟩ hbody
    refine (otherBranches_shaped _).bind ?_
    rintro ⟨branches, s₄, h₄⟩ hbranches
    refine .pure ?_
    simp only [Branch.exprsEach, Branch.exprs, Guard.cond?, Option.toList_some,
      List.forall_mem_append, List.forall_mem_singleton]
    exact ⟨⟨hcond, hbody⟩, hbranches⟩
  · split
    · refine (block_shaped _).bind ?_
      rintro ⟨⟨body, bodySpan⟩, s₂, h₂⟩ hbody
      refine .pure ?_
      simpa [Branch.exprsEach, Branch.exprs, Guard.cond?] using hbody
    · exact .ok (List.forall_mem_nil _)
termination_by 4 * s.size
decreasing_by all_goals omega

end

/-! ### Units -/

theorem defaultValue_shaped (s : TokenStream) :
    Ensures (defaultValue s) fun r => ∀ e ∈ r.value.toList, e.Shaped := by
  unfold defaultValue
  split
  · exact .ok (by simp)
  · refine (expr_shaped _).bind ?_
    rintro ⟨value, s₂, h₂⟩ hvalue
    exact .pure (by simpa using hvalue)

theorem paramList_shaped (needsDefault : Bool) (s : TokenStream) :
    Ensures (paramList needsDefault s) fun r =>
      ∀ p ∈ r.value.1, ∀ e ∈ p.default.toList, e.Shaped := by
  rw [paramList]
  split
  · exact .ok (by simp [Step.map])
  · split
    · refine .after ?_
      rintro ⟨_, s₂, h₂⟩
      exact .pure (by simp)
    · refine .after ?_
      rintro ⟨ty, s₁, h₁⟩
      dsimp only
      split
      · refine .after ?_
        rintro ⟨_, s₃, h₃⟩
        exact .pure (by simp)
      · refine .after ?_
        rintro ⟨name, s₂, h₂⟩
        refine (defaultValue_shaped s₂).bind ?_
        rintro ⟨default, s₃, h₃⟩ hdefault
        dsimp only
        split
        · exact .error
        · split
          · refine (paramList_shaped _ _).bind ?_
            rintro ⟨⟨params, rest⟩, s₅, h₅⟩ hparams
            exact .pure (List.forall_mem_cons.mpr ⟨hdefault, hparams⟩)
          · refine .after ?_
            rintro ⟨_, s₄, h₄⟩
            exact .pure (List.forall_mem_singleton.mpr hdefault)
termination_by s.size
decreasing_by all_goals omega

theorem functionBody_shaped (s : TokenStream) :
    Ensures (functionBody s) fun r => ∀ e ∈ Stmt.exprsEach (r.value.getD []), e.Shaped := by
  unfold functionBody
  split
  · exact (block_shaped s).map fun _ h => h
  · exact .ok (List.forall_mem_nil _)

theorem node_shaped (s : TokenStream) :
    Ensures (node s) fun r => ∀ e ∈ r.value.exprs, e.Shaped := by
  unfold node
  split
  · refine .after ?_
    rintro ⟨first, s₂, h₂⟩
    refine .after ?_
    rintro ⟨more, s₃, h₃⟩
    exact .pure (List.forall_mem_nil _)
  · split
    · refine .after ?_
      rintro ⟨target, s₂, h₂⟩
      refine .after ?_
      rintro ⟨name, s₃, h₃⟩
      exact .pure (List.forall_mem_nil _)
    · refine .after ?_
      rintro ⟨ty, s₁, h₁⟩
      refine .after ?_
      rintro ⟨name, s₂, h₂⟩
      dsimp only
      split
      · refine (paramList_shaped _ _).bind ?_
        rintro ⟨⟨params, rest⟩, s₄, h₄⟩ hparams
        refine (functionBody_shaped _).bind ?_
        rintro ⟨body, s₅, h₅⟩ hbody
        refine .pure (List.forall_mem_append.mpr ⟨fun e he => ?_, hbody⟩)
        obtain ⟨p, hp, hdefault⟩ := List.mem_filterMap.mp he
        exact hparams p hp e (by simp [hdefault])
      · refine (varDecl_shaped _ _ _).bind ?_
        rintro ⟨var, s₃, h₃⟩ hvar
        exact .pure hvar

theorem nodes_shaped (s : TokenStream) :
    Ensures (nodes s) fun ns => ∀ n ∈ ns, ∀ e ∈ n.exprs, e.Shaped := by
  rw [nodes]
  split
  · exact .ok (List.forall_mem_nil _)
  · refine (node_shaped s).bind ?_
    rintro ⟨first, s₁, h₁⟩ hfirst
    have hle := (s₁.skip .semi).notLonger
    refine (nodes_shaped (s₁.skip .semi).rest).bind ?_
    intro more hmore
    exact .pure (List.forall_mem_cons.mpr ⟨hfirst, hmore⟩)
termination_by s.size
decreasing_by all_goals omega

end Parser

/-! ## Words -/

open Dump (Readable readable_cons readable_append readable_closing readable_braced)

mutual

/-- What is legible in an expression is legible in each of its operands. -/
theorem Expr.readable_operands : ∀ {e : Expr} {inside : List DeclId}, Readable e.pieces →
    ∀ o ∈ e.operands inside, Readable o.value.pieces
  | .mk _ c, inside, h => by
    simp only [Expr.operands]
    exact Chain.readable_operands h

theorem Chain.readable_operands : ∀ {c : Chain} {inside : List DeclId}, Readable c.pieces →
    ∀ o ∈ c.operands inside, Readable o.value.pieces
  | .operand v, inside, h => by
    simp only [Chain.operands]
    exact Value.readable_operands h
  | .link v _ rest, inside, h => by
    simp only [Chain.pieces, readable_append, readable_cons] at h
    simp only [Chain.operands, List.forall_mem_append]
    exact ⟨Value.readable_operands h.1, Chain.readable_operands h.2.2⟩

theorem Value.readable_operands : ∀ {v : Value} {inside : List DeclId}, Readable v.pieces →
    ∀ o ∈ v.operands inside, Readable o.value.pieces
  | .call _ callee args _ _, inside, h => by
    have hself := h
    simp only [Value.pieces, readable_append, readable_cons] at h
    simp only [Value.operands, List.forall_mem_cons]
    exact ⟨hself, Value.readable_operandsEach (readable_closing h.2.2)⟩
  | .index _ base position, inside, h => by
    have hself := h
    simp only [Value.pieces, readable_append, readable_cons] at h
    simp only [Value.operands, List.forall_mem_cons, List.forall_mem_append]
    exact ⟨hself, Value.readable_operands h.1.1, Expr.readable_operands h.1.2.2⟩
  | .ref _ inner, inside, h | .prefixed _ _ inner, inside, h => by
    have hself := h
    simp only [Value.operands, List.forall_mem_cons]
    exact ⟨hself, Value.readable_operands (readable_cons.mp h).2⟩
  | .suffixed _ _ inner, inside, h => by
    have hself := h
    simp only [Value.operands, List.forall_mem_cons]
    exact ⟨hself, Value.readable_operands (readable_append.mp h).1⟩
  | .paren inner, inside, h => by
    have hself := h
    simp only [Value.pieces, readable_append, readable_cons] at h
    simp only [Value.operands, List.forall_mem_cons]
    exact ⟨hself, Expr.readable_operands h.1.2⟩
  | .ident _, inside, h | .number _, inside, h | .decimal _, inside, h | .string _, inside, h
  | .char _, inside, h | .bool _ _, inside, h | .null _, inside, h => by
    simp only [Value.operands, List.forall_mem_singleton]
    exact h

theorem Value.readable_operandsEach : ∀ {es : List Expr} {inside copied : List DeclId}
    {written : Nat}, (∀ item ∈ Expr.items es, Readable item) →
      ∀ o ∈ Value.operandsEach inside copied written es, Readable o.value.pieces
  | [], _, _, _, _ => by simp [Value.operandsEach]
  | e :: es, inside, copied, written, h => by
    simp only [Expr.items, List.forall_mem_cons] at h
    simp only [Value.operandsEach, List.forall_mem_append]
    exact ⟨Expr.readable_operands h.1, Value.readable_operandsEach h.2⟩

end

theorem Expr.readable_initial {e : Option Expr} (h : Readable (Expr.initialPieces e)) :
    ∀ x ∈ e.toList, Readable x.pieces := by
  cases e with
  | none => simp
  | some value => simpa using (readable_cons.mp h).2

mutual

/-- What is legible in a statement is legible in each of its expressions. -/
theorem Stmt.readable_exprs : ∀ {s : Stmt}, Readable s.pieces → ∀ e ∈ s.exprs, Readable e.pieces
  | .expr value, h => List.forall_mem_singleton.mpr h
  | .decl var, h => by
    simp only [Stmt.pieces, VarDecl.pieces, readable_append, readable_cons] at h
    exact Expr.readable_initial h.2.2
  | .assign _ target _ value, h => by
    simp only [Stmt.pieces, readable_append, readable_cons] at h
    have htarget : Readable target.alone.pieces := h.1
    exact List.forall_mem_cons.mpr ⟨htarget, List.forall_mem_singleton.mpr h.2.2⟩
  | .ret _ none, _ => List.forall_mem_nil _
  | .ret _ (some value), h => List.forall_mem_singleton.mpr (readable_cons.mp h).2
  | .cond branches, h => Branch.readable_exprsEach h
  | .loop _ cond body, h => by
    simp only [Stmt.pieces, readable_append, readable_cons] at h
    exact List.forall_mem_cons.mpr ⟨h.1.2, Stmt.readable_exprsEach (readable_braced h.2)⟩
  | .block _ body, h => Stmt.readable_exprsEach (readable_braced h)

theorem Stmt.readable_exprsEach : ∀ {ss : List Stmt}, Readable (Stmt.piecesEach ss) →
    ∀ e ∈ Stmt.exprsEach ss, Readable e.pieces
  | [], _ => List.forall_mem_nil _
  | s :: ss, h => by
    simp only [Stmt.piecesEach, readable_append, readable_cons] at h
    exact List.forall_mem_append.mpr
      ⟨Stmt.readable_exprs h.1, Stmt.readable_exprsEach h.2.2⟩

theorem Branch.readable_exprs : ∀ {b : Branch}, Readable b.pieces →
    ∀ e ∈ b.exprs, Readable e.pieces
  | .mk _ guard body, h => by
    simp only [Branch.pieces, readable_append] at h
    refine List.forall_mem_append.mpr ⟨?_, Stmt.readable_exprsEach (readable_braced h.2)⟩
    cases guard with
    | first cond => exact List.forall_mem_singleton.mpr (readable_cons.mp h.1).2
    | next cond => exact List.forall_mem_singleton.mpr (readable_cons.mp h.1).2
    | otherwise => exact List.forall_mem_nil _

theorem Branch.readable_exprsEach : ∀ {bs : List Branch}, Readable (Branch.piecesEach bs) →
    ∀ e ∈ Branch.exprsEach bs, Readable e.pieces
  | [], _ => List.forall_mem_nil _
  | b :: bs, h => by
    simp only [Branch.piecesEach, readable_append] at h
    exact List.forall_mem_append.mpr
      ⟨Branch.readable_exprs h.1, Branch.readable_exprsEach h.2⟩

end

/-- What is legible in a part is legible in each of its expressions. -/
theorem Node.readable_exprs : ∀ {n : Node}, Readable n.pieces → ∀ e ∈ n.exprs, Readable e.pieces
  | .header _, _ | .alias _, _ => List.forall_mem_nil _
  | .global g, h => by
    simp only [Node.pieces, VarDecl.pieces, readable_append, readable_cons] at h
    exact Expr.readable_initial h.2.2
  | .function f, h => by
    simp only [Node.pieces, readable_append, readable_cons] at h
    obtain ⟨⟨-, -, -, hlist⟩, hbody⟩ := h
    have hparams := (List.forall_mem_append.mp (readable_closing hlist)).1
    refine List.forall_mem_append.mpr ⟨fun e he => ?_, ?_⟩
    · obtain ⟨p, hp, hdefault⟩ := List.mem_filterMap.mp he
      have hpieces := hparams _ (List.mem_map_of_mem hp)
      simp only [Param.pieces, readable_append, readable_cons] at hpieces
      exact Expr.readable_initial hpieces.2.2 e (by simp [hdefault])
    · rw [Function.exprs]
      cases hcase : f.body with
      | none => exact List.forall_mem_nil _
      | some body =>
        rw [hcase] at hbody
        exact Stmt.readable_exprsEach (readable_braced hbody)

/-! ## Units -/

namespace SourceUnit

variable {file : Nat} {text : String} {unit : SourceUnit}

/-- **Operands are shaped.** No suffix follows an operand that starts with an operator or `ref`. -/
theorem shaped_of_parse (h : SourceUnit.parse file text = .ok unit) :
    ∀ n ∈ unit.nodes, ∀ e ∈ n.exprs, e.Shaped := by
  obtain ⟨tokens, nodes, -, hnodes, rfl⟩ := SourceUnit.parse_eq_ok.mp h
  exact Parser.nodes_shaped _ nodes hnodes

/-- What an operand of a parsed unit says is legible. -/
theorem readable_operands (h : SourceUnit.parse file text = .ok unit) :
    ∀ n ∈ unit.nodes, ∀ e ∈ n.exprs, ∀ o ∈ e.operands [], Readable o.value.pieces := by
  intro n hn e he
  exact Expr.readable_operands (Node.readable_exprs (readable_of_parse h n hn) e he)

end SourceUnit

end KilnLang
