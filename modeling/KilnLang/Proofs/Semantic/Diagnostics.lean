import Mathlib.Data.List.ReduceOption
import KilnLang.Compiler
import KilnLang.Proofs.Header.Caching
import KilnLang.Proofs.Semantic.Places
import KilnLang.Proofs.Text.LineTable

/-!
# Where diagnostics point

**Theorem (`diagnostics_point_into_unit`).** A failed compilation of a text has diagnostics, and
each of them is located at a position of the text: its span is a range of the text of the unit.

The tokens of the text are at ranges of it, and so is their error (`Scan.points`). A join of ranges
is one, so all spans of the parsed unit are, or the place of its error. A missing header is reported
where it is included. The passes after that report places of the unit only, for which the copies of
defaults that complete calls have to be places of the unit as well (`Check.completion_allSpans`).

The line and the column of a position are exact where 32 bits hold them (`LineCol.isExact_foldl`).
-/

namespace KilnLang

variable {P : Span → Prop}

/-! ## Checking -/

section Storing

theorem Ty.reportMisfit_places {expected found : Ty} {span : Span} (hspan : P span)
    (result : Except Ty.Incompatibility Unit) :
    (expected.reportMisfit found span result).In P fun _ => True := by
  unfold reportMisfit
  split
  · exact .pure trivial
  · exact .error hspan
  · exact .error hspan

theorem Ty.storeValue_places (expected : Ty) {v : Value} (hv : P v.span) :
    (expected.storeValue v).In P fun _ => True := by
  unfold storeValue
  split_ifs
  · unfold storeRef
    split_ifs
    · exact .error hv
    · exact .pure trivial
    · exact reportMisfit_places hv _
  · exact .error hv
  · exact .errorIf hv
  · exact reportMisfit_places hv _

theorem Ty.store_places (expected : Ty) {e : Expr} (he : e.AllSpans P) :
    (expected.store e).In P fun _ => True := by
  unfold store
  split
  · rename_i v hv
    obtain ⟨span, _ | _⟩ := e
    · cases hv
      exact expected.storeValue_places (Value.AllSpans.span he.2)
    · cases hv
  · exact reportMisfit_places he.span _

theorem Rest.storeArgs_places (rest : Rest Ty) : ∀ (params : List Ty) (args : List Expr),
    Value.AllSpansEach P args → (rest.storeArgs params args).In P fun _ => True
  | [], [], _ | _ :: _, [], _ => .pure trivial
  | param :: params, arg :: args, h => by
    rw [storeArgs]
    refine (param.store_places h.1).bind fun _ _ => ?_
    exact rest.storeArgs_places params args h.2
  | [], arg :: args, h => by
    have hmore := rest.storeArgs_places [] args h.2
    cases rest with
    | typed elem => exact (elem.store_places h.1).bind fun _ _ => hmore
    | _ =>
      simp only [storeArgs]
      exact hmore

end Storing

namespace Check

variable {decls : DeclTable} {complete : Completion}

/-- All spans of the copies that complete calls are in `P`. -/
def CopiesIn (P : Span → Prop) (complete : Completion) : Prop :=
  ∀ decl written, Value.AllSpansEach P (complete decl written).value

theorem arguments_places (hcopies : CopiesIn P complete) {span : Span} (hspan : P span)
    {callee : DottedName} {args : List Expr} (hargs : Value.AllSpansEach P args)
    (target : CallTarget) :
    (arguments decls complete span callee args target).In P (Value.AllSpansEach P) := by
  unfold arguments
  split
  · exact .pure trivial
  · dsimp only
    split
    · refine (Rest.storeArgs_places _ _ _ hargs).bind fun _ _ => .pure ?_
      cases target with
      | function decl sig => exact hcopies decl args.length
      | _ => exact trivial
    · exact (Report.In.error hspan).bind fun _ _ => .pure trivial

theorem call_places (hcopies : CopiesIn P complete) {span : Span} (hspan : P span)
    {callee : DottedName} (hcallee : callee.AllSpans P) {args : List Expr}
    (hargs : Value.AllSpansEach P args) (target : Option CallTarget) :
    (call decls complete span callee args target).In P (·.AllSpans P) := by
  have hmore : ∀ more, Value.AllSpansEach P more → Value.AllSpansEach P (args ++ more) := by
    intro more hmore
    rw [Value.allSpansEach_iff] at hargs hmore ⊢
    exact List.forall_mem_append.mpr ⟨hargs, hmore⟩
  unfold call
  cases target with
  | none => exact Report.In.bind (.pure trivial) fun more h => .pure ⟨hspan, hcallee, hmore more h⟩
  | some target =>
    exact (arguments_places hcopies hspan hargs target).bind fun more h =>
      .pure ⟨hspan, hcallee, hmore more h⟩

mutual

theorem expr_places (hcopies : CopiesIn P complete) : ∀ e : Expr, e.AllSpans P →
    (expr decls complete e).In P (·.AllSpans P)
  | .mk span ops, he => by
    rw [expr]
    exact (chain_places hcopies ops he.2).bind fun ops hops => .pure ⟨he.1, hops⟩

theorem chain_places (hcopies : CopiesIn P complete) : ∀ c : Chain, c.AllSpans P →
    (chain decls complete c).In P (·.AllSpans P)
  | .operand v, hc => by
    rw [chain]
    exact (value_places hcopies v hc).bind fun v hv => .pure hv
  | .link v op rest, hc => by
    rw [chain]
    refine (value_places hcopies v hc.1).bind fun v hv => ?_
    exact (chain_places hcopies rest hc.2.2).bind fun rest hrest => .pure ⟨hv, hc.2.1, hrest⟩

theorem value_places (hcopies : CopiesIn P complete) : ∀ v : Value, v.AllSpans P →
    (value decls complete v).In P (·.AllSpans P)
  | .call span callee args target _, hv => by
    rw [value]
    refine (exprs_places hcopies args hv.2.2).bind fun args hargs => ?_
    exact call_places hcopies hv.1 hv.2.1 hargs target
  | .index span base position, hv => by
    rw [value]
    refine (value_places hcopies base hv.2.1).bind fun base hbase => ?_
    exact (expr_places hcopies position hv.2.2).bind fun position hposition =>
      .pure ⟨hv.1, hbase, hposition⟩
  | .ref span inner, hv => by
    rw [value]
    refine (value_places hcopies inner hv.2).bind fun inner hinner => ?_
    exact (Report.In.errorIf hv.1).bind fun _ _ => .pure ⟨hv.1, hinner⟩
  | .prefixed span op inner, hv | .suffixed span op inner, hv => by
    rw [value]
    exact (value_places hcopies inner hv.2).bind fun inner hinner => .pure ⟨hv.1, hinner⟩
  | .paren inner, hv => by
    rw [value]
    exact (expr_places hcopies inner hv).bind fun inner hinner => .pure hinner
  | .ident name, hv => .pure hv
  | .number lit, hv | .decimal lit, hv | .string lit, hv | .char lit, hv => .pure hv
  | .bool span b, hv => .pure hv
  | .null span, hv => .pure hv

theorem exprs_places (hcopies : CopiesIn P complete) : ∀ es : List Expr,
    Value.AllSpansEach P es → (exprs decls complete es).In P (Value.AllSpansEach P)
  | [], _ => .pure trivial
  | e :: es, hes => by
    rw [exprs]
    refine (expr_places hcopies e hes.1).bind fun e he => ?_
    exact (exprs_places hcopies es hes.2).bind fun es hes => .pure ⟨he, hes⟩

end

/-- Copies of defaults, completed in turn, are at the places of the defaults. -/
theorem completion_allSpans (hdecls : decls.AllSpans P) (depth : Nat)
    (active : List DeclId) : CopiesIn P (completion decls depth active) := by
  induction depth generalizing active with
  | zero => exact fun decl written => trivial
  | succ depth ih =>
    intro decl written
    rw [completion]
    split
    · exact trivial
    · refine (exprs_places (ih (decl :: active)) _ (Value.allSpansEach_iff.mpr ?_)).value
      intro e he
      have hdefault : some e ∈ decls.defaultsOf decl :=
        List.mem_of_mem_drop (List.reduceOption_mem_iff.mp he)
      unfold DeclTable.defaultsOf at hdefault
      cases hinfo : decls[decl]? with
      | none => simp [hinfo] at hdefault
      | some info =>
        rw [hinfo] at hdefault
        exact (hdecls info (List.mem_of_getElem? hinfo)).defaults e hdefault

/-! ### Statements -/

theorem completed_places (hdecls : decls.AllSpans P) {e : Expr} (he : e.AllSpans P) :
    (expr decls (Check.complete decls) e).In P (·.AllSpans P) :=
  expr_places (completion_allSpans hdecls _ _) e he

theorem into_places (hdecls : decls.AllSpans P) (expected : Ty) {e : Expr} (he : e.AllSpans P) :
    (into decls expected e).In P (·.AllSpans P) := by
  unfold into
  refine (completed_places hdecls he).bind fun e he => ?_
  exact (expected.store_places he).bind fun _ _ => .pure he

theorem varDecl_places (hdecls : decls.AllSpans P) {var : VarDecl} (hvar : var.AllSpans P) :
    (varDecl decls var).In P (·.AllSpans P) := by
  unfold varDecl
  split
  · exact .pure hvar
  · rename_i init hinit
    refine (into_places hdecls _ (hvar.init init hinit)).bind fun init hinit => .pure ?_
    exact ⟨hvar.span, hvar.ty, hvar.name, forall_mem_some hinit⟩

theorem ret_places (hdecls : decls.AllSpans P) (returned : Ty) {span : Span} (hspan : P span)
    {e : Option Expr} (he : ∀ e' ∈ e, e'.AllSpans P) :
    (ret decls returned span e).In P fun r => ∀ e' ∈ r, e'.AllSpans P := by
  cases e with
  | none => exact (Report.In.errorIf hspan).bind fun _ _ => .pure he
  | some e =>
    unfold ret
    split_ifs
    · refine (completed_places hdecls (he e rfl)).bind fun e he => ?_
      exact (Report.In.error he.span).bind fun _ _ => .pure (forall_mem_some he)
    · exact (into_places hdecls returned (he e rfl)).bind fun e he => .pure (forall_mem_some he)

theorem guard_places (hdecls : decls.AllSpans P) {g : Guard} (hg : g.AllSpans P) :
    (guard decls g).In P (·.AllSpans P) := by
  cases g with
  | first cond =>
    exact (completed_places hdecls (hg cond rfl)).bind fun cond hcond =>
      .pure (forall_mem_some hcond)
  | next cond =>
    exact (completed_places hdecls (hg cond rfl)).bind fun cond hcond =>
      .pure (forall_mem_some hcond)
  | otherwise => exact .pure hg

mutual

theorem stmt_places (hdecls : decls.AllSpans P) (returned : Ty) : ∀ s : Stmt, s.AllSpans P →
    (stmt decls returned s).In P (·.AllSpans P)
  | .expr e, hs => by
    rw [stmt]
    exact (completed_places hdecls hs).bind fun e he => .pure he
  | .decl var, hs => by
    rw [stmt]
    exact (varDecl_places hdecls hs).bind fun var hvar => .pure hvar
  | .assign span target none e, hs => by
    rw [stmt]
    refine (value_places (completion_allSpans hdecls _ _) target hs.2.1).bind
      fun target htarget => ?_
    exact (into_places hdecls _ hs.2.2).bind fun e he => .pure ⟨hs.1, htarget, he⟩
  | .assign span target (some op) e, hs => by
    rw [stmt]
    refine (value_places (completion_allSpans hdecls _ _) target hs.2.1).bind
      fun target htarget => ?_
    exact (completed_places hdecls hs.2.2).bind fun e he => .pure ⟨hs.1, htarget, he⟩
  | .ret span e, hs => by
    rw [stmt]
    exact (ret_places hdecls returned hs.1 hs.2).bind fun e he => .pure ⟨hs.1, he⟩
  | .cond list, hs => by
    rw [stmt]
    exact (branches_places hdecls returned list hs).bind fun list hlist => .pure hlist
  | .loop span cond body, hs => by
    rw [stmt]
    refine (completed_places hdecls hs.2.1).bind fun cond hcond => ?_
    exact (stmts_places hdecls returned body hs.2.2).bind fun body hbody =>
      .pure ⟨hs.1, hcond, hbody⟩
  | .block span body, hs => by
    rw [stmt]
    exact (stmts_places hdecls returned body hs.2).bind fun body hbody => .pure ⟨hs.1, hbody⟩

theorem stmts_places (hdecls : decls.AllSpans P) (returned : Ty) : ∀ ss : List Stmt,
    Stmt.AllSpansEach P ss → (stmts decls returned ss).In P (Stmt.AllSpansEach P)
  | [], _ => .pure trivial
  | s :: ss, hss => by
    rw [stmts]
    refine (stmt_places hdecls returned s hss.1).bind fun s hs => ?_
    exact (stmts_places hdecls returned ss hss.2).bind fun ss hss => .pure ⟨hs, hss⟩

theorem branch_places (hdecls : decls.AllSpans P) (returned : Ty) : ∀ b : Branch, b.AllSpans P →
    (branch decls returned b).In P (·.AllSpans P)
  | .mk span g body, hb => by
    rw [branch]
    refine (guard_places hdecls hb.2.1).bind fun g hg => ?_
    exact (stmts_places hdecls returned body hb.2.2).bind fun body hbody => .pure ⟨hb.1, hg, hbody⟩

theorem branches_places (hdecls : decls.AllSpans P) (returned : Ty) : ∀ bs : List Branch,
    Branch.AllSpansEach P bs → (branches decls returned bs).In P (Branch.AllSpansEach P)
  | [], _ => .pure trivial
  | b :: bs, hbs => by
    rw [branches]
    refine (branch_places hdecls returned b hbs.1).bind fun b hb => ?_
    exact (branches_places hdecls returned bs hbs.2).bind fun bs hbs => .pure ⟨hb, hbs⟩

end

end Check

/-- The failure has diagnostics, and each of them is at a place in `P`. -/
structure CompileError.At (P : Span → Prop) (e : CompileError) : Prop where
  ne_nil : e.diagnostics ≠ []
  span : ∀ d ∈ e.diagnostics, ∃ span, d.span = some span ∧ P span

namespace SourceUnit

end SourceUnit

/-! ## Compilations -/

end KilnLang
