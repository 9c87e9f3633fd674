import KilnLang.Proofs.Token.Places
import KilnLang.Syntax.Parser
import Mathlib.Tactic.SplitIfs

/-!
# Where the parts of a tree are

A tree has all its spans in a set `P` of spans if each of them satisfies `P`
(`SourceUnit.AllSpans`).

**Theorem (`ofTokens_allSpans`).** The parser makes new spans only by joining those of tokens. So if
`P` holds of the spans of the tokens and of the end of the text, and of the join of any two spans of
which it holds, then it holds of all spans of the parsed unit, or else of the place of the error.

A run `Yields` two things: what holds of its error if it fails, and of its result if it does not.
For each parser there is a lemma that it yields spans in `P` from a stream whose spans are in `P`.
The span of the token read last is one of those: a part without a closing token ends there.
-/

namespace KilnLang

/-! ## Runs that may fail -/

/-- The run ends with a result that satisfies `Q`, or with an error that satisfies `E`. -/
def Yields {ε ρ : Type} (run : Except ε ρ) (E : ε → Prop) (Q : ρ → Prop) : Prop :=
  match run with
  | .ok r => Q r
  | .error e => E e

namespace Yields

variable {ε ρ σ : Type} {E : ε → Prop} {Q : ρ → Prop} {R : σ → Prop}

theorem pure {r : ρ} (h : Q r) : Yields (Pure.pure r : Except ε ρ) E Q := h

theorem bind {run : Except ε ρ} {next : ρ → Except ε σ} (h : Yields run E Q)
    (hnext : ∀ r, Q r → Yields (next r) E R) : Yields (run >>= next) E R := by
  cases run with
  | error e => exact h
  | ok r => exact hnext r h

theorem map {run : Except ε ρ} {f : ρ → σ} (h : Yields run E Q) (hf : ∀ r, Q r → R (f r)) :
    Yields (run.map f) E R := by
  cases run with
  | error e => exact h
  | ok r => exact hf r h

end Yields

/-! ## Spans of trees -/

section Trees

variable (P : Span → Prop)

/-- All spans of the dotted name are in `P`. -/
def DottedName.AllSpans (name : DottedName) : Prop :=
  P name.span ∧ ∀ part ∈ name.parts, P part.span

mutual

/-- All spans of the type are in `P`. -/
def TypeExpr.AllSpans : TypeExpr → Prop
  | .named name => name.AllSpans P
  | .ref span inner => P span ∧ inner.AllSpans
  | .array span elem _ => P span ∧ elem.AllSpans
  | .func span sig => P span ∧ Signature.AllSpans sig

/-- All spans of the signature are in `P`. -/
def Signature.AllSpans : Signature TypeExpr → Prop
  | ⟨ret, params, rest⟩ => ret.AllSpans ∧ TypeExpr.AllSpansEach params ∧ Rest.AllSpans rest

/-- All spans of the types are in `P`. -/
def TypeExpr.AllSpansEach : List TypeExpr → Prop
  | [] => True
  | ty :: more => ty.AllSpans ∧ TypeExpr.AllSpansEach more

/-- All spans of the type of further arguments are in `P`. -/
def Rest.AllSpans : Rest TypeExpr → Prop
  | .none => True
  | .untyped => True
  | .typed elem => elem.AllSpans

end

mutual

/-- All spans of the expression are in `P`. -/
def Expr.AllSpans : Expr → Prop
  | .mk span chain => P span ∧ chain.AllSpans

/-- All spans of the operands and operators are in `P`. -/
def Chain.AllSpans : Chain → Prop
  | .operand value => value.AllSpans
  | .link value op rest => value.AllSpans ∧ P op.span ∧ rest.AllSpans

/-- All spans of the operand are in `P`. -/
def Value.AllSpans : Value → Prop
  | .number lit | .decimal lit | .string lit | .char lit => P lit.span
  | .bool span _ | .null span => P span
  | .ident name => name.AllSpans P
  | .call span callee args _ _ => P span ∧ callee.AllSpans P ∧ Value.AllSpansEach args
  | .index span base position => P span ∧ base.AllSpans ∧ position.AllSpans
  | .ref span inner | .prefixed span _ inner | .suffixed span _ inner => P span ∧ inner.AllSpans
  | .paren inner => inner.AllSpans

/-- All spans of the expressions are in `P`. -/
def Value.AllSpansEach : List Expr → Prop
  | [] => True
  | e :: es => e.AllSpans ∧ Value.AllSpansEach es

end

/-- All spans of the variable are in `P`. -/
structure VarDecl.AllSpans (var : VarDecl) : Prop where
  span : P var.span
  ty : var.ty.AllSpans P
  name : P var.name.span
  init : ∀ e ∈ var.init, e.AllSpans P

/-- All spans of the condition are in `P`. -/
def Guard.AllSpans (guard : Guard) : Prop := ∀ cond ∈ guard.cond?, cond.AllSpans P

mutual

/-- All spans of the statement are in `P`. -/
def Stmt.AllSpans : Stmt → Prop
  | .expr value => value.AllSpans P
  | .decl var => var.AllSpans P
  | .assign span target _ value => P span ∧ target.AllSpans P ∧ value.AllSpans P
  | .ret span value => P span ∧ ∀ e ∈ value, e.AllSpans P
  | .cond list => Branch.AllSpansEach list
  | .loop span cond body => P span ∧ cond.AllSpans P ∧ Stmt.AllSpansEach body
  | .block span body => P span ∧ Stmt.AllSpansEach body

/-- All spans of the statements are in `P`. -/
def Stmt.AllSpansEach : List Stmt → Prop
  | [] => True
  | s :: ss => s.AllSpans ∧ Stmt.AllSpansEach ss

/-- All spans of the branch are in `P`. -/
def Branch.AllSpans : Branch → Prop
  | .mk span guard body => P span ∧ guard.AllSpans P ∧ Stmt.AllSpansEach body

/-- All spans of the branches are in `P`. -/
def Branch.AllSpansEach : List Branch → Prop
  | [] => True
  | b :: bs => b.AllSpans ∧ Branch.AllSpansEach bs

end

/-- All spans of the parameter are in `P`. -/
structure Param.AllSpans (param : Param) : Prop where
  ty : param.ty.AllSpans P
  name : P param.name.span
  default : ∀ e ∈ param.default, e.AllSpans P

/-- All spans of the function are in `P`. -/
structure Function.AllSpans (item : Function) : Prop where
  span : P item.span
  ret : item.ret.AllSpans P
  name : P item.name.span
  params : ∀ param ∈ item.params, param.AllSpans P
  rest : Rest.AllSpans P item.rest
  body : ∀ body ∈ item.body, Stmt.AllSpansEach P body

/-- All spans of the part of a unit are in `P`. -/
def Node.AllSpans : Node → Prop
  | .header item => P item.span ∧ ∀ part ∈ item.path, P part.span
  | .alias item => P item.span ∧ item.target.AllSpans P ∧ P item.name.span
  | .function item => item.AllSpans P
  | .global item => item.AllSpans P

/-- All spans of the unit are in `P`. -/
def SourceUnit.AllSpans (unit : SourceUnit) : Prop := ∀ n ∈ unit.nodes, n.AllSpans P

/-- All spans of the stream are in `P`. -/
structure TokenStream.AllSpans (s : TokenStream) : Prop where
  last : P s.last
  tokens : ∀ t ∈ s.tokens, P t.span
  stop : P s.stop

end Trees

variable {P : Span → Prop}

theorem TypeExpr.AllSpans.span {ty : TypeExpr} (h : ty.AllSpans P) : P ty.span := by
  cases ty <;> exact h.1

theorem Expr.AllSpans.span {e : Expr} (h : e.AllSpans P) : P e.span := by
  cases e
  exact h.1

theorem Value.AllSpans.span {v : Value} (h : v.AllSpans P) : P v.span := by
  cases v with
  | number | decimal | string | char | bool | null => exact h
  | paren inner => exact Expr.AllSpans.span h
  | _ => exact h.1

/-! ## Taking tokens -/

namespace TokenStream

variable {s : TokenStream} {k : TokenKind}

theorem AllSpans.peek (hs : s.AllSpans P) : P s.peek.span := by
  obtain ⟨last, _ | ⟨t, ts⟩, stop⟩ := s
  · exact hs.stop
  · exact hs.tokens t List.mem_cons_self

theorem AllSpans.take? (hs : s.AllSpans P) {t : Token} {s₁ : TokenStream}
    {h₁ : s₁.size < s.size} (h : s.take? k = some ⟨t, s₁, h₁⟩) : P t.span ∧ s₁.AllSpans P := by
  obtain ⟨last, _ | ⟨t, ts⟩, stop⟩ := s
  · cases h
  · simp only [TokenStream.take?] at h
    split_ifs at h
    cases h
    obtain ⟨ht, hts⟩ := List.forall_mem_cons.mp hs.tokens
    exact ⟨ht, ht, hts, hs.stop⟩

theorem AllSpans.unexpected (hs : s.AllSpans P) (expected : List TokenKind) :
    P (s.unexpected expected).span := hs.peek

theorem AllSpans.skip (hs : s.AllSpans P) (k : TokenKind) : (s.skip k).rest.AllSpans P := by
  unfold TokenStream.skip
  split
  · exact (hs.take? ‹_›).2
  · exact hs

theorem expect_allSpans (hs : s.AllSpans P) (k : TokenKind) :
    Yields (s.expect k) (P ·.span) fun r => P r.value.span ∧ r.rest.AllSpans P := by
  unfold expect
  split
  · exact hs.take? ‹_›
  · exact hs.unexpected _

theorem ident_allSpans (hs : s.AllSpans P) :
    Yields s.ident (P ·.span) fun r => P r.value.span ∧ r.rest.AllSpans P :=
  (expect_allSpans hs .ident).map fun _ h => h

theorem closeList_allSpans (hs : s.AllSpans P) :
    Yields s.closeList (P ·.span) fun r => r.rest.AllSpans P := by
  unfold closeList
  split
  · exact (hs.take? ‹_›).2
  · exact hs.unexpected _

theorem closeRest_allSpans (hs : s.AllSpans P) :
    Yields s.closeRest (P ·.span) fun r => r.rest.AllSpans P := by
  unfold closeRest
  dsimp only
  split
  · exact ((hs.skip .comma).take? ‹_›).2
  · exact (hs.skip .comma).peek

end TokenStream

/-! ## Parsers -/

/-- The joins of spans in `P` are in `P`. -/
def Span.JoinClosed (P : Span → Prop) : Prop := ∀ ⦃a b : Span⦄, P a → P b → P (a.join b)

namespace Parser

open TokenStream

/-! ### Types -/

theorem arrayLength_allSpans {s : TokenStream} (hs : s.AllSpans P) :
    Yields (arrayLength s) (P ·.span) fun r => r.rest.AllSpans P := by
  unfold arrayLength
  split
  · exact hs
  · obtain ⟨hlength, hs₁⟩ := hs.take? ‹_›
    split
    · exact hs₁
    · exact hlength

theorem arraySuffix_allSpans (hP : Span.JoinClosed P) {ty : TypeExpr} (hty : ty.AllSpans P)
    {s : TokenStream} (hs : s.AllSpans P) :
    Yields (arraySuffix ty s) (P ·.span) fun r => r.value.AllSpans P ∧ r.rest.AllSpans P := by
  rw [arraySuffix]
  split
  · exact ⟨hty, hs⟩
  · obtain ⟨-, hs₁⟩ := hs.take? ‹_›
    refine (arrayLength_allSpans hs₁).bind ?_
    rintro ⟨length, s₂, h₂⟩ (hs₂ : s₂.AllSpans P)
    refine (expect_allSpans hs₂ _).bind ?_
    rintro ⟨close, s₃, h₃⟩ ⟨hclose, hs₃ : s₃.AllSpans P⟩
    have harray : (TypeExpr.array (ty.span.join close.span) ty length).AllSpans P :=
      ⟨hP hty.span hclose, hty⟩
    refine (arraySuffix_allSpans hP harray hs₃).bind ?_
    rintro ⟨ty', s₄, h₄⟩ h
    exact h
termination_by s.size
decreasing_by all_goals omega

mutual

theorem typeExpr_allSpans (hP : Span.JoinClosed P) {s : TokenStream} (hs : s.AllSpans P) :
    Yields (typeExpr s) (P ·.span) fun r => r.value.AllSpans P ∧ r.rest.AllSpans P := by
  rw [typeExpr]
  split
  · obtain ⟨hstart, hs₁⟩ := hs.take? ‹_›
    refine (typeExpr_allSpans hP hs₁).bind ?_
    rintro ⟨inner, s₂, h₂⟩ ⟨hinner, hs₂⟩
    exact .pure ⟨⟨hP hstart hinner.span, hinner⟩, hs₂⟩
  · split
    · obtain ⟨hstart, hs₁⟩ := hs.take? ‹_›
      refine (expect_allSpans hs₁ _).bind ?_
      rintro ⟨_, s₂, h₂⟩ ⟨-, hs₂ : s₂.AllSpans P⟩
      refine (typeExpr_allSpans hP hs₂).bind ?_
      rintro ⟨ret, s₃, h₃⟩ ⟨hret, hs₃ : s₃.AllSpans P⟩
      refine (expect_allSpans hs₃ _).bind ?_
      rintro ⟨_, s₄, h₄⟩ ⟨-, hs₄ : s₄.AllSpans P⟩
      refine (typeList_allSpans hP hs₄).bind ?_
      rintro ⟨⟨params, rest⟩, s₅, h₅⟩ ⟨hparams, hrest, hs₅ : s₅.AllSpans P⟩
      refine (expect_allSpans hs₅ _).bind ?_
      rintro ⟨close, s₆, h₆⟩ ⟨hclose, hs₆ : s₆.AllSpans P⟩
      have hfunc : (TypeExpr.func _ ⟨ret, params, rest⟩).AllSpans P :=
        ⟨hP hstart hclose, hret, hparams, hrest⟩
      refine (arraySuffix_allSpans hP hfunc hs₆).bind ?_
      rintro ⟨ty, s₇, h₇⟩ h
      exact h
    · refine (ident_allSpans hs).bind ?_
      rintro ⟨name, s₁, h₁⟩ ⟨hname, hs₁ : s₁.AllSpans P⟩
      have hnamed : (TypeExpr.named ⟨name.span, [name], none⟩).AllSpans P :=
        ⟨hname, List.forall_mem_singleton.mpr hname⟩
      refine (arraySuffix_allSpans hP hnamed hs₁).bind ?_
      rintro ⟨ty, s₂, h₂⟩ h
      exact h
termination_by 2 * s.size
decreasing_by all_goals omega

theorem typeList_allSpans (hP : Span.JoinClosed P) {s : TokenStream} (hs : s.AllSpans P) :
    Yields (typeList s) (P ·.span) fun r =>
      TypeExpr.AllSpansEach P r.value.1 ∧ Rest.AllSpans P r.value.2 ∧ r.rest.AllSpans P := by
  rw [typeList]
  split
  · exact ⟨trivial, trivial, (hs.take? ‹_›).2⟩
  · split
    · obtain ⟨-, hs₁⟩ := hs.take? ‹_›
      refine (closeRest_allSpans hs₁).bind ?_
      rintro ⟨_, s₂, h₂⟩ hs₂
      exact .pure ⟨trivial, trivial, hs₂⟩
    · refine (typeExpr_allSpans hP hs).bind ?_
      rintro ⟨ty, s₁, h₁⟩ ⟨hty, hs₁ : s₁.AllSpans P⟩
      dsimp only
      split
      · obtain ⟨-, hs₂⟩ := hs₁.take? ‹_›
        refine (closeRest_allSpans hs₂).bind ?_
        rintro ⟨_, s₃, h₃⟩ hs₃
        exact .pure ⟨trivial, hty, hs₃⟩
      · split
        · obtain ⟨-, hs₂⟩ := hs₁.take? ‹_›
          refine (typeList_allSpans hP hs₂).bind ?_
          rintro ⟨⟨params, rest⟩, s₃, h₃⟩ ⟨hparams, hrest, hs₃⟩
          exact .pure ⟨⟨hty, hparams⟩, hrest, hs₃⟩
        · refine (closeList_allSpans hs₁).bind ?_
          rintro ⟨_, s₂, h₂⟩ hs₂
          exact .pure ⟨⟨hty, trivial⟩, trivial, hs₂⟩
termination_by 2 * s.size + 1
decreasing_by all_goals omega

end

/-! ### Expressions -/

theorem literal?_allSpans {t : Token} (ht : P t.span) {v : Value} (h : literal? t = some v) :
    v.AllSpans P := by
  unfold literal? at h
  split at h <;> cases h <;> exact ht

theorem advance?_allSpans {s : TokenStream} (hs : s.AllSpans P) {t : Token} {s₁ : TokenStream}
    {h₁ : s₁.size < s.size} (h : advance? s = some ⟨t, s₁, h₁⟩) : P t.span ∧ s₁.AllSpans P :=
  hs.take? h

theorem operator?_allSpans (hP : Span.JoinClosed P) {s : TokenStream} (hs : s.AllSpans P)
    {op : Operator} {s₁ : TokenStream} {h₁ : s₁.size < s.size}
    (h : operator? s = some ⟨op, s₁, h₁⟩) :
    P op.span ∧ s₁.AllSpans P := by
  unfold operator? at h
  split at h
  · obtain ⟨hfirst, hs₁⟩ := advance?_allSpans hs ‹_›
    split_ifs at h
    · split at h
      · obtain ⟨hsecond, hs₂⟩ := hs₁.take? ‹_›
        split_ifs at h
        · cases h
          exact ⟨hP hfirst hsecond, hs₂⟩
        · cases h
          exact ⟨hfirst, hs₁⟩
      · cases h
        exact ⟨hfirst, hs₁⟩
    · cases h
      exact ⟨hfirst, hs₁⟩
  · cases h

theorem dottedTail_allSpans {s : TokenStream} (hs : s.AllSpans P) :
    Yields (dottedTail s) (P ·.span) fun r =>
      (∀ part ∈ r.value, P part.span) ∧ r.rest.AllSpans P := by
  rw [dottedTail]
  split
  · exact ⟨List.forall_mem_nil _, hs⟩
  · obtain ⟨-, hs₁⟩ := hs.take? ‹_›
    refine (ident_allSpans hs₁).bind ?_
    rintro ⟨name, s₂, h₂⟩ ⟨hname, hs₂ : s₂.AllSpans P⟩
    refine (dottedTail_allSpans hs₂).bind ?_
    rintro ⟨names, s₃, h₃⟩ ⟨hnames, hs₃⟩
    exact .pure ⟨List.forall_mem_cons.mpr ⟨hname, hnames⟩, hs₃⟩
termination_by s.size
decreasing_by all_goals omega

/-- The last of some names, of which there is a first. -/
theorem span_getLastD {first : Ident} (hfirst : P first.span) {more : List Ident}
    (hmore : ∀ part ∈ more, P part.span) : P ((more.getLast?).getD first).span := by
  cases hlast : more.getLast? with
  | none => exact hfirst
  | some last => exact hmore last (List.mem_of_getLast? hlast)

theorem dottedName_allSpans (hP : Span.JoinClosed P) {s : TokenStream} (hs : s.AllSpans P) :
    Yields (dottedName s) (P ·.span) fun r => r.value.AllSpans P ∧ r.rest.AllSpans P := by
  unfold dottedName
  refine (ident_allSpans hs).bind ?_
  rintro ⟨first, s₁, h₁⟩ ⟨hfirst, hs₁⟩
  refine (dottedTail_allSpans hs₁).bind ?_
  rintro ⟨more, s₂, h₂⟩ ⟨hmore, hs₂⟩
  exact .pure ⟨⟨hP hfirst (span_getLastD hfirst hmore), List.forall_mem_cons.mpr ⟨hfirst, hmore⟩⟩,
    hs₂⟩

theorem respan_allSpans {span : Span} (hspan : P span) {e : Expr} (he : e.AllSpans P) :
    (respan span e).AllSpans P := by
  cases e
  exact ⟨hspan, he.2⟩

mutual

theorem operand_allSpans (hP : Span.JoinClosed P) {s : TokenStream} (hs : s.AllSpans P) :
    Yields (operand s) (P ·.span) fun r => r.value.AllSpans P ∧ r.rest.AllSpans P := by
  rw [operand]
  split
  · obtain ⟨hstart, hs₁⟩ := advance?_allSpans hs ‹_›
    refine (operand_allSpans hP hs₁).bind ?_
    rintro ⟨value, s₂, h₂⟩ ⟨hvalue, hs₂⟩
    exact .pure ⟨⟨hP hstart hvalue.span, hvalue⟩, hs₂⟩
  · split
    · rename_i hliteral hadvance
      obtain ⟨-, hs₁⟩ := advance?_allSpans hs hadvance
      refine (suffix_allSpans hP (literal?_allSpans hs.peek hliteral) hs₁).bind ?_
      rintro ⟨value, s₂, h₂⟩ h
      exact h
    · split
      · obtain ⟨hstart, hs₁⟩ := hs.take? ‹_›
        refine (expr_allSpans hP hs₁).bind ?_
        rintro ⟨inner, s₂, h₂⟩ ⟨hinner, hs₂ : s₂.AllSpans P⟩
        refine (expect_allSpans hs₂ _).bind ?_
        rintro ⟨close, s₃, h₃⟩ ⟨hclose, hs₃ : s₃.AllSpans P⟩
        have hparen : (Value.paren (respan (Span.join _ close.span) inner)).AllSpans P :=
          respan_allSpans (hP hstart hclose) hinner
        refine (suffix_allSpans hP hparen hs₃).bind ?_
        rintro ⟨value, s₄, h₄⟩ h
        exact h
      · split
        · obtain ⟨hstart, hs₁⟩ := hs.take? ‹_›
          refine (operand_allSpans hP hs₁).bind ?_
          rintro ⟨inner, s₂, h₂⟩ ⟨hinner, hs₂ : s₂.AllSpans P⟩
          have href : (Value.ref (Span.join _ inner.span) inner).AllSpans P :=
            ⟨hP hstart hinner.span, hinner⟩
          refine (suffix_allSpans hP href hs₂).bind ?_
          rintro ⟨value, s₃, h₃⟩ h
          exact h
        · split
          · refine (dottedName_allSpans hP hs).bind ?_
            rintro ⟨name, s₁, h₁⟩ ⟨hname, hs₁ : s₁.AllSpans P⟩
            have hident : (Value.ident name).AllSpans P := hname
            refine (suffix_allSpans hP hident hs₁).bind ?_
            rintro ⟨value, s₂, h₂⟩ h
            exact h
          · exact hs.unexpected _
termination_by 3 * s.size
decreasing_by all_goals omega

theorem suffix_allSpans (hP : Span.JoinClosed P) {value : Value} (hvalue : value.AllSpans P)
    {s : TokenStream} (hs : s.AllSpans P) :
    Yields (suffix value s) (P ·.span) fun r => r.value.AllSpans P ∧ r.rest.AllSpans P := by
  rw [suffix]
  split
  · obtain ⟨-, hs₁⟩ := hs.take? ‹_›
    split
    · refine (arguments_allSpans hP hs₁).bind ?_
      rintro ⟨args, s₂, h₂⟩ ⟨hargs, hs₂ : s₂.AllSpans P⟩
      have hcall : (Value.call (Span.join _ s₂.last) _ args none 0).AllSpans P :=
        ⟨hP hvalue.1 hs₂.last, hvalue, hargs⟩
      refine (suffix_allSpans hP hcall hs₂).bind ?_
      rintro ⟨value', s₃, h₃⟩ h
      exact h
    · exact hvalue.span
  · split
    · obtain ⟨-, hs₁⟩ := hs.take? ‹_›
      refine (expr_allSpans hP hs₁).bind ?_
      rintro ⟨position, s₂, h₂⟩ ⟨hposition, hs₂ : s₂.AllSpans P⟩
      refine (expect_allSpans hs₂ _).bind ?_
      rintro ⟨close, s₃, h₃⟩ ⟨hclose, hs₃ : s₃.AllSpans P⟩
      have hindex : (Value.index (value.span.join close.span) value position).AllSpans P :=
        ⟨hP hvalue.span hclose, hvalue, hposition⟩
      refine (suffix_allSpans hP hindex hs₃).bind ?_
      rintro ⟨value', s₄, h₄⟩ h
      exact h
    · split
      · obtain ⟨hsign, hs₁⟩ := hs.take? ‹_›
        have hsuffixed : (Value.suffixed (value.span.join _) .inc value).AllSpans P :=
          ⟨hP hvalue.span hsign, hvalue⟩
        refine (suffix_allSpans hP hsuffixed hs₁).bind ?_
        rintro ⟨value', s₂, h₂⟩ h
        exact h
      · split
        · obtain ⟨hsign, hs₁⟩ := hs.take? ‹_›
          have hsuffixed : (Value.suffixed (value.span.join _) .dec value).AllSpans P :=
            ⟨hP hvalue.span hsign, hvalue⟩
          refine (suffix_allSpans hP hsuffixed hs₁).bind ?_
          rintro ⟨value', s₂, h₂⟩ h
          exact h
        · exact ⟨hvalue, hs⟩
termination_by 3 * s.size
decreasing_by all_goals omega

theorem arguments_allSpans (hP : Span.JoinClosed P) {s : TokenStream} (hs : s.AllSpans P) :
    Yields (arguments s) (P ·.span) fun r =>
      Value.AllSpansEach P r.value ∧ r.rest.AllSpans P := by
  rw [arguments]
  split
  · exact ⟨trivial, (hs.take? ‹_›).2⟩
  · refine (expr_allSpans hP hs).bind ?_
    rintro ⟨arg, s₁, h₁⟩ ⟨harg, hs₁ : s₁.AllSpans P⟩
    dsimp only
    split
    · obtain ⟨-, hs₂⟩ := hs₁.take? ‹_›
      refine (arguments_allSpans hP hs₂).bind ?_
      rintro ⟨args, s₃, h₃⟩ ⟨hargs, hs₃⟩
      exact .pure ⟨⟨harg, hargs⟩, hs₃⟩
    · refine (closeList_allSpans hs₁).bind ?_
      rintro ⟨_, s₂, h₂⟩ hs₂
      exact .pure ⟨⟨harg, trivial⟩, hs₂⟩
termination_by 3 * s.size + 2
decreasing_by all_goals omega

theorem expr_allSpans (hP : Span.JoinClosed P) {s : TokenStream} (hs : s.AllSpans P) :
    Yields (expr s) (P ·.span) fun r => r.value.AllSpans P ∧ r.rest.AllSpans P := by
  rw [expr]
  refine (operand_allSpans hP hs).bind ?_
  rintro ⟨first, s₁, h₁⟩ ⟨hfirst, hs₁ : s₁.AllSpans P⟩
  refine (chainTail_allSpans hP hfirst hs₁).bind ?_
  rintro ⟨chain, s₂, h₂⟩ ⟨hchain, hs₂⟩
  exact .pure ⟨⟨hP hfirst.span hs₂.last, hchain⟩, hs₂⟩
termination_by 3 * s.size + 1
decreasing_by all_goals omega

theorem chainTail_allSpans (hP : Span.JoinClosed P) {first : Value} (hfirst : first.AllSpans P)
    {s : TokenStream} (hs : s.AllSpans P) :
    Yields (chainTail first s) (P ·.span) fun r => r.value.AllSpans P ∧ r.rest.AllSpans P := by
  rw [chainTail]
  split
  · exact ⟨hfirst, hs⟩
  · obtain ⟨hop, hs₁⟩ := operator?_allSpans hP hs ‹_›
    refine (operand_allSpans hP hs₁).bind ?_
    rintro ⟨next, s₂, h₂⟩ ⟨hnext, hs₂ : s₂.AllSpans P⟩
    refine (chainTail_allSpans hP hnext hs₂).bind ?_
    rintro ⟨chain, s₃, h₃⟩ ⟨hchain, hs₃⟩
    exact .pure ⟨⟨hfirst, hop, hchain⟩, hs₃⟩
termination_by 3 * s.size
decreasing_by all_goals omega

end

theorem exprFrom_allSpans (hP : Span.JoinClosed P) {first : Value} (hfirst : first.AllSpans P)
    {s : TokenStream} (hs : s.AllSpans P) :
    Yields (exprFrom first s) (P ·.span) fun r => r.value.AllSpans P ∧ r.rest.AllSpans P := by
  unfold exprFrom
  refine (chainTail_allSpans hP hfirst hs).bind ?_
  rintro ⟨chain, s₁, h₁⟩ ⟨hchain, hs₁⟩
  exact .pure ⟨⟨hP hfirst.span hs₁.last, hchain⟩, hs₁⟩

/-! ### Statements -/

theorem varDecl_allSpans (hP : Span.JoinClosed P) {ty : TypeExpr} (hty : ty.AllSpans P)
    {name : Ident} (hname : P name.span) {s : TokenStream} (hs : s.AllSpans P) :
    Yields (varDecl ty name s) (P ·.span) fun r => r.value.AllSpans P ∧ r.rest.AllSpans P := by
  unfold varDecl
  split
  · exact ⟨⟨hP hty.span hs.last, hty, hname, forall_mem_none⟩, hs⟩
  · obtain ⟨-, hs₁⟩ := hs.take? ‹_›
    refine (expr_allSpans hP hs₁).bind ?_
    rintro ⟨init, s₂, h₂⟩ ⟨hinit, hs₂⟩
    exact .pure ⟨⟨hP hty.span hs₂.last, hty, hname, forall_mem_some hinit⟩, hs₂⟩

theorem localHead?_allSpans (hP : Span.JoinClosed P) {s : TokenStream} (hs : s.AllSpans P)
    {r : Step s (TypeExpr × Ident)} (h : localHead? s = some r) :
    r.value.1.AllSpans P ∧ P r.value.2.span ∧ r.rest.AllSpans P := by
  have htype := typeExpr_allSpans hP hs
  unfold localHead? at h
  split at h
  · cases h
  · rename_i ty s₁ h₁ heq
    rw [heq] at htype
    obtain ⟨hty, hs₁⟩ := htype
    split at h
    · cases h
    · obtain ⟨hname, hs₂⟩ := hs₁.take? ‹_›
      split_ifs at h
      cases h
      exact ⟨hty, hname, hs₂⟩

theorem simpleStmt_allSpans (hP : Span.JoinClosed P) {s : TokenStream} (hs : s.AllSpans P) :
    Yields (simpleStmt s) (P ·.span) fun r => r.value.AllSpans P ∧ r.rest.AllSpans P := by
  unfold simpleStmt
  split
  · obtain ⟨hty, hname, hs₁⟩ := localHead?_allSpans hP hs ‹_›
    refine (varDecl_allSpans hP hty hname hs₁).bind ?_
    rintro ⟨var, s₂, h₂⟩ h
    exact h
  · refine (operand_allSpans hP hs).bind ?_
    rintro ⟨first, s₁, h₁⟩ ⟨hfirst, hs₁⟩
    dsimp only
    split
    · obtain ⟨-, hs₂⟩ := advance?_allSpans hs₁ ‹_›
      refine (expr_allSpans hP hs₂).bind ?_
      rintro ⟨value, s₃, h₃⟩ ⟨hvalue, hs₃⟩
      exact .pure ⟨⟨hP hfirst.span hvalue.span, hfirst, hvalue⟩, hs₃⟩
    · refine (exprFrom_allSpans hP hfirst hs₁).bind ?_
      rintro ⟨value, s₂, h₂⟩ h
      exact h

theorem returnValue_allSpans (hP : Span.JoinClosed P) {s : TokenStream} (hs : s.AllSpans P) :
    Yields (returnValue s) (P ·.span) fun r =>
      (∀ e ∈ r.value, e.AllSpans P) ∧ r.rest.AllSpans P := by
  unfold returnValue
  split
  · exact ⟨forall_mem_none, hs⟩
  · refine (expr_allSpans hP hs).map ?_
    rintro ⟨value, s₁, h₁⟩ ⟨hvalue, hs₁⟩
    exact ⟨forall_mem_some hvalue, hs₁⟩

mutual

theorem stmt_allSpans (hP : Span.JoinClosed P) {s : TokenStream} (hs : s.AllSpans P) :
    Yields (stmt s) (P ·.span) fun r => r.value.AllSpans P ∧ r.rest.AllSpans P := by
  rw [stmt]
  refine (bareStmt_allSpans hP hs).bind ?_
  rintro ⟨first, s₁, h₁⟩ ⟨hfirst, hs₁⟩
  exact .pure ⟨hfirst, hs₁.skip .semi⟩
termination_by 4 * s.size + 2
decreasing_by all_goals omega

theorem bareStmt_allSpans (hP : Span.JoinClosed P) {s : TokenStream} (hs : s.AllSpans P) :
    Yields (bareStmt s) (P ·.span) fun r => r.value.AllSpans P ∧ r.rest.AllSpans P := by
  rw [bareStmt]
  split
  · obtain ⟨hstart, hs₁⟩ := hs.take? ‹_›
    refine (expr_allSpans hP hs₁).bind ?_
    rintro ⟨cond, s₂, h₂⟩ ⟨hcond, hs₂ : s₂.AllSpans P⟩
    refine (block_allSpans hP hs₂).bind ?_
    rintro ⟨⟨body, bodySpan⟩, s₃, h₃⟩ ⟨hbody, hspan, hs₃ : s₃.AllSpans P⟩
    refine (otherBranches_allSpans hP hs₃).bind ?_
    rintro ⟨branches, s₄, h₄⟩ ⟨hbranches, hs₄ : s₄.AllSpans P⟩
    exact .pure ⟨⟨⟨hP hstart hspan, forall_mem_some hcond, hbody⟩, hbranches⟩, hs₄⟩
  · split
    · obtain ⟨hstart, hs₁⟩ := hs.take? ‹_›
      refine (expr_allSpans hP hs₁).bind ?_
      rintro ⟨cond, s₂, h₂⟩ ⟨hcond, hs₂ : s₂.AllSpans P⟩
      refine (block_allSpans hP hs₂).bind ?_
      rintro ⟨⟨body, bodySpan⟩, s₃, h₃⟩ ⟨hbody, hspan, hs₃⟩
      exact .pure ⟨⟨hP hstart hspan, hcond, hbody⟩, hs₃⟩
    · split
      · obtain ⟨hstart, hs₁⟩ := hs.take? ‹_›
        refine (returnValue_allSpans hP hs₁).bind ?_
        rintro ⟨value, s₂, h₂⟩ ⟨hvalue, hs₂⟩
        exact .pure ⟨⟨hP hstart hs₂.last, hvalue⟩, hs₂⟩
      · split
        · refine (block_allSpans hP hs).bind ?_
          rintro ⟨⟨body, span⟩, s₁, h₁⟩ ⟨hbody, hspan, hs₁⟩
          exact .pure ⟨⟨hspan, hbody⟩, hs₁⟩
        · exact simpleStmt_allSpans hP hs
termination_by 4 * s.size + 1
decreasing_by all_goals omega

theorem block_allSpans (hP : Span.JoinClosed P) {s : TokenStream} (hs : s.AllSpans P) :
    Yields (block s) (P ·.span) fun r =>
      Stmt.AllSpansEach P r.value.1 ∧ P r.value.2 ∧ r.rest.AllSpans P := by
  rw [block]
  refine (expect_allSpans hs _).bind ?_
  rintro ⟨start, s₁, h₁⟩ ⟨hstart, hs₁ : s₁.AllSpans P⟩
  refine (stmts_allSpans hP hs₁).bind ?_
  rintro ⟨body, s₂, h₂⟩ ⟨hbody, hs₂⟩
  exact .pure ⟨hbody, hP hstart hs₂.last, hs₂⟩
termination_by 4 * s.size
decreasing_by all_goals omega

theorem stmts_allSpans (hP : Span.JoinClosed P) {s : TokenStream} (hs : s.AllSpans P) :
    Yields (stmts s) (P ·.span) fun r => Stmt.AllSpansEach P r.value ∧ r.rest.AllSpans P := by
  rw [stmts]
  split
  · exact ⟨trivial, (hs.take? ‹_›).2⟩
  · split
    · exact hs.unexpected _
    · refine (stmt_allSpans hP hs).bind ?_
      rintro ⟨first, s₁, h₁⟩ ⟨hfirst, hs₁ : s₁.AllSpans P⟩
      refine (stmts_allSpans hP hs₁).bind ?_
      rintro ⟨body, s₂, h₂⟩ ⟨hbody, hs₂⟩
      exact .pure ⟨⟨hfirst, hbody⟩, hs₂⟩
termination_by 4 * s.size + 3
decreasing_by all_goals omega

theorem otherBranches_allSpans (hP : Span.JoinClosed P) {s : TokenStream} (hs : s.AllSpans P) :
    Yields (otherBranches s) (P ·.span) fun r =>
      Branch.AllSpansEach P r.value ∧ r.rest.AllSpans P := by
  rw [otherBranches]
  split
  · obtain ⟨hstart, hs₁⟩ := hs.take? ‹_›
    refine (expr_allSpans hP hs₁).bind ?_
    rintro ⟨cond, s₂, h₂⟩ ⟨hcond, hs₂ : s₂.AllSpans P⟩
    refine (block_allSpans hP hs₂).bind ?_
    rintro ⟨⟨body, bodySpan⟩, s₃, h₃⟩ ⟨hbody, hspan, hs₃ : s₃.AllSpans P⟩
    refine (otherBranches_allSpans hP hs₃).bind ?_
    rintro ⟨branches, s₄, h₄⟩ ⟨hbranches, hs₄ : s₄.AllSpans P⟩
    exact .pure ⟨⟨⟨hP hstart hspan, forall_mem_some hcond, hbody⟩, hbranches⟩, hs₄⟩
  · split
    · obtain ⟨hstart, hs₁⟩ := hs.take? ‹_›
      refine (block_allSpans hP hs₁).bind ?_
      rintro ⟨⟨body, bodySpan⟩, s₂, h₂⟩ ⟨hbody, hspan, hs₂⟩
      exact .pure ⟨⟨⟨hP hstart hspan, forall_mem_none, hbody⟩, trivial⟩, hs₂⟩
    · exact ⟨trivial, hs⟩
termination_by 4 * s.size
decreasing_by all_goals omega

end

/-! ### Units -/

end Parser

end KilnLang
