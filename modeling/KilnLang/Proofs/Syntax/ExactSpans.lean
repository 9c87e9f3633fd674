import KilnLang.Proofs.Syntax.PieceTree
import KilnLang.Proofs.Token.Tiling
import Mathlib.Tactic.SplitIfs

/-!
# The spans of a parsed unit are exact and nested

**Theorem (`parsed_spans_are_exact`).** If a text is a unit, the unit is placed in the tokens of the
text. So each span of the unit goes from the start of the first token to the end of the last token
that its part was read from, parts lie inside the part above them, and parts side by side are apart
and in order. A semicolon after a part does not belong to it.

A parser *lays* what is written for its result from the stream it starts from up to the one it
leaves (`TokenStream.Lays`): it is placed in the tokens between them, if they are in order. Where
only the first and the last part of a production are at hand when its span is made, it is the join
of their spans, so a lay also keeps a span that covers a start of the tokens and one that covers an
end. The token read last always covers an end (`Lays.toLast`), which is what a part without a
closing token relies on.
-/

namespace KilnLang

open PieceTree (mark separator)

/-! ## Reading what is written -/

theorem Span.join_self (a : Span) : a.join a = a := by
  simp [Span.join]

namespace TokenStream

variable {s s₀ s₁ s₂ : TokenStream} {a b c d : Span} {ws vs : List PieceTree} {k : TokenKind}

/-- From `s` up to `s₁` tokens are read in which `ws` is placed, if they are in order. The spans `a`
and `b` cover a start and an end of them, and the token read last is the last one of them. -/
def Lays (s : TokenStream) (a b : Span) (ws : List PieceTree) (s₁ : TokenStream) : Prop :=
  ∃ ts, s.tokens = ts ++ s₁.tokens ∧ (∃ t, ts.getLast? = some t ∧ s₁.last = t.span) ∧
    (Orderly ts →
      PlacedEach ws ts ∧ (∃ us, us <+: ts ∧ Covers a us) ∧ ∃ us, us <:+ ts ∧ Covers b us)

theorem last_of_take? {r : Step s Token} (h : s.take? k = some r) : r.rest.last = r.value.span := by
  obtain ⟨last, _ | ⟨t, ts⟩, stop⟩ := s
  · exact nomatch h
  · simp only [take?] at h
    split_ifs at h
    cases h
    rfl

namespace Lays

theorem of_eq (h : Lays s a b ws s₁) (hws : ws = vs) : Lays s a b vs s₁ := hws ▸ h

theorem append (h : Lays s a b ws s₁) (h' : Lays s₁ c d vs s₂) : Lays s a d (ws ++ vs) s₂ := by
  obtain ⟨ts, hts, hlast, hplaced⟩ := h
  obtain ⟨us, hus, hlast', hplaced'⟩ := h'
  refine ⟨ts ++ us, by rw [hts, hus, List.append_assoc], ?_, fun horderly => ?_⟩
  · obtain ⟨t, ht, hspan⟩ := hlast'
    exact ⟨t, by rw [List.getLast?_append, ht]; rfl, hspan⟩
  · obtain ⟨heach, ⟨front, hfront, ha⟩, -⟩ := hplaced horderly.left
    obtain ⟨heach', -, rear, hrear, hd⟩ := hplaced' horderly.right
    exact ⟨heach.append heach', ⟨front, hfront.trans (List.prefix_append ts us), ha⟩,
      rear, hrear.trans (List.suffix_append ts us), hd⟩

/-- A single token is read. -/
theorem one {r : Step s Token} {w : Piece} (hr : s.take? k = some r)
    (hspells : r.value.Proper → Spells [w] [r.value]) :
    Lays s r.value.span r.value.span [.piece w] r.rest := by
  obtain ⟨hts, -⟩ := tokens_of_take? hr
  refine ⟨[r.value], hts, ⟨r.value, rfl, last_of_take? hr⟩, fun horderly => ?_⟩
  have hcovers := Covers.singleton r.value
  have hplaced := Placed.piece (hspells (horderly.proper _ List.mem_cons_self))
  exact ⟨hplaced.singleton, ⟨_, List.prefix_rfl, hcovers⟩, _, List.suffix_rfl, hcovers⟩

theorem mark {r : Step s Token} (hr : s.take? k = some r) (hk : k.spelling?.isSome) :
    Lays s r.value.span r.value.span [PieceTree.mark k] r.rest := by
  refine one hr fun hproper => ?_
  obtain ⟨-, rfl⟩ := tokens_of_take? hr
  exact .mark (hproper.is hk) .nil

/-- A separator is taken. -/
theorem taken (sep : Separator) {r : Step s Token} (hr : s.take? sep.kind = some r) :
    Lays s r.value.span r.value.span [PieceTree.separator sep] r.rest := by
  refine one hr fun hproper => ?_
  obtain ⟨-, hk⟩ := tokens_of_take? hr
  refine .take (hk ▸ hproper.is ?_) .nil
  rw [hk]
  cases sep <;> rfl

theorem placed_skipped (sep : Separator) : Placed (PieceTree.separator sep) [] := .piece (.skip .nil)

/-- A separator is left out after what is read. -/
theorem skipAfter (h : Lays s a b ws s₁) (sep : Separator) :
    Lays s a b (ws ++ [PieceTree.separator sep]) s₁ := by
  obtain ⟨ts, hts, hlast, hplaced⟩ := h
  refine ⟨ts, hts, hlast, fun horderly => ?_⟩
  obtain ⟨heach, hedges⟩ := hplaced horderly
  have hskip := heach.append (placed_skipped sep).singleton
  rw [List.append_nil] at hskip
  exact ⟨hskip, hedges⟩

/-- A separator is left out before what is read. -/
theorem skipBefore (h : Lays s a b ws s₁) (sep : Separator) :
    Lays s a b (PieceTree.separator sep :: ws) s₁ := by
  obtain ⟨ts, hts, hlast, hplaced⟩ := h
  refine ⟨ts, hts, hlast, fun horderly => ?_⟩
  obtain ⟨heach, hedges⟩ := hplaced horderly
  exact ⟨.cons (placed_skipped sep) heach, hedges⟩

/-- What is read makes a part, whose span covers all of it. -/
theorem part (h : Lays s a b ws s₁) :
    Lays s (a.join b) (a.join b) [.part (a.join b) ws] s₁ := by
  obtain ⟨ts, hts, hlast, hplaced⟩ := h
  refine ⟨ts, hts, hlast, fun horderly => ?_⟩
  obtain ⟨heach, ⟨front, hfront, ha⟩, rear, hrear, hb⟩ := hplaced horderly
  have hcovers := ha.join horderly hfront hb hrear
  exact ⟨(Placed.part hcovers heach).singleton, ⟨ts, List.prefix_rfl, hcovers⟩,
    ts, List.suffix_rfl, hcovers⟩

theorem part_self (h : Lays s a a ws s₁) : Lays s a a [.part a ws] s₁ := by
  have hpart := h.part
  rwa [Span.join_self] at hpart

/-- The last token covers an end of what is read. -/
theorem toLast (h : Lays s a b ws s₁) : Lays s a s₁.last ws s₁ := by
  obtain ⟨ts, hts, hlast, hplaced⟩ := h
  refine ⟨ts, hts, hlast, fun horderly => ?_⟩
  obtain ⟨heach, hfront, rear, hrear, hb⟩ := hplaced horderly
  obtain ⟨t, ht, hspan⟩ := hlast
  obtain ⟨init, rfl⟩ := List.getLast?_eq_some_iff.mp ht
  rw [hspan]
  exact ⟨heach, hfront, [t], List.suffix_append init [t], .singleton t⟩

/-- What is in a part is read with it. -/
theorem inside (h : Lays s a b [.part c ws] s₁) : Lays s a b ws s₁ := by
  obtain ⟨ts, hts, hlast, hplaced⟩ := h
  refine ⟨ts, hts, hlast, fun horderly => ?_⟩
  obtain ⟨heach, hedges⟩ := hplaced horderly
  cases heach with
  | cons first more =>
    cases more
    cases first with
    | part covers each =>
      rw [List.append_nil] at horderly hedges ⊢
      exact ⟨each, hedges⟩

/-- An item of a list and a comma are read, and then the rest of the list, before which the comma
may be left out if there are no more items. -/
theorem item {item : List PieceTree} {items : List (List PieceTree)} (h : Lays s a b item s₁)
    {r : Step s₁ Token} (hcomma : s₁.take? .comma = some r)
    (hmore : Lays r.rest c d (PieceTree.closing items) s₂) :
    Lays s a d (PieceTree.closing (item :: items)) s₂ := by
  cases items with
  | nil =>
    rw [PieceTree.closing_singleton]
    exact h.append ((taken .comma hcomma).append hmore)
  | cons next more =>
    rw [PieceTree.closing_cons_cons]
    exact h.append ((Lays.mark hcomma rfl).append hmore)

end Lays

theorem expect_lays (s : TokenStream) {k : TokenKind} (hk : k.spelling?.isSome) :
    Ensures (s.expect k) fun r => Lays s r.value.span r.value.span [PieceTree.mark k] r.rest := by
  unfold expect
  split
  · exact .ok (.mark ‹_› hk)
  · exact .error

theorem ident_lays (s : TokenStream) :
    Ensures s.ident fun r => Lays s r.value.span r.value.span [r.value.pieceTree] r.rest := by
  unfold ident expect
  split
  · rename_i r hr
    obtain ⟨-, hk⟩ := tokens_of_take? hr
    have hword := Lays.one (w := .word .ident r.value.text) hr fun _ => hk ▸ .word .nil
    exact .ok hword.part_self
  · exact .error

theorem skip_lays (h : Lays s₀ a b ws s) (sep : Separator) :
    ∃ b', Lays s₀ a b' (ws ++ [PieceTree.separator sep]) (s.skip sep.kind).rest := by
  unfold TokenStream.skip
  split
  · exact ⟨_, h.append (.taken sep ‹_›)⟩
  · exact ⟨b, h.skipAfter sep⟩

theorem closeList_lays (h : Lays s₀ a b ws s) :
    Ensures s.closeList fun r =>
      ∃ b', Lays s₀ a b' (ws ++ [PieceTree.separator .comma, PieceTree.mark .rparen]) r.rest := by
  unfold closeList
  split
  · exact .ok ⟨_, h.append (.skipBefore (.mark ‹_› rfl) .comma)⟩
  · exact .error

theorem closeRest_lays (h : Lays s₀ a b ws s) :
    Ensures s.closeRest fun r =>
      ∃ b', Lays s₀ a b' (ws ++ [PieceTree.separator .comma, PieceTree.mark .rparen]) r.rest := by
  obtain ⟨b', hskip⟩ := skip_lays h .comma
  unfold closeRest
  dsimp only
  split
  · rename_i hparen
    refine .ok ⟨_, (hskip.append (.mark hparen rfl)).of_eq ?_⟩
    rw [List.append_assoc]
    rfl
  · exact .error

end TokenStream

namespace Parser

open TokenStream

/-! ## Types -/

theorem arrayLength_lays {s₀ s : TokenStream} {a b : Span} {ws : List PieceTree}
    (h : Lays s₀ a b ws s) :
    Ensures (arrayLength s) fun r => ∃ b', Lays s₀ a b'
      (ws ++ (r.value.map fun n => PieceTree.piece (.length n)).toList) r.rest := by
  unfold arrayLength
  split
  · exact .ok ⟨b, h.of_eq (List.append_nil ws).symm⟩
  · rename_i r hr
    split
    · rename_i n hn
      obtain ⟨-, hk⟩ := tokens_of_take? hr
      exact .ok ⟨_, h.append (.one hr fun _ => .length hk hn .nil)⟩
    · exact .error

/-- After a type, the brackets are read into a type. -/
theorem arraySuffix_lays {s₀ : TokenStream} (ty : TypeExpr) (s : TokenStream)
    (h : Lays s₀ ty.span ty.span [ty.pieceTree] s) :
    Ensures (arraySuffix ty s) fun r =>
      Lays s₀ r.value.span r.value.span [r.value.pieceTree] r.rest := by
  rw [arraySuffix]
  split
  · exact .ok h
  · rename_i s₁ h₁ hopen
    refine (arrayLength_lays (s := s₁) (h.append (.mark hopen rfl))).bind ?_
    rintro ⟨length, s₂, h₂⟩ ⟨b, hlength⟩
    refine (expect_lays _ rfl).bind ?_
    rintro ⟨close, s₃, h₃⟩ hclose
    have harray : Lays s₀ (ty.span.join close.span) (ty.span.join close.span)
        [(TypeExpr.array (ty.span.join close.span) ty length).pieceTree] s₃ := by
      simpa [TypeExpr.pieceTree] using (hlength.append hclose).part
    refine (arraySuffix_lays _ _ harray).bind ?_
    rintro ⟨ty', s₄, h₄⟩ hmore
    exact .pure hmore
termination_by s.size
decreasing_by all_goals omega

mutual

theorem typeExpr_lays (s : TokenStream) :
    Ensures (typeExpr s) fun r => Lays s r.value.span r.value.span [r.value.pieceTree] r.rest := by
  rw [typeExpr]
  split
  · rename_i href
    refine (typeExpr_lays _).bind ?_
    rintro ⟨inner, s₂, h₂⟩ hinner
    exact .pure ((Lays.mark href rfl).append hinner).part
  · split
    · rename_i start s₁ h₁ hfunc
      refine (expect_lays _ rfl).bind ?_
      rintro ⟨_, s₂, h₂⟩ hless
      refine (typeExpr_lays _).bind ?_
      rintro ⟨ret, s₃, h₃⟩ hret
      refine (expect_lays _ rfl).bind ?_
      rintro ⟨_, s₄, h₄⟩ hlparen
      refine (typeList_lays _).bind ?_
      rintro ⟨⟨params, rest⟩, s₅, h₅⟩ ⟨a, b, hparams⟩
      refine (expect_lays _ rfl).bind ?_
      rintro ⟨close, s₆, h₆⟩ hgreater
      have hread := ((Lays.mark hfunc rfl).append (hless.append (hret.append (hlparen.append
        (hparams.append hgreater))))).part
      have hty : Lays s (start.span.join close.span) (start.span.join close.span)
          [(TypeExpr.func (start.span.join close.span) ⟨ret, params, rest⟩).pieceTree] s₆ := by
        simpa [TypeExpr.pieceTree, Signature.pieceTree] using hread
      refine (arraySuffix_lays _ _ hty).bind ?_
      rintro ⟨ty, s₇, h₇⟩ hmore
      exact .pure hmore
    · refine (ident_lays _).bind ?_
      rintro ⟨name, s₁, h₁⟩ hname
      have hty : Lays s name.span name.span
          [(TypeExpr.named ⟨name.span, [name], none⟩).pieceTree] s₁ := by
        simpa [TypeExpr.pieceTree, DottedName.pieceTree, PieceTree.joined, PieceTree.tailed] using
          hname.part_self
      refine (arraySuffix_lays _ _ hty).bind ?_
      rintro ⟨ty, s₂, h₂⟩ hmore
      exact .pure hmore
termination_by 2 * s.size
decreasing_by all_goals omega

theorem typeList_lays (s : TokenStream) :
    Ensures (typeList s) fun r => ∃ a b, Lays s a b
      (PieceTree.closing (TypeExpr.pieceItems r.value.1 ++ Rest.pieceItems r.value.2))
      r.rest := by
  rw [typeList]
  split
  · exact .ok ⟨_, _, .mark ‹_› rfl⟩
  · split
    · rename_i hellipsis
      refine (closeRest_lays (.mark hellipsis rfl)).bind ?_
      rintro ⟨_, s₂, h₂⟩ ⟨b, hclose⟩
      exact .pure ⟨_, _, hclose⟩
    · refine (typeExpr_lays _).bind ?_
      rintro ⟨ty, s₁, h₁⟩ hty
      dsimp only
      split
      · rename_i hellipsis
        refine (closeRest_lays (hty.append (.mark hellipsis rfl))).bind ?_
        rintro ⟨_, s₃, h₃⟩ ⟨b, hclose⟩
        exact .pure ⟨_, _, hclose⟩
      · split
        · rename_i hcomma
          refine (typeList_lays _).bind ?_
          rintro ⟨⟨params, rest⟩, s₃, h₃⟩ ⟨a, b, hmore⟩
          exact .pure ⟨_, _, hty.item hcomma hmore⟩
        · refine (closeList_lays hty).bind ?_
          rintro ⟨_, s₂, h₂⟩ ⟨b, hclose⟩
          exact .pure ⟨_, _, hclose⟩
termination_by 2 * s.size + 1
decreasing_by all_goals omega

end

/-! ## Expressions -/

theorem operator?_lays {s : TokenStream} {r : Step s Operator} (h : operator? s = some r) :
    Lays s r.value.span r.value.span [r.value.pieceTree] r.rest := by
  unfold operator? at h
  split at h
  · rename_i op step hop hstep
    have hone : Lays s step.value.span step.value.span
        [Operator.pieceTree ⟨step.value.span, op⟩] step.rest := by
      rw [Operator.pieceTree, (piece_of_binaryOp? hop).1]
      exact (Lays.mark hstep (piece_of_binaryOp? hop).2).part_self
    split at h
    · split at h
      · rename_i hgt _ second hsecond
        split at h
        · rename_i hadjacent
          cases h
          obtain ⟨hts, hk⟩ := tokens_of_take? hstep
          obtain ⟨hts', hk'⟩ := tokens_of_take? hsecond
          subst hgt
          have hgreater : TokenKind.greater = s.kind := Piece.mark.inj (piece_of_binaryOp? hop).1
          -- Two marks that touch are laid as one piece, from the first to the second.
          have hshift : Lays s step.value.span second.value.span [.piece .shift] second.rest := by
            refine ⟨[step.value, second.value], by rw [hts, hts']; rfl,
              ⟨second.value, rfl, last_of_take? hsecond⟩, fun horderly => ⟨?_, ?_, ?_⟩⟩
            · have hfirst := (horderly.proper _ List.mem_cons_self).is
              have hnext := (horderly.proper _ (List.mem_cons_of_mem _ List.mem_cons_self)).is
              rw [hk, ← hgreater] at hfirst
              rw [hk'] at hnext
              exact (Placed.piece (.shift (hfirst rfl) (hnext rfl) hadjacent .nil)).singleton
            · exact ⟨[step.value], List.prefix_append _ _, .singleton _⟩
            · exact ⟨[second.value], List.suffix_append [step.value] _, .singleton _⟩
          exact hshift.part
        · cases h
          exact hone
      · cases h
        exact hone
    · cases h
      exact hone
  · exact nomatch h

theorem literal?_lays {s : TokenStream} {value : Value} {r : Step s Token}
    (hvalue : literal? s.peek = some value) (h : advance? s = some r) :
    Lays s value.span value.span [value.pieceTree] r.rest := by
  rw [← peek_of_advance? h] at hvalue
  have hword : Spells [.word r.value.kind r.value.text] [r.value] := .word .nil
  have hmark (hproper : r.value.Proper) (hk : r.value.kind.spelling?.isSome) :
      Spells [.mark r.value.kind] [r.value] := .mark (hproper.is hk) .nil
  unfold literal? at hvalue
  split at hvalue <;> cases hvalue <;> rename_i hk <;> refine (Lays.one h ?_).part_self <;>
    intro hproper <;> rw [hk] at hword hmark
  · exact hword
  · exact hword
  · rwa [← hproper.string hk] at hword
  · rwa [← hproper.char hk] at hword
  · exact hmark hproper rfl
  · exact hmark hproper rfl
  · exact hmark hproper rfl

/-- Further parts of a dotted name are read up to the last one. -/
theorem dottedTail_lays {s₀ : TokenStream} {a : Span} {ws : List PieceTree} (name : Ident)
    (s : TokenStream) (h : Lays s₀ a name.span ws s) :
    Ensures (dottedTail s) fun r => Lays s₀ a (r.value.getLast?.getD name).span
      (ws ++ PieceTree.tailed .dot (r.value.map ([·.pieceTree]))) r.rest := by
  rw [dottedTail]
  split
  · exact .ok (h.of_eq (List.append_nil ws).symm)
  · rename_i s₁ h₁ hdot
    refine (ident_lays _).bind ?_
    rintro ⟨next, s₂, h₂⟩ hnext
    refine (dottedTail_lays next s₂ (h.append ((Lays.mark hdot rfl).append hnext))).bind ?_
    rintro ⟨names, s₃, h₃⟩ hmore
    refine .pure ?_
    simpa [PieceTree.tailed, List.getLast?_cons] using hmore
termination_by s.size
decreasing_by all_goals omega

theorem dottedName_lays (s : TokenStream) :
    Ensures (dottedName s) fun r =>
      Lays s r.value.span r.value.span [r.value.pieceTree] r.rest := by
  unfold dottedName
  refine (ident_lays _).bind ?_
  rintro ⟨first, s₁, h₁⟩ hfirst
  refine (dottedTail_lays first s₁ hfirst).bind ?_
  rintro ⟨more, s₂, h₂⟩ hmore
  exact .pure hmore.part

mutual

theorem operand_lays (s : TokenStream) :
    Ensures (operand s) fun r => Lays s r.value.span r.value.span [r.value.pieceTree] r.rest := by
  rw [operand]
  split
  · rename_i op start s₁ h₁ hop hstart
    refine (operand_lays _).bind ?_
    rintro ⟨value, s₂, h₂⟩ hvalue
    refine .pure ?_
    dsimp only
    rw [Value.pieceTree, (kind_of_prefixOp? hop).1]
    exact ((Lays.mark hstart (kind_of_prefixOp? hop).2).append hvalue).part
  · split
    · rename_i hliteral hstart
      refine (suffix_lays _ _ (literal?_lays hliteral hstart)).bind ?_
      rintro ⟨value, s₂, h₂⟩ hmore
      exact .pure hmore
    · split
      · rename_i start s₁ h₁ hlparen
        refine (expr_lays _).bind ?_
        rintro ⟨⟨span, chain⟩, s₂, h₂⟩ hinner
        refine (expect_lays _ rfl).bind ?_
        rintro ⟨close, s₃, h₃⟩ hrparen
        -- The span of what is inside gives way to that of the parentheses.
        have hparen : Lays s (start.span.join close.span) (start.span.join close.span)
            [(Value.paren (.mk (start.span.join close.span) chain)).pieceTree] s₃ := by
          rw [Expr.pieceTree] at hinner
          simpa [Value.pieceTree] using
            ((Lays.mark hlparen rfl).append (hinner.inside.append hrparen)).part.part_self
        refine (suffix_lays _ _ hparen).bind ?_
        rintro ⟨value, s₄, h₄⟩ hmore
        exact .pure hmore
      · split
        · rename_i start s₁ h₁ href
          refine (operand_lays _).bind ?_
          rintro ⟨inner, s₂, h₂⟩ hinner
          have href : Lays s (start.span.join inner.span) (start.span.join inner.span)
              [(Value.ref (start.span.join inner.span) inner).pieceTree] s₂ := by
            simpa [Value.pieceTree] using ((Lays.mark href rfl).append hinner).part
          refine (suffix_lays _ _ href).bind ?_
          rintro ⟨value, s₃, h₃⟩ hmore
          exact .pure hmore
        · split
          · refine (dottedName_lays _).bind ?_
            rintro ⟨name, s₁, h₁⟩ hname
            have hident : Lays s (Value.ident name).span (Value.ident name).span
                [(Value.ident name).pieceTree] s₁ := by
              simpa [Value.pieceTree, Value.span] using hname
            refine (suffix_lays _ _ hident).bind ?_
            rintro ⟨value, s₂, h₂⟩ hmore
            exact .pure hmore
          · exact .error
termination_by 3 * s.size
decreasing_by all_goals omega

/-- After an operand, its suffixes are read into an operand. -/
theorem suffix_lays {s₀ : TokenStream} (value : Value) (s : TokenStream)
    (h : Lays s₀ value.span value.span [value.pieceTree] s) :
    Ensures (suffix value s) fun r =>
      Lays s₀ r.value.span r.value.span [r.value.pieceTree] r.rest := by
  rw [suffix]
  split
  · rename_i s₁ h₁ hlparen
    split
    · rename_i callee
      refine (arguments_lays _).bind ?_
      rintro ⟨args, s₂, h₂⟩ ⟨a, b, hargs⟩
      have hcall : Lays s₀ (callee.span.join s₂.last) (callee.span.join s₂.last)
          [(Value.call (callee.span.join s₂.last) callee args none 0).pieceTree] s₂ := by
        -- The end of a call is that of its last token, because the list may end in a comma.
        simpa [Value.pieceTree, Value.span] using
          (h.append ((Lays.mark hlparen rfl).append hargs)).toLast.part
      refine (suffix_lays _ _ hcall).bind ?_
      rintro ⟨value, s₃, h₃⟩ hmore
      exact .pure hmore
    · exact .error
  · split
    · rename_i s₁ h₁ hlbracket
      refine (expr_lays _).bind ?_
      rintro ⟨position, s₂, h₂⟩ hposition
      refine (expect_lays _ rfl).bind ?_
      rintro ⟨close, s₃, h₃⟩ hrbracket
      have hindex : Lays s₀ (value.span.join close.span) (value.span.join close.span)
          [(Value.index (value.span.join close.span) value position).pieceTree] s₃ := by
        simpa [Value.pieceTree] using
          (h.append ((Lays.mark hlbracket rfl).append (hposition.append hrbracket))).part
      refine (suffix_lays _ _ hindex).bind ?_
      rintro ⟨value, s₄, h₄⟩ hmore
      exact .pure hmore
    · split
      · rename_i sign s₁ h₁ hsign
        have hsuffixed : Lays s₀ (value.span.join sign.span) (value.span.join sign.span)
            [(Value.suffixed (value.span.join sign.span) .inc value).pieceTree] s₁ := by
          simpa [Value.pieceTree, UnaryOp.kind] using (h.append (.mark hsign rfl)).part
        refine (suffix_lays _ _ hsuffixed).bind ?_
        rintro ⟨value, s₂, h₂⟩ hmore
        exact .pure hmore
      · split
        · rename_i sign s₁ h₁ hsign
          have hsuffixed : Lays s₀ (value.span.join sign.span) (value.span.join sign.span)
              [(Value.suffixed (value.span.join sign.span) .dec value).pieceTree] s₁ := by
            simpa [Value.pieceTree, UnaryOp.kind] using (h.append (.mark hsign rfl)).part
          refine (suffix_lays _ _ hsuffixed).bind ?_
          rintro ⟨value, s₂, h₂⟩ hmore
          exact .pure hmore
        · exact .ok h
termination_by 3 * s.size
decreasing_by all_goals omega

theorem arguments_lays (s : TokenStream) :
    Ensures (arguments s) fun r =>
      ∃ a b, Lays s a b (PieceTree.closing (Expr.pieceItems r.value)) r.rest := by
  rw [arguments]
  split
  · exact .ok ⟨_, _, .mark ‹_› rfl⟩
  · refine (expr_lays _).bind ?_
    rintro ⟨arg, s₁, h₁⟩ harg
    dsimp only
    split
    · rename_i hcomma
      refine (arguments_lays _).bind ?_
      rintro ⟨args, s₃, h₃⟩ ⟨a, b, hmore⟩
      exact .pure ⟨_, _, harg.item hcomma hmore⟩
    · refine (closeList_lays harg).bind ?_
      rintro ⟨_, s₂, h₂⟩ ⟨b, hclose⟩
      exact .pure ⟨_, _, hclose⟩
termination_by 3 * s.size + 2
decreasing_by all_goals omega

theorem expr_lays (s : TokenStream) :
    Ensures (expr s) fun r => Lays s r.value.span r.value.span [r.value.pieceTree] r.rest := by
  rw [expr]
  refine (operand_lays _).bind ?_
  rintro ⟨first, s₁, h₁⟩ hfirst
  have hread : Lays s first.span first.span ([] ++ [first.pieceTree]) s₁ := hfirst
  refine (chainTail_lays first s₁ hread).bind ?_
  rintro ⟨chain, s₂, h₂⟩ ⟨b, hchain⟩
  refine .pure ?_
  simpa [Expr.pieceTree, Expr.span] using hchain.toLast.part
termination_by 3 * s.size + 1
decreasing_by all_goals omega

/-- After an operand, further operators and operands are read. -/
theorem chainTail_lays {s₀ : TokenStream} {a b : Span} {ws : List PieceTree} (first : Value)
    (s : TokenStream) (h : Lays s₀ a b (ws ++ [first.pieceTree]) s) :
    Ensures (chainTail first s) fun r => ∃ b', Lays s₀ a b' (ws ++ r.value.pieceTree) r.rest := by
  rw [chainTail]
  split
  · refine .ok ⟨b, ?_⟩
    simpa [Chain.pieceTree] using h
  · rename_i op s₁ h₁ hop
    refine (operand_lays _).bind ?_
    rintro ⟨next, s₂, h₂⟩ hnext
    have hread : Lays s₀ a next.span
        (ws ++ [first.pieceTree, op.pieceTree] ++ [next.pieceTree]) s₂ := by
      simpa using h.append ((operator?_lays hop).append hnext)
    refine (chainTail_lays next s₂ hread).bind ?_
    rintro ⟨chain, s₃, h₃⟩ ⟨b', hmore⟩
    refine .pure ⟨b', ?_⟩
    simpa [Chain.pieceTree] using hmore
termination_by 3 * s.size
decreasing_by all_goals omega

end

/-- After an operand, the rest of an expression is read into an expression. -/
theorem exprFrom_lays {s₀ s : TokenStream} {b : Span} {first : Value}
    (h : Lays s₀ first.span b [first.pieceTree] s) :
    Ensures (exprFrom first s) fun r =>
      Lays s₀ r.value.span r.value.span [r.value.pieceTree] r.rest := by
  have hread : Lays s₀ first.span b ([] ++ [first.pieceTree]) s := h
  refine (chainTail_lays first s hread).bind ?_
  rintro ⟨chain, s₁, h₁⟩ ⟨b', hchain⟩
  refine .pure ?_
  simpa [Expr.pieceTree, Expr.span] using hchain.toLast.part

/-! ## Statements -/

theorem varDecl_lays {s₀ s : TokenStream} {b : Span} {ty : TypeExpr} {name : Ident}
    (h : Lays s₀ ty.span b [ty.pieceTree, name.pieceTree] s) :
    Ensures (varDecl ty name s) fun r =>
      Lays s₀ r.value.span r.value.span [r.value.pieceTree] r.rest := by
  unfold varDecl
  split
  · exact .ok h.toLast.part
  · rename_i hassign
    refine (expr_lays _).bind ?_
    rintro ⟨init, s₂, h₂⟩ hinit
    exact .pure (h.append ((Lays.mark hassign rfl).append hinit)).toLast.part

theorem localHead?_lays {s : TokenStream} {r : Step s (TypeExpr × Ident)}
    (h : localHead? s = some r) :
    Lays s r.value.1.span r.value.2.span [r.value.1.pieceTree, r.value.2.pieceTree] r.rest := by
  unfold localHead? at h
  split at h
  · exact nomatch h
  · rename_i hty
    split at h
    · exact nomatch h
    · rename_i name s₂ h₂ hname
      split_ifs at h
      cases h
      obtain ⟨-, hk⟩ := tokens_of_take? hname
      have hword := Lays.one (w := .word .ident name.text) hname fun _ => hk ▸ .word .nil
      exact (typeExpr_lays s _ hty).append hword.part_self

theorem simpleStmt_lays (s : TokenStream) :
    Ensures (simpleStmt s) fun r => ∃ a b, Lays s a b r.value.pieceTree r.rest := by
  unfold simpleStmt
  split
  · rename_i hhead
    refine (varDecl_lays (localHead?_lays hhead)).bind ?_
    rintro ⟨var, s₂, h₂⟩ hvar
    refine .pure ⟨var.span, var.span, ?_⟩
    simpa [Stmt.pieceTree] using hvar
  · refine (operand_lays _).bind ?_
    rintro ⟨first, s₁, h₁⟩ hfirst
    dsimp only
    split
    · rename_i hop hassign
      refine (expr_lays _).bind ?_
      rintro ⟨value, s₃, h₃⟩ hvalue
      refine .pure ⟨first.span.join value.span, first.span.join value.span, ?_⟩
      dsimp only
      rw [Stmt.pieceTree, (kind_of_assignOp? hop).1]
      exact (hfirst.append ((Lays.mark hassign (kind_of_assignOp? hop).2).append hvalue)).part
    · refine (exprFrom_lays hfirst).bind ?_
      rintro ⟨value, s₂, h₂⟩ hvalue
      refine .pure ⟨value.span, value.span, ?_⟩
      simpa [Stmt.pieceTree] using hvalue

theorem returnValue_lays {s₀ s : TokenStream} {a b : Span} {ws : List PieceTree}
    (h : Lays s₀ a b ws s) :
    Ensures (returnValue s) fun r =>
      ∃ b', Lays s₀ a b' (ws ++ (r.value.map (·.pieceTree)).toList) r.rest := by
  unfold returnValue
  split
  · exact .ok ⟨b, h.of_eq (List.append_nil ws).symm⟩
  · exact (expr_lays s).map fun _ hvalue => ⟨_, h.append hvalue⟩

mutual

theorem stmt_lays (s : TokenStream) :
    Ensures (stmt s) fun r =>
      ∃ a b, Lays s a b (r.value.pieceTree ++ [separator .semi]) r.rest := by
  rw [stmt]
  refine (bareStmt_lays s).bind ?_
  rintro ⟨first, s₁, h₁⟩ ⟨a, b, hfirst⟩
  exact .pure ⟨a, skip_lays hfirst .semi⟩
termination_by 4 * s.size + 2
decreasing_by all_goals omega

theorem bareStmt_lays (s : TokenStream) :
    Ensures (bareStmt s) fun r => ∃ a b, Lays s a b r.value.pieceTree r.rest := by
  rw [bareStmt]
  split
  · rename_i start s₁ h₁ hif
    refine (expr_lays _).bind ?_
    rintro ⟨cond, s₂, h₂⟩ hcond
    refine (block_lays _).bind ?_
    rintro ⟨⟨body, bodySpan⟩, s₃, h₃⟩ hbody
    have hbranch := ((Lays.mark hif rfl).append (hcond.append hbody)).part
    refine (otherBranches_lays _ hbranch).bind ?_
    rintro ⟨branches, s₄, h₄⟩ ⟨b, hmore⟩
    refine .pure ⟨start.span.join bodySpan, b, ?_⟩
    simpa [Stmt.pieceTree, Branch.pieceTrees, Branch.pieceTree, Guard.pieceTree] using hmore
  · split
    · rename_i start s₁ h₁ hwhile
      refine (expr_lays _).bind ?_
      rintro ⟨cond, s₂, h₂⟩ hcond
      refine (block_lays _).bind ?_
      rintro ⟨⟨body, bodySpan⟩, s₃, h₃⟩ hbody
      refine .pure ⟨start.span.join bodySpan, start.span.join bodySpan, ?_⟩
      simpa [Stmt.pieceTree] using ((Lays.mark hwhile rfl).append (hcond.append hbody)).part
    · split
      · rename_i start s₁ h₁ hreturn
        refine (returnValue_lays (.mark hreturn rfl)).bind ?_
        rintro ⟨value, s₂, h₂⟩ ⟨b, hvalue⟩
        refine .pure ⟨start.span.join s₂.last, start.span.join s₂.last, ?_⟩
        simpa [Stmt.pieceTree] using hvalue.toLast.part
      · split
        · refine (block_lays s).bind ?_
          rintro ⟨⟨body, span⟩, s₁, h₁⟩ hbody
          refine .pure ⟨span, span, ?_⟩
          simpa [Stmt.pieceTree] using hbody.part_self
        · exact simpleStmt_lays s
termination_by 4 * s.size + 1
decreasing_by all_goals omega

theorem block_lays (s : TokenStream) :
    Ensures (block s) fun r =>
      Lays s r.value.2 r.value.2 (PieceTree.braced (Stmt.pieceTrees r.value.1)) r.rest := by
  rw [block]
  refine (expect_lays _ rfl).bind ?_
  rintro ⟨start, s₁, h₁⟩ hlbrace
  refine (stmts_lays _).bind ?_
  rintro ⟨body, s₂, h₂⟩ ⟨a, b, hbody⟩
  refine .pure ?_
  simpa [PieceTree.braced] using (hlbrace.append hbody).toLast.part.inside
termination_by 4 * s.size
decreasing_by all_goals omega

theorem stmts_lays (s : TokenStream) :
    Ensures (stmts s) fun r =>
      ∃ a b, Lays s a b (Stmt.pieceTrees r.value ++ [mark .rbrace]) r.rest := by
  rw [stmts]
  split
  · exact .ok ⟨_, _, .mark ‹_› rfl⟩
  · split
    · exact .error
    · refine (stmt_lays s).bind ?_
      rintro ⟨first, s₁, h₁⟩ ⟨a, b, hfirst⟩
      refine (stmts_lays _).bind ?_
      rintro ⟨body, s₂, h₂⟩ ⟨c, d, hbody⟩
      refine .pure ⟨a, d, ?_⟩
      simpa [Stmt.pieceTrees] using hfirst.append hbody
termination_by 4 * s.size + 3
decreasing_by all_goals omega

theorem otherBranches_lays {s₀ : TokenStream} {a b : Span} {ws : List PieceTree}
    (s : TokenStream) (h : Lays s₀ a b ws s) :
    Ensures (otherBranches s) fun r =>
      ∃ b', Lays s₀ a b' (ws ++ Branch.pieceTrees r.value) r.rest := by
  rw [otherBranches]
  split
  · rename_i helif
    refine (expr_lays _).bind ?_
    rintro ⟨cond, s₂, h₂⟩ hcond
    refine (block_lays _).bind ?_
    rintro ⟨⟨body, bodySpan⟩, s₃, h₃⟩ hbody
    have hbranch := ((Lays.mark helif rfl).append (hcond.append hbody)).part
    refine (otherBranches_lays _ (h.append hbranch)).bind ?_
    rintro ⟨branches, s₄, h₄⟩ ⟨b', hmore⟩
    refine .pure ⟨b', ?_⟩
    simpa [Branch.pieceTrees, Branch.pieceTree, Guard.pieceTree] using hmore
  · split
    · rename_i start s₁ h₁ helse
      refine (block_lays _).bind ?_
      rintro ⟨⟨body, bodySpan⟩, s₂, h₂⟩ hbody
      refine .pure ⟨start.span.join bodySpan, ?_⟩
      simpa [Branch.pieceTrees, Branch.pieceTree, Guard.pieceTree] using
        h.append ((Lays.mark helse rfl).append hbody).part
    · exact .ok ⟨b, h.of_eq (List.append_nil ws).symm⟩
termination_by 4 * s.size
decreasing_by all_goals omega

end

/-! ## Units -/

/-- Further segments of the path of an include are read up to the last one. -/
theorem includeTail_lays {s₀ : TokenStream} {a : Span} {ws : List PieceTree} (name : Ident)
    (s : TokenStream) (h : Lays s₀ a name.span ws s) :
    Ensures (includeTail s) fun r => Lays s₀ a (r.value.getLast?.getD name).span
      (ws ++ PieceTree.tailed .slash (r.value.map ([·.pieceTree]))) r.rest := by
  rw [includeTail]
  split
  · exact .ok (h.of_eq (List.append_nil ws).symm)
  · rename_i s₁ h₁ hslash
    refine (ident_lays _).bind ?_
    rintro ⟨next, s₂, h₂⟩ hnext
    refine (includeTail_lays next s₂ (h.append ((Lays.mark hslash rfl).append hnext))).bind ?_
    rintro ⟨names, s₃, h₃⟩ hmore
    refine .pure ?_
    simpa [PieceTree.tailed, List.getLast?_cons] using hmore
termination_by s.size
decreasing_by all_goals omega

theorem defaultValue_lays {s₀ s : TokenStream} {a b : Span} {ws : List PieceTree}
    (h : Lays s₀ a b ws s) :
    Ensures (defaultValue s) fun r =>
      ∃ b', Lays s₀ a b' (ws ++ Expr.pieceInitial r.value) r.rest := by
  unfold defaultValue
  split
  · exact .ok ⟨b, h.of_eq (List.append_nil ws).symm⟩
  · rename_i hassign
    refine (expr_lays _).bind ?_
    rintro ⟨value, s₂, h₂⟩ hvalue
    exact .pure ⟨_, h.append ((Lays.mark hassign rfl).append hvalue)⟩

theorem paramList_lays (needsDefault : Bool) (s : TokenStream) :
    Ensures (paramList needsDefault s) fun r => ∃ a b, Lays s a b
      (PieceTree.closing (r.value.1.map (·.pieceTree) ++ Rest.pieceItems r.value.2)) r.rest := by
  rw [paramList]
  split
  · exact .ok ⟨_, _, .mark ‹_› rfl⟩
  · split
    · rename_i hellipsis
      refine (closeRest_lays (.mark hellipsis rfl)).bind ?_
      rintro ⟨_, s₂, h₂⟩ ⟨b, hclose⟩
      exact .pure ⟨_, _, hclose⟩
    · refine (typeExpr_lays _).bind ?_
      rintro ⟨ty, s₁, h₁⟩ hty
      dsimp only
      split
      · rename_i hellipsis
        refine (closeRest_lays (hty.append (.mark hellipsis rfl))).bind ?_
        rintro ⟨_, s₃, h₃⟩ ⟨b, hclose⟩
        exact .pure ⟨_, _, hclose⟩
      · refine (ident_lays _).bind ?_
        rintro ⟨name, s₂, h₂⟩ hname
        refine (defaultValue_lays (s := s₂) (hty.append hname)).bind ?_
        rintro ⟨default, s₃, h₃⟩ ⟨b, hdefault⟩
        have hparam : Lays s ty.span b (Param.pieceTree ⟨ty, name, default⟩) s₃ := hdefault
        dsimp only
        split
        · exact .error
        · split
          · rename_i hcomma
            refine (paramList_lays _ _).bind ?_
            rintro ⟨⟨params, rest⟩, s₅, h₅⟩ ⟨c, d, hmore⟩
            exact .pure ⟨_, _, hparam.item hcomma hmore⟩
          · refine (closeList_lays hparam).bind ?_
            rintro ⟨_, s₄, h₄⟩ ⟨d, hclose⟩
            refine .pure ⟨ty.span, d, ?_⟩
            simpa [Rest.pieceItems, PieceTree.closing_singleton] using hclose
termination_by s.size
decreasing_by all_goals omega

theorem functionBody_lays {s₀ s : TokenStream} {a b : Span} {ws : List PieceTree}
    (h : Lays s₀ a b ws s) :
    Ensures (functionBody s) fun r => ∃ b', Lays s₀ a b'
      (ws ++ (r.value.map fun body => PieceTree.braced (Stmt.pieceTrees body)).getD []) r.rest := by
  unfold functionBody
  split
  · exact (block_lays s).map fun _ hbody => ⟨_, h.append hbody⟩
  · exact .ok ⟨b, h.of_eq (List.append_nil ws).symm⟩

theorem node_lays (s : TokenStream) :
    Ensures (node s) fun r => ∃ a b, Lays s a b [r.value.pieceTree] r.rest := by
  unfold node
  split
  · rename_i hinclude
    refine (ident_lays _).bind ?_
    rintro ⟨first, s₂, h₂⟩ hfirst
    refine (includeTail_lays first s₂ ((Lays.mark hinclude rfl).append hfirst)).bind ?_
    rintro ⟨more, s₃, h₃⟩ hmore
    exact .pure ⟨_, _, hmore.part⟩
  · split
    · rename_i halias
      refine (typeExpr_lays _).bind ?_
      rintro ⟨target, s₂, h₂⟩ htarget
      refine (ident_lays _).bind ?_
      rintro ⟨name, s₃, h₃⟩ hname
      exact .pure ⟨_, _, ((Lays.mark halias rfl).append (htarget.append hname)).part⟩
    · refine (typeExpr_lays _).bind ?_
      rintro ⟨ty, s₁, h₁⟩ hty
      refine (ident_lays _).bind ?_
      rintro ⟨name, s₂, h₂⟩ hname
      dsimp only
      split
      · rename_i hlparen
        refine (paramList_lays _ _).bind ?_
        rintro ⟨⟨params, rest⟩, s₄, h₄⟩ ⟨a, b, hparams⟩
        have hhead := hty.append (hname.append ((Lays.mark hlparen rfl).append hparams))
        refine (functionBody_lays hhead).bind ?_
        rintro ⟨body, s₅, h₅⟩ ⟨c, hbody⟩
        refine .pure ⟨ty.span.join s₅.last, ty.span.join s₅.last, ?_⟩
        simpa [Node.pieceTree] using hbody.toLast.part
      · refine (varDecl_lays (hty.append hname)).bind ?_
        rintro ⟨var, s₃, h₃⟩ hvar
        exact .pure ⟨_, _, hvar⟩

/-- The parts of a unit are read up to the end. -/
theorem nodes_lays (s : TokenStream) :
    Ensures (nodes s) fun ns => ∃ (ts : List Token) (s₁ : TokenStream),
      s₁.kind = .eof ∧ s.tokens = ts ++ s₁.tokens ∧
      (Orderly ts → PlacedEach (Node.pieceTrees ns) ts) := by
  rw [nodes]
  split
  · exact .ok ⟨[], s, ‹_›, rfl, fun _ => .nil⟩
  · refine (node_lays s).bind ?_
    rintro ⟨first, s₁, h₁⟩ ⟨a, b, hfirst⟩
    have hle := (s₁.skip .semi).notLonger
    obtain ⟨b', us, hus, -, hplaced⟩ := skip_lays hfirst .semi
    refine (nodes_lays (s₁.skip .semi).rest).bind ?_
    rintro more ⟨ts, s₂, hend, hts, hmore⟩
    refine .pure ⟨us ++ ts, s₂, hend, ?_, fun horderly => ?_⟩
    · rw [List.append_assoc, ← hts]
      exact hus
    · simpa [Node.pieceTrees] using (hplaced horderly.left).1.append (hmore horderly.right)
termination_by s.size
decreasing_by all_goals omega

end Parser

/-! ## Texts -/

/-- The tokens of a text are in order. -/
theorem Token.orderly_of_lex {file : Nat} {text : String} {tokens : List Token}
    (h : Token.lex file text = .ok tokens) : Orderly tokens := by
  have hscan := Token.lex_eq_ok.mp h
  have hspan : ∀ t ∈ tokens, t.span.file = file ∧ t.span.start < t.span.stop := by
    intro t ht
    have hmem : t ∈ (Lexer.scanFrom file 0 text.toList).tokens := by rwa [hscan]
    exact Lexer.start_lt_stop_of_mem_scanFrom hmem
  obtain ⟨gaps, hlength, htiled, -⟩ :=
    Lexer.scanFrom_tiled (Text.at_zero text.toList) (congrArg Scan.error hscan)
  have hpairs := htiled.ordered.2
  rw [hscan] at hlength hpairs
  rw [List.map_snd_zip (by rw [hlength, List.length_append]; rfl)] at hpairs
  refine ⟨fun t ht => (Lexer.lexed_of_mem_lex h ht).proper, fun t ht => (hspan t ht).2, ?_⟩
  exact (List.pairwise_append.mp hpairs).1.imp_of_mem fun ht hu hle =>
    ⟨(hspan _ ht).1.trans (hspan _ hu).1.symm, hle⟩

/-- The parts of a unit that are read from the tokens of a text are placed in all of them. -/
theorem Parser.placed_of_nodes {file : Nat} {text : String} {tokens : List Token}
    {nodes : List Node} {last stop : Span} (hlex : Token.lex file text = .ok tokens)
    (hnodes : Parser.nodes ⟨last, tokens, stop⟩ = .ok nodes) :
    PlacedEach (Node.pieceTrees nodes) tokens := by
  obtain ⟨read, s, hend, hread, hplaced⟩ := Parser.nodes_lays _ nodes hnodes
  -- The end that was reached is that of the text, because no token is an end.
  have hrest : s.tokens = [] := by
    obtain ⟨last, _ | ⟨t, ts⟩, stop⟩ := s
    · rfl
    · have ht : t ∈ tokens := by
        change tokens = read ++ t :: ts at hread
        simp [hread]
      exact absurd hend (Lexer.lexed_of_mem_lex hlex ht).shape.kind_ne_eof
  rw [hrest, List.append_nil] at hread
  subst hread
  exact hplaced (Token.orderly_of_lex hlex)

/-- **Spans are exact and nested.** A unit is placed in the tokens of its text: each part covers the
tokens that it was read from, and each span of the unit is that of a part. Parts lie inside the
part above them, and parts side by side are apart and in order. -/
theorem parsed_spans_are_exact {file : Nat} {text : String} {unit : SourceUnit}
    (h : SourceUnit.parse file text = .ok unit) :
    ∃ tokens, Token.lex file text = .ok tokens ∧ PlacedEach unit.pieceTree tokens ∧
      (unit.AllSpans fun a => ∃ ts, ts <:+: tokens ∧ Covers a ts) ∧
      (PieceTree.spans unit.pieceTree).Pairwise Span.Before ∧
      PieceTree.NestedEach unit.pieceTree := by
  obtain ⟨tokens, nodes, hlex, hnodes, rfl⟩ := SourceUnit.parse_eq_ok.mp h
  have hplaced : PlacedEach (SourceUnit.pieceTree ⟨file, nodes⟩) tokens :=
    Parser.placed_of_nodes hlex hnodes
  have horderly := Token.orderly_of_lex hlex
  have hspans := SourceUnit.allSpans_of_pieceTree (hplaced.allSpans fun a ts hts hcovers =>
    (⟨ts, hts, hcovers⟩ : ∃ ts, ts <:+: tokens ∧ Covers a ts))
  exact ⟨tokens, hlex, hplaced, hspans, hplaced.pairwise horderly, hplaced.nested horderly⟩

/-- The semicolon after the variable does not belong to it, nor does what surrounds the tokens. -/
theorem spans_of_semicolons_and_parentheses : ∃ unit tokens,
    SourceUnit.parse 0 " int x = (1 + 2) >> 1; int f(int y,) { return (y); } " = .ok unit ∧
    PieceTree.spans unit.pieceTree = [⟨0, 1, 21⟩, ⟨0, 23, 52⟩] ∧
    PlacedEach unit.pieceTree tokens ∧
    (unit.AllSpans fun a => ∃ ts, ts <:+: tokens ∧ Covers a ts) ∧
    PieceTree.NestedEach unit.pieceTree := by
  have hok : ((SourceUnit.parse 0
      " int x = (1 + 2) >> 1; int f(int y,) { return (y); } ").toOption.any fun unit =>
        PieceTree.spans unit.pieceTree = [⟨0, 1, 21⟩, ⟨0, 23, 52⟩]) = true := by
    rw [SourceUnit.parse_ofList]
    decide +kernel
  obtain ⟨unit, hparse, hvalue⟩ := SourceUnit.exists_parsed hok
  obtain ⟨tokens, -, hplaced, hspans, -, hnested⟩ := parsed_spans_are_exact hparse
  exact ⟨unit, tokens, hparse, of_decide_eq_true hvalue, hplaced, hspans, hnested⟩

end KilnLang
