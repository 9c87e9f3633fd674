import KilnLang.Proofs.Syntax.Pieces
import KilnLang.Proofs.Token.Places
import Mathlib.Tactic.SplitIfs

/-!
# Parsing loses and invents nothing

**Theorem (`parsed_unit_spells_tokens`).** If a text is a unit, its tokens spell the pieces of the
unit.

A parser *reads* pieces if the tokens between the stream it starts from and the one it leaves spell
them (`TokenStream.Reads`). For each parser there is a lemma that it reads the pieces of its result,
which follows the parser step by step. A parser that goes on with a tree (the suffixes of an
operand, the brackets after a type) gives a tree whose pieces are those of the old one and then
those it reads.

A token that is taken back is not lost: where a declaration is tried and given up, the expression is
read from the stream before it. The parts of a unit are read up to a token that is the end, and no
token of a text is, so they are read from all of them.
-/

namespace KilnLang

/-! ## Runs that may fail -/

/-- If the run succeeds, its result satisfies `Q`. -/
def Ensures {ε ρ : Type} (run : Except ε ρ) (Q : ρ → Prop) : Prop := ∀ r, run = .ok r → Q r

namespace Ensures

variable {ε ρ σ : Type} {Q : ρ → Prop} {R : σ → Prop}

theorem ok {r : ρ} (h : Q r) : Ensures (.ok r : Except ε ρ) Q := fun _ hr => Except.ok.inj hr ▸ h

theorem pure {r : ρ} (h : Q r) : Ensures (Pure.pure r : Except ε ρ) Q := ok h

theorem error {e : ε} : Ensures (.error e : Except ε ρ) Q := fun _ hr => nomatch hr

theorem bind {run : Except ε ρ} {next : ρ → Except ε σ} (h : Ensures run Q)
    (hnext : ∀ r, Q r → Ensures (next r) R) : Ensures (run >>= next) R := by
  cases run with
  | error e => exact error
  | ok r => exact hnext r (h r rfl)

theorem map {run : Except ε ρ} {f : ρ → σ} (h : Ensures run Q) (hf : ∀ r, Q r → R (f r)) :
    Ensures (run.map f) R := by
  cases run with
  | error e => exact error
  | ok r => exact ok (hf r (h r rfl))

end Ensures

/-! ## Tokens -/

/-- The text of the token fits its kind: symbols and keywords are spelled as such, and strings and
characters stand in quotes. -/
structure Token.Proper (t : Token) : Prop where
  is : t.kind.spelling?.isSome → t.Is t.kind
  string : t.kind = .stringLiteral → "\"" ++ Parser.unquote t.text ++ "\"" = t.text
  char : t.kind = .charLiteral → "'" ++ Parser.unquote t.text ++ "'" = t.text

namespace TokenStream

variable {s s₁ s₂ : TokenStream} {ps qs : List Piece} {k : TokenKind}

theorem tokens_of_take? {r : Step s Token} (h : s.take? k = some r) :
    s.tokens = r.value :: r.rest.tokens ∧ r.value.kind = k := by
  obtain ⟨last, _ | ⟨t, ts⟩, stop⟩ := s
  · exact nomatch h
  · simp only [take?] at h
    split_ifs at h with hk
    cases h
    exact ⟨rfl, hk⟩

/-- What is read from `s` up to `s₁` spells the pieces, if its tokens are proper. -/
def Reads (s : TokenStream) (ps : List Piece) (s₁ : TokenStream) : Prop :=
  ∃ ts, s.tokens = ts ++ s₁.tokens ∧ ((∀ t ∈ ts, t.Proper) → Spells ps ts)

namespace Reads

theorem nil : Reads s [] s := ⟨[], rfl, fun _ => .nil⟩

theorem append (h : Reads s ps s₁) (h' : Reads s₁ qs s₂) : Reads s (ps ++ qs) s₂ := by
  obtain ⟨ts, hts, hps⟩ := h
  obtain ⟨us, hus, hqs⟩ := h'
  refine ⟨ts ++ us, by rw [hts, hus, List.append_assoc], fun hproper => ?_⟩
  rw [List.forall_mem_append] at hproper
  exact (hps hproper.1).append (hqs hproper.2)

/-- One token is read, and proper tokens like it spell the piece. -/
theorem one {t : Token} (hts : s.tokens = t :: s₁.tokens) (h : t.Proper → Spells ps [t]) :
    Reads s ps s₁ :=
  ⟨[t], hts, fun hproper => h (hproper t List.mem_cons_self)⟩

theorem mark {r : Step s Token} (h : s.take? k = some r) (hk : k.spelling?.isSome) :
    Reads s [.mark k] r.rest := by
  obtain ⟨hts, rfl⟩ := tokens_of_take? h
  exact .one hts fun hproper => .mark (hproper.is hk) .nil

theorem optional (sep : Separator) {r : Step s Token} (h : s.take? sep.kind = some r) :
    Reads s [.optional sep] r.rest := by
  obtain ⟨hts, hk⟩ := tokens_of_take? h
  refine .one hts fun hproper => .take (hk ▸ hproper.is ?_) .nil
  rw [hk]
  cases sep <;> rfl

theorem skip {sep : Separator} : Reads s [.optional sep] s := ⟨[], rfl, fun _ => .skip .nil⟩

theorem word {r : Step s Token} (h : s.take? k = some r) :
    Reads s [.word k r.value.text] r.rest := by
  obtain ⟨hts, hk⟩ := tokens_of_take? h
  exact .one hts fun _ => hk ▸ .word .nil

/-- An item of a list and a comma are read, and then the rest of the list, before which the comma
is optional if there are no more items. -/
theorem item {item : List Piece} {items : List (List Piece)} (h : Reads s item s₁)
    {r : Step s₁ Token} (hcomma : s₁.take? .comma = some r)
    (hmore : Reads r.rest (Piece.closing items) s₂) :
    Reads s (Piece.closing (item :: items)) s₂ := by
  cases items with
  | nil =>
    rw [Piece.closing_singleton]
    exact h.append ((Reads.optional .comma hcomma).append hmore)
  | cons next more =>
    rw [Piece.closing_cons_cons]
    exact h.append ((Reads.mark hcomma rfl).append hmore)

end Reads

theorem expect_reads (s : TokenStream) {k : TokenKind} (hk : k.spelling?.isSome) :
    Ensures (s.expect k) fun r => Reads s [.mark k] r.rest := by
  unfold expect
  split
  · exact .ok (.mark ‹_› hk)
  · exact .error

theorem ident_reads (s : TokenStream) :
    Ensures s.ident fun r => Reads s [r.value.piece] r.rest := by
  unfold ident expect
  split
  · exact .ok (.word ‹_›)
  · exact .error

theorem skip_reads (s : TokenStream) (sep : Separator) :
    Reads s [.optional sep] (s.skip sep.kind).rest := by
  unfold TokenStream.skip
  split
  · exact .optional sep ‹_›
  · exact .skip

theorem closeList_reads (s : TokenStream) :
    Ensures s.closeList fun r => Reads s [.optional .comma, .mark .rparen] r.rest := by
  unfold closeList
  split
  · exact .ok (Reads.skip.append (.mark ‹_› rfl))
  · exact .error

theorem closeRest_reads (s : TokenStream) :
    Ensures s.closeRest fun r => Reads s [.optional .comma, .mark .rparen] r.rest := by
  unfold closeRest
  dsimp only
  split
  · exact .ok ((skip_reads s .comma).append (.mark ‹_› rfl))
  · exact .error

end TokenStream

namespace Parser

open TokenStream

/-! ## Types -/

theorem arrayLength_reads (s : TokenStream) :
    Ensures (arrayLength s) fun r => Reads s (r.value.map .length).toList r.rest := by
  unfold arrayLength
  split
  · exact .ok .nil
  · rename_i r hr
    split
    · rename_i n hn
      obtain ⟨hts, hk⟩ := tokens_of_take? hr
      exact .ok (.one hts fun _ => .length hk hn .nil)
    · exact .error

/-- After a type, the pieces of the brackets are read. -/
theorem arraySuffix_reads (ty : TypeExpr) (s : TokenStream) :
    Ensures (arraySuffix ty s) fun r =>
      ∃ ps, r.value.pieces = ty.pieces ++ ps ∧ Reads s ps r.rest := by
  rw [arraySuffix]
  split
  · exact .ok ⟨[], (List.append_nil _).symm, .nil⟩
  · rename_i hopen
    refine (arrayLength_reads _).bind ?_
    rintro ⟨length, s₂, h₂⟩ hlength
    refine (expect_reads _ rfl).bind ?_
    rintro ⟨close, s₃, h₃⟩ hclose
    refine (arraySuffix_reads _ _).bind ?_
    rintro ⟨ty', s₄, h₄⟩ ⟨ps, hps, hmore⟩
    refine .pure ⟨_, ?_, ((Reads.mark hopen rfl).append hlength).append (hclose.append hmore)⟩
    rw [hps, TypeExpr.pieces]
    simp
termination_by s.size
decreasing_by all_goals omega

mutual

theorem typeExpr_reads (s : TokenStream) :
    Ensures (typeExpr s) fun r => Reads s r.value.pieces r.rest := by
  rw [typeExpr]
  split
  · rename_i href
    refine (typeExpr_reads _).bind ?_
    rintro ⟨inner, s₂, h₂⟩ hinner
    exact .pure ((Reads.mark href rfl).append hinner)
  · split
    · rename_i hfunc
      refine (expect_reads _ rfl).bind ?_
      rintro ⟨_, s₂, h₂⟩ hless
      refine (typeExpr_reads _).bind ?_
      rintro ⟨ret, s₃, h₃⟩ hret
      refine (expect_reads _ rfl).bind ?_
      rintro ⟨_, s₄, h₄⟩ hlparen
      refine (typeList_reads _).bind ?_
      rintro ⟨⟨params, rest⟩, s₅, h₅⟩ hparams
      refine (expect_reads _ rfl).bind ?_
      rintro ⟨close, s₆, h₆⟩ hgreater
      refine (arraySuffix_reads _ _).bind ?_
      rintro ⟨ty, s₇, h₇⟩ ⟨ps, hps, hmore⟩
      refine .pure ?_
      have hread := (Reads.mark hfunc rfl).append (hless.append (hret.append (hlparen.append
        (hparams.append (hgreater.append hmore)))))
      simpa [hps, TypeExpr.pieces, Signature.pieces] using hread
    · refine (ident_reads _).bind ?_
      rintro ⟨name, s₁, h₁⟩ hname
      refine (arraySuffix_reads _ _).bind ?_
      rintro ⟨ty, s₂, h₂⟩ ⟨ps, hps, hmore⟩
      refine .pure ?_
      simpa [hps, TypeExpr.pieces, DottedName.pieces, Piece.joined, Piece.tailed] using
        hname.append hmore
termination_by 2 * s.size
decreasing_by all_goals omega

theorem typeList_reads (s : TokenStream) :
    Ensures (typeList s) fun r =>
      Reads s (Piece.closing (TypeExpr.items r.value.1 ++ Rest.items r.value.2)) r.rest := by
  rw [typeList]
  split
  · exact .ok (.mark ‹_› rfl)
  · split
    · rename_i hellipsis
      refine (closeRest_reads _).bind ?_
      rintro ⟨_, s₂, h₂⟩ hclose
      exact .pure ((Reads.mark hellipsis rfl).append hclose)
    · refine (typeExpr_reads _).bind ?_
      rintro ⟨ty, s₁, h₁⟩ hty
      dsimp only
      split
      · rename_i hellipsis
        refine (closeRest_reads _).bind ?_
        rintro ⟨_, s₃, h₃⟩ hclose
        refine .pure ?_
        simpa [TypeExpr.items, Rest.items, Piece.closing_singleton] using
          hty.append ((Reads.mark hellipsis rfl).append hclose)
      · split
        · rename_i hcomma
          refine (typeList_reads _).bind ?_
          rintro ⟨⟨params, rest⟩, s₃, h₃⟩ hmore
          exact .pure (hty.item hcomma hmore)
        · refine (closeList_reads _).bind ?_
          rintro ⟨_, s₂, h₂⟩ hclose
          refine .pure ?_
          simpa [TypeExpr.items, Rest.items, Piece.closing_singleton] using hty.append hclose
termination_by 2 * s.size + 1
decreasing_by all_goals omega

end

/-! ## Expressions -/

theorem kind_of_prefixOp? {k : TokenKind} {op : UnaryOp} (h : prefixOp? k = some op) :
    op.kind = k ∧ k.spelling?.isSome := by
  unfold prefixOp? at h
  split at h <;> cases h <;> exact ⟨rfl, rfl⟩

theorem piece_of_binaryOp? {k : TokenKind} {op : BinaryOp} (h : binaryOp? k = some op) :
    op.piece = .mark k ∧ k.spelling?.isSome := by
  unfold binaryOp? at h
  split at h <;> cases h <;> exact ⟨rfl, rfl⟩

theorem kind_of_assignOp? {k : TokenKind} {op : Option AssignOp} (h : assignOp? k = some op) :
    AssignOp.kind op = k ∧ k.spelling?.isSome := by
  unfold assignOp? at h
  split at h <;> cases h <;> exact ⟨rfl, rfl⟩

theorem peek_of_advance? {s : TokenStream} {r : Step s Token} (h : advance? s = some r) :
    r.value = s.peek := by
  obtain ⟨last, _ | ⟨t, ts⟩, stop⟩ := s
  · exact nomatch h
  · have ht := (tokens_of_take? h).1
    exact (List.cons.inj ht).1.symm

/-- Two closing angle brackets are read as a shift only if they are adjacent. -/
theorem operator?_reads {s : TokenStream} {r : Step s Operator} (h : operator? s = some r) :
    Reads s [r.value.op.piece] r.rest := by
  unfold operator? at h
  split at h
  · rename_i op step hop hstep
    have hone : Reads s [op.piece] step.rest := by
      rw [(piece_of_binaryOp? hop).1]
      exact .mark hstep (piece_of_binaryOp? hop).2
    split at h
    · split at h
      · rename_i hgt _ second hsecond
        split at h
        · rename_i hadjacent
          cases h
          obtain ⟨hts, hk⟩ := tokens_of_take? hstep
          obtain ⟨hts', hk'⟩ := tokens_of_take? hsecond
          subst hgt
          have hgreater : TokenKind.greater = s.kind := Piece.mark.inj (piece_of_binaryOp? hop).1
          refine ⟨[step.value, second.value], by rw [hts, hts']; rfl, fun hproper => ?_⟩
          have hfirst := (hproper _ List.mem_cons_self).is
          have hnext := (hproper _ (List.mem_cons_of_mem _ List.mem_cons_self)).is
          rw [hk, ← hgreater] at hfirst
          rw [hk'] at hnext
          exact .shift (hfirst rfl) (hnext rfl) hadjacent .nil
        · cases h
          exact hone
      · cases h
        exact hone
    · cases h
      exact hone
  · exact nomatch h

theorem literal?_reads {s : TokenStream} {value : Value} {r : Step s Token}
    (hvalue : literal? s.peek = some value) (h : advance? s = some r) :
    Reads s value.pieces r.rest := by
  obtain ⟨hts, -⟩ := tokens_of_take? h
  refine .one hts fun hproper => ?_
  rw [← peek_of_advance? h] at hvalue
  generalize r.value = t at hvalue hproper ⊢
  have hword : Spells [.word t.kind t.text] [t] := .word .nil
  have hmark (hk : t.kind.spelling?.isSome) : Spells [.mark t.kind] [t] :=
    .mark (hproper.is hk) .nil
  unfold literal? at hvalue
  split at hvalue <;> cases hvalue <;> rename_i hk <;> rw [hk] at hword hmark
  · exact hword
  · exact hword
  · rw [← hproper.string hk] at hword
    exact hword
  · rw [← hproper.char hk] at hword
    exact hword
  · exact hmark rfl
  · exact hmark rfl
  · exact hmark rfl

theorem dottedTail_reads (s : TokenStream) :
    Ensures (dottedTail s) fun r =>
      Reads s (Piece.tailed .dot (r.value.map ([·.piece]))) r.rest := by
  rw [dottedTail]
  split
  · exact .ok .nil
  · rename_i hdot
    refine (ident_reads _).bind ?_
    rintro ⟨name, s₂, h₂⟩ hname
    refine (dottedTail_reads _).bind ?_
    rintro ⟨names, s₃, h₃⟩ hmore
    exact .pure ((Reads.mark hdot rfl).append (hname.append hmore))
termination_by s.size
decreasing_by all_goals omega

theorem dottedName_reads (s : TokenStream) :
    Ensures (dottedName s) fun r => Reads s r.value.pieces r.rest := by
  unfold dottedName
  refine (ident_reads _).bind ?_
  rintro ⟨first, s₁, h₁⟩ hfirst
  refine (dottedTail_reads _).bind ?_
  rintro ⟨more, s₂, h₂⟩ hmore
  exact .pure (hfirst.append hmore)

@[simp] theorem pieces_respan (span : Span) (e : Expr) : (respan span e).pieces = e.pieces := by
  cases e
  rfl

mutual

theorem operand_reads (s : TokenStream) :
    Ensures (operand s) fun r => Reads s r.value.pieces r.rest := by
  rw [operand]
  split
  · rename_i hop hstart
    refine (operand_reads _).bind ?_
    rintro ⟨value, s₂, h₂⟩ hvalue
    refine .pure ?_
    dsimp only
    rw [Value.pieces, (kind_of_prefixOp? hop).1]
    exact (Reads.mark hstart (kind_of_prefixOp? hop).2).append hvalue
  · split
    · rename_i hliteral hstart
      refine (suffix_reads _ _).bind ?_
      rintro ⟨value, s₂, h₂⟩ ⟨ps, hps, hmore⟩
      refine .pure ?_
      dsimp only
      rw [hps]
      exact (literal?_reads hliteral hstart).append hmore
    · split
      · rename_i hlparen
        refine (expr_reads _).bind ?_
        rintro ⟨inner, s₂, h₂⟩ hinner
        refine (expect_reads _ rfl).bind ?_
        rintro ⟨close, s₃, h₃⟩ hrparen
        refine (suffix_reads _ _).bind ?_
        rintro ⟨value, s₄, h₄⟩ ⟨ps, hps, hmore⟩
        refine .pure ?_
        simpa [hps, Value.pieces] using
          (Reads.mark hlparen rfl).append (hinner.append (hrparen.append hmore))
      · split
        · rename_i href
          refine (operand_reads _).bind ?_
          rintro ⟨inner, s₂, h₂⟩ hinner
          refine (suffix_reads _ _).bind ?_
          rintro ⟨value, s₃, h₃⟩ ⟨ps, hps, hmore⟩
          refine .pure ?_
          simpa [hps, Value.pieces] using (Reads.mark href rfl).append (hinner.append hmore)
        · split
          · refine (dottedName_reads _).bind ?_
            rintro ⟨name, s₁, h₁⟩ hname
            refine (suffix_reads _ _).bind ?_
            rintro ⟨value, s₂, h₂⟩ ⟨ps, hps, hmore⟩
            refine .pure ?_
            simpa [hps, Value.pieces] using hname.append hmore
          · exact .error
termination_by 3 * s.size
decreasing_by all_goals omega

/-- After an operand, the pieces of its suffixes are read. -/
theorem suffix_reads (value : Value) (s : TokenStream) :
    Ensures (suffix value s) fun r =>
      ∃ ps, r.value.pieces = value.pieces ++ ps ∧ Reads s ps r.rest := by
  rw [suffix]
  split
  · rename_i hlparen
    split
    · refine (arguments_reads _).bind ?_
      rintro ⟨args, s₂, h₂⟩ hargs
      refine (suffix_reads _ _).bind ?_
      rintro ⟨value, s₃, h₃⟩ ⟨ps, hps, hmore⟩
      refine .pure ⟨_, ?_, (Reads.mark hlparen rfl).append (hargs.append hmore)⟩
      simp [hps, Value.pieces]
    · exact .error
  · split
    · rename_i hlbracket
      refine (expr_reads _).bind ?_
      rintro ⟨position, s₂, h₂⟩ hposition
      refine (expect_reads _ rfl).bind ?_
      rintro ⟨close, s₃, h₃⟩ hrbracket
      refine (suffix_reads _ _).bind ?_
      rintro ⟨value, s₄, h₄⟩ ⟨ps, hps, hmore⟩
      refine .pure ⟨_, ?_,
        (Reads.mark hlbracket rfl).append (hposition.append (hrbracket.append hmore))⟩
      simp [hps, Value.pieces]
    · split
      · rename_i hsign
        refine (suffix_reads _ _).bind ?_
        rintro ⟨value, s₂, h₂⟩ ⟨ps, hps, hmore⟩
        refine .pure ⟨_, ?_, (Reads.mark hsign rfl).append hmore⟩
        simp [hps, Value.pieces, UnaryOp.kind]
      · split
        · rename_i hsign
          refine (suffix_reads _ _).bind ?_
          rintro ⟨value, s₂, h₂⟩ ⟨ps, hps, hmore⟩
          refine .pure ⟨_, ?_, (Reads.mark hsign rfl).append hmore⟩
          simp [hps, Value.pieces, UnaryOp.kind]
        · exact .ok ⟨[], (List.append_nil _).symm, .nil⟩
termination_by 3 * s.size
decreasing_by all_goals omega

theorem arguments_reads (s : TokenStream) :
    Ensures (arguments s) fun r => Reads s (Piece.closing (Expr.items r.value)) r.rest := by
  rw [arguments]
  split
  · exact .ok (.mark ‹_› rfl)
  · refine (expr_reads _).bind ?_
    rintro ⟨arg, s₁, h₁⟩ harg
    dsimp only
    split
    · rename_i hcomma
      refine (arguments_reads _).bind ?_
      rintro ⟨args, s₃, h₃⟩ hmore
      exact .pure (harg.item hcomma hmore)
    · refine (closeList_reads _).bind ?_
      rintro ⟨_, s₂, h₂⟩ hclose
      refine .pure ?_
      simpa [Expr.items, Piece.closing_singleton] using harg.append hclose
termination_by 3 * s.size + 2
decreasing_by all_goals omega

theorem expr_reads (s : TokenStream) :
    Ensures (expr s) fun r => Reads s r.value.pieces r.rest := by
  rw [expr]
  refine (operand_reads _).bind ?_
  rintro ⟨first, s₁, h₁⟩ hfirst
  refine (chainTail_reads _ _).bind ?_
  rintro ⟨chain, s₂, h₂⟩ ⟨ps, hps, hmore⟩
  refine .pure ?_
  simpa [hps, Expr.pieces] using hfirst.append hmore
termination_by 3 * s.size + 1
decreasing_by all_goals omega

/-- After an operand, the pieces of further operators and operands are read. -/
theorem chainTail_reads (first : Value) (s : TokenStream) :
    Ensures (chainTail first s) fun r =>
      ∃ ps, r.value.pieces = first.pieces ++ ps ∧ Reads s ps r.rest := by
  rw [chainTail]
  split
  · exact .ok ⟨[], (List.append_nil _).symm, .nil⟩
  · rename_i hop
    refine (operand_reads _).bind ?_
    rintro ⟨next, s₂, h₂⟩ hnext
    refine (chainTail_reads _ _).bind ?_
    rintro ⟨chain, s₃, h₃⟩ ⟨ps, hps, hmore⟩
    refine .pure ⟨_, ?_, (operator?_reads hop).append (hnext.append hmore)⟩
    simp [hps, Chain.pieces]
termination_by 3 * s.size
decreasing_by all_goals omega

end

/-- After an operand, the pieces of the rest of an expression are read. -/
theorem exprFrom_reads (first : Value) (s : TokenStream) :
    Ensures (exprFrom first s) fun r =>
      ∃ ps, r.value.pieces = first.pieces ++ ps ∧ Reads s ps r.rest :=
  (chainTail_reads first s).bind fun _ h => .pure h

/-! ## Statements -/

theorem varDecl_reads (ty : TypeExpr) (name : Ident) (s : TokenStream) :
    Ensures (varDecl ty name s) fun r =>
      ∃ ps, r.value.pieces = ty.pieces ++ name.piece :: ps ∧ Reads s ps r.rest := by
  unfold varDecl
  split
  · exact .ok ⟨[], rfl, .nil⟩
  · rename_i hassign
    refine (expr_reads _).bind ?_
    rintro ⟨init, s₂, h₂⟩ hinit
    exact .pure ⟨_, rfl, (Reads.mark hassign rfl).append hinit⟩

theorem localHead?_reads {s : TokenStream} {r : Step s (TypeExpr × Ident)}
    (h : localHead? s = some r) : Reads s (r.value.1.pieces ++ [r.value.2.piece]) r.rest := by
  unfold localHead? at h
  split at h
  · exact nomatch h
  · rename_i hty
    split at h
    · exact nomatch h
    · rename_i hname
      split_ifs at h
      cases h
      exact (typeExpr_reads s _ hty).append (.word hname)

theorem simpleStmt_reads (s : TokenStream) :
    Ensures (simpleStmt s) fun r => Reads s r.value.pieces r.rest := by
  unfold simpleStmt
  split
  · rename_i hhead
    refine (varDecl_reads _ _ _).bind ?_
    rintro ⟨var, s₂, h₂⟩ ⟨ps, hps, hmore⟩
    refine .pure ?_
    simpa [hps, Stmt.pieces] using (localHead?_reads hhead).append hmore
  · refine (operand_reads _).bind ?_
    rintro ⟨first, s₁, h₁⟩ hfirst
    dsimp only
    split
    · rename_i hop hassign
      refine (expr_reads _).bind ?_
      rintro ⟨value, s₃, h₃⟩ hvalue
      refine .pure ?_
      dsimp only
      rw [Stmt.pieces, (kind_of_assignOp? hop).1]
      exact hfirst.append ((Reads.mark hassign (kind_of_assignOp? hop).2).append hvalue)
    · refine (exprFrom_reads _ _).bind ?_
      rintro ⟨value, s₂, h₂⟩ ⟨ps, hps, hmore⟩
      refine .pure ?_
      simpa [hps, Stmt.pieces] using hfirst.append hmore

theorem returnValue_reads (s : TokenStream) :
    Ensures (returnValue s) fun r => Reads s ((r.value.map (·.pieces)).getD []) r.rest := by
  unfold returnValue
  split
  · exact .ok .nil
  · exact (expr_reads s).map fun _ h => h

mutual

theorem stmt_reads (s : TokenStream) :
    Ensures (stmt s) fun r => Reads s (r.value.pieces ++ [.optional .semi]) r.rest := by
  rw [stmt]
  refine (bareStmt_reads s).bind ?_
  rintro ⟨first, s₁, h₁⟩ hfirst
  exact .pure (hfirst.append (skip_reads s₁ .semi))
termination_by 4 * s.size + 2
decreasing_by all_goals omega

theorem bareStmt_reads (s : TokenStream) :
    Ensures (bareStmt s) fun r => Reads s r.value.pieces r.rest := by
  rw [bareStmt]
  split
  · rename_i hif
    refine (expr_reads _).bind ?_
    rintro ⟨cond, s₂, h₂⟩ hcond
    refine (block_reads _).bind ?_
    rintro ⟨⟨body, bodySpan⟩, s₃, h₃⟩ hbody
    refine (otherBranches_reads _).bind ?_
    rintro ⟨branches, s₄, h₄⟩ hmore
    refine .pure ?_
    simpa [Stmt.pieces, Branch.piecesEach, Branch.pieces, Guard.pieces] using
      (Reads.mark hif rfl).append (hcond.append (hbody.append hmore))
  · split
    · rename_i hwhile
      refine (expr_reads _).bind ?_
      rintro ⟨cond, s₂, h₂⟩ hcond
      refine (block_reads _).bind ?_
      rintro ⟨⟨body, bodySpan⟩, s₃, h₃⟩ hbody
      refine .pure ?_
      simpa [Stmt.pieces] using (Reads.mark hwhile rfl).append (hcond.append hbody)
    · split
      · rename_i hreturn
        refine (returnValue_reads _).bind ?_
        rintro ⟨value, s₂, h₂⟩ hvalue
        refine .pure ?_
        simpa [Stmt.pieces] using (Reads.mark hreturn rfl).append hvalue
      · split
        · refine (block_reads s).bind ?_
          rintro ⟨⟨body, span⟩, s₁, h₁⟩ hbody
          exact .pure hbody
        · exact simpleStmt_reads s
termination_by 4 * s.size + 1
decreasing_by all_goals omega

theorem block_reads (s : TokenStream) :
    Ensures (block s) fun r => Reads s (Piece.braced (Stmt.piecesEach r.value.1)) r.rest := by
  rw [block]
  refine (expect_reads _ rfl).bind ?_
  rintro ⟨start, s₁, h₁⟩ hlbrace
  refine (stmts_reads _).bind ?_
  rintro ⟨body, s₂, h₂⟩ hbody
  refine .pure ?_
  simpa [Piece.braced] using hlbrace.append hbody
termination_by 4 * s.size
decreasing_by all_goals omega

theorem stmts_reads (s : TokenStream) :
    Ensures (stmts s) fun r => Reads s (Stmt.piecesEach r.value ++ [.mark .rbrace]) r.rest := by
  rw [stmts]
  split
  · exact .ok (.mark ‹_› rfl)
  · split
    · exact .error
    · refine (stmt_reads s).bind ?_
      rintro ⟨first, s₁, h₁⟩ hfirst
      refine (stmts_reads _).bind ?_
      rintro ⟨body, s₂, h₂⟩ hbody
      refine .pure ?_
      simpa [Stmt.piecesEach] using hfirst.append hbody
termination_by 4 * s.size + 3
decreasing_by all_goals omega

theorem otherBranches_reads (s : TokenStream) :
    Ensures (otherBranches s) fun r => Reads s (Branch.piecesEach r.value) r.rest := by
  rw [otherBranches]
  split
  · rename_i helif
    refine (expr_reads _).bind ?_
    rintro ⟨cond, s₂, h₂⟩ hcond
    refine (block_reads _).bind ?_
    rintro ⟨⟨body, bodySpan⟩, s₃, h₃⟩ hbody
    refine (otherBranches_reads _).bind ?_
    rintro ⟨branches, s₄, h₄⟩ hmore
    refine .pure ?_
    simpa [Branch.piecesEach, Branch.pieces, Guard.pieces] using
      (Reads.mark helif rfl).append (hcond.append (hbody.append hmore))
  · split
    · rename_i helse
      refine (block_reads _).bind ?_
      rintro ⟨⟨body, bodySpan⟩, s₂, h₂⟩ hbody
      refine .pure ?_
      simpa [Branch.piecesEach, Branch.pieces, Guard.pieces] using
        (Reads.mark helse rfl).append hbody
    · exact .ok .nil
termination_by 4 * s.size
decreasing_by all_goals omega

end

/-! ## Units -/

theorem includeTail_reads (s : TokenStream) :
    Ensures (includeTail s) fun r =>
      Reads s (Piece.tailed .slash (r.value.map ([·.piece]))) r.rest := by
  rw [includeTail]
  split
  · exact .ok .nil
  · rename_i hslash
    refine (ident_reads _).bind ?_
    rintro ⟨name, s₂, h₂⟩ hname
    refine (includeTail_reads _).bind ?_
    rintro ⟨names, s₃, h₃⟩ hmore
    exact .pure ((Reads.mark hslash rfl).append (hname.append hmore))
termination_by s.size
decreasing_by all_goals omega

theorem defaultValue_reads (s : TokenStream) :
    Ensures (defaultValue s) fun r => Reads s (Expr.initialPieces r.value) r.rest := by
  unfold defaultValue
  split
  · exact .ok .nil
  · rename_i hassign
    refine (expr_reads _).bind ?_
    rintro ⟨value, s₂, h₂⟩ hvalue
    exact .pure ((Reads.mark hassign rfl).append hvalue)

theorem paramList_reads (needsDefault : Bool) (s : TokenStream) :
    Ensures (paramList needsDefault s) fun r =>
      Reads s (Piece.closing (r.value.1.map (·.pieces) ++ Rest.items r.value.2)) r.rest := by
  rw [paramList]
  split
  · exact .ok (.mark ‹_› rfl)
  · split
    · rename_i hellipsis
      refine (closeRest_reads _).bind ?_
      rintro ⟨_, s₂, h₂⟩ hclose
      exact .pure ((Reads.mark hellipsis rfl).append hclose)
    · refine (typeExpr_reads _).bind ?_
      rintro ⟨ty, s₁, h₁⟩ hty
      dsimp only
      split
      · rename_i hellipsis
        refine (closeRest_reads _).bind ?_
        rintro ⟨_, s₃, h₃⟩ hclose
        refine .pure ?_
        simpa [Rest.items, Piece.closing_singleton] using
          hty.append ((Reads.mark hellipsis rfl).append hclose)
      · refine (ident_reads _).bind ?_
        rintro ⟨name, s₂, h₂⟩ hname
        refine (defaultValue_reads s₂).bind ?_
        rintro ⟨default, s₃, h₃⟩ hdefault
        have hparam : Reads s (Param.pieces ⟨ty, name, default⟩) s₃ :=
          hty.append (hname.append hdefault)
        dsimp only
        split
        · exact .error
        · split
          · rename_i hcomma
            refine (paramList_reads _ _).bind ?_
            rintro ⟨⟨params, rest⟩, s₅, h₅⟩ hmore
            exact .pure (hparam.item hcomma hmore)
          · refine (closeList_reads _).bind ?_
            rintro ⟨_, s₄, h₄⟩ hclose
            refine .pure ?_
            simpa [Rest.items, Piece.closing_singleton] using hparam.append hclose
termination_by s.size
decreasing_by all_goals omega

theorem functionBody_reads (s : TokenStream) :
    Ensures (functionBody s) fun r =>
      Reads s ((r.value.map fun body => Piece.braced (Stmt.piecesEach body)).getD []) r.rest := by
  unfold functionBody
  split
  · exact (block_reads s).map fun _ h => h
  · exact .ok .nil

theorem node_reads (s : TokenStream) :
    Ensures (node s) fun r => Reads s r.value.pieces r.rest := by
  unfold node
  split
  · rename_i hinclude
    refine (ident_reads _).bind ?_
    rintro ⟨first, s₂, h₂⟩ hfirst
    refine (includeTail_reads _).bind ?_
    rintro ⟨more, s₃, h₃⟩ hmore
    exact .pure ((Reads.mark hinclude rfl).append (hfirst.append hmore))
  · split
    · rename_i halias
      refine (typeExpr_reads _).bind ?_
      rintro ⟨target, s₂, h₂⟩ htarget
      refine (ident_reads _).bind ?_
      rintro ⟨name, s₃, h₃⟩ hname
      exact .pure ((Reads.mark halias rfl).append (htarget.append hname))
    · refine (typeExpr_reads _).bind ?_
      rintro ⟨ty, s₁, h₁⟩ hty
      refine (ident_reads _).bind ?_
      rintro ⟨name, s₂, h₂⟩ hname
      dsimp only
      split
      · rename_i hlparen
        refine (paramList_reads _ _).bind ?_
        rintro ⟨⟨params, rest⟩, s₄, h₄⟩ hparams
        refine (functionBody_reads _).bind ?_
        rintro ⟨body, s₅, h₅⟩ hbody
        refine .pure ?_
        simpa [Node.pieces] using
          hty.append (hname.append ((Reads.mark hlparen rfl).append (hparams.append hbody)))
      · refine (varDecl_reads _ _ _).bind ?_
        rintro ⟨var, s₃, h₃⟩ ⟨ps, hps, hmore⟩
        refine .pure ?_
        simpa [Node.pieces, hps] using hty.append (hname.append hmore)

/-- The parts of a unit are read up to the end. -/
theorem nodes_reads (s : TokenStream) :
    Ensures (nodes s) fun ns => ∃ s₁, s₁.kind = .eof ∧ Reads s (Node.piecesEach ns) s₁ := by
  rw [nodes]
  split
  · exact .ok ⟨s, ‹_›, .nil⟩
  · refine (node_reads s).bind ?_
    rintro ⟨first, s₁, h₁⟩ hfirst
    have hle := (s₁.skip .semi).notLonger
    refine (nodes_reads (s₁.skip .semi).rest).bind ?_
    rintro more ⟨s₂, hend, hmore⟩
    refine .pure ⟨s₂, hend, ?_⟩
    simpa [Node.piecesEach] using hfirst.append ((skip_reads s₁ .semi).append hmore)
termination_by s.size
decreasing_by all_goals omega

end Parser

/-! ## Texts -/

theorem Token.Lexed.proper {t : Token} (h : t.Lexed) : t.Proper where
  is hk := by
    obtain ⟨spelling, hs⟩ := Option.isSome_iff_exists.mp hk
    exact ⟨rfl, by rw [hs, String.toList_inj.mp (h.shape.toList_of_spelling hs)]⟩
  string hk := by
    obtain ⟨body, hbody⟩ := (hk ▸ h.shape).exists_of_string
    exact String.toList_inj.mp (by simp [Parser.unquote, hbody])
  char hk := by
    obtain ⟨body, hbody⟩ := (hk ▸ h.shape).exists_of_char
    exact String.toList_inj.mp (by simp [Parser.unquote, hbody])

theorem SourceUnit.parse_eq_ok {file : Nat} {text : String} {unit : SourceUnit} :
    SourceUnit.parse file text = .ok unit ↔ ∃ tokens nodes,
      Token.lex file text = .ok tokens ∧
      Parser.nodes ⟨⟨file, text.utf8ByteSize, text.utf8ByteSize⟩, tokens,
        ⟨file, text.utf8ByteSize, text.utf8ByteSize⟩⟩ = .ok nodes ∧
      unit = ⟨file, nodes⟩ := by
  unfold SourceUnit.parse SourceUnit.ofTokens
  cases hlex : Token.lex file text with
  | error e => simp
  | ok tokens =>
    simp only [Except.ok.injEq, exists_and_left, exists_eq_left']
    cases Parser.nodes _ with
    | error e => simp [Except.map, Except.mapError]
    | ok nodes => simp [Except.map, Except.mapError, eq_comm]

/-- A unit is parsed from the characters of its text, none of which stands in a string. -/
theorem SourceUnit.parse_ofList (file : Nat) (cs : List Char) :
    SourceUnit.parse file (String.ofList cs) = match Lexer.scanFrom file 0 cs with
      | ⟨tokens, none⟩ => (SourceUnit.ofTokens file (utf8Width cs) tokens).mapError .parse
      | ⟨_, some e⟩ => .error (.lex e) := by
  rw [SourceUnit.parse, Token.lex_ofList, ← utf8Width_toList, String.toList_ofList]
  rcases Lexer.scanFrom file 0 cs with ⟨tokens, _ | e⟩ <;> rfl

/-- The unit of a text, from a test of it. -/
theorem SourceUnit.exists_parsed {file : Nat} {text : String} {p : SourceUnit → Bool}
    (h : (SourceUnit.parse file text).toOption.any p = true) :
    ∃ unit, SourceUnit.parse file text = .ok unit ∧ p unit := by
  cases hparse : SourceUnit.parse file text with
  | error e => simp [hparse, Except.toOption] at h
  | ok unit => exact ⟨unit, rfl, by simpa [hparse, Except.toOption] using h⟩

/-- The tokens of a text spell the parts of a unit that are read from all of them. -/
theorem Parser.spells_of_nodes {file : Nat} {text : String} {tokens : List Token}
    {nodes : List Node} {last stop : Span} (hlex : Token.lex file text = .ok tokens)
    (hnodes : Parser.nodes ⟨last, tokens, stop⟩ = .ok nodes) :
    Spells (Node.piecesEach nodes) tokens := by
  obtain ⟨s, hend, read, hread, hspells⟩ := Parser.nodes_reads _ nodes hnodes
  have hlexed : ∀ t ∈ read ++ s.tokens, t.Lexed :=
    fun t ht => Lexer.lexed_of_mem_lex hlex (by rwa [← hread] at ht)
  -- The end that was reached is that of the text, because no token is an end.
  have hrest : s.tokens = [] := by
    obtain ⟨last, _ | ⟨t, ts⟩, stop⟩ := s
    · rfl
    · exact absurd hend (hlexed t (by simp)).shape.kind_ne_eof
  rw [hrest, List.append_nil] at hread
  subst hread
  exact hspells fun t ht => (hlexed t (List.mem_append_left _ ht)).proper

/-- **Parsing loses and invents nothing.** The tokens of a text that is a unit spell the unit. -/
theorem parsed_unit_spells_tokens {file : Nat} {text : String} {unit : SourceUnit}
    (h : SourceUnit.parse file text = .ok unit) :
    ∃ tokens, Token.lex file text = .ok tokens ∧ Spells unit.pieces tokens := by
  obtain ⟨tokens, nodes, hlex, hnodes, rfl⟩ := SourceUnit.parse_eq_ok.mp h
  exact ⟨tokens, hlex, Parser.spells_of_nodes hlex hnodes⟩

/-- Semicolons, closing commas, a shift and a hexadecimal length. -/
theorem separators_are_not_lost : ∃ unit tokens,
    SourceUnit.parse 0 "int[0x10] a; int f(int x,) { return f(x >> 1,); }" = .ok unit ∧
    Token.lex 0 "int[0x10] a; int f(int x,) { return f(x >> 1,); }" = .ok tokens ∧
    Spells unit.pieces tokens := by
  have hok : ((SourceUnit.parse 0
      "int[0x10] a; int f(int x,) { return f(x >> 1,); }").toOption.any fun _ => true) = true := by
    rw [SourceUnit.parse_ofList]
    decide +kernel
  obtain ⟨unit, hparse, -⟩ := SourceUnit.exists_parsed hok
  obtain ⟨tokens, hlex, hspells⟩ := parsed_unit_spells_tokens hparse
  exact ⟨unit, tokens, hparse, hlex, hspells⟩

end KilnLang
