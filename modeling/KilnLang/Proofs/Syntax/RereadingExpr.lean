import KilnLang.Proofs.Syntax.Ahead

/-!
# Types and expressions read again

If a parser gives a tree, then wherever the printed pieces of the tree are ahead, the parser gives
it again up to spans, and leaves what comes after them. Each lemma has a condition on the kind of
the token that comes after, which must not go on with the tree: no bracket after a type, no suffix
or dot after an operand (`endsOperand`), and no operator either after an expression (`endsExpr`).

The lemmas also say what a tree leads with. A parser looks at the next token before it decides what
to read; a printed tree leads with a token of the kind that it was read from, so the decision is the
same.

**Shifts.** A closing angle bracket is a shift with another one right after it. No operand starts
with one, so no comparison is taken for a shift.

**Suffixes.** `ref` takes an operand with its suffixes, so that none is left for the reference.
-/

namespace KilnLang

namespace Parser

open TokenStream

/-! ## Types -/

theorem arrayLength_again (s : TokenStream) :
    Ensures (arrayLength s) fun r => ∀ t rest,
      Starts t.tokens (r.value.map .length).toList rest → headKind rest = .rbracket →
      Gives (arrayLength t) fun r' => r'.value = r.value ∧ r'.rest.tokens = rest := by
  unfold arrayLength
  split
  · refine .ok fun t rest ht hrest => ?_
    have htokens := ht.eq_of_nil
    rw [take?_of_headKind (htokens ▸ hrest)]
    exact .ok ⟨rfl, htokens⟩
  · rename_i r hr
    split
    · rename_i n hn
      refine .ok fun t rest ht _ => ?_
      obtain ⟨us, hus, hwritten⟩ := ht
      cases hwritten with
      | length hkind htext hrest =>
        obtain ⟨r', htake, rfl, htokens⟩ := take?_of_tokens hus
        cases hrest
        rw [hkind] at htake
        rw [htake]
        dsimp only
        rw [htext]
        exact .ok ⟨rfl, htokens⟩
    · exact .error

/-- The brackets after a type are read again after the same type. -/
theorem arraySuffix_again (ty : TypeExpr) (s : TokenStream) :
    Ensures (arraySuffix ty s) fun r => ∃ ps, r.value.pieces = ty.pieces ++ ps ∧
      ∀ ty' t rest, ty'.unspanned = ty.unspanned → Starts t.tokens ps rest →
        headKind rest ≠ .lbracket →
        Gives (arraySuffix ty' t) fun r' =>
          r'.value.unspanned = r.value.unspanned ∧ r'.rest.tokens = rest := by
  rw [arraySuffix]
  split
  · refine .ok ⟨[], (List.append_nil _).symm, fun ty' t rest hty ht hrest => ?_⟩
    -- No suffix was written, and what follows is no bracket.
    have htokens := ht.eq_of_nil
    rw [arraySuffix, take?_of_ne (by rw [htokens]; exact hrest)]
    exact .ok ⟨hty, htokens⟩
  · rename_i hopen
    refine (arrayLength_again _).bind ?_
    rintro ⟨length, s₂, h₂⟩ hlength
    refine (expect_reads _ rfl).bind ?_
    rintro ⟨close, s₃, h₃⟩ hclose
    refine (arraySuffix_again _ _).bind ?_
    rintro ⟨ty₁, s₄, h₄⟩ ⟨ps, hps, hmore⟩
    refine .pure ⟨.mark .lbracket :: ((length.map .length).toList ++ .mark .rbracket :: ps), ?_, ?_⟩
    · rw [hps, TypeExpr.pieces]
      simp
    · intro ty' t rest hty ht hrest
      obtain ⟨⟨_, t₁, ht₁⟩, htake, ht⟩ := exists_take? ht
      obtain ⟨mid, hstart, ht⟩ := ht.append
      rw [arraySuffix, htake]
      refine (hlength t₁ mid hstart (ht.headKind_of_leads rfl)).bind ?_
      rintro ⟨length', t₂, ht₂⟩ ⟨rfl, rfl⟩
      refine (expect_gives ht).bind ?_
      rintro ⟨close', t₃, ht₃⟩ ht
      refine (hmore _ t₃ rest (by simp [TypeExpr.unspanned, hty]) ht hrest).bind ?_
      rintro ⟨ty₁', t₄, ht₄⟩ ⟨hty, hrest⟩
      exact .pure ⟨hty, hrest⟩
termination_by s.size
decreasing_by all_goals omega

theorem items_eq_nil {params : List TypeExpr} {rest : Rest TypeExpr}
    (h : TypeExpr.items params ++ Rest.items rest = []) : params = [] ∧ rest = .none := by
  cases params <;> cases rest <;> first | exact ⟨rfl, rfl⟩ | exact nomatch h

mutual

theorem typeExpr_again (s : TokenStream) :
    Ensures (typeExpr s) fun r => leads r.value.pieces = some (headKind s.tokens) ∧
      ∀ t rest, Starts t.tokens r.value.pieces rest → headKind rest ≠ .lbracket →
        Gives (typeExpr t) fun r' =>
          r'.value.unspanned = r.value.unspanned ∧ r'.rest.tokens = rest := by
  rw [typeExpr]
  split
  · rename_i href
    refine (typeExpr_again _).bind ?_
    rintro ⟨inner, s₂, h₂⟩ ⟨-, hinner⟩
    refine .pure ⟨by simp [TypeExpr.pieces, headKind_of_take? href], fun t rest ht hrest => ?_⟩
    obtain ⟨⟨_, t₁, ht₁⟩, htake, ht⟩ := exists_take? ht
    rw [typeExpr, htake]
    refine (hinner t₁ rest ht hrest).bind ?_
    rintro ⟨inner', t₂, ht₂⟩ ⟨hsame, hrest⟩
    exact .pure ⟨by simp [TypeExpr.unspanned, hsame], hrest⟩
  · split
    · rename_i hfunc
      refine (expect_reads _ rfl).bind ?_
      rintro ⟨_, s₂, h₂⟩ -
      refine (typeExpr_again _).bind ?_
      rintro ⟨ret, s₃, h₃⟩ ⟨-, hret⟩
      refine (expect_reads _ rfl).bind ?_
      rintro ⟨_, s₄, h₄⟩ -
      refine (typeList_again _).bind ?_
      rintro ⟨⟨params, rest⟩, s₅, h₅⟩ hparams
      refine (expect_reads _ rfl).bind ?_
      rintro ⟨close, s₆, h₆⟩ -
      refine (arraySuffix_again _ _).bind ?_
      rintro ⟨ty, s₇, h₇⟩ ⟨ps, hps, hmore⟩
      have hhead := headKind_of_take? hfunc
      refine .pure ⟨by simp [hps, TypeExpr.pieces, hhead], fun t stop ht hend => ?_⟩
      simp only [hps, TypeExpr.pieces, Signature.pieces, List.cons_append, List.append_assoc,
        List.nil_append] at ht
      have hhead := ht.headKind_of_leads rfl
      obtain ⟨⟨_, t₁, ht₁⟩, htake, ht⟩ := exists_take? ht
      rw [typeExpr, take?_of_headKind hhead, htake]
      refine (expect_gives ht).bind ?_
      rintro ⟨_, t₂, ht₂⟩ ht
      obtain ⟨mid, hstart, ht⟩ := ht.append
      refine (hret t₂ mid hstart (by rw [ht.headKind_of_leads rfl]; decide)).bind ?_
      rintro ⟨ret', t₃, ht₃⟩ ⟨hret', rfl⟩
      refine (expect_gives ht).bind ?_
      rintro ⟨_, t₄, ht₄⟩ ht
      obtain ⟨mid, hstart, ht⟩ := ht.append
      refine (hparams t₄ mid hstart).bind ?_
      rintro ⟨⟨params', rest'⟩, t₅, ht₅⟩ ⟨hparams', hrest', rfl⟩
      refine (expect_gives ht).bind ?_
      rintro ⟨close', t₆, ht₆⟩ ht
      refine (hmore _ t₆ stop ?_ ht hend).bind ?_
      · simp [TypeExpr.unspanned, Signature.unspanned, hret', hparams', hrest']
      rintro ⟨ty', t₇, ht₇⟩ ⟨hty, htokens⟩
      exact .pure ⟨hty, htokens⟩
    · refine (ident_head _).bind ?_
      rintro ⟨name, s₁, h₁⟩ hident
      refine (arraySuffix_again _ _).bind ?_
      rintro ⟨ty, s₂, h₂⟩ ⟨ps, hps, hmore⟩
      -- A name spells itself, and its suffixes follow.
      have hpieces : ty.pieces = name.piece :: ps := hps
      refine .pure ⟨by simp [hpieces, hident], fun t stop ht hend => ?_⟩
      simp only [hpieces] at ht
      have hhead := ht.headKind_of_leads rfl
      rw [typeExpr, take?_of_headKind hhead, take?_of_headKind hhead]
      refine (ident_gives ht).bind ?_
      rintro ⟨name', t₁, ht₁⟩ ⟨hname, ht⟩
      refine (hmore _ t₁ stop ?_ ht hend).bind ?_
      · simp [TypeExpr.unspanned, DottedName.unspanned, hname]
      rintro ⟨ty', t₂, ht₂⟩ ⟨hty, htokens⟩
      exact .pure ⟨hty, htokens⟩
termination_by 2 * s.size
decreasing_by all_goals omega

theorem typeList_again (s : TokenStream) :
    Ensures (typeList s) fun r => ∀ t rest,
      Starts t.tokens (Piece.closing (TypeExpr.items r.value.1 ++ Rest.items r.value.2)) rest →
      Gives (typeList t) fun r' =>
        TypeExpr.unspannedEach r'.value.1 = TypeExpr.unspannedEach r.value.1 ∧
        Rest.unspanned r'.value.2 = Rest.unspanned r.value.2 ∧ r'.rest.tokens = rest := by
  rw [typeList]
  split
  · refine .ok fun t rest ht => ?_
    obtain ⟨r', htake, ht⟩ := exists_take? ht
    rw [typeList, htake]
    exact .ok ⟨rfl, rfl, ht.eq_of_nil⟩
  · rename_i hrparen
    split
    · refine (closeRest_reads _).bind ?_
      rintro ⟨_, s₂, h₂⟩ -
      refine .pure fun t rest ht => ?_
      have hhead := ht.headKind_of_leads rfl
      obtain ⟨⟨_, t₁, ht₁⟩, htake, ht⟩ := exists_take? ht
      rw [typeList, take?_of_headKind hhead, htake]
      refine (closeRest_gives ht).bind ?_
      rintro ⟨_, t₂, ht₂⟩ ht
      exact .pure ⟨rfl, rfl, ht.eq_of_nil⟩
    · rename_i hellipsis
      refine (typeExpr_again _).bind ?_
      rintro ⟨ty, s₁, h₁⟩ ⟨hlead, hty⟩
      -- What starts with the type is neither empty nor untyped.
      have hfirst : ∀ (t : TokenStream), headKind t.tokens = headKind s.tokens →
          t.take? .rparen = none ∧ t.take? .ellipsis = none := fun t hhead =>
        ⟨take?_of_headKind_eq hrparen hhead,
          take?_of_headKind_eq hellipsis hhead⟩
      dsimp only
      split
      · refine (closeRest_reads _).bind ?_
        rintro ⟨_, s₃, h₃⟩ -
        refine .pure fun t rest ht => ?_
        simp only [TypeExpr.items, Rest.items, List.nil_append, Piece.closing_singleton,
          List.append_assoc, List.cons_append] at ht
        obtain ⟨hnone, hnone'⟩ := hfirst t (ht.headKind_of_leads (by simp [hlead]))
        obtain ⟨mid, hstart, ht⟩ := ht.append
        rw [typeList, hnone, hnone']
        refine (hty t mid hstart (by rw [ht.headKind_of_leads rfl]; decide)).bind ?_
        rintro ⟨ty', t₁, ht₁⟩ ⟨hsame, rfl⟩
        obtain ⟨⟨_, t₂, ht₂⟩, htake, ht⟩ := exists_take? ht
        dsimp only at htake ⊢
        rw [htake]
        refine (closeRest_gives ht).bind ?_
        rintro ⟨_, t₃, ht₃⟩ ht
        exact .pure ⟨rfl, by simp [Rest.unspanned, hsame], ht.eq_of_nil⟩
      · -- The comma after the last type may have been read, but is not printed.
        have hitem : ∀ params rest,
            (TypeExpr.items params ++ Rest.items rest ≠ [] → ∀ t stop,
              Starts t.tokens (Piece.closing (TypeExpr.items params ++ Rest.items rest)) stop →
              Gives (typeList t) fun r' =>
                TypeExpr.unspannedEach r'.value.1 = TypeExpr.unspannedEach params ∧
                Rest.unspanned r'.value.2 = Rest.unspanned rest ∧ r'.rest.tokens = stop) →
            ∀ t stop, Starts t.tokens
                (Piece.closing (ty.pieces :: (TypeExpr.items params ++ Rest.items rest))) stop →
              Gives (typeList t) fun r' =>
                TypeExpr.unspannedEach r'.value.1 = TypeExpr.unspannedEach (ty :: params) ∧
                Rest.unspanned r'.value.2 = Rest.unspanned rest ∧ r'.rest.tokens = stop := by
          intro params rest hmore t stop ht
          obtain ⟨hnone, hnone'⟩ := hfirst t (ht.headKind_of_leads (leads_closing_cons hlead _))
          obtain ⟨mid, hstart, hmid⟩ := ht.item
          have hhead : headKind mid = .rparen ∨ headKind mid = .comma :=
            hmid.imp (·.2.1) (·.2.1)
          rw [typeList, hnone, hnone']
          refine (hty t mid hstart (by obtain h | h := hhead <;> rw [h] <;> decide)).bind ?_
          rintro ⟨ty', t₁, ht₁⟩ ⟨hsame, rfl⟩
          dsimp only at hhead hmid ⊢
          rw [take?_of_ne (by obtain h | h := hhead <;> rw [h] <;> decide)]
          obtain ⟨hitems, hhead, hclose⟩ | ⟨hitems, -, ht⟩ := hmid
          · obtain ⟨rfl, rfl⟩ := items_eq_nil hitems
            rw [take?_of_headKind hhead]
            refine (closeList_gives hclose).bind ?_
            rintro ⟨_, t₂, ht₂⟩ hclose
            exact .pure ⟨by simp [TypeExpr.unspannedEach, hsame], rfl, hclose.eq_of_nil⟩
          · obtain ⟨⟨_, t₂, ht₂⟩, htake, ht⟩ := exists_take? ht
            rw [htake]
            refine (hmore hitems t₂ stop ht).bind ?_
            rintro ⟨⟨params', rest'⟩, t₃, ht₃⟩ ⟨hparams, hrest, htokens⟩
            exact .pure ⟨by simp [TypeExpr.unspannedEach, hsame, hparams], hrest, htokens⟩
        split
        · refine (typeList_again _).bind ?_
          rintro ⟨⟨params, rest⟩, s₃, h₃⟩ hmore
          exact .pure (hitem params rest fun _ => hmore)
        · refine (closeList_reads _).bind ?_
          rintro ⟨_, s₂, h₂⟩ -
          exact .pure (hitem [] .none fun h => absurd rfl h)
termination_by 2 * s.size + 1
decreasing_by all_goals omega

end

/-! ## Expressions -/

/-- The kinds of tokens that go on with an operand. -/
def startsSuffix : TokenKind → Bool
  | .lparen | .lbracket | .plusPlus | .minusMinus => true
  | _ => false

/-- An operand ends before a token of the kind. -/
def endsOperand (k : TokenKind) : Bool := !startsSuffix k && k != .dot

/-- An expression ends before a token of the kind. -/
def endsExpr (k : TokenKind) : Bool := endsOperand k && (binaryOp? k).isNone

theorem ne_of_endsOperand {k k' : TokenKind} (h : endsOperand k) (h' : endsOperand k' = false) :
    k ≠ k' := by
  rintro rfl
  rw [h'] at h
  exact absurd h Bool.false_ne_true

theorem startsSuffix_of_endsOperand {k : TokenKind} (h : endsOperand k) : startsSuffix k = false :=
  (Bool.not_eq_true' _).mp (Bool.and_eq_true_iff.mp h).1

theorem startsSuffix_eq_false {s : TokenStream} (hlparen : s.take? .lparen = none)
    (hlbracket : s.take? .lbracket = none) (hinc : s.take? .plusPlus = none)
    (hdec : s.take? .minusMinus = none) : startsSuffix (headKind s.tokens) = false := by
  have h₁ := headKind_ne_of_take? hlparen
  have h₂ := headKind_ne_of_take? hlbracket
  have h₃ := headKind_ne_of_take? hinc
  have h₄ := headKind_ne_of_take? hdec
  unfold startsSuffix
  split <;> first | contradiction | rfl

theorem endsOperand_of_endsExpr {k : TokenKind} (h : endsExpr k) : endsOperand k :=
  (Bool.and_eq_true_iff.mp h).1

/-- An operand ends before an operator, which is neither a name nor an assignment. -/
theorem ends_of_binaryOp? {k : TokenKind} (h : (binaryOp? k).isSome) :
    endsOperand k ∧ k ≠ .ident ∧ assignOp? k = none := by
  unfold binaryOp? at h
  split at h <;> first | exact ⟨rfl, by decide, rfl⟩ | exact nomatch h

theorem endsOperand_of_operators {k k' : TokenKind} (h : k = k' ∨ (binaryOp? k).isSome)
    (hk' : endsExpr k') : endsOperand k := by
  obtain rfl | hop := h
  · exact endsOperand_of_endsExpr hk'
  · exact (ends_of_binaryOp? hop).1

theorem dottedTail_again (s : TokenStream) :
    Ensures (dottedTail s) fun r => ∀ t rest,
      Starts t.tokens (Piece.tailed .dot (r.value.map ([·.piece]))) rest → headKind rest ≠ .dot →
      Gives (dottedTail t) fun r' =>
        r'.value.map (·.unspanned) = r.value.map (·.unspanned) ∧ r'.rest.tokens = rest := by
  rw [dottedTail]
  split
  · refine .ok fun t rest ht hrest => ?_
    have htokens := ht.eq_of_nil
    rw [dottedTail, take?_of_ne (by rw [htokens]; exact hrest)]
    exact .ok ⟨rfl, htokens⟩
  · refine (ident_reads _).bind ?_
    rintro ⟨name, s₂, h₂⟩ -
    refine (dottedTail_again _).bind ?_
    rintro ⟨names, s₃, h₃⟩ hmore
    refine .pure fun t rest ht hrest => ?_
    obtain ⟨⟨_, t₁, ht₁⟩, htake, ht⟩ := exists_take? ht
    rw [dottedTail, htake]
    refine (ident_gives ht).bind ?_
    rintro ⟨name', t₂, ht₂⟩ ⟨hname, ht⟩
    refine (hmore t₂ rest ht hrest).bind ?_
    rintro ⟨names', t₃, ht₃⟩ ⟨hnames, htokens⟩
    exact .pure ⟨by simp [hname, hnames], htokens⟩
termination_by s.size
decreasing_by all_goals omega

theorem dottedName_again (s : TokenStream) :
    Ensures (dottedName s) fun r => leads r.value.pieces = some .ident ∧
      ∀ t rest, Starts t.tokens r.value.pieces rest → headKind rest ≠ .dot →
        Gives (dottedName t) fun r' =>
          r'.value.unspanned = r.value.unspanned ∧ r'.rest.tokens = rest := by
  unfold dottedName
  refine (ident_reads _).bind ?_
  rintro ⟨first, s₁, h₁⟩ -
  refine (dottedTail_again _).bind ?_
  rintro ⟨more, s₂, h₂⟩ hmore
  refine .pure ⟨rfl, fun t rest ht hrest => ?_⟩
  refine (ident_gives ht).bind ?_
  rintro ⟨first', t₁, ht₁⟩ ⟨hfirst, ht⟩
  refine (hmore t₁ rest ht hrest).bind ?_
  rintro ⟨more', t₂, ht₂⟩ ⟨hmore', htokens⟩
  exact .pure ⟨by simp [DottedName.unspanned, hfirst, hmore'], htokens⟩

/-- The token is what is printed for the piece. -/
def Fits (u : Token) : Piece → Prop
  | .mark k => u.kind = k
  | .word k text => u.kind = k ∧ u.text = text
  | _ => False

/-- One token is printed for the piece, whose text is not changed. -/
def isToken : Piece → Bool
  | .mark _ | .word _ _ => true
  | _ => false

theorem advance?_of_tokens {t : TokenStream} {u : Token} {us : List Token}
    (h : t.tokens = u :: us) :
    t.peek = u ∧ ∃ r, advance? t = some r ∧ r.rest.tokens = us := by
  obtain ⟨r, htake, rfl, htokens⟩ := take?_of_tokens h
  have hadvance : advance? t = some r := by
    rw [advance?, t.kind_eq_headKind, headKind_of_take? htake, htake]
  exact ⟨(peek_of_advance? hadvance).symm, r, hadvance, htokens⟩

/-- What is printed for a piece is taken. -/
theorem exists_advance? {t : TokenStream} {p : Piece} {ps : List Piece} {rest : List Token}
    (h : Starts t.tokens (p :: ps) rest) (hp : isToken p) :
    Fits t.peek p ∧ ∃ r, advance? t = some r ∧ Starts r.rest.tokens ps rest := by
  obtain ⟨us, hus, hwritten⟩ := h
  cases hwritten with
  | mark hrest =>
    obtain ⟨hpeek, r, hadvance, htokens⟩ := advance?_of_tokens hus
    exact ⟨congrArg Token.kind hpeek, r, hadvance, _, htokens, hrest⟩
  | word _ hrest =>
    obtain ⟨hpeek, r, hadvance, htokens⟩ := advance?_of_tokens hus
    exact ⟨⟨congrArg Token.kind hpeek, congrArg Token.text hpeek⟩, r, hadvance, _, htokens, hrest⟩
  | _ => exact nomatch hp

theorem binaryOp?_of_piece {op : BinaryOp} (h : op ≠ .shr) :
    ∃ k, op.piece = .mark k ∧ binaryOp? k = some op := by
  cases op with
  | shr => exact absurd rfl h
  | _ => exact ⟨_, rfl, rfl⟩

/-- A binary operator ahead is taken, unless something follows that could be a part of it. -/
theorem exists_operator? (op : BinaryOp) {t : TokenStream} {ps : List Piece} {rest : List Token}
    (h : Starts t.tokens (op.piece :: ps) rest)
    (hnext : (leads ps).getD (headKind rest) ≠ .greater) :
    ∃ r, operator? t = some r ∧ r.value.op = op ∧ Starts r.rest.tokens ps rest := by
  by_cases hshr : op = .shr
  · subst hshr
    obtain ⟨us, hus, hwritten⟩ := h
    cases hwritten with
    | shift hfirst hsecond hadjacent hrest =>
      obtain ⟨step, htake, rfl, htokens⟩ := take?_of_tokens hus
      obtain ⟨second, htake', rfl, htokens'⟩ := take?_of_tokens htokens
      rw [hfirst] at htake
      rw [hsecond] at htake'
      have hkind : t.kind = .greater := t.kind_eq_headKind.trans (headKind_of_take? htake)
      have hadvance : advance? t = some step := by rw [advance?, hkind, htake]
      have hshift : operator? t =
          some (step.andThen (second.map fun u => ⟨step.value.span.join u.span, .shr⟩)) := by
        simp only [operator?, hkind, binaryOp?, hadvance, htake', hadjacent, if_true]
      exact ⟨_, hshift, rfl, _, htokens', hrest⟩
  · obtain ⟨k, hpiece, hop⟩ := binaryOp?_of_piece hshr
    rw [hpiece] at h
    obtain ⟨hkind, r, hadvance, hrest⟩ := exists_advance? h rfl
    have hkind : t.kind = k := hkind
    have hgreater : r.rest.take? .greater = none := take?_of_ne (by rwa [hrest.headKind_eq])
    have hone : operator? t = some (r.map fun u => ⟨u.span, op⟩) := by
      simp only [operator?, hkind, hop, hadvance, hgreater, ite_self]
    exact ⟨_, hone, rfl, hrest⟩

theorem operator?_eq_none {t : TokenStream} (h : endsExpr (headKind t.tokens)) :
    operator? t = none := by
  have hnone : binaryOp? (headKind t.tokens) = none :=
    Option.isNone_iff_eq_none.mp (Bool.and_eq_true_iff.mp h).2
  rw [operator?, t.kind_eq_headKind, hnone]

theorem binaryOp?_leads_piece (op : BinaryOp) (ps : List Piece) :
    ∃ k, leads (op.piece :: ps) = some k ∧ (binaryOp? k).isSome := by
  cases op <;> exact ⟨_, rfl, rfl⟩

theorem unquote_quoted {q : String} (hq : q.toList.length = 1) (text : String) :
    unquote (q ++ text ++ q) = text := by
  obtain ⟨c, hc⟩ := List.length_eq_one_iff.mp hq
  simp [unquote, hc]

/-- A literal is one piece, and what is printed for it is the same literal. -/
theorem piece_of_literal? {u : Token} {value : Value} (h : literal? u = some value) :
    ∃ p, value.pieces = [p] ∧ p.kind? = some u.kind ∧ isToken p ∧ ∀ u', Fits u' p →
      ∃ value', literal? u' = some value' ∧ value'.unspanned = value.unspanned := by
  unfold literal? at h
  split at h <;> cases h <;> rename_i hk <;> refine ⟨_, rfl, by rw [hk]; rfl, rfl, fun u' hu' => ?_⟩
  · exact ⟨.number ⟨u'.span, u'.text⟩, by rw [literal?, hu'.1],
      by rw [hu'.2]; rfl⟩
  · exact ⟨.decimal ⟨u'.span, u'.text⟩, by rw [literal?, hu'.1],
      by rw [hu'.2]; rfl⟩
  · refine ⟨.string ⟨u'.span, unquote u'.text⟩, by rw [literal?, hu'.1], ?_⟩
    rw [hu'.2, unquote_quoted rfl]
    rfl
  · refine ⟨.char ⟨u'.span, unquote u'.text⟩, by rw [literal?, hu'.1], ?_⟩
    rw [hu'.2, unquote_quoted rfl]
    rfl
  · exact ⟨.bool u'.span true, by rw [literal?, show u'.kind = .kwTrue from hu'], rfl⟩
  · exact ⟨.bool u'.span false, by rw [literal?, show u'.kind = .kwFalse from hu'], rfl⟩
  · exact ⟨.null u'.span, by rw [literal?, show u'.kind = .kwNull from hu'], rfl⟩

theorem eq_ident_of_unspanned {value : Value} {name : DottedName}
    (h : value.unspanned = (Value.ident name).unspanned) :
    ∃ name', value = .ident name' ∧ name'.unspanned = name.unspanned := by
  cases value with
  | ident name' => exact ⟨name', rfl, Value.ident.inj h⟩
  | _ => exact nomatch h

@[simp] theorem unspanned_respan (span : Span) (e : Expr) :
    (respan span e).unspanned = e.unspanned := by
  cases e
  rfl

/-- Without suffixes ahead, nothing is read. -/
theorem suffix_eq (value : Value) {t : TokenStream} (h : startsSuffix (headKind t.tokens) = false) :
    suffix value t = .ok (.stay value) := by
  have hne : ∀ k, startsSuffix k → t.take? k = none := fun k hk =>
    take?_of_ne fun heq => by rw [heq, hk] at h; exact nomatch h
  rw [suffix, hne .lparen rfl, hne .lbracket rfl, hne .plusPlus rfl, hne .minusMinus rfl]

@[simp] theorem prefixOp?_kind (op : UnaryOp) : prefixOp? op.kind = some op := by
  cases op <;> rfl

theorem ne_greater_of_prefixOp? {k : TokenKind} {op : UnaryOp} (h : prefixOp? k = some op) :
    k ≠ .greater := by
  rintro rfl
  exact nomatch h

theorem prefixOp?_of_literal? {u : Token} {value : Value} (h : literal? u = some value) :
    prefixOp? u.kind = none ∧ u.kind ≠ .greater := by
  unfold literal? at h
  split at h <;> rename_i hk <;> cases h <;> rw [hk] <;> decide

/-- What can follow an operand follows its suffixes, or they are nothing. -/
theorem headKind_ne_dot {ps : List Piece} {k : TokenKind} {ts rest : List Token}
    (h : Starts ts ps rest) (hps : ps = [] ∨ leads ps = some k ∧ startsSuffix k)
    (hrest : endsOperand (headKind rest)) : headKind ts ≠ .dot := by
  obtain rfl | ⟨hlead, hk⟩ := hps
  · rw [h.eq_of_nil]
    exact ne_of_endsOperand hrest rfl
  · rw [h.headKind_of_leads hlead]
    rintro rfl
    exact nomatch hk

theorem operand_ref {t t₁ : TokenStream} {start : Token} {h₁ : t₁.size < t.size}
    (h : t.take? .kwRef = some ⟨start, t₁, h₁⟩) :
    operand t = do
      let ⟨inner, t₂, h₂⟩ ← operand t₁
      let ⟨value, t₃, h₃⟩ ← suffix (.ref (start.span.join inner.span) inner) t₂
      return ⟨value, t₃, Nat.lt_of_le_of_lt h₃ (Nat.lt_trans h₂ h₁)⟩ := by
  have hhead := headKind_of_take? h
  have hkind : t.kind = .kwRef := t.kind_eq_headKind.trans hhead
  have hnone : literal? t.peek = none := by rw [literal?, show t.peek.kind = _ from hkind]
  rw [operand, hnone, hkind, take?_of_headKind hhead, h]
  rfl

theorem operand_ident {t : TokenStream} (h : headKind t.tokens = .ident) :
    operand t = do
      let ⟨name, t₁, h₁⟩ ← dottedName t
      let ⟨value, t₂, h₂⟩ ← suffix (.ident name) t₁
      return ⟨value, t₂, Nat.lt_of_le_of_lt h₂ h₁⟩ := by
  have hkind : t.kind = .ident := t.kind_eq_headKind.trans h
  have hnone : literal? t.peek = none := by rw [literal?, show t.peek.kind = _ from hkind]
  rw [operand, hnone, hkind, take?_of_headKind h, take?_of_headKind h]
  rfl

mutual

theorem operand_again (s : TokenStream) :
    Ensures (operand s) fun r =>
      (leads r.value.pieces = some (headKind s.tokens) ∧ headKind s.tokens ≠ .greater ∧
        startsSuffix (headKind r.rest.tokens) = false) ∧
      ∀ t rest, Starts t.tokens r.value.pieces rest → endsOperand (headKind rest) →
        Gives (operand t) fun r' =>
          r'.value.unspanned = r.value.unspanned ∧ r'.rest.tokens = rest := by
  rw [operand]
  split
  · rename_i op _ _ _ hop hstart
    refine (operand_again _).bind ?_
    rintro ⟨value, s₂, h₂⟩ ⟨⟨-, -, hend⟩, hvalue⟩
    have hkind := (kind_of_prefixOp? hop).1
    rw [kind_eq_headKind] at hkind hop
    refine .pure ⟨⟨by simp [Value.pieces, hkind], ne_greater_of_prefixOp? hop, hend⟩, ?_⟩
    intro t rest ht hrest
    obtain ⟨hk, ⟨_, t₁, ht₁⟩, hadvance, ht⟩ := exists_advance? ht rfl
    have hk : t.kind = op.kind := hk
    rw [operand, hk, prefixOp?_kind, hadvance]
    refine (hvalue t₁ rest ht hrest).bind ?_
    rintro ⟨value', t₂, ht₂⟩ ⟨hsame, htokens⟩
    exact .pure ⟨by simp [Value.unspanned, hsame], htokens⟩
  · split
    · rename_i hliteral hstart
      obtain ⟨p, hp, hlead, htoken, hagain⟩ := piece_of_literal? hliteral
      have hkind : s.peek.kind = headKind s.tokens := s.kind_eq_headKind
      refine (suffix_again _ _).bind ?_
      rintro ⟨value, s₂, h₂⟩ ⟨hend, ps, hps, -, hmore⟩
      refine .pure ⟨⟨?_, ?_, hend⟩, ?_⟩
      · rw [hps, hp, ← hkind]
        simp [leads, hlead]
      · rw [← hkind]
        exact (prefixOp?_of_literal? hliteral).2
      · intro t rest ht hrest
        simp only [hps, hp, List.cons_append, List.nil_append] at ht
        obtain ⟨hfits, ⟨_, t₁, ht₁⟩, hadvance, ht⟩ := exists_advance? ht htoken
        obtain ⟨value', hliteral', hsame⟩ := hagain _ hfits
        have hbegins : prefixOp? t.kind = none := (prefixOp?_of_literal? hliteral').1
        rw [operand, hbegins, hliteral', hadvance]
        refine (hmore _ t₁ rest hsame ht hrest).bind ?_
        rintro ⟨value'', t₂, ht₂⟩ hresult
        exact .pure hresult
    · split
      · rename_i hlparen
        refine (expr_again _).bind ?_
        rintro ⟨inner, s₂, h₂⟩ ⟨-, hinner⟩
        refine (expect_reads _ rfl).bind ?_
        rintro ⟨close, s₃, h₃⟩ -
        refine (suffix_again _ _).bind ?_
        rintro ⟨value, s₄, h₄⟩ ⟨hend, ps, hps, -, hmore⟩
        have hhead := headKind_of_take? hlparen
        refine .pure ⟨⟨by simp [hps, Value.pieces, hhead], by rw [hhead]; decide, hend⟩, ?_⟩
        intro t rest ht hrest
        simp only [hps, Value.pieces, pieces_respan, List.cons_append, List.append_assoc,
          List.nil_append] at ht
        have hkind : t.kind = .lparen := t.kind_eq_headKind.trans (ht.headKind_of_leads rfl)
        have hnone : literal? t.peek = none := by rw [literal?, show t.peek.kind = _ from hkind]
        obtain ⟨⟨_, t₁, ht₁⟩, htake, ht⟩ := exists_take? ht
        obtain ⟨mid, hstart, ht⟩ := ht.append
        rw [operand, hnone, hkind, htake]
        refine (hinner t₁ mid hstart (by rw [ht.headKind_of_leads rfl]; rfl)).bind ?_
        rintro ⟨inner', t₂, ht₂⟩ ⟨hsame, rfl⟩
        refine (expect_gives ht).bind ?_
        rintro ⟨close', t₃, ht₃⟩ ht
        refine (hmore _ t₃ rest ?_ ht hrest).bind ?_
        · simp [Value.unspanned, hsame]
        rintro ⟨value', t₄, ht₄⟩ hresult
        exact .pure hresult
      · split
        · rename_i href
          refine (operand_again _).bind ?_
          rintro ⟨inner, s₂, h₂⟩ ⟨⟨-, -, hend⟩, hinner⟩
          -- The operand has taken all suffixes.
          dsimp only at hend ⊢
          rw [suffix_eq _ hend]
          have hhead := headKind_of_take? href
          refine .pure ⟨⟨by simp [Value.pieces, hhead], by rw [hhead]; decide, hend⟩, ?_⟩
          intro t rest ht hrest
          obtain ⟨⟨_, t₁, ht₁⟩, htake, ht⟩ := exists_take? ht
          rw [operand_ref htake]
          refine (hinner t₁ rest ht hrest).bind ?_
          rintro ⟨inner', t₂, ht₂⟩ ⟨hsame, rfl⟩
          dsimp only
          rw [suffix_eq _ (startsSuffix_of_endsOperand hrest)]
          exact .pure ⟨by simp [Value.unspanned, hsame], rfl⟩
        · split
          · rename_i hident
            rw [kind_eq_headKind] at hident
            refine (dottedName_again _).bind ?_
            rintro ⟨name, s₁, h₁⟩ ⟨hlead, hname⟩
            refine (suffix_again _ _).bind ?_
            rintro ⟨value, s₂, h₂⟩ ⟨hend, ps, hps, hdot, hmore⟩
            refine .pure ⟨⟨?_, by rw [hident]; decide, hend⟩, ?_⟩
            · simp [hps, Value.pieces, hlead, hident]
            · intro t rest ht hrest
              simp only [hps, Value.pieces] at ht
              rw [operand_ident (ht.headKind_of_leads (by simp [hlead]))]
              obtain ⟨mid, hstart, ht⟩ := ht.append
              refine (hname t mid hstart (headKind_ne_dot ht hdot hrest)).bind ?_
              rintro ⟨name', t₁, ht₁⟩ ⟨hsame, rfl⟩
              refine (hmore _ t₁ rest ?_ ht hrest).bind ?_
              · simp [Value.unspanned, hsame]
              rintro ⟨value', t₂, ht₂⟩ hresult
              exact .pure hresult
          · exact .error
termination_by 3 * s.size
decreasing_by all_goals omega

/-- The suffixes of an operand are read again after the same operand. -/
theorem suffix_again (value : Value) (s : TokenStream) :
    Ensures (suffix value s) fun r => startsSuffix (headKind r.rest.tokens) = false ∧
      ∃ ps, r.value.pieces = value.pieces ++ ps ∧
        (ps = [] ∨ leads ps = some (headKind s.tokens) ∧ startsSuffix (headKind s.tokens)) ∧
        ∀ value' t rest, value'.unspanned = value.unspanned → Starts t.tokens ps rest →
          endsOperand (headKind rest) →
          Gives (suffix value' t) fun r' =>
            r'.value.unspanned = r.value.unspanned ∧ r'.rest.tokens = rest := by
  rw [suffix]
  split
  · rename_i hlparen
    split
    · rename_i callee
      refine (arguments_again _).bind ?_
      rintro ⟨args, s₂, h₂⟩ hargs
      refine (suffix_again _ _).bind ?_
      rintro ⟨value, s₃, h₃⟩ ⟨hend, ps, hps, -, hmore⟩
      refine .pure ⟨hend, .mark .lparen :: (Piece.closing (Expr.items args) ++ ps),
        by simp [hps, Value.pieces], .inr (by simp [headKind_of_take? hlparen, startsSuffix]), ?_⟩
      intro value' t rest hvalue ht hrest
      -- Only a name can be called, and its copy is a name too.
      obtain ⟨callee', rfl, hcallee⟩ := eq_ident_of_unspanned hvalue
      obtain ⟨⟨_, t₁, ht₁⟩, htake, ht⟩ := exists_take? ht
      obtain ⟨mid, hstart, ht⟩ := ht.append
      rw [suffix, htake]
      refine (hargs t₁ mid hstart).bind ?_
      rintro ⟨args', t₂, ht₂⟩ ⟨hargs', rfl⟩
      refine (hmore _ t₂ rest ?_ ht hrest).bind ?_
      · simp [Value.unspanned, hcallee, hargs']
      rintro ⟨value'', t₃, ht₃⟩ hresult
      exact .pure hresult
    · exact .error
  · split
    · rename_i hlbracket
      refine (expr_again _).bind ?_
      rintro ⟨position, s₂, h₂⟩ ⟨-, hposition⟩
      refine (expect_reads _ rfl).bind ?_
      rintro ⟨close, s₃, h₃⟩ -
      refine (suffix_again _ _).bind ?_
      rintro ⟨value₁, s₄, h₄⟩ ⟨hend, ps, hps, -, hmore⟩
      refine .pure ⟨hend, .mark .lbracket :: (position.pieces ++ .mark .rbracket :: ps),
        by simp [hps, Value.pieces], .inr (by simp [headKind_of_take? hlbracket, startsSuffix]), ?_⟩
      intro value' t rest hvalue ht hrest
      have hhead := ht.headKind_of_leads rfl
      obtain ⟨⟨_, t₁, ht₁⟩, htake, ht⟩ := exists_take? ht
      obtain ⟨mid, hstart, ht⟩ := ht.append
      rw [suffix, take?_of_headKind hhead, htake]
      refine (hposition t₁ mid hstart (by rw [ht.headKind_of_leads rfl]; rfl)).bind ?_
      rintro ⟨position', t₂, ht₂⟩ ⟨hposition', rfl⟩
      refine (expect_gives ht).bind ?_
      rintro ⟨close', t₃, ht₃⟩ ht
      refine (hmore _ t₃ rest ?_ ht hrest).bind ?_
      · simp [Value.unspanned, hvalue, hposition']
      rintro ⟨value'', t₄, ht₄⟩ hresult
      exact .pure hresult
    · split
      · rename_i hsign
        refine (suffix_again _ _).bind ?_
        rintro ⟨value₁, s₂, h₂⟩ ⟨hend, ps, hps, -, hmore⟩
        refine .pure ⟨hend, .mark .plusPlus :: ps,
          by simp [hps, Value.pieces, UnaryOp.kind],
          .inr (by simp [headKind_of_take? hsign, startsSuffix]), ?_⟩
        intro value' t rest hvalue ht hrest
        have hhead := ht.headKind_of_leads rfl
        obtain ⟨⟨_, t₁, ht₁⟩, htake, ht⟩ := exists_take? ht
        rw [suffix, take?_of_headKind hhead, take?_of_headKind hhead, htake]
        refine (hmore _ t₁ rest ?_ ht hrest).bind ?_
        · simp [Value.unspanned, hvalue]
        rintro ⟨value'', t₂, ht₂⟩ hresult
        exact .pure hresult
      · split
        · rename_i hsign
          refine (suffix_again _ _).bind ?_
          rintro ⟨value₁, s₂, h₂⟩ ⟨hend, ps, hps, -, hmore⟩
          refine .pure ⟨hend, .mark .minusMinus :: ps,
            by simp [hps, Value.pieces, UnaryOp.kind],
            .inr (by simp [headKind_of_take? hsign, startsSuffix]), ?_⟩
          intro value' t rest hvalue ht hrest
          have hhead := ht.headKind_of_leads rfl
          obtain ⟨⟨_, t₁, ht₁⟩, htake, ht⟩ := exists_take? ht
          rw [suffix, take?_of_headKind hhead, take?_of_headKind hhead,
            take?_of_headKind hhead, htake]
          refine (hmore _ t₁ rest ?_ ht hrest).bind ?_
          · simp [Value.unspanned, hvalue]
          rintro ⟨value'', t₂, ht₂⟩ hresult
          exact .pure hresult
        · rename_i hlparen _ hlbracket _ hinc _ hdec
          -- None of the four suffixes follows, in the second text either.
          have hstop := startsSuffix_eq_false hlparen hlbracket hinc hdec
          refine .ok ⟨hstop, [], (List.append_nil _).symm, .inl rfl, ?_⟩
          intro value' t rest hvalue ht hrest
          have htokens := ht.eq_of_nil
          rw [suffix_eq value' (by rw [htokens]; exact startsSuffix_of_endsOperand hrest)]
          exact .ok ⟨hvalue, htokens⟩
termination_by 3 * s.size
decreasing_by all_goals omega

theorem arguments_again (s : TokenStream) :
    Ensures (arguments s) fun r => ∀ t rest,
      Starts t.tokens (Piece.closing (Expr.items r.value)) rest →
      Gives (arguments t) fun r' =>
        Expr.unspannedEach r'.value = Expr.unspannedEach r.value ∧ r'.rest.tokens = rest := by
  rw [arguments]
  split
  · refine .ok fun t rest ht => ?_
    obtain ⟨r', htake, ht⟩ := exists_take? ht
    rw [arguments, htake]
    exact .ok ⟨rfl, ht.eq_of_nil⟩
  · rename_i hrparen
    refine (expr_again _).bind ?_
    rintro ⟨arg, s₁, h₁⟩ ⟨hlead, harg⟩
    dsimp only
    -- One argument before arguments that are read again, or before the end of the list.
    have hitem : ∀ args,
        (args ≠ [] → ∀ t rest, Starts t.tokens (Piece.closing (Expr.items args)) rest →
          Gives (arguments t) fun r' =>
            Expr.unspannedEach r'.value = Expr.unspannedEach args ∧ r'.rest.tokens = rest) →
        ∀ t rest, Starts t.tokens (Piece.closing (arg.pieces :: Expr.items args)) rest →
          Gives (arguments t) fun r' =>
            Expr.unspannedEach r'.value = Expr.unspannedEach (arg :: args) ∧
            r'.rest.tokens = rest := by
      intro args hmore t rest ht
      have hhead : headKind t.tokens = headKind s.tokens :=
        ht.headKind_of_leads (leads_closing_cons hlead _)
      obtain ⟨mid, hstart, hmid⟩ := ht.item
      have hends : endsExpr (headKind mid) := by
        obtain ⟨-, h, -⟩ | ⟨-, h, -⟩ := hmid <;> rw [h] <;> rfl
      rw [arguments, take?_of_headKind_eq hrparen hhead]
      refine (harg t mid hstart hends).bind ?_
      rintro ⟨arg', t₁, ht₁⟩ ⟨hsame, rfl⟩
      dsimp only at hmid ⊢
      obtain ⟨hitems, hhead, hclose⟩ | ⟨hitems, -, ht⟩ := hmid
      · cases args with
        | nil =>
          rw [take?_of_headKind hhead]
          refine (closeList_gives hclose).bind ?_
          rintro ⟨_, t₂, ht₂⟩ hclose
          exact .pure ⟨by simp [Expr.unspannedEach, hsame], hclose.eq_of_nil⟩
        | cons next more => exact nomatch hitems
      · obtain ⟨⟨_, t₂, ht₂⟩, htake, ht⟩ := exists_take? ht
        rw [htake]
        refine (hmore (by rintro rfl; exact hitems rfl) t₂ rest ht).bind ?_
        rintro ⟨args', t₃, ht₃⟩ ⟨hargs, htokens⟩
        exact .pure ⟨by simp [Expr.unspannedEach, hsame, hargs], htokens⟩
    split
    · refine (arguments_again _).bind ?_
      rintro ⟨args, s₃, h₃⟩ hmore
      exact .pure (hitem args fun _ => hmore)
    · refine (closeList_reads _).bind ?_
      rintro ⟨_, s₂, h₂⟩ -
      exact .pure (hitem [] fun h => absurd rfl h)
termination_by 3 * s.size + 2
decreasing_by all_goals omega

theorem expr_again (s : TokenStream) :
    Ensures (expr s) fun r => leads r.value.pieces = some (headKind s.tokens) ∧
      ∀ t rest, Starts t.tokens r.value.pieces rest → endsExpr (headKind rest) →
        Gives (expr t) fun r' =>
          r'.value.unspanned = r.value.unspanned ∧ r'.rest.tokens = rest := by
  rw [expr]
  refine (operand_again _).bind ?_
  rintro ⟨first, s₁, h₁⟩ ⟨⟨hlead, -, -⟩, hfirst⟩
  refine (chainTail_again _ _).bind ?_
  rintro ⟨chain, s₂, h₂⟩ ⟨ps, hps, hends, hmore⟩
  refine .pure ⟨by simp [Expr.pieces, hps, hlead], fun t rest ht hrest => ?_⟩
  simp only [Expr.pieces, hps] at ht
  obtain ⟨mid, hstart, ht⟩ := ht.append
  rw [expr]
  refine (hfirst t mid hstart (endsOperand_of_operators (hends ht) hrest)).bind ?_
  rintro ⟨first', t₁, ht₁⟩ ⟨hsame, rfl⟩
  refine (hmore _ t₁ rest hsame ht hrest).bind ?_
  rintro ⟨chain', t₂, ht₂⟩ ⟨hchain, htokens⟩
  exact .pure ⟨by simp [Expr.unspanned, hchain], htokens⟩
termination_by 3 * s.size + 1
decreasing_by all_goals omega

/-- Further operators and operands are read again after the same operand. -/
theorem chainTail_again (first : Value) (s : TokenStream) :
    Ensures (chainTail first s) fun r => ∃ ps, r.value.pieces = first.pieces ++ ps ∧
      (∀ {ts rest}, Starts ts ps rest →
        headKind ts = headKind rest ∨ (binaryOp? (headKind ts)).isSome) ∧
      ∀ first' t rest, first'.unspanned = first.unspanned → Starts t.tokens ps rest →
        endsExpr (headKind rest) →
        Gives (chainTail first' t) fun r' =>
          r'.value.unspanned = r.value.unspanned ∧ r'.rest.tokens = rest := by
  rw [chainTail]
  split
  · refine .ok ⟨[], (List.append_nil _).symm, fun ht => .inl (by rw [ht.eq_of_nil]),
      fun first' t rest hfirst ht hrest => ?_⟩
    · have htokens := ht.eq_of_nil
      rw [chainTail, operator?_eq_none (by rw [htokens]; exact hrest)]
      exact .ok ⟨by simp [Chain.unspanned, hfirst], htokens⟩
  · rename_i op _ _ hop
    refine (operand_again _).bind ?_
    rintro ⟨next, s₂, h₂⟩ ⟨⟨hlead, hgreater, -⟩, hnext⟩
    refine (chainTail_again _ _).bind ?_
    rintro ⟨chain, s₃, h₃⟩ ⟨ps, hps, hends, hmore⟩
    refine .pure ⟨op.op.piece :: (next.pieces ++ ps), by simp [Chain.pieces, hps],
      fun ht => .inr ?_, fun first' t rest hfirst ht hrest => ?_⟩
    · obtain ⟨k, hk, hop⟩ := binaryOp?_leads_piece op.op (next.pieces ++ ps)
      rw [ht.headKind_of_leads hk]
      exact hop
    · obtain ⟨⟨op', t₁, ht₁⟩, hop', hsame, ht⟩ := exists_operator? op.op ht (by simpa [hlead])
      obtain ⟨mid, hstart, ht⟩ := ht.append
      rw [chainTail, hop']
      refine (hnext t₁ mid hstart (endsOperand_of_operators (hends ht) hrest)).bind ?_
      rintro ⟨next', t₂, ht₂⟩ ⟨hnext', rfl⟩
      refine (hmore _ t₂ rest hnext' ht hrest).bind ?_
      rintro ⟨chain', t₃, ht₃⟩ ⟨hchain, htokens⟩
      have hop : op'.unspanned = op.unspanned := congrArg (Operator.mk default) hsame
      exact .pure ⟨by simp [Chain.unspanned, hfirst, hop, hchain], htokens⟩
termination_by 3 * s.size
decreasing_by all_goals omega

end

/-- The rest of an expression is read again after the same operand. -/
theorem exprFrom_again (first : Value) (s : TokenStream) :
    Ensures (exprFrom first s) fun r => ∃ ps, r.value.pieces = first.pieces ++ ps ∧
      (∀ {ts rest}, Starts ts ps rest →
        headKind ts = headKind rest ∨ (binaryOp? (headKind ts)).isSome) ∧
      ∀ first' t rest, first'.unspanned = first.unspanned → Starts t.tokens ps rest →
        endsExpr (headKind rest) →
        Gives (exprFrom first' t) fun r' =>
          r'.value.unspanned = r.value.unspanned ∧ r'.rest.tokens = rest := by
  unfold exprFrom
  refine (chainTail_again _ _).bind ?_
  rintro ⟨chain, s₁, h₁⟩ ⟨ps, hps, hends, hmore⟩
  refine .pure ⟨ps, by simp [Expr.pieces, hps], hends, fun first' t rest hfirst ht hrest => ?_⟩
  refine (hmore first' t rest hfirst ht hrest).bind ?_
  rintro ⟨chain', t₁, ht₁⟩ ⟨hchain, htokens⟩
  exact .pure ⟨by simp [Expr.unspanned, hchain], htokens⟩

end Parser

end KilnLang
