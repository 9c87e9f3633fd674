import KilnLang.Proofs.Syntax.Printing
import KilnLang.Proofs.Syntax.Reading
import KilnLang.Proofs.Syntax.Unspanned

/-!
# Printed pieces ahead of a parser

The tokens of a stream *start* with printed pieces if they are those of the pieces, and then others
(`Starts`). This module says what the parsers of single tokens give there, and which kind of token
comes next: the one that the pieces *lead* with (`leads`), or the first one after them.
-/

namespace KilnLang

/-! ## Runs that succeed -/

/-- The run succeeds, and its result satisfies `Q`. -/
def Gives {ε ρ : Type} (run : Except ε ρ) (Q : ρ → Prop) : Prop := ∃ r, run = .ok r ∧ Q r

namespace Gives

variable {ε ρ σ : Type} {Q : ρ → Prop} {R : σ → Prop}

theorem ok {r : ρ} (h : Q r) : Gives (.ok r : Except ε ρ) Q := ⟨r, rfl, h⟩

theorem pure {r : ρ} (h : Q r) : Gives (Pure.pure r : Except ε ρ) Q := ok h

theorem bind {run : Except ε ρ} {next : ρ → Except ε σ} (h : Gives run Q)
    (hnext : ∀ r, Q r → Gives (next r) R) : Gives (run >>= next) R := by
  obtain ⟨r, rfl, hr⟩ := h
  exact hnext r hr

theorem map {run : Except ε ρ} {f : ρ → σ} (h : Gives run Q) (hf : ∀ r, Q r → R (f r)) :
    Gives (run.map f) R := by
  obtain ⟨r, rfl, hr⟩ := h
  exact ok (hf r hr)

end Gives

/-! ## Printed pieces ahead -/

/-- The kind of the first token, that of the end if there is none. -/
def headKind : List Token → TokenKind
  | [] => .eof
  | t :: _ => t.kind

/-- The kind of the first token of printed pieces, if they have one. -/
def Piece.kind? : Piece → Option TokenKind
  | .mark kind => some kind
  | .word kind _ => some kind
  | .length _ => some .intLiteral
  | .shift => some .greater
  | .optional .semi => some .semi
  | .optional .comma => none

/-- The kind of the first token of printed pieces, if there is one. -/
def leads (ps : List Piece) : Option TokenKind := ps.findSome? Piece.kind?

@[simp] theorem leads_nil : leads [] = none := rfl

@[simp] theorem leads_append (ps qs : List Piece) :
    leads (ps ++ qs) = (leads ps).or (leads qs) := by
  simp [leads, List.findSome?_append]

@[simp] theorem leads_mark (k : TokenKind) (ps : List Piece) : leads (.mark k :: ps) = some k := rfl

@[simp] theorem leads_ident (name : Ident) (ps : List Piece) :
    leads (name.piece :: ps) = some .ident := rfl

@[simp] theorem leads_semi (ps : List Piece) : leads (.optional .semi :: ps) = some .semi := rfl

@[simp] theorem leads_comma (ps : List Piece) : leads (.optional .comma :: ps) = leads ps := rfl

theorem leads_closing_cons {item : List Piece} {k : TokenKind} (h : leads item = some k)
    (items : List (List Piece)) : leads (Piece.closing (item :: items)) = some k := by
  simp [Piece.closing, Piece.joined, h]

/-- The tokens are those of the printed pieces, and then those of `rest`. -/
def Starts (ts : List Token) (ps : List Piece) (rest : List Token) : Prop :=
  ∃ us, ts = us ++ rest ∧ Written ps us

namespace Starts

variable {ts rest : List Token} {ps qs : List Piece} {k : TokenKind} {t : TokenStream}

theorem eq_of_nil (h : Starts ts [] rest) : ts = rest := by
  obtain ⟨us, rfl, hus⟩ := h
  cases hus
  rfl

theorem append (h : Starts ts (ps ++ qs) rest) : ∃ mid, Starts ts ps mid ∧ Starts mid qs rest := by
  obtain ⟨us, rfl, hus⟩ := h
  induction ps generalizing us with
  | nil => exact ⟨_, ⟨[], rfl, .nil⟩, us, rfl, hus⟩
  | cons p ps ih =>
    cases hus with
    | mark hrest =>
      obtain ⟨mid, ⟨vs, hvs, hwritten⟩, hmid⟩ := ih _ hrest
      exact ⟨mid, ⟨_ :: vs, by rw [List.cons_append, hvs]; rfl, .mark hwritten⟩, hmid⟩
    | word hline hrest =>
      obtain ⟨mid, ⟨vs, hvs, hwritten⟩, hmid⟩ := ih _ hrest
      exact ⟨mid, ⟨_ :: vs, by rw [List.cons_append, hvs]; rfl, .word hline hwritten⟩, hmid⟩
    | length hkind htext hrest =>
      obtain ⟨mid, ⟨vs, hvs, hwritten⟩, hmid⟩ := ih _ hrest
      exact ⟨mid, ⟨_ :: vs, by rw [List.cons_append, hvs]; rfl, .length hkind htext hwritten⟩, hmid⟩
    | shift hfirst hsecond hadjacent hrest =>
      obtain ⟨mid, ⟨vs, hvs, hwritten⟩, hmid⟩ := ih _ hrest
      exact ⟨mid, ⟨_ :: _ :: vs, by rw [List.cons_append, List.cons_append, hvs]; rfl,
        .shift hfirst hsecond hadjacent hwritten⟩, hmid⟩
    | semi hkind hrest =>
      obtain ⟨mid, ⟨vs, hvs, hwritten⟩, hmid⟩ := ih _ hrest
      exact ⟨mid, ⟨_ :: vs, by rw [List.cons_append, hvs]; rfl, .semi hkind hwritten⟩, hmid⟩
    | comma hrest =>
      obtain ⟨mid, ⟨vs, hvs, hwritten⟩, hmid⟩ := ih _ hrest
      exact ⟨mid, ⟨vs, hvs, .comma hwritten⟩, hmid⟩

/-- The first token is that of the pieces, or of what comes after them. -/
theorem headKind_eq (h : Starts ts ps rest) : headKind ts = (leads ps).getD (headKind rest) := by
  obtain ⟨us, rfl, hus⟩ := h
  induction hus with
  | nil => rfl
  | mark => rfl
  | word => rfl
  | length hkind => exact hkind
  | shift hfirst => exact hfirst
  | semi hkind => exact hkind
  | comma _ ih => exact ih

theorem headKind_of_leads (h : Starts ts ps rest) (hk : leads ps = some k) : headKind ts = k := by
  rw [h.headKind_eq, hk]
  rfl

/-- An item of a list, and then the closing parenthesis, or a comma before the other items. -/
theorem item {item : List Piece} {items : List (List Piece)}
    (h : Starts ts (Piece.closing (item :: items)) rest) :
    ∃ mid, Starts ts item mid ∧
      (items = [] ∧ headKind mid = .rparen ∧ Starts mid [.optional .comma, .mark .rparen] rest ∨
        items ≠ [] ∧ headKind mid = .comma ∧
          Starts mid (.mark .comma :: Piece.closing items) rest) := by
  cases items with
  | nil =>
    rw [Piece.closing_singleton] at h
    obtain ⟨mid, hitem, hclose⟩ := h.append
    exact ⟨mid, hitem, .inl ⟨rfl, hclose.headKind_of_leads rfl, hclose⟩⟩
  | cons next more =>
    rw [Piece.closing_cons_cons] at h
    obtain ⟨mid, hitem, hmore⟩ := h.append
    exact ⟨mid, hitem, .inr ⟨List.cons_ne_nil _ _, hmore.headKind_of_leads rfl, hmore⟩⟩

end Starts

namespace TokenStream

variable {s t : TokenStream} {k : TokenKind} {ps : List Piece} {rest : List Token}

theorem kind_eq_headKind (s : TokenStream) : s.kind = headKind s.tokens := by
  obtain ⟨last, _ | ⟨u, us⟩, stop⟩ := s <;> rfl

theorem take?_of_tokens {u : Token} {us : List Token} (h : s.tokens = u :: us) :
    ∃ r : Step s Token, s.take? u.kind = some r ∧ r.value = u ∧ r.rest.tokens = us := by
  obtain ⟨last, _ | ⟨v, vs⟩, stop⟩ := s
  · exact nomatch h
  · cases h
    exact ⟨_, if_pos rfl, rfl, rfl⟩

theorem take?_of_ne (h : headKind s.tokens ≠ k) : s.take? k = none := by
  obtain ⟨last, _ | ⟨v, vs⟩, stop⟩ := s
  · rfl
  · exact if_neg h

theorem take?_of_headKind {k' : TokenKind} (h : headKind s.tokens = k')
    (hk : k' ≠ k := by decide) : s.take? k = none :=
  take?_of_ne (by rwa [h])

theorem headKind_of_take? {r : Step s Token} (h : s.take? k = some r) : headKind s.tokens = k := by
  obtain ⟨htokens, hk⟩ := tokens_of_take? h
  rw [htokens]
  exact hk

theorem headKind_ne_of_take? (h : s.take? k = none) (hk : k ≠ .eof := by decide) :
    headKind s.tokens ≠ k := by
  obtain ⟨last, _ | ⟨v, vs⟩, stop⟩ := s
  · exact hk.symm
  · rintro rfl
    exact nomatch (if_pos rfl).symm.trans h

/-- What is not taken here is not taken where the same kind of token comes next. -/
theorem take?_of_headKind_eq (h : s.take? k = none) (hhead : headKind t.tokens = headKind s.tokens)
    (hk : k ≠ .eof := by decide) : t.take? k = none :=
  take?_of_ne (by rw [hhead]; exact headKind_ne_of_take? h hk)

/-- A symbol or keyword ahead is taken. -/
theorem exists_take? (h : Starts t.tokens (.mark k :: ps) rest) :
    ∃ r : Step t Token, t.take? k = some r ∧ Starts r.rest.tokens ps rest := by
  obtain ⟨us, hus, hwritten⟩ := h
  cases hwritten with
  | mark hrest =>
    obtain ⟨r, htake, -, htokens⟩ := take?_of_tokens hus
    exact ⟨r, htake, _, htokens, hrest⟩

theorem expect_gives (h : Starts t.tokens (.mark k :: ps) rest) :
    Gives (t.expect k) fun r => Starts r.rest.tokens ps rest := by
  obtain ⟨r, htake, hrest⟩ := exists_take? h
  unfold expect
  rw [htake]
  exact .ok hrest

/-- A name or a literal ahead is taken, which is on the same line. -/
theorem exists_take?_word {text : String} (h : Starts t.tokens (.word k text :: ps) rest) :
    ∃ r : Step t Token, t.take? k = some r ∧ r.value.text = text ∧ r.value.fresh = false ∧
      Starts r.rest.tokens ps rest := by
  obtain ⟨us, hus, hwritten⟩ := h
  cases hwritten with
  | word hline hrest =>
    obtain ⟨r, htake, rfl, htokens⟩ := take?_of_tokens hus
    exact ⟨r, htake, rfl, hline, _, htokens, hrest⟩

theorem ident_gives {name : Ident} (h : Starts t.tokens (name.piece :: ps) rest) :
    Gives t.ident fun r => r.value.unspanned = name.unspanned ∧ Starts r.rest.tokens ps rest := by
  obtain ⟨r, htake, htext, -, hrest⟩ := exists_take?_word h
  unfold ident expect
  rw [htake]
  refine .ok ⟨?_, hrest⟩
  simp [Step.map, Ident.unspanned, htext]

theorem ident_head (s : TokenStream) : Ensures s.ident fun _ => headKind s.tokens = .ident := by
  unfold ident expect
  split
  · exact .ok (headKind_of_take? ‹_›)
  · exact .error

theorem closeList_gives
    (h : Starts t.tokens (.optional .comma :: .mark .rparen :: ps) rest) :
    Gives t.closeList fun r => Starts r.rest.tokens ps rest := by
  obtain ⟨us, hus, hwritten⟩ := h
  cases hwritten with
  | comma hrest =>
    obtain ⟨r, htake, hrest⟩ := exists_take? ⟨us, hus, hrest⟩
    unfold closeList
    rw [htake]
    exact .ok hrest

theorem skip_of_ne (h : headKind t.tokens ≠ k) : (t.skip k).rest = t := by
  unfold TokenStream.skip
  rw [take?_of_ne h]
  rfl

/-- A printed semicolon is skipped. -/
theorem skip_semi (h : Starts t.tokens (.optional .semi :: ps) rest) :
    Starts (t.skip .semi).rest.tokens ps rest := by
  obtain ⟨us, hus, hwritten⟩ := h
  cases hwritten with
  | semi hkind hrest =>
    obtain ⟨r, htake, -, htokens⟩ := take?_of_tokens hus
    rw [hkind] at htake
    unfold TokenStream.skip
    rw [htake]
    exact ⟨_, htokens, hrest⟩

theorem closeRest_gives
    (h : Starts t.tokens (.optional .comma :: .mark .rparen :: ps) rest) :
    Gives t.closeRest fun r => Starts r.rest.tokens ps rest := by
  have hhead : headKind t.tokens = .rparen := h.headKind_of_leads rfl
  have hskip : (t.skip .comma).rest = t := skip_of_ne (by rw [hhead]; decide)
  obtain ⟨us, hus, hwritten⟩ := h
  cases hwritten with
  | comma hrest =>
    obtain ⟨r, htake, hrest⟩ := exists_take? ⟨us, hus, hrest⟩
    unfold closeRest
    dsimp only
    split
    · rename_i step hstep
      have htokens : step.value :: step.rest.tokens = r.value :: r.rest.tokens := by
        rw [← (tokens_of_take? hstep).1, hskip, (tokens_of_take? htake).1]
      refine .ok ?_
      rw [(List.cons.inj htokens).2]
      exact hrest
    · rename_i hstep
      have hne := headKind_ne_of_take? hstep
      rw [hskip] at hne
      exact absurd hhead hne

end TokenStream

end KilnLang
