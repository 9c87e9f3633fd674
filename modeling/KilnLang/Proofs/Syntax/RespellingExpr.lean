import KilnLang.Proofs.Syntax.RereadingExpr

/-!
# Types and expressions in another spelling

A list of tokens **respells** pieces that another one spells (`Respelled`) if both are the pieces in
order, with the same separators where they may be left out. There is one exception: the second list
may have a comma before the parenthesis that closes a list where the first has none.

A parser looks at three things besides the kinds and texts of tokens: whether a name starts a line,
whether two closing angle brackets are adjacent, and spans, which it copies. A list and its
respelling agree on the first after each token (`Level`), and on the second where there is a shift.

**Invariant.** If a parser succeeds, then it succeeds on each respelling of what it reads and what
comes after, with the same tree up to spans, and leaves a respelling of what comes after. No
condition on what comes next is needed, because the kind of the next token is the same; or it is a
comma where it was a closing parenthesis, and both end types and expressions alike (`Respelled.head`).
-/

namespace KilnLang

namespace Ensures

variable {ε ρ : Type} {Q Q' : ρ → Prop} {run : Except ε ρ}

theorem and (h : Ensures run Q) (h' : Ensures run Q') : Ensures run fun r => Q r ∧ Q' r :=
  fun r hr => ⟨h r hr, h' r hr⟩

end Ensures

/-! ## Respelling -/

/-- The tokens have the same kind and text. -/
structure Token.Like (t u : Token) : Prop where
  kind : u.kind = t.kind
  text : u.text = t.text

/-- If the next token is a name, both lists have a line break before it, or none has. -/
def Level : List Token → List Token → Prop
  | t :: _, u :: _ => t.kind = .ident → u.fresh = t.fresh
  | _, _ => True

/-- Both lists of tokens are the pieces in order, and leave out the same separators, but that the
second may have a comma before a closing parenthesis. -/
inductive Respelled : List Piece → List Token → List Token → Prop
  | nil : Respelled [] [] []
  | mark {k : TokenKind} {t u : Token} {ps : List Piece} {ts us : List Token} (kind : t.kind = k)
      (like : t.Like u) (level : Level ts us) (rest : Respelled ps ts us) :
      Respelled (.mark k :: ps) (t :: ts) (u :: us)
  | word {t u : Token} {ps : List Piece} {ts us : List Token} (like : t.Like u)
      (level : Level ts us) (rest : Respelled ps ts us) :
      Respelled (.word t.kind t.text :: ps) (t :: ts) (u :: us)
  | length {value : Nat} {t u : Token} {ps : List Piece} {ts us : List Token}
      (kind : t.kind = .intLiteral) (text : IntLiteral.value? t.text = some value)
      (like : t.Like u) (level : Level ts us) (rest : Respelled ps ts us) :
      Respelled (.length value :: ps) (t :: ts) (u :: us)
  | shift {t t' u u' : Token} {ps : List Piece} {ts us : List Token} (kind : t.kind = .greater)
      (kind' : t'.kind = .greater) (like : t.Like u) (like' : t'.Like u')
      (adjacent : u'.span.start = u.span.stop) (level : Level ts us) (rest : Respelled ps ts us) :
      Respelled (.shift :: ps) (t :: t' :: ts) (u :: u' :: us)
  | omitted {sep : Separator} {ps : List Piece} {ts us : List Token} (rest : Respelled ps ts us) :
      Respelled (.optional sep :: ps) ts us
  | kept {sep : Separator} {t u : Token} {ps : List Piece} {ts us : List Token}
      (kind : t.kind = sep.kind) (like : t.Like u) (level : Level ts us)
      (rest : Respelled ps ts us) : Respelled (.optional sep :: ps) (t :: ts) (u :: us)
  | added {u : Token} {ps : List Piece} {ts us : List Token} (close : headKind ts = .rparen)
      (kind : u.kind = .comma) (rest : Respelled ps ts us) :
      Respelled (.optional .comma :: ps) ts (u :: us)

theorem Level.of_headKind {ts : List Token} (h : headKind ts ≠ .ident) (us : List Token) :
    Level ts us := by
  cases ts with
  | nil => trivial
  | cons t ts =>
    cases us with
    | nil => trivial
    | cons u us => exact fun hident => absurd hident h

namespace Respelled

variable {ps : List Piece} {ts us : List Token} {k : TokenKind}

/-- The next tokens are of the same kind, or one is a closing parenthesis and the other a comma. -/
theorem head (h : Respelled ps ts us) :
    headKind us = headKind ts ∨ headKind ts = .rparen ∧ headKind us = .comma := by
  induction h with
  | nil => exact .inl rfl
  | mark _ like => exact .inl like.kind
  | word like => exact .inl like.kind
  | length _ _ like => exact .inl like.kind
  | shift _ _ like => exact .inl like.kind
  | omitted _ ih => exact ih
  | kept _ like => exact .inl like.kind
  | added close kind => exact .inr ⟨close, kind⟩

/-- Pieces that lead with no semicolon are spelled by tokens that start with none. -/
theorem head_ne_semi (h : Respelled ps ts us) (hps : leads ps ≠ some .semi) :
    headKind ts ≠ .semi := by
  induction h with
  | nil => exact TokenKind.noConfusion
  | mark kind => exact fun hsemi => hps (congrArg some (kind.symm.trans hsemi))
  | word => exact fun hsemi => hps (congrArg some hsemi)
  | length kind =>
    intro hsemi
    cases kind.symm.trans hsemi
  | shift kind =>
    intro hsemi
    cases kind.symm.trans hsemi
  | @omitted sep _ _ _ _ ih =>
    cases sep with
    | semi => exact absurd rfl hps
    | comma => exact ih hps
  | @kept sep _ _ _ _ _ kind =>
    cases sep with
    | semi => exact absurd rfl hps
    | comma =>
      intro hsemi
      cases kind.symm.trans hsemi
  | added close =>
    intro hsemi
    cases close.symm.trans hsemi

end Respelled

/-- What comes after an item of a list: the closing parenthesis, or a comma and further items. -/
def Piece.ending : List (List Piece) → List Piece
  | [] => [.optional .comma, .mark .rparen]
  | next :: more => .mark .comma :: closing (next :: more)

theorem Piece.closing_cons (item : List Piece) (items : List (List Piece)) :
    closing (item :: items) = item ++ ending items := by
  cases items with
  | nil => exact closing_singleton item
  | cons next more => exact closing_cons_cons item next more

namespace TokenStream

/-- What is left of `t` respells the pieces that are left of `s`. -/
def Respells (ps : List Piece) (s t : TokenStream) : Prop := Respelled ps s.tokens t.tokens

/-- What is left of `t` respells the pieces that are left of `s`, also in the line break before. -/
structure Abreast (ps : List Piece) (s t : TokenStream) : Prop where
  level : Level s.tokens t.tokens
  respells : Respells ps s t

variable {s t : TokenStream} {k : TokenKind} {ps : List Piece}

/-! ## Single tokens -/

namespace Respells

/-- A token for a piece is taken in both spellings. -/
theorem advance? {p : Piece} (h : Respells (p :: ps) s t) (hp : Parser.isToken p) :
    Parser.Fits t.peek p ∧ ∃ r r', Parser.advance? s = some r ∧ Parser.advance? t = some r' ∧
      Abreast ps r.rest r'.rest := by
  obtain ⟨last, ts, stop⟩ := s
  obtain ⟨last', us, stop'⟩ := t
  cases h with
  | mark kind like level rest =>
    exact ⟨like.kind.trans kind, _, _, if_pos rfl, if_pos rfl, level, rest⟩
  | word like level rest =>
    exact ⟨⟨like.kind, like.text⟩, _, _, if_pos rfl, if_pos rfl, level, rest⟩
  | _ => cases hp

/-- A symbol or keyword is taken in both spellings. -/
theorem mark (h : Respells (.mark k :: ps) s t) :
    ∃ r r', s.take? k = some r ∧ t.take? k = some r' ∧ Abreast ps r.rest r'.rest := by
  obtain ⟨last, ts, stop⟩ := s
  obtain ⟨last', us, stop'⟩ := t
  cases h with
  | mark kind like level rest =>
    exact ⟨_, _, if_pos kind, if_pos (like.kind.trans kind), level, rest⟩

/-- A separator is taken in both spellings or left out in both, or a comma is added before a closing
parenthesis. -/
theorem optional {sep : Separator} (h : Respells (.optional sep :: ps) s t) :
    Respells ps s t ∨
    (∃ r r', s.take? sep.kind = some r ∧ t.take? sep.kind = some r' ∧ Abreast ps r.rest r'.rest) ∨
    sep = .comma ∧ headKind s.tokens = .rparen ∧
      ∃ r', t.take? .comma = some r' ∧ Respells ps s r'.rest := by
  obtain ⟨last, ts, stop⟩ := s
  obtain ⟨last', us, stop'⟩ := t
  cases h with
  | omitted rest => exact .inl rest
  | kept kind like level rest =>
    exact .inr (.inl ⟨_, _, if_pos kind, if_pos (like.kind.trans kind), level, rest⟩)
  | added close kind rest => exact .inr (.inr ⟨rfl, close, _, if_pos kind, rest⟩)

/-- The length of an array is taken in both spellings, and has the same value. -/
theorem length {n : Nat} (h : Respells (.length n :: ps) s t) :
    ∃ r r', s.take? .intLiteral = some r ∧ t.take? .intLiteral = some r' ∧
      IntLiteral.value? r'.value.text = some n ∧ Abreast ps r.rest r'.rest := by
  obtain ⟨last, ts, stop⟩ := s
  obtain ⟨last', us, stop'⟩ := t
  cases h with
  | length kind text like level rest =>
    refine ⟨_, _, if_pos kind, if_pos (like.kind.trans kind), ?_, level, rest⟩
    rwa [like.text]

/-- A shift is taken in both spellings. -/
theorem shift (h : Respells (.shift :: ps) s t) :
    ∃ r r', s.take? .greater = some r ∧ t.take? .greater = some r' ∧
      ∃ second second', r.rest.take? .greater = some second ∧
        r'.rest.take? .greater = some second' ∧
        second'.value.span.start = r'.value.span.stop ∧ Abreast ps second.rest second'.rest := by
  obtain ⟨last, ts, stop⟩ := s
  obtain ⟨last', us, stop'⟩ := t
  cases h with
  | shift kind kind' like like' adjacent level rest =>
    exact ⟨_, _, if_pos kind, if_pos (like.kind.trans kind), _, _, if_pos kind',
      if_pos (like'.kind.trans kind'), adjacent, level, rest⟩

/-- What does not come next does not come next in another spelling, unless it is the comma that is
added. -/
theorem kind_ne (h : Respells ps s t) (hs : s.kind ≠ k) (hcomma : k ≠ .comma := by decide) :
    t.kind ≠ k := by
  rw [s.kind_eq_headKind] at hs
  rw [t.kind_eq_headKind]
  obtain heq | ⟨-, heq⟩ := h.head
  · rwa [heq]
  · rw [heq]
    exact hcomma.symm

theorem take?_eq_none (h : Respells ps s t) (hs : s.take? k = none)
    (hk : k ≠ .eof := by decide) (hcomma : k ≠ .comma := by decide) : t.take? k = none := by
  have hne : s.kind ≠ k := by
    rw [s.kind_eq_headKind]
    exact headKind_ne_of_take? hs hk
  refine take?_of_ne ?_
  rw [← t.kind_eq_headKind]
  exact h.kind_ne hne hcomma

/-- A symbol or keyword that is taken is taken in another spelling. -/
theorem take? {r : Step s Token} (h : Respells (.mark k :: ps) s t) (hs : s.take? k = some r) :
    ∃ r', t.take? k = some r' ∧ Abreast ps r.rest r'.rest := by
  obtain ⟨r₁, r', hr₁, hr', hrest⟩ := h.mark
  cases hs.symm.trans hr₁
  exact ⟨r', hr', hrest⟩

/-- A name that is taken is taken in another spelling, and starts a line there if it did. -/
theorem take?_ident {r : Step s Token} {name : Ident} (h : Respells (name.piece :: ps) s t)
    (hs : s.take? .ident = some r) :
    ∃ r', t.take? .ident = some r' ∧ r'.value.text = name.text ∧
      (Level s.tokens t.tokens → r'.value.fresh = r.value.fresh) ∧ Abreast ps r.rest r'.rest := by
  obtain ⟨last, ts, stop⟩ := s
  obtain ⟨last', us, stop'⟩ := t
  generalize hp : name.piece = p at h
  cases h with
  | word like level rest =>
    obtain ⟨hkind, htext⟩ := Piece.word.inj hp
    cases (if_pos hkind.symm).symm.trans hs
    exact ⟨_, if_pos (like.kind.trans hkind.symm), like.text.trans htext.symm,
      fun hlevel => hlevel hkind.symm, level, rest⟩
  | _ => cases hp

end Respells

theorem expect_respelled (s : TokenStream) (k : TokenKind) :
    Ensures (s.expect k) fun r => ∀ t ps, Respells (.mark k :: ps) s t →
      Gives (t.expect k) fun r' => Abreast ps r.rest r'.rest := by
  unfold expect
  split
  · rename_i r hr
    refine .ok fun t ps ht => ?_
    obtain ⟨r', htake, hrest⟩ := ht.take? hr
    rw [htake]
    exact .ok hrest
  · exact .error

theorem ident_respelled (s : TokenStream) :
    Ensures s.ident fun r => ∀ t ps, Respells (r.value.piece :: ps) s t →
      Gives t.ident fun r' =>
        r'.value.unspanned = r.value.unspanned ∧ Abreast ps r.rest r'.rest := by
  unfold ident expect
  split
  · rename_i r hr
    refine .ok fun t ps ht => ?_
    obtain ⟨r', htake, htext, -, hrest⟩ := ht.take?_ident hr
    rw [htake]
    refine .ok ⟨?_, hrest⟩
    simp [Step.map, Ident.unspanned, htext]
  · exact .error

/-! ## Separators -/

theorem skip_eq {r : Step s Token} (h : s.take? k = some r) : (s.skip k).rest = r.rest := by
  unfold skip
  rw [h]

/-- A semicolon is skipped in both spellings or in none, if what follows starts with none. -/
theorem Abreast.skip (h : Abreast (.optional .semi :: ps) s t) (hps : leads ps ≠ some .semi) :
    Abreast ps (s.skip .semi).rest (t.skip .semi).rest := by
  obtain hrest | ⟨r, r', hr, hr', hrest⟩ | ⟨hsep, -⟩ := h.respells.optional
  · have hs : s.kind ≠ .semi := by
      rw [s.kind_eq_headKind]
      exact hrest.head_ne_semi hps
    have ht : t.kind ≠ .semi := hrest.kind_ne hs
    rw [s.kind_eq_headKind] at hs
    rw [t.kind_eq_headKind] at ht
    rw [skip_of_ne hs, skip_of_ne ht]
    exact ⟨h.level, hrest⟩
  · rw [skip_eq (k := .semi) hr, skip_eq (k := .semi) hr']
    exact hrest
  · cases hsep

namespace Respells

/-- The comma after an item of a list is taken in both spellings, whether or not another item
follows. -/
theorem take?_comma {r : Step s Token} {items : List (List Piece)}
    (h : Respells (Piece.ending items ++ ps) s t) (hs : s.take? .comma = some r) :
    ∃ r', t.take? .comma = some r' ∧ Abreast (Piece.closing items ++ ps) r.rest r'.rest := by
  have hhead := headKind_of_take? hs
  cases items with
  | cons item items => exact Respells.take? h hs
  | nil =>
    obtain hrest | ⟨r₁, r', hr₁, hr', hrest⟩ | ⟨-, hclose, -⟩ := h.optional
    · obtain ⟨close, -, hclose, -⟩ := hrest.mark
      cases (headKind_of_take? hclose).symm.trans hhead
    · cases hs.symm.trans hr₁
      exact ⟨r', hr', hrest⟩
    · cases hclose.symm.trans hhead

/-- Before the parenthesis that closes a list, a comma may be skipped. -/
theorem skip_comma (h : Respells (Piece.ending [] ++ ps) s t) :
    Respells (.mark .rparen :: ps) (s.skip .comma).rest (t.skip .comma).rest := by
  have hstay : ∀ {s : TokenStream}, headKind s.tokens = .rparen → (s.skip .comma).rest = s :=
    fun hhead => skip_of_ne (by rw [hhead]; decide)
  obtain hrest | ⟨r, r', hr, hr', hrest⟩ | ⟨-, hclose, r', hr', hrest⟩ := h.optional
  · obtain ⟨close, close', hclose, hclose', -⟩ := hrest.mark
    rw [hstay (headKind_of_take? hclose), hstay (headKind_of_take? hclose')]
    exact hrest
  · rw [skip_eq (k := .comma) hr, skip_eq (k := .comma) hr']
    exact hrest.respells
  · rw [hstay hclose, skip_eq hr']
    exact hrest

/-- A list that is closed in one spelling is closed in the other, perhaps after a comma. -/
theorem close {r : Step s Token} (h : Respells (Piece.ending [] ++ ps) s t)
    (hs : s.take? .rparen = some r) :
    (∃ r', t.take? .rparen = some r' ∧ Abreast ps r.rest r'.rest) ∨
    ∃ comma, t.take? .comma = some comma ∧
      ∃ r', comma.rest.take? .rparen = some r' ∧ Abreast ps r.rest r'.rest := by
  have hhead := headKind_of_take? hs
  obtain hrest | ⟨comma, -, hcomma, -⟩ | ⟨-, -, comma, hcomma, hrest⟩ := h.optional
  · exact .inl (Respells.take? hrest hs)
  · cases (headKind_of_take? hcomma).symm.trans hhead
  · exact .inr ⟨comma, hcomma, Respells.take? hrest hs⟩

end Respells

theorem closeList_take? (s : TokenStream) :
    Ensures s.closeList fun r => ∃ close, s.take? .rparen = some close ∧ r.rest = close.rest := by
  unfold closeList
  split
  · exact .ok ⟨_, ‹_›, rfl⟩
  · exact .error

theorem closeList_eq {r : Step s Token} (h : s.take? .rparen = some r) :
    s.closeList = .ok (r.map fun _ => ()) := by
  unfold closeList
  rw [h]

theorem closeRest_take? (s : TokenStream) :
    Ensures s.closeRest fun r =>
      ∃ close, (s.skip .comma).rest.take? .rparen = some close ∧ r.rest = close.rest := by
  unfold closeRest
  dsimp only
  split
  · exact .ok ⟨_, ‹_›, rfl⟩
  · exact .error

theorem closeRest_rest {close : Step (s.skip .comma).rest Token}
    (h : (s.skip .comma).rest.take? .rparen = some close) :
    Gives s.closeRest fun r => r.rest = close.rest := by
  unfold closeRest
  dsimp only
  split
  · rename_i hclose
    cases h.symm.trans hclose
    exact .ok rfl
  · rename_i hnone
    cases h.symm.trans hnone

/-- A list is closed after its variadic marker in both spellings, each perhaps after a comma. -/
theorem closeRest_respelled (s : TokenStream) :
    Ensures s.closeRest fun r => ∀ t ps, Respells (Piece.ending [] ++ ps) s t →
      Gives t.closeRest fun r' => Abreast ps r.rest r'.rest := by
  intro r hr t ps ht
  obtain ⟨close, hclose, hrest⟩ := closeRest_take? s r hr
  obtain ⟨close', hclose', hsame⟩ := ht.skip_comma.take? hclose
  obtain ⟨r', hr', hrest'⟩ := closeRest_rest hclose'
  refine ⟨r', hr', ?_⟩
  show Abreast ps r.rest r'.rest
  rwa [hrest, hrest']

end TokenStream

namespace Parser

open TokenStream

/-! ## Types -/

theorem arrayLength_respelled (s : TokenStream) :
    Ensures (arrayLength s) fun r => ∀ t qs, Abreast ((r.value.map .length).toList ++ qs) s t →
      Gives (arrayLength t) fun r' => r'.value = r.value ∧ Abreast qs r.rest r'.rest := by
  unfold arrayLength
  split
  · rename_i hnone
    refine .ok fun t qs ht => ?_
    rw [ht.respells.take?_eq_none hnone]
    exact .ok ⟨rfl, ht⟩
  · rename_i r hr
    split
    · rename_i n hn
      refine .ok fun t qs ht => ?_
      obtain ⟨r₁, r', hr₁, hr', hsame, hrest⟩ := ht.respells.length
      cases hr.symm.trans hr₁
      rw [hr']
      dsimp only
      rw [hsame]
      exact .ok ⟨rfl, hrest⟩
    · exact .error

/-- The brackets after a type are read alike after the same type. -/
theorem arraySuffix_respelled (ty : TypeExpr) (s : TokenStream) :
    Ensures (arraySuffix ty s) fun r => ∃ ps, r.value.pieces = ty.pieces ++ ps ∧
      ∀ ty' t qs, ty'.unspanned = ty.unspanned → Abreast (ps ++ qs) s t →
        Gives (arraySuffix ty' t) fun r' =>
          r'.value.unspanned = r.value.unspanned ∧ Abreast qs r.rest r'.rest := by
  rw [arraySuffix]
  split
  · rename_i hnone
    refine .ok ⟨[], (List.append_nil _).symm, fun ty' t qs hty ht => ?_⟩
    rw [arraySuffix, ht.respells.take?_eq_none hnone]
    exact .ok ⟨hty, ht⟩
  · rename_i hopen
    refine (arrayLength_respelled _).bind ?_
    rintro ⟨length, s₂, h₂⟩ hlength
    refine (expect_respelled _ _).bind ?_
    rintro ⟨close, s₃, h₃⟩ hclose
    refine (arraySuffix_respelled _ _).bind ?_
    rintro ⟨ty₁, s₄, h₄⟩ ⟨ps, hps, hmore⟩
    refine .pure ⟨.mark .lbracket :: ((length.map .length).toList ++ .mark .rbracket :: ps), ?_, ?_⟩
    · rw [hps, TypeExpr.pieces]
      simp
    · intro ty' t qs hty ht
      rw [List.cons_append, List.append_assoc] at ht
      obtain ⟨⟨_, t₁, ht₁⟩, htake, ht⟩ := ht.respells.take? hopen
      rw [arraySuffix, htake]
      refine (hlength t₁ _ ht).bind ?_
      rintro ⟨length', t₂, ht₂⟩ ⟨rfl, ht⟩
      refine (hclose t₂ _ ht.respells).bind ?_
      rintro ⟨close', t₃, ht₃⟩ ht
      refine (hmore _ t₃ qs (by simp [TypeExpr.unspanned, hty]) ht).bind ?_
      rintro ⟨ty₁', t₄, ht₄⟩ hresult
      exact .pure hresult
termination_by s.size
decreasing_by all_goals omega

mutual

theorem typeExpr_respelled (s : TokenStream) :
    Ensures (typeExpr s) fun r => ∀ t qs, Respells (r.value.pieces ++ qs) s t →
      Gives (typeExpr t) fun r' =>
        r'.value.unspanned = r.value.unspanned ∧ Abreast qs r.rest r'.rest := by
  rw [typeExpr]
  split
  -- A reference: both texts have the word, and the same type after it.
  · rename_i href
    refine (typeExpr_respelled _).bind ?_
    rintro ⟨inner, s₂, h₂⟩ hinner
    refine .pure fun t qs ht => ?_
    obtain ⟨⟨_, t₁, ht₁⟩, htake, ht⟩ := Respells.take? ht href
    rw [typeExpr, htake]
    refine (hinner t₁ qs ht.respells).bind ?_
    rintro ⟨inner', t₂, ht₂⟩ ⟨hsame, ht⟩
    exact .pure ⟨by simp [TypeExpr.unspanned, hsame], ht⟩
  · rename_i href
    split
    -- A function: each part is read alike, and what is left of both texts is spelled alike.
    · rename_i hfunc
      refine (expect_respelled _ _).bind ?_
      rintro ⟨_, s₂, h₂⟩ hless
      refine (typeExpr_respelled _).bind ?_
      rintro ⟨ret, s₃, h₃⟩ hret
      refine (expect_respelled _ _).bind ?_
      rintro ⟨_, s₄, h₄⟩ hlparen
      refine (typeList_respelled _).bind ?_
      rintro ⟨⟨params, rest⟩, s₅, h₅⟩ hparams
      refine (expect_respelled _ _).bind ?_
      rintro ⟨close, s₆, h₆⟩ hgreater
      refine (arraySuffix_respelled _ _).bind ?_
      rintro ⟨ty, s₇, h₇⟩ ⟨ps, hps, hmore⟩
      refine .pure fun t qs ht => ?_
      simp only [hps, TypeExpr.pieces, Signature.pieces, List.cons_append, List.append_assoc,
        List.nil_append] at ht
      have hnone := ht.take?_eq_none href
      obtain ⟨⟨_, t₁, ht₁⟩, htake, ht⟩ := ht.take? hfunc
      rw [typeExpr, hnone, htake]
      refine (hless t₁ _ ht.respells).bind ?_
      rintro ⟨_, t₂, ht₂⟩ ht
      refine (hret t₂ _ ht.respells).bind ?_
      rintro ⟨ret', t₃, ht₃⟩ ⟨hret', ht⟩
      refine (hlparen t₃ _ ht.respells).bind ?_
      rintro ⟨_, t₄, ht₄⟩ ht
      refine (hparams t₄ _ ht.respells).bind ?_
      rintro ⟨⟨params', rest'⟩, t₅, ht₅⟩ ⟨hparams', hrest', ht⟩
      refine (hgreater t₅ _ ht.respells).bind ?_
      rintro ⟨close', t₆, ht₆⟩ ht
      refine (hmore _ t₆ qs ?_ ht).bind ?_
      · simp [TypeExpr.unspanned, Signature.unspanned, hret', hparams', hrest']
      rintro ⟨ty', t₇, ht₇⟩ hresult
      exact .pure hresult
    -- A name, or arrays of it.
    · rename_i hfunc
      refine (ident_respelled _).bind ?_
      rintro ⟨name, s₁, h₁⟩ hname
      refine (arraySuffix_respelled _ _).bind ?_
      rintro ⟨ty, s₂, h₂⟩ ⟨ps, hps, hmore⟩
      have hpieces : ty.pieces = name.piece :: ps := hps
      refine .pure fun t qs ht => ?_
      simp only [hpieces, List.cons_append] at ht
      rw [typeExpr, ht.take?_eq_none href, ht.take?_eq_none hfunc]
      refine (hname t _ ht).bind ?_
      rintro ⟨name', t₁, ht₁⟩ ⟨hname', ht⟩
      refine (hmore _ t₁ qs ?_ ht).bind ?_
      · simp [TypeExpr.unspanned, DottedName.unspanned, hname']
      rintro ⟨ty', t₂, ht₂⟩ hresult
      exact .pure hresult
termination_by 2 * s.size
decreasing_by all_goals omega

theorem typeList_respelled (s : TokenStream) :
    Ensures (typeList s) fun r => ∀ t qs,
      Respells (Piece.closing (TypeExpr.items r.value.1 ++ Rest.items r.value.2) ++ qs) s t →
      Gives (typeList t) fun r' =>
        TypeExpr.unspannedEach r'.value.1 = TypeExpr.unspannedEach r.value.1 ∧
        Rest.unspanned r'.value.2 = Rest.unspanned r.value.2 ∧ Abreast qs r.rest r'.rest := by
  rw [typeList]
  split
  · rename_i hrparen
    refine .ok fun t qs ht => ?_
    obtain ⟨r', htake, ht⟩ := Respells.take? ht hrparen
    rw [typeList, htake]
    exact .ok ⟨rfl, rfl, ht⟩
  · rename_i hrparen
    split
    · rename_i hellipsis
      refine (closeRest_respelled _).bind ?_
      rintro ⟨_, s₂, h₂⟩ hclose
      refine .pure fun t qs ht => ?_
      have hnone := ht.take?_eq_none hrparen
      obtain ⟨⟨_, t₁, ht₁⟩, htake, ht⟩ := Respells.take? ht hellipsis
      rw [typeList, hnone, htake]
      refine (hclose t₁ qs ht.respells).bind ?_
      rintro ⟨_, t₂, ht₂⟩ ht
      exact .pure ⟨rfl, rfl, ht⟩
    · rename_i hellipsis
      refine (typeExpr_respelled _).bind ?_
      rintro ⟨ty, s₁, h₁⟩ hty
      dsimp only
      split
      -- The type that was read is that of the rest.
      · rename_i hellipsis'
        refine (closeRest_respelled _).bind ?_
        rintro ⟨_, s₃, h₃⟩ hclose
        refine .pure fun t qs ht => ?_
        simp only [TypeExpr.items, Rest.items, List.nil_append, Piece.closing_cons,
          List.append_assoc, List.cons_append] at ht
        rw [typeList, ht.take?_eq_none hrparen, ht.take?_eq_none hellipsis]
        refine (hty t _ ht).bind ?_
        rintro ⟨ty', t₁, ht₁⟩ ⟨hsame, ht⟩
        obtain ⟨⟨_, t₂, ht₂⟩, htake, ht⟩ := ht.respells.take? hellipsis'
        dsimp only at htake ⊢
        rw [htake]
        refine (hclose t₂ qs ht.respells).bind ?_
        rintro ⟨_, t₃, ht₃⟩ ht
        exact .pure ⟨rfl, by simp [Rest.unspanned, hsame], ht⟩
      · rename_i hellipsis'
        split
        -- The list goes on after a comma, which is in both texts.
        · rename_i hcomma
          refine (typeList_respelled _).bind ?_
          rintro ⟨⟨params, rest⟩, s₃, h₃⟩ hmore
          refine .pure fun t qs ht => ?_
          simp only [TypeExpr.items, List.cons_append, Piece.closing_cons, List.append_assoc] at ht
          rw [typeList, ht.take?_eq_none hrparen, ht.take?_eq_none hellipsis]
          refine (hty t _ ht).bind ?_
          rintro ⟨ty', t₁, ht₁⟩ ⟨hsame, ht⟩
          dsimp only
          obtain ⟨⟨_, t₂, ht₂⟩, htake, hrest⟩ := ht.respells.take?_comma hcomma
          rw [ht.respells.take?_eq_none hellipsis', htake]
          refine (hmore t₂ qs hrest.respells).bind ?_
          rintro ⟨⟨params', rest'⟩, t₃, ht₃⟩ ⟨hparams, hrest, ht⟩
          exact .pure ⟨by simp [TypeExpr.unspannedEach, hsame, hparams], hrest, ht⟩
        -- The list ends without a comma, but the other text may have one there.
        · rename_i hcomma
          refine (closeList_take? _).bind ?_
          rintro ⟨_, s₂, h₂⟩ ⟨close, hclose, rfl⟩
          refine .pure fun t qs ht => ?_
          simp only [TypeExpr.items, Rest.items, List.append_nil, Piece.closing_cons,
            List.append_assoc] at ht
          rw [typeList, ht.take?_eq_none hrparen, ht.take?_eq_none hellipsis]
          refine (hty t _ ht).bind ?_
          rintro ⟨ty', t₁, ht₁⟩ ⟨hsame, ht⟩
          dsimp only
          rw [ht.respells.take?_eq_none hellipsis']
          obtain ⟨close', hclose', hrest⟩ | ⟨⟨_, t₂, ht₂⟩, htake, close', hclose', hrest⟩ :=
            ht.respells.close hclose
          · dsimp only
            rw [take?_of_headKind (headKind_of_take? hclose'), closeList_eq hclose']
            exact .ok ⟨by simp [TypeExpr.unspannedEach, hsame], rfl, hrest⟩
          · -- After the comma that is added, the list of types ends.
            dsimp only at hclose' ⊢
            rw [htake]
            dsimp only
            rw [typeList, hclose']
            exact .ok ⟨by simp [TypeExpr.unspannedEach, hsame, Step.map], rfl, hrest⟩
termination_by 2 * s.size + 1
decreasing_by all_goals omega

end

/-! ## Expressions -/

/-- The kinds of the next tokens that no parser of expressions tells apart. -/
theorem prefixOp?_respelled {s t : TokenStream} {ps : List Piece} (h : Respells ps s t) :
    prefixOp? t.kind = prefixOp? s.kind ∧ binaryOp? t.kind = binaryOp? s.kind ∧
      assignOp? t.kind = assignOp? s.kind ∧ (t.kind = .ident ↔ s.kind = .ident) := by
  rw [t.kind_eq_headKind, s.kind_eq_headKind]
  obtain heq | ⟨heq, heq'⟩ := h.head
  · rw [heq]
    exact ⟨rfl, rfl, rfl, .rfl⟩
  · rw [heq, heq']
    decide

theorem dottedTail_respelled (s : TokenStream) :
    Ensures (dottedTail s) fun r => ∀ t qs,
      Abreast (Piece.tailed .dot (r.value.map ([·.piece])) ++ qs) s t →
      Gives (dottedTail t) fun r' =>
        r'.value.map (·.unspanned) = r.value.map (·.unspanned) ∧ Abreast qs r.rest r'.rest := by
  rw [dottedTail]
  split
  · rename_i hdot
    refine .ok fun t qs ht => ?_
    rw [dottedTail, ht.respells.take?_eq_none hdot]
    exact .ok ⟨rfl, ht⟩
  · rename_i hdot
    refine (ident_respelled _).bind ?_
    rintro ⟨name, s₂, h₂⟩ hname
    refine (dottedTail_respelled _).bind ?_
    rintro ⟨names, s₃, h₃⟩ hmore
    refine .pure fun t qs ht => ?_
    obtain ⟨⟨_, t₁, ht₁⟩, htake, ht⟩ := Respells.take? ht.respells hdot
    rw [dottedTail, htake]
    refine (hname t₁ _ ht.respells).bind ?_
    rintro ⟨name', t₂, ht₂⟩ ⟨hname', ht⟩
    refine (hmore t₂ qs ht).bind ?_
    rintro ⟨names', t₃, ht₃⟩ ⟨hnames, ht⟩
    exact .pure ⟨by simp [hname', hnames], ht⟩
termination_by s.size
decreasing_by all_goals omega

theorem dottedName_respelled (s : TokenStream) :
    Ensures (dottedName s) fun r => ∀ t qs, Respells (r.value.pieces ++ qs) s t →
      Gives (dottedName t) fun r' =>
        r'.value.unspanned = r.value.unspanned ∧ Abreast qs r.rest r'.rest := by
  unfold dottedName
  refine (ident_respelled _).bind ?_
  rintro ⟨first, s₁, h₁⟩ hfirst
  refine (dottedTail_respelled _).bind ?_
  rintro ⟨more, s₂, h₂⟩ hmore
  refine .pure fun t qs ht => ?_
  refine (hfirst t _ ht).bind ?_
  rintro ⟨first', t₁, ht₁⟩ ⟨hfirst', ht⟩
  refine (hmore t₁ qs ht).bind ?_
  rintro ⟨more', t₂, ht₂⟩ ⟨hmore', ht⟩
  exact .pure ⟨by simp [DottedName.unspanned, hfirst', hmore'], ht⟩

theorem advance?_of_take? {s : TokenStream} {k : TokenKind} {r : Step s Token}
    (h : s.take? k = some r) : advance? s = some r := by
  rw [advance?, s.kind_eq_headKind, headKind_of_take? h, h]

/-- No operator is taken only where no operator comes next. -/
theorem binaryOp?_of_operator? {s : TokenStream} (h : operator? s = none) :
    binaryOp? s.kind = none := by
  obtain ⟨last, ts, stop⟩ := s
  cases ts with
  | nil => rfl
  | cons v vs =>
    have hadvance : advance? ⟨last, v :: vs, stop⟩ = some ⟨v, ⟨v.span, vs, stop⟩, by simp [size]⟩ :=
      if_pos rfl
    cases hop : binaryOp? (TokenStream.kind ⟨last, v :: vs, stop⟩) with
    | none => rfl
    | some op =>
      rw [operator?, hop, hadvance] at h
      dsimp only at h
      split_ifs at h
      split at h
      · split_ifs at h
      · cases h

theorem operator?_respelled_none {s t : TokenStream} {ps : List Piece} (h : operator? s = none)
    (ht : Respells ps s t) : operator? t = none := by
  rw [operator?, (prefixOp?_respelled ht).2.1, binaryOp?_of_operator? h]

theorem ne_shr_of_binaryOp? {k : TokenKind} {op : BinaryOp} (h : binaryOp? k = some op) :
    op ≠ .shr := by
  rintro rfl
  unfold binaryOp? at h
  split at h <;> cases h

/-- An operator is one token, or a shift, which is two. -/
theorem rest_of_operator? {s : TokenStream} {r : Step s Operator} (h : operator? s = some r) :
    ∃ step, advance? s = some step ∧ (r.value.op ≠ .shr ∧ r.rest = step.rest ∨
      r.value.op = .shr ∧
        ∃ second, step.rest.take? .greater = some second ∧ r.rest = second.rest) := by
  unfold operator? at h
  split at h
  · rename_i op step hop hstep
    refine ⟨step, hstep, ?_⟩
    have hne := ne_shr_of_binaryOp? hop
    split_ifs at h
    · split at h
      · rename_i second hsecond
        split_ifs at h
        · cases h
          exact .inr ⟨rfl, second, hsecond, rfl⟩
        · cases h
          exact .inl ⟨hne, rfl⟩
      · cases h
        exact .inl ⟨hne, rfl⟩
    · cases h
      exact .inl ⟨hne, rfl⟩
  · cases h

/-- An operator is taken in both spellings, unless something follows that could be a part of it. -/
theorem operator?_respelled {s t : TokenStream} {ps : List Piece} {r : Step s Operator}
    (h : operator? s = some r) (hnext : headKind r.rest.tokens ≠ .greater)
    (ht : Respells (r.value.op.piece :: ps) s t) :
    ∃ r', operator? t = some r' ∧ r'.value.unspanned = r.value.unspanned ∧
      Abreast ps r.rest r'.rest := by
  obtain ⟨step, hstep, ⟨hshr, hrest⟩ | ⟨hshr, second, hsecond, hrest⟩⟩ := rest_of_operator? h
  · obtain ⟨k, hpiece, hop⟩ := binaryOp?_of_piece hshr
    rw [hpiece] at ht
    obtain ⟨first, first', hfirst, hfirst', ht⟩ := ht.mark
    cases hstep.symm.trans (advance?_of_take? hfirst)
    have hkind : t.kind = k := t.kind_eq_headKind.trans (headKind_of_take? hfirst')
    rw [hrest] at hnext ⊢
    have hgreater : first'.rest.take? .greater = none :=
      ht.respells.take?_eq_none (take?_of_ne hnext)
    have hone : operator? t = some (first'.map fun u => ⟨u.span, r.value.op⟩) := by
      simp only [operator?, hkind, hop, advance?_of_take? hfirst', hgreater, ite_self]
    exact ⟨_, hone, rfl, ht⟩
  · rw [hshr] at ht
    obtain ⟨first, first', hfirst, hfirst', second₁, second', hsecond₁, hsecond', hadjacent, ht⟩ :=
      ht.shift
    cases hstep.symm.trans (advance?_of_take? hfirst)
    cases hsecond.symm.trans hsecond₁
    have hkind : t.kind = .greater := t.kind_eq_headKind.trans (headKind_of_take? hfirst')
    have hshift : operator? t = some (first'.andThen
        (second'.map fun u => ⟨first'.value.span.join u.span, .shr⟩)) := by
      simp only [operator?, hkind, binaryOp?, advance?_of_take? hfirst', hsecond', hadjacent, if_true]
    refine ⟨_, hshift, ?_, by rwa [hrest]⟩
    simp [Step.andThen, Step.map, Operator.unspanned, hshr]

mutual

theorem operand_respelled (s : TokenStream) :
    Ensures (operand s) fun r => ∀ t qs, Respells (r.value.pieces ++ qs) s t →
      Gives (operand t) fun r' =>
        r'.value.unspanned = r.value.unspanned ∧ Abreast qs r.rest r'.rest := by
  rw [operand]
  split
  · rename_i op _ _ _ hop hstart
    refine (operand_respelled _).bind ?_
    rintro ⟨value, s₂, h₂⟩ hvalue
    refine .pure fun t qs ht => ?_
    obtain ⟨hk, ⟨_, s₁, h₁⟩, ⟨_, t₁, ht₁⟩, hadvance, hadvance', ht⟩ := Respells.advance? ht rfl
    cases hstart.symm.trans hadvance
    have hk : t.kind = op.kind := hk
    rw [operand, hk, prefixOp?_kind, hadvance']
    refine (hvalue t₁ qs ht.respells).bind ?_
    rintro ⟨value', t₂, ht₂⟩ ⟨hsame, ht⟩
    exact .pure ⟨by simp [Value.unspanned, hsame], ht⟩
  · split
    · rename_i hliteral hstart
      obtain ⟨p, hp, -, htoken, hagain⟩ := piece_of_literal? hliteral
      refine (suffix_respelled _ _).bind ?_
      rintro ⟨value, s₂, h₂⟩ ⟨ps, hps, hmore⟩
      refine .pure fun t qs ht => ?_
      simp only [hps, hp, List.cons_append, List.nil_append] at ht
      obtain ⟨hfits, ⟨_, s₁, h₁⟩, ⟨_, t₁, ht₁⟩, hadvance, hadvance', ht⟩ := ht.advance? htoken
      cases hstart.symm.trans hadvance
      obtain ⟨value', hliteral', hsame⟩ := hagain _ hfits
      -- A literal that is spelled differently is still no operator.
      have hbegins : prefixOp? t.kind = none := (prefixOp?_of_literal? hliteral').1
      rw [operand, hbegins, hliteral', hadvance']
      refine (hmore _ t₁ qs hsame ht).bind ?_
      rintro ⟨value'', t₂, ht₂⟩ hresult
      exact .pure hresult
    · split
      · rename_i hlparen
        refine (expr_respelled _).bind ?_
        rintro ⟨inner, s₂, h₂⟩ hinner
        refine (expect_respelled _ _).bind ?_
        rintro ⟨close, s₃, h₃⟩ hrparen
        refine (suffix_respelled _ _).bind ?_
        rintro ⟨value, s₄, h₄⟩ ⟨ps, hps, hmore⟩
        refine .pure fun t qs ht => ?_
        simp only [hps, Value.pieces, pieces_respan, List.cons_append, List.append_assoc,
          List.nil_append] at ht
        obtain ⟨⟨_, t₁, ht₁⟩, htake, ht⟩ := ht.take? hlparen
        have hkind : t.kind = .lparen := t.kind_eq_headKind.trans (headKind_of_take? htake)
        have hnone : literal? t.peek = none := by rw [literal?, show t.peek.kind = _ from hkind]
        rw [operand, hnone, hkind, htake]
        refine (hinner t₁ _ ht.respells).bind ?_
        rintro ⟨inner', t₂, ht₂⟩ ⟨hsame, ht⟩
        refine (hrparen t₂ _ ht.respells).bind ?_
        rintro ⟨close', t₃, ht₃⟩ ht
        refine (hmore _ t₃ qs ?_ ht).bind ?_
        · simp [Value.unspanned, hsame]
        rintro ⟨value', t₄, ht₄⟩ hresult
        exact .pure hresult
      · split
        · rename_i href
          refine (operand_respelled _).bind ?_
          rintro ⟨inner, s₂, h₂⟩ hinner
          refine (suffix_respelled _ _).bind ?_
          rintro ⟨value, s₃, h₃⟩ ⟨ps, hps, hmore⟩
          refine .pure fun t qs ht => ?_
          simp only [hps, Value.pieces, List.cons_append, List.append_assoc] at ht
          obtain ⟨⟨_, t₁, ht₁⟩, htake, ht⟩ := ht.take? href
          rw [operand_ref htake]
          refine (hinner t₁ _ ht.respells).bind ?_
          rintro ⟨inner', t₂, ht₂⟩ ⟨hsame, ht⟩
          refine (hmore _ t₂ qs ?_ ht).bind ?_
          · simp [Value.unspanned, hsame]
          rintro ⟨value', t₃, ht₃⟩ hresult
          exact .pure hresult
        · split
          · rename_i hident
            refine (dottedName_respelled _).bind ?_
            rintro ⟨name, s₁, h₁⟩ hname
            refine (suffix_respelled _ _).bind ?_
            rintro ⟨value, s₂, h₂⟩ ⟨ps, hps, hmore⟩
            refine .pure fun t qs ht => ?_
            simp only [hps, Value.pieces, List.append_assoc] at ht
            -- Spelling keeps names names, so the other text starts with one as well.
            have hident' : t.kind = .ident := (prefixOp?_respelled ht).2.2.2.mpr hident
            rw [operand_ident (t.kind_eq_headKind.symm.trans hident')]
            refine (hname t _ ht).bind ?_
            rintro ⟨name', t₁, ht₁⟩ ⟨hsame, ht⟩
            refine (hmore _ t₁ qs ?_ ht).bind ?_
            · simp [Value.unspanned, hsame]
            rintro ⟨value', t₂, ht₂⟩ hresult
            exact .pure hresult
          · exact .error
termination_by 3 * s.size
decreasing_by all_goals omega

/-- The suffixes of an operand are read alike after the same operand. -/
theorem suffix_respelled (value : Value) (s : TokenStream) :
    Ensures (suffix value s) fun r => ∃ ps, r.value.pieces = value.pieces ++ ps ∧
      ∀ value' t qs, value'.unspanned = value.unspanned → Abreast (ps ++ qs) s t →
        Gives (suffix value' t) fun r' =>
          r'.value.unspanned = r.value.unspanned ∧ Abreast qs r.rest r'.rest := by
  rw [suffix]
  split
  · rename_i hlparen
    split
    · rename_i callee
      refine (arguments_respelled _).bind ?_
      rintro ⟨args, s₂, h₂⟩ hargs
      refine (suffix_respelled _ _).bind ?_
      rintro ⟨value, s₃, h₃⟩ ⟨ps, hps, hmore⟩
      refine .pure ⟨.mark .lparen :: (Piece.closing (Expr.items args) ++ ps),
        by simp [hps, Value.pieces], fun value' t qs hvalue ht => ?_⟩
      obtain ⟨callee', rfl, hcallee⟩ := eq_ident_of_unspanned hvalue
      rw [List.cons_append, List.append_assoc] at ht
      obtain ⟨⟨_, t₁, ht₁⟩, htake, ht⟩ := ht.respells.take? hlparen
      rw [suffix, htake]
      refine (hargs t₁ _ ht.respells).bind ?_
      rintro ⟨args', t₂, ht₂⟩ ⟨hargs', ht⟩
      refine (hmore _ t₂ qs ?_ ht).bind ?_
      · simp [Value.unspanned, hcallee, hargs']
      rintro ⟨value'', t₃, ht₃⟩ hresult
      exact .pure hresult
    · exact .error
  · rename_i hlparen
    split
    · rename_i hlbracket
      refine (expr_respelled _).bind ?_
      rintro ⟨position, s₂, h₂⟩ hposition
      refine (expect_respelled _ _).bind ?_
      rintro ⟨close, s₃, h₃⟩ hrbracket
      refine (suffix_respelled _ _).bind ?_
      rintro ⟨value₁, s₄, h₄⟩ ⟨ps, hps, hmore⟩
      refine .pure ⟨.mark .lbracket :: (position.pieces ++ .mark .rbracket :: ps),
        by simp [hps, Value.pieces], fun value' t qs hvalue ht => ?_⟩
      rw [List.cons_append, List.append_assoc] at ht
      -- A suffix that the first text has not does not come up in the second one.
      have hnone := ht.respells.take?_eq_none hlparen
      obtain ⟨⟨_, t₁, ht₁⟩, htake, ht⟩ := ht.respells.take? hlbracket
      rw [suffix, hnone, htake]
      refine (hposition t₁ _ ht.respells).bind ?_
      rintro ⟨position', t₂, ht₂⟩ ⟨hposition', ht⟩
      refine (hrbracket t₂ _ ht.respells).bind ?_
      rintro ⟨close', t₃, ht₃⟩ ht
      refine (hmore _ t₃ qs ?_ ht).bind ?_
      · simp [Value.unspanned, hvalue, hposition']
      rintro ⟨value'', t₄, ht₄⟩ hresult
      exact .pure hresult
    · rename_i hlbracket
      split
      · rename_i hsign
        refine (suffix_respelled _ _).bind ?_
        rintro ⟨value₁, s₂, h₂⟩ ⟨ps, hps, hmore⟩
        refine .pure ⟨.mark .plusPlus :: ps, by simp [hps, Value.pieces, UnaryOp.kind],
          fun value' t qs hvalue ht => ?_⟩
        have hnone := ht.respells.take?_eq_none hlparen
        have hnone' := ht.respells.take?_eq_none hlbracket
        obtain ⟨⟨_, t₁, ht₁⟩, htake, ht⟩ := Respells.take? ht.respells hsign
        rw [suffix, hnone, hnone', htake]
        refine (hmore _ t₁ qs ?_ ht).bind ?_
        · simp [Value.unspanned, hvalue]
        rintro ⟨value'', t₂, ht₂⟩ hresult
        exact .pure hresult
      · rename_i hinc
        split
        · rename_i hsign
          refine (suffix_respelled _ _).bind ?_
          rintro ⟨value₁, s₂, h₂⟩ ⟨ps, hps, hmore⟩
          refine .pure ⟨.mark .minusMinus :: ps, by simp [hps, Value.pieces, UnaryOp.kind],
            fun value' t qs hvalue ht => ?_⟩
          have hnone := ht.respells.take?_eq_none hlparen
          have hnone' := ht.respells.take?_eq_none hlbracket
          have hnone'' := ht.respells.take?_eq_none hinc
          obtain ⟨⟨_, t₁, ht₁⟩, htake, ht⟩ := Respells.take? ht.respells hsign
          rw [suffix, hnone, hnone', hnone'', htake]
          refine (hmore _ t₁ qs ?_ ht).bind ?_
          · simp [Value.unspanned, hvalue]
          rintro ⟨value'', t₂, ht₂⟩ hresult
          exact .pure hresult
        · rename_i hdec
          refine .ok ⟨[], (List.append_nil _).symm, fun value' t qs hvalue ht => ?_⟩
          -- No suffix follows in the first text, so none does in the second one.
          rw [suffix, ht.respells.take?_eq_none hlparen, ht.respells.take?_eq_none hlbracket,
            ht.respells.take?_eq_none hinc, ht.respells.take?_eq_none hdec]
          exact .ok ⟨hvalue, ht⟩
termination_by 3 * s.size
decreasing_by all_goals omega

theorem arguments_respelled (s : TokenStream) :
    Ensures (arguments s) fun r => ∀ t qs,
      Respells (Piece.closing (Expr.items r.value) ++ qs) s t →
      Gives (arguments t) fun r' =>
        Expr.unspannedEach r'.value = Expr.unspannedEach r.value ∧ Abreast qs r.rest r'.rest := by
  rw [arguments]
  split
  · rename_i hrparen
    refine .ok fun t qs ht => ?_
    obtain ⟨r', htake, ht⟩ := Respells.take? ht hrparen
    rw [arguments, htake]
    exact .ok ⟨rfl, ht⟩
  · rename_i hrparen
    refine (expr_respelled _).bind ?_
    rintro ⟨arg, s₁, h₁⟩ harg
    dsimp only
    split
    · rename_i hcomma
      refine (arguments_respelled _).bind ?_
      rintro ⟨args, s₃, h₃⟩ hmore
      refine .pure fun t qs ht => ?_
      simp only [Expr.items, Piece.closing_cons, List.append_assoc] at ht
      rw [arguments, ht.take?_eq_none hrparen]
      refine (harg t _ ht).bind ?_
      rintro ⟨arg', t₁, ht₁⟩ ⟨hsame, ht⟩
      obtain ⟨⟨_, t₂, ht₂⟩, htake, ht⟩ := ht.respells.take?_comma hcomma
      dsimp only at htake ⊢
      rw [htake]
      refine (hmore t₂ qs ht.respells).bind ?_
      rintro ⟨args', t₃, ht₃⟩ ⟨hargs, ht⟩
      exact .pure ⟨by simp [Expr.unspannedEach, hsame, hargs], ht⟩
    · refine (closeList_take? _).bind ?_
      rintro ⟨_, s₂, h₂⟩ ⟨close, hclose, rfl⟩
      refine .pure fun t qs ht => ?_
      simp only [Expr.items, Piece.closing_cons, List.append_assoc] at ht
      rw [arguments, ht.take?_eq_none hrparen]
      refine (harg t _ ht).bind ?_
      rintro ⟨arg', t₁, ht₁⟩ ⟨hsame, ht⟩
      -- The second text may have a comma before the parenthesis, which ends the list too.
      obtain ⟨close', hclose', hrest⟩ | ⟨⟨_, t₂, ht₂⟩, htake, close', hclose', hrest⟩ :=
        ht.respells.close hclose
      · dsimp only
        rw [take?_of_headKind (headKind_of_take? hclose'), closeList_eq hclose']
        exact .ok ⟨by simp [Expr.unspannedEach, hsame], hrest⟩
      · dsimp only at htake hclose' ⊢
        rw [htake]
        dsimp only
        rw [arguments, hclose']
        exact .ok ⟨by simp [Expr.unspannedEach, hsame, Step.map], hrest⟩
termination_by 3 * s.size + 2
decreasing_by all_goals omega

theorem expr_respelled (s : TokenStream) :
    Ensures (expr s) fun r => ∀ t qs, Respells (r.value.pieces ++ qs) s t →
      Gives (expr t) fun r' =>
        r'.value.unspanned = r.value.unspanned ∧ Abreast qs r.rest r'.rest := by
  rw [expr]
  refine (operand_respelled _).bind ?_
  rintro ⟨first, s₁, h₁⟩ hfirst
  refine (chainTail_respelled _ _).bind ?_
  rintro ⟨chain, s₂, h₂⟩ ⟨ps, hps, hmore⟩
  refine .pure fun t qs ht => ?_
  simp only [Expr.pieces, hps, List.append_assoc] at ht
  rw [expr]
  refine (hfirst t _ ht).bind ?_
  rintro ⟨first', t₁, ht₁⟩ ⟨hsame, ht⟩
  refine (hmore _ t₁ qs hsame ht).bind ?_
  rintro ⟨chain', t₂, ht₂⟩ ⟨hchain, ht⟩
  exact .pure ⟨by simp [Expr.unspanned, hchain], ht⟩
termination_by 3 * s.size + 1
decreasing_by all_goals omega

/-- Further operators and operands are read alike after the same operand. -/
theorem chainTail_respelled (first : Value) (s : TokenStream) :
    Ensures (chainTail first s) fun r => ∃ ps, r.value.pieces = first.pieces ++ ps ∧
      ∀ first' t qs, first'.unspanned = first.unspanned → Abreast (ps ++ qs) s t →
        Gives (chainTail first' t) fun r' =>
          r'.value.unspanned = r.value.unspanned ∧ Abreast qs r.rest r'.rest := by
  rw [chainTail]
  split
  · rename_i hnone
    refine .ok ⟨[], (List.append_nil _).symm, fun first' t qs hfirst ht => ?_⟩
    rw [chainTail, operator?_respelled_none hnone ht.respells]
    exact .ok ⟨by simp [Chain.unspanned, hfirst], ht⟩
  · rename_i op _ _ hop
    -- No operand starts with a closing angle bracket, so the operator ends here.
    refine ((operand_again _).and (operand_respelled _)).bind ?_
    rintro ⟨next, s₂, h₂⟩ ⟨⟨⟨-, hgreater, -⟩, -⟩, hnext⟩
    refine (chainTail_respelled _ _).bind ?_
    rintro ⟨chain, s₃, h₃⟩ ⟨ps, hps, hmore⟩
    refine .pure ⟨op.op.piece :: (next.pieces ++ ps), by simp [Chain.pieces, hps],
      fun first' t qs hfirst ht => ?_⟩
    rw [List.cons_append, List.append_assoc] at ht
    obtain ⟨⟨op', t₁, ht₁⟩, hop', hsame, ht⟩ := operator?_respelled hop hgreater ht.respells
    rw [chainTail, hop']
    refine (hnext t₁ _ ht.respells).bind ?_
    rintro ⟨next', t₂, ht₂⟩ ⟨hnext', ht⟩
    refine (hmore _ t₂ qs hnext' ht).bind ?_
    rintro ⟨chain', t₃, ht₃⟩ ⟨hchain, ht⟩
    have hsame : op'.unspanned = op.unspanned := hsame
    exact .pure ⟨by simp [Chain.unspanned, hfirst, hsame, hchain], ht⟩
termination_by 3 * s.size
decreasing_by all_goals omega

end

end Parser

end KilnLang
