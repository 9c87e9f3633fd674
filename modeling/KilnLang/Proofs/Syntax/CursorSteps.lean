import KilnLang.Proofs.Syntax.Cursor
import Mathlib.Order.Lattice
import Mathlib.Tactic.SplitIfs

/-!
# Positions and streams

A position stands for the stream of the tokens from there to the first end (`At`). From it a reader
does what the parser of the same name does from the stream (`Follows`): it gives the same value and
the position of the stream after it, or fails with the same error.

Parsers on streams end, because each of them leaves a shorter stream. So a reader that follows one
has a result, if it has four calls of depth for each token that is left.
-/

namespace KilnLang.Cursor

/-! ## Positions and streams -/

section Positions

variable {ts : List Token} {p q : Nat} {s : TokenStream} {k : TokenKind}

/-- The stream `s` is what the tokens are from the position `p` on to the first end. -/
structure At (ts : List Token) (p : Nat) (s : TokenStream) : Prop where
  tokens : s.tokens = (ts.take (limit ts)).drop p
  le : p ≤ limit ts
  stop : ∃ t, ts[limit ts]? = some t ∧ t.kind = .eof ∧ t.span = s.stop
  last : 0 < p → ∃ t, ts[p - 1]? = some t ∧ t.span = s.last

namespace At

theorem limit_lt (h : At ts p s) : limit ts < ts.length := by
  obtain ⟨t, ht, -⟩ := h.stop
  exact (List.getElem?_eq_some_iff.mp ht).1

theorem size (h : At ts p s) : s.size = limit ts - p := by
  rw [TokenStream.size, h.tokens, List.length_drop, List.length_take,
    Nat.min_eq_left h.limit_lt.le]

theorem lt_of_shorter {s' : TokenStream} (h : At ts p s) (h' : At ts q s')
    (hlt : s'.size < s.size) : p < q := by
  rw [h.size, h'.size] at hlt
  omega

theorem le_of_notLonger {s' : TokenStream} (h : At ts p s) (h' : At ts q s')
    (hle : s'.size ≤ s.size) : p ≤ q := by
  rw [h.size, h'.size] at hle
  have hp := h.le
  omega

/-- Something stands before the position after a token. -/
theorem pos_of_shorter {s' : TokenStream} (h : At ts p s) (h' : At ts q s')
    (hlt : s'.size < s.size) : 0 < q :=
  p.zero_le.trans_lt (h.lt_of_shorter h' hlt)

/-- The next token is in the stream, or it is the first end. -/
theorem next (h : At ts p s) :
    (∃ t rest, s.tokens = t :: rest ∧ ts[p]? = some t ∧ t.kind ≠ .eof ∧ p < limit ts) ∨
      ∃ t, s.tokens = [] ∧ ts[p]? = some t ∧ t.kind = .eof ∧ t.span = s.stop := by
  rcases h.le.lt_or_eq with hlt | rfl
  · have hp : p < ts.length := hlt.trans h.limit_lt
    refine .inl ⟨ts[p], (ts.take (limit ts)).drop (p + 1), ?_, List.getElem?_eq_getElem hp, ?_, hlt⟩
    · rw [h.tokens, List.drop_eq_getElem_cons (by simpa using ⟨hlt, hp⟩), List.getElem_take]
    · have hno := List.not_of_lt_findIdx hlt
      simpa using hno
  · obtain ⟨t, ht, hkind, hspan⟩ := h.stop
    refine .inr ⟨t, ?_, ht, hkind, hspan⟩
    rw [h.tokens, List.drop_eq_nil_of_le (List.length_take_le _ _)]

/-- After the next token of the stream. -/
theorem succ (h : At ts p s) {t : Token} {rest : List Token} (hs : s.tokens = t :: rest) :
    At ts (p + 1) ⟨t.span, rest, s.stop⟩ := by
  obtain ⟨u, more, hu, hget, -, hlt⟩ | ⟨u, hu, -⟩ := h.next
  · obtain ⟨rfl, rfl⟩ := List.cons.inj (hs.symm.trans hu)
    refine ⟨?_, hlt, h.stop, fun _ => ⟨t, hget, rfl⟩⟩
    rw [← List.drop_drop, ← h.tokens, hs]
    rfl
  · rw [hs] at hu
    exact nomatch hu

theorem get? (h : At ts p s) : ∃ t, ts[min p (ts.length - 1)]? = some t ∧ ts[p]? = some t ∧
    t.kind = s.kind ∧ t.span = s.peek.span ∧ (s.kind ≠ .eof → t = s.peek) := by
  have hle : p ≤ ts.length - 1 := Nat.le_sub_one_of_lt (h.le.trans_lt h.limit_lt)
  have hmin : min p (ts.length - 1) = p := Nat.min_eq_left hle
  rw [hmin]
  obtain ⟨t, rest, hs, hget, -⟩ | ⟨t, hs, hget, hkind, hspan⟩ := h.next
  · have hpeek : s.peek = t := by rw [TokenStream.peek, hs]
    exact ⟨t, hget, hget, by rw [TokenStream.kind, hpeek], by rw [hpeek], fun _ => hpeek.symm⟩
  · have hpeek : s.peek = ⟨.eof, "", s.stop, false⟩ := by rw [TokenStream.peek, hs]
    have hend : s.kind = .eof := by rw [TokenStream.kind, hpeek]
    exact ⟨t, hget, hget, hkind.trans hend.symm, by rw [hpeek, hspan], fun h => absurd hend h⟩

/-- At the end the position is that of the first end. -/
theorem eq_limit (h : At ts p s) (hend : s.kind = .eof) : p = limit ts := by
  obtain ⟨t, rest, hs, -, hkind, -⟩ | ⟨t, hs, -⟩ := h.next
  · have hpeek : s.peek = t := by rw [TokenStream.peek, hs]
    rw [TokenStream.kind, hpeek] at hend
    exact absurd hend hkind
  · have hsize := h.size
    rw [TokenStream.size, hs] at hsize
    have hle := h.le
    simp only [List.length_nil] at hsize
    omega

theorem peek (h : At ts p s) : ∃ t, Cursor.peek ts p = some (.ok t, p) ∧
    t.kind = s.kind ∧ t.span = s.peek.span ∧ (s.kind ≠ .eof → t = s.peek) := by
  obtain ⟨t, hget, -, ht⟩ := h.get?
  refine ⟨t, ?_, ht⟩
  rw [Cursor.peek, peekAt, Nat.add_zero, hget]
  rfl

theorem bump (h : At ts p s) (hk : s.kind ≠ .eof) :
    bump ts p = some (.ok s.peek, p + 1) := by
  obtain ⟨t, hget, hget', hkind, -, ht⟩ := h.get?
  obtain rfl := ht hk
  obtain ⟨u, more, -, -, -, hlt⟩ | ⟨u, -, hu, hend, -⟩ := h.next
  · rw [Cursor.bump, hget]
    change (if s.peek.kind = .eof then _ else if p < limit ts then _ else none) = _
    rw [hkind, if_neg hk, if_pos hlt]
  · rw [hget'] at hu
    cases hu
    exact absurd hend hk

end At

end Positions

/-! ## Following the parser -/

section Follows

variable {ts : List Token} {p q : Nat} {s : TokenStream} {k : TokenKind}
  {α β ρ σ : Type} {r : Reader α} {f : α → Reader β} {R : ρ → α → Nat → Prop}
  {Q : σ → β → Nat → Prop}

/-- From the position the reader does what the run does: it fails with the same error, at a position
up to the first end, or it gives a value and a position that `R` relates to the result. -/
def Follows (ts : List Token) (r : Reader α) (p : Nat) (run : Except ParseError ρ)
    (R : ρ → α → Nat → Prop) : Prop :=
  match run with
  | .ok x => ∃ a q, r p = some (.ok a, q) ∧ R x a q
  | .error e => ∃ q ≤ limit ts, r p = some (.error e, q)

theorem bind_ok {a : α} (h : r p = some (.ok a, q)) : (r >>= f) p = f a q := by
  change ((r p).bind fun x => ExceptT.bindCont f x.1 x.2) = f a q
  rw [h]
  rfl

theorem bind_error {e : ParseError} (h : r p = some (.error e, q)) :
    (r >>= f) p = some (.error e, q) := by
  change ((r p).bind fun x => ExceptT.bindCont f x.1 x.2) = _
  rw [h]
  rfl

theorem bind_congr_at {r' : Reader α} (heq : r p = r' q) : (r >>= f) p = (r' >>= f) q := by
  change ((r p).bind fun x => ExceptT.bindCont f x.1 x.2) = _
  rw [heq]
  rfl

theorem At.sees (h : At ts p s) : sees ts k p = some (.ok (s.kind = k), p) := by
  obtain ⟨t, ht, hkind, -⟩ := h.peek
  rw [Cursor.sees, bind_ok ht, hkind]
  rfl

namespace Follows

variable {run : Except ParseError ρ} {next : ρ → Except ParseError σ}

theorem congr {r' : Reader α} (heq : r p = r' q) (h : Follows ts r' q run R) :
    Follows ts r p run R := by
  unfold Follows at h ⊢
  rwa [heq]

theorem bind (h : Follows ts r p run R)
    (hnext : ∀ x a q, R x a q → Follows ts (f a) q (next x) Q) :
    Follows ts (r >>= f) p (run >>= next) Q := by
  cases run with
  | error e =>
    obtain ⟨q, hq, hr⟩ := h
    exact ⟨q, hq, bind_error hr⟩
  | ok x =>
    obtain ⟨a, q, hr, hR⟩ := h
    exact (hnext x a q hR).congr (bind_ok hr)

theorem pure {x : ρ} {a : α} (h : R x a p) : Follows ts (Pure.pure a) p (Pure.pure x) R :=
  ⟨a, p, rfl, h⟩

theorem throw {e : ParseError} (hle : p ≤ limit ts) :
    Follows ts (MonadExcept.throw e : Reader α) p (.error e) R :=
  ⟨p, hle, rfl⟩

/-- A reader that first looks at the next token. -/
theorem peeked (h : At ts p s) {f : Token → Reader α} (hnext : ∀ t, t.kind = s.kind →
    t.span = s.peek.span → (s.kind ≠ .eof → t = s.peek) → Follows ts (f t) p run R) :
    Follows ts (peek ts >>= f) p run R := by
  obtain ⟨t, ht, hkind, hspan, heq⟩ := h.peek
  exact (hnext t hkind hspan heq).congr (bind_ok ht)

/-- A reader that first looks whether a token of the kind comes next. -/
theorem sees (h : At ts p s) {f : Bool → Reader α}
    (hnext : Follows ts (f (s.kind = k)) p run R) :
    Follows ts (sees ts k >>= f) p run R :=
  hnext.congr (bind_ok h.sees)

end Follows

/-- What is taken from a stream is its next token. -/
theorem take?_eq_some {t : Token} {rest : TokenStream} {hlt : rest.size < s.size}
    (ht : s.take? k = some ⟨t, rest, hlt⟩) :
    s.tokens = t :: rest.tokens ∧ rest = ⟨t.span, rest.tokens, s.stop⟩ ∧ s.peek = t ∧
      t.kind = k := by
  obtain ⟨last, _ | ⟨u, us⟩, stop⟩ := s
  · exact nomatch ht
  · simp only [TokenStream.take?] at ht
    split_ifs at ht with hk
    cases ht
    exact ⟨rfl, rfl, rfl, hk⟩

theorem kind_of_take? {t : Token} {rest : TokenStream} {hlt : rest.size < s.size}
    (ht : s.take? k = some ⟨t, rest, hlt⟩) : s.kind = k := by
  obtain ⟨-, -, hpeek, hk⟩ := take?_eq_some ht
  rw [TokenStream.kind, hpeek, hk]

theorem kind_ne_of_take?_eq_none (hk : k ≠ .eof) (ht : s.take? k = none) : s.kind ≠ k := by
  obtain ⟨last, _ | ⟨u, us⟩, stop⟩ := s
  · exact hk.symm
  · simp only [TokenStream.take?] at ht
    split_ifs at ht with hu
    exact hu

/-- The next token can be taken, unless it is the end. -/
theorem exists_advance? (hk : s.kind ≠ .eof) :
    ∃ t rest hlt, Parser.advance? s = some ⟨t, rest, hlt⟩ := by
  obtain ⟨last, _ | ⟨u, us⟩, stop⟩ := s
  · exact absurd rfl hk
  · exact ⟨u, ⟨u.span, us, stop⟩, Nat.lt_succ_self _, if_pos rfl⟩

namespace At

variable {t : Token} {rest : TokenStream} {hlt : rest.size < s.size}

theorem taken (h : At ts p s) (ht : s.take? k = some ⟨t, rest, hlt⟩) : At ts (p + 1) rest := by
  obtain ⟨hs, hrest, -⟩ := take?_eq_some ht
  rw [hrest]
  exact h.succ hs

/-- A token that is taken is no end. -/
theorem kind_ne_eof (h : At ts p s) (ht : s.take? k = some ⟨t, rest, hlt⟩) : s.kind ≠ .eof := by
  obtain ⟨hs, -, hpeek, -⟩ := take?_eq_some ht
  obtain ⟨u, more, hu, -, hkind, -⟩ | ⟨u, hu, -⟩ := h.next
  · obtain ⟨rfl, -⟩ := List.cons.inj (hs.symm.trans hu)
    rwa [TokenStream.kind, hpeek]
  · rw [hs] at hu
    exact nomatch hu

theorem take?_some (h : At ts p s) (ht : s.take? k = some ⟨t, rest, hlt⟩) :
    Cursor.take? ts k p = some (.ok (some t), p + 1) := by
  obtain ⟨-, -, hpeek, hk⟩ := take?_eq_some ht
  have hkind : s.kind = k := by rw [TokenStream.kind, hpeek, hk]
  rw [Cursor.take?, bind_ok h.sees, decide_eq_true hkind, if_pos rfl,
    bind_ok (h.bump (h.kind_ne_eof ht)), hpeek]
  rfl

theorem expect (h : At ts p s) (ht : s.take? k = some ⟨t, rest, hlt⟩) :
    Cursor.expect ts k p = some (.ok t, p + 1) := by
  rw [Cursor.expect, bind_ok (h.take?_some ht)]
  rfl

theorem take?_none (h : At ts p s) (hk : k ≠ .eof) (ht : s.take? k = none) :
    Cursor.take? ts k p = some (.ok none, p) := by
  rw [Cursor.take?, bind_ok h.sees, decide_eq_false (kind_ne_of_take?_eq_none hk ht)]
  rfl

end At

namespace Follows

variable {run : Except ParseError ρ} {t : Token} {rest : TokenStream} {hlt : rest.size < s.size}
  {f : Option Token → Reader α}

theorem taken (h : At ts p s) (ht : s.take? k = some ⟨t, rest, hlt⟩)
    (hnext : At ts (p + 1) rest → Follows ts (f (some t)) (p + 1) run R) :
    Follows ts (take? ts k >>= f) p run R :=
  (hnext (h.taken ht)).congr (bind_ok (h.take?_some ht))

theorem bumped {f : Token → Reader α} (h : At ts p s)
    (ht : Parser.advance? s = some ⟨t, rest, hlt⟩)
    (hnext : At ts (p + 1) rest → Follows ts (f t) (p + 1) run R) :
    Follows ts (bump ts >>= f) p run R := by
  have hbump := h.bump (h.kind_ne_eof ht)
  rw [(take?_eq_some ht).2.2.1] at hbump
  exact (hnext (h.taken ht)).congr (bind_ok hbump)

theorem untaken (h : At ts p s) (hk : k ≠ .eof) (ht : s.take? k = none)
    (hnext : Follows ts (f none) p run R) : Follows ts (take? ts k >>= f) p run R :=
  hnext.congr (bind_ok (h.take?_none hk ht))

theorem unexpected (h : At ts p s) (kinds : List TokenKind) :
    Follows ts (Cursor.unexpected ts kinds : Reader α) p
      (.error (s.unexpected kinds) : Except ParseError ρ) R := by
  obtain ⟨t, hpeek, hkind, hspan, ht⟩ := h.peek
  refine ⟨p, h.le, ?_⟩
  have hkindError : (if t.kind = .eof then ParseCause.unexpectedEof else .unexpectedToken t.text)
      = if s.peek.kind = .eof then .unexpectedEof else .unexpectedToken s.peek.text := by
    by_cases hend : s.kind = .eof
    · rw [if_pos (hkind.trans hend), if_pos (show s.peek.kind = .eof from hend)]
    · rw [ht hend]
  rw [Cursor.unexpected, bind_ok hpeek, hkindError, hspan]
  rfl

/-- The span of the token before the position is that of the last token of the stream. -/
theorem previousSpan (h : At ts p s) (hpos : 0 < p) {f : Span → Reader α}
    (hnext : Follows ts (f s.last) p run R) : Follows ts (previousSpan ts >>= f) p run R := by
  obtain ⟨t, hpeek, -⟩ := h.peek
  obtain ⟨u, hu, hspan⟩ := h.last hpos
  refine hnext.congr (bind_ok ?_)
  have hposition : position p = some (.ok p, p) := rfl
  rw [Cursor.previousSpan, bind_ok hpeek, bind_ok hposition, if_neg hpos.ne', hu, ← hspan]
  rfl

end Follows

/-- The value and the stream after a step are those that the reader gives. -/
def Steps (ts : List Token) (r : Reader α) (p : Nat) (run : Except ParseError (s.Step α)) : Prop :=
  Follows ts r p run fun step a q => step.value = a ∧ At ts q step.rest

/-- The value and the stream after a pause are those that the reader gives. -/
def Pauses (ts : List Token) (r : Reader α) (p : Nat) (run : Except ParseError (s.Pause α)) :
    Prop :=
  Follows ts r p run fun pause a q => pause.value = a ∧ At ts q pause.rest

namespace Steps

variable {run : Except ParseError (s.Step α)} {next : s.Step α → Except ParseError σ}

theorem bind (h : Steps ts r p run) (hnext : ∀ value rest hlt q, At ts q rest →
    Follows ts (f value) q (next ⟨value, rest, hlt⟩) Q) : Follows ts (r >>= f) p (run >>= next) Q :=
  Follows.bind h fun ⟨_, rest, hlt⟩ _ q hstep => hstep.1 ▸ hnext _ rest hlt q hstep.2

theorem map {g : s.Step α → σ} (h : Steps ts r p run) (hnext : ∀ value rest hlt q, At ts q rest →
    Follows ts (f value) q (Pure.pure (g ⟨value, rest, hlt⟩)) Q) :
    Follows ts (r >>= f) p (run.map g) Q := by
  have hmap : run.map g = run >>= fun step => Pure.pure (g step) := by cases run <;> rfl
  rw [hmap]
  exact h.bind hnext

end Steps

namespace Pauses

variable {run : Except ParseError (s.Pause α)} {next : s.Pause α → Except ParseError σ}

theorem bind (h : Pauses ts r p run) (hnext : ∀ value rest hle q, At ts q rest →
    Follows ts (f value) q (next ⟨value, rest, hle⟩) Q) : Follows ts (r >>= f) p (run >>= next) Q :=
  Follows.bind h fun ⟨_, rest, hle⟩ _ q hpause => hpause.1 ▸ hnext _ rest hle q hpause.2

theorem tail {Q : σ → α → Nat → Prop} (h : Pauses ts r p run) (hnext : ∀ value rest hle q,
    At ts q rest → Follows ts (Pure.pure value : Reader α) q (next ⟨value, rest, hle⟩) Q) :
    Follows ts r p (run >>= next) Q := by
  rw [← bind_pure r]
  exact h.bind hnext

end Pauses

theorem expect_steps (h : At ts p s) (hk : k ≠ .eof) : Steps ts (expect ts k) p (s.expect k) := by
  unfold expect TokenStream.expect
  split
  · rename_i step ht
    exact .taken h ht fun hat => .pure ⟨rfl, hat⟩
  · rename_i ht
    exact .untaken h hk ht (.unexpected h [k])

theorem ident_steps (h : At ts p s) : Steps ts (ident ts) p s.ident := by
  rw [ident, TokenStream.ident]
  exact (expect_steps h (by decide)).map fun _ _ _ _ hat => .pure ⟨rfl, hat⟩

theorem skip_pauses (h : At ts p s) (hk : k ≠ .eof) :
    ∃ found q, take? ts k p = some (.ok found, q) ∧ At ts q (s.skip k).rest := by
  unfold TokenStream.skip
  split
  · rename_i step ht
    exact ⟨_, _, h.take?_some ht, h.taken ht⟩
  · rename_i ht
    exact ⟨_, _, h.take?_none hk ht, h⟩

theorem closeList_steps (h : At ts p s) : Steps ts (closeList ts) p s.closeList := by
  unfold closeList TokenStream.closeList
  split
  · rename_i step ht
    exact .taken h ht fun hat => .pure ⟨rfl, hat⟩
  · rename_i ht
    exact .untaken h (by decide) ht (.unexpected h [.rparen, .comma])

theorem closeRest_steps (h : At ts p s) : Steps ts (closeRest ts) p s.closeRest := by
  obtain ⟨found, q, htake, hat⟩ := skip_pauses h (k := .comma) (by decide)
  unfold closeRest TokenStream.closeRest
  refine Follows.congr (bind_ok htake) ?_
  dsimp only
  split
  · rename_i step ht
    exact .taken hat ht fun hat => .pure ⟨rfl, hat⟩
  · rename_i ht
    refine .untaken hat (by decide) ht ?_
    obtain ⟨t, hpeek, -, hspan, -⟩ := hat.peek
    refine Follows.congr (bind_ok hpeek) ?_
    rw [hspan]
    exact .throw hat.le

/-! ## Types -/

theorem arrayLength_pauses (h : At ts p s) :
    Pauses ts (arrayLength ts) p (Parser.arrayLength s) := by
  unfold arrayLength Parser.arrayLength
  split
  · rename_i ht
    exact .untaken h (by decide) ht (.pure ⟨rfl, h⟩)
  · rename_i step ht
    refine .taken h ht fun hat => ?_
    dsimp only
    cases IntLiteral.value? step.value.text with
    | some n => exact .pure ⟨rfl, hat⟩
    | none => exact .throw hat.le

theorem arraySuffix_pauses (ty : TypeExpr) {depth p : Nat} {s : TokenStream} (h : At ts p s)
    (hd : 4 * s.size < depth) :
    Pauses ts (arraySuffix ts depth ty) p (Parser.arraySuffix ty s) := by
  obtain ⟨depth, rfl⟩ := Nat.exists_eq_add_one_of_ne_zero (Nat.ne_zero_of_lt hd)
  rw [arraySuffix, Parser.arraySuffix]
  split
  · rename_i ht
    exact .untaken h (by decide) ht (.pure ⟨rfl, h⟩)
  · rename_i ht
    refine .taken h ht fun h₁ => ?_
    refine (arrayLength_pauses h₁).bind fun length s₂ hlt₂ q₂ h₂ => ?_
    refine (expect_steps h₂ (by decide)).bind fun close s₃ hlt₃ q₃ h₃ => ?_
    refine (arraySuffix_pauses _ h₃ (by omega)).tail fun ty' s₄ hlt₄ q₄ h₄ => ?_
    exact .pure ⟨rfl, h₄⟩
termination_by s.size
decreasing_by all_goals omega

mutual

theorem typeExpr_steps {depth p : Nat} {s : TokenStream} (h : At ts p s)
    (hd : 4 * s.size < depth) : Steps ts (typeExpr ts depth) p (Parser.typeExpr s) := by
  obtain ⟨depth, rfl⟩ := Nat.exists_eq_add_one_of_ne_zero (Nat.ne_zero_of_lt hd)
  rw [typeExpr, Parser.typeExpr]
  split
  · rename_i ht
    refine .taken h ht fun h₁ => (typeExpr_steps h₁ (by omega)).bind fun inner s₂ hlt₂ q₂ h₂ => ?_
    exact .pure ⟨rfl, h₂⟩
  · rename_i ht
    refine .untaken h (by decide) ht ?_
    dsimp only
    split
    · rename_i ht
      refine .taken h ht fun h₁ => (expect_steps h₁ (by decide)).bind fun _ s₂ hlt₂ q₂ h₂ => ?_
      refine (typeExpr_steps h₂ (by omega)).bind fun ret s₃ hlt₃ q₃ h₃ => ?_
      refine (expect_steps h₃ (by decide)).bind fun _ s₄ hlt₄ q₄ h₄ => ?_
      refine (typeList_steps h₄ (by omega)).bind fun ⟨params, rest⟩ s₅ hlt₅ q₅ h₅ => ?_
      refine (expect_steps h₅ (by decide)).bind fun close s₆ hlt₆ q₆ h₆ => ?_
      refine (arraySuffix_pauses _ h₆ (by omega)).tail fun ty s₇ hlt₇ q₇ h₇ => ?_
      exact .pure ⟨rfl, h₇⟩
    · rename_i ht
      refine .untaken h (by decide) ht ((ident_steps h).bind fun name s₁ hlt₁ q₁ h₁ => ?_)
      refine (arraySuffix_pauses _ h₁ (by omega)).tail fun ty s₂ hlt₂ q₂ h₂ => ?_
      exact .pure ⟨rfl, h₂⟩
termination_by 4 * s.size
decreasing_by all_goals omega

theorem typeList_steps {depth p : Nat} {s : TokenStream} (h : At ts p s)
    (hd : 4 * s.size + 1 < depth) : Steps ts (typeList ts depth) p (Parser.typeList s) := by
  obtain ⟨depth, rfl⟩ := Nat.exists_eq_add_one_of_ne_zero (Nat.ne_zero_of_lt hd)
  rw [typeList, Parser.typeList]
  split
  · rename_i ht
    exact .taken h ht fun h₁ => .pure ⟨rfl, h₁⟩
  · rename_i ht
    refine .untaken h (by decide) ht ?_
    dsimp only
    split
    · rename_i ht
      refine .taken h ht fun h₁ => (closeRest_steps h₁).bind fun _ s₂ hlt₂ q₂ h₂ => ?_
      exact .pure ⟨rfl, h₂⟩
    · rename_i ht
      refine .untaken h (by decide) ht ?_
      refine (typeExpr_steps h (by omega)).bind fun ty s₁ hlt₁ q₁ h₁ => ?_
      dsimp only
      split
      · rename_i ht
        refine .taken h₁ ht fun h₂ => (closeRest_steps h₂).bind fun _ s₃ hlt₃ q₃ h₃ => ?_
        exact .pure ⟨rfl, h₃⟩
      · rename_i ht
        refine .untaken h₁ (by decide) ht ?_
        dsimp only
        split
        · rename_i ht
          refine .taken h₁ ht fun h₂ => ?_
          refine (typeList_steps h₂ (by omega)).bind fun ⟨params, rest⟩ s₃ hlt₃ q₃ h₃ => ?_
          exact .pure ⟨rfl, h₃⟩
        · rename_i ht
          refine .untaken h₁ (by decide) ht ((closeList_steps h₁).bind fun _ s₂ hlt₂ q₂ h₂ => ?_)
          exact .pure ⟨rfl, h₂⟩
termination_by 4 * s.size + 1
decreasing_by all_goals omega

end

/-! ## Expressions -/

theorem kind_ne_eof_of_prefixOp? {op : UnaryOp} (h : Parser.prefixOp? k = some op) : k ≠ .eof := by
  rintro rfl
  exact nomatch h

theorem kind_ne_eof_of_binaryOp? {op : BinaryOp} (h : Parser.binaryOp? k = some op) :
    k ≠ .eof := by
  rintro rfl
  exact nomatch h

theorem kind_ne_eof_of_literal? {t : Token} {value : Value} (h : Parser.literal? t = some value) :
    t.kind ≠ .eof := by
  intro hk
  rw [Parser.literal?, hk] at h
  exact nomatch h

theorem operator?_none (h : At ts p s) (ho : Parser.operator? s = none) :
    operator? ts p = some (.ok none, p) := by
  obtain ⟨t, hpeek, hkind, -⟩ := h.peek
  have hop : Parser.binaryOp? s.kind = none := by
    by_contra hsome
    obtain ⟨op, hop⟩ := Option.ne_none_iff_exists'.mp hsome
    obtain ⟨t, rest, hlt, hadvance⟩ := exists_advance? (kind_ne_eof_of_binaryOp? hop)
    rw [Parser.operator?, hop, hadvance] at ho
    dsimp only at ho
    split_ifs at ho
    split at ho
    · split_ifs at ho
    · exact nomatch ho
  rw [operator?, bind_ok hpeek, hkind, hop]
  rfl

/-- What the operator is depends on the token after it only if that is adjacent. -/
theorem operator?_some {op : Operator} {rest : TokenStream} {hlt : rest.size < s.size}
    (h : At ts p s) (ho : Parser.operator? s = some ⟨op, rest, hlt⟩) :
    ∃ q, operator? ts p = some (.ok (some op), q) ∧ At ts q rest := by
  cases hop : Parser.binaryOp? s.kind with
  | none =>
    rw [Parser.operator?, hop] at ho
    exact nomatch ho
  | some binary =>
    have hend := kind_ne_eof_of_binaryOp? hop
    obtain ⟨t, s₁, hlt₁, hadvance⟩ := exists_advance? hend
    obtain ⟨hs, -, hfirst, -⟩ := take?_eq_some hadvance
    obtain ⟨t', hpeek, hkind, -, heq⟩ := h.peek
    obtain rfl : t' = t := (heq hend).trans hfirst
    have h₁ := h.taken hadvance
    obtain ⟨next, hget, -, hkind₁, -, heq₁⟩ := h₁.get?
    have hnext : peekAt ts 1 p = some (.ok next, p) := by
      rw [peekAt, hget]
      rfl
    have hbump : bump ts p = some (.ok t', p + 1) := by rw [h.bump hend, hfirst]
    rw [Parser.operator?, hop, hadvance] at ho
    rw [operator?, bind_ok hpeek, hkind, hop]
    dsimp only at ho ⊢
    rw [bind_ok hnext]
    -- Two marks that touch are one operator; the cursor looks one token ahead for the second one.
    by_cases hshift : binary = .gt ∧ next.kind = .greater ∧ next.span.start = t'.span.stop
    · obtain ⟨hgt, hgreater, hadjacent⟩ := hshift
      have hend₁ : s₁.kind ≠ .eof := by rw [← hkind₁, hgreater]; decide
      obtain ⟨second, s₂, hlt₂, hsecond⟩ := exists_advance? hend₁
      obtain rfl : next = second := (heq₁ hend₁).trans (take?_eq_some hsecond).2.2.1
      rw [Parser.advance?, ← hkind₁, hgreater] at hsecond
      have hbump₁ : bump ts (p + 1) = some (.ok next, p + 2) := by rw [h₁.bump hend₁, heq₁ hend₁]
      rw [if_pos hgt, hsecond] at ho
      dsimp only at ho
      rw [if_pos hadjacent] at ho
      cases ho
      refine ⟨p + 2, ?_, h₁.taken hsecond⟩
      rw [if_pos ⟨hgt, hgreater, hadjacent⟩, bind_ok hbump, bind_ok hbump₁]
      rfl
    -- Otherwise both parsers take one mark.
    · have hsingle : op = ⟨t'.span, binary⟩ ∧ rest = s₁ := by
        split_ifs at ho with hgt
        · split at ho
          · rename_i second hsecond
            obtain ⟨-, -, hpeek₁, hgreater⟩ := take?_eq_some hsecond
            have hsame : next = second.value :=
              (heq₁ (h₁.kind_ne_eof hsecond)).trans hpeek₁
            split_ifs at ho with hadjacent
            · exact absurd ⟨hgt, hsame ▸ hgreater, hsame ▸ hadjacent⟩ hshift
            · cases ho
              exact ⟨rfl, rfl⟩
          · cases ho
            exact ⟨rfl, rfl⟩
        · cases ho
          exact ⟨rfl, rfl⟩
      obtain ⟨rfl, rfl⟩ := hsingle
      refine ⟨p + 1, ?_, h₁⟩
      rw [if_neg hshift, bind_ok hbump]
      rfl

theorem dottedTail_pauses {depth p : Nat} {s : TokenStream} (h : At ts p s)
    (hd : 4 * s.size < depth) : Pauses ts (dottedTail ts depth) p (Parser.dottedTail s) := by
  obtain ⟨depth, rfl⟩ := Nat.exists_eq_add_one_of_ne_zero (Nat.ne_zero_of_lt hd)
  rw [dottedTail, Parser.dottedTail]
  split
  · rename_i ht
    exact .untaken h (by decide) ht (.pure ⟨rfl, h⟩)
  · rename_i ht
    refine .taken h ht fun h₁ => (ident_steps h₁).bind fun name s₂ hlt₂ q₂ h₂ => ?_
    refine (dottedTail_pauses h₂ (by omega)).bind fun names s₃ hlt₃ q₃ h₃ => ?_
    exact .pure ⟨rfl, h₃⟩
termination_by s.size
decreasing_by all_goals omega

theorem dottedName_steps {depth : Nat} (h : At ts p s) (hd : 4 * s.size ≤ depth) :
    Steps ts (dottedName ts depth) p (Parser.dottedName s) := by
  rw [dottedName, Parser.dottedName]
  refine (ident_steps h).bind fun first s₁ hlt₁ q₁ h₁ => ?_
  refine (dottedTail_pauses h₁ (by omega)).bind fun more s₂ hlt₂ q₂ h₂ => ?_
  exact .pure ⟨rfl, h₂⟩

theorem literal?_of_peeked {t : Token} (hkind : t.kind = s.kind)
    (heq : s.kind ≠ .eof → t = s.peek) : Parser.literal? t = Parser.literal? s.peek := by
  by_cases hend : s.kind = .eof
  · rw [Parser.literal?, Parser.literal?, hkind, hend, show s.peek.kind = .eof from hend]
  · rw [heq hend]

theorem arguments_of_take? {t : Token} {rest : TokenStream} {hlt : rest.size < s.size}
    (h : At ts p s) (ht : s.take? .lparen = some ⟨t, rest, hlt⟩) (depth : Nat) :
    arguments ts (depth + 1) p = moreArguments ts depth (p + 1) := by
  rw [arguments, bind_ok (h.expect ht)]

mutual

theorem operand_steps {depth p : Nat} {s : TokenStream} (h : At ts p s)
    (hd : 4 * s.size < depth) : Steps ts (operand ts depth) p (Parser.operand s) := by
  obtain ⟨depth, rfl⟩ := Nat.exists_eq_add_one_of_ne_zero (Nat.ne_zero_of_lt hd)
  rw [operand, Parser.operand]
  refine .peeked h fun t hkind hspan heq => ?_
  rw [hkind, literal?_of_peeked hkind heq]
  cases hop : Parser.prefixOp? s.kind with
  | some op =>
    -- An operator is no end of the text, so the cursor moves past it.
    obtain ⟨start, s₁, hlt₁, hstart⟩ := exists_advance? (kind_ne_eof_of_prefixOp? hop)
    rw [hstart]
    refine .bumped h hstart fun h₁ => ?_
    refine (operand_steps h₁ (by omega)).bind fun value s₂ hlt₂ q₂ h₂ => ?_
    exact .pure ⟨rfl, h₂⟩
  | none =>
    cases hliteral : Parser.literal? s.peek with
    | some value =>
      obtain ⟨start, s₁, hlt₁, hstart⟩ := exists_advance? (kind_ne_eof_of_literal? hliteral)
      rw [hstart]
      refine .bumped h hstart fun h₁ => ?_
      refine (suffix_pauses value h₁ (by omega)).tail fun _ s₂ hlt₂ q₂ h₂ => ?_
      exact .pure ⟨rfl, h₂⟩
    | none =>
      cases hparen : s.take? .lparen with
      | some step =>
        obtain ⟨_, s₁, hlt₁⟩ := step
        refine .taken h hparen fun h₁ => ?_
        refine (expr_steps h₁ (by omega)).bind fun inner s₂ hlt₂ q₂ h₂ => ?_
        refine (expect_steps h₂ (by decide)).bind fun close s₃ hlt₃ q₃ h₃ => ?_
        refine (suffix_pauses _ h₃ (by omega)).tail fun value s₄ hlt₄ q₄ h₄ => ?_
        exact .pure ⟨rfl, h₄⟩
      | none =>
        refine .untaken h (by decide) hparen ?_
        cases href : s.take? .kwRef with
        | some step =>
          obtain ⟨_, s₁, hlt₁⟩ := step
          refine .taken h href fun h₁ => ?_
          refine (operand_steps h₁ (by omega)).bind fun inner s₂ hlt₂ q₂ h₂ => ?_
          refine (suffix_pauses _ h₂ (by omega)).tail fun value s₃ hlt₃ q₃ h₃ => ?_
          exact .pure ⟨rfl, h₃⟩
        | none =>
          refine .untaken h (by decide) href ?_
          dsimp only
          split_ifs
          · refine (dottedName_steps h (by omega)).bind fun name s₁ hlt₁ q₁ h₁ => ?_
            refine (suffix_pauses _ h₁ (by omega)).tail fun value s₂ hlt₂ q₂ h₂ => ?_
            exact .pure ⟨rfl, h₂⟩
          · exact .unexpected h _
termination_by 4 * s.size
decreasing_by all_goals omega

theorem suffix_pauses {depth p : Nat} {s : TokenStream} (value : Value) (h : At ts p s)
    (hd : 4 * s.size < depth) : Pauses ts (suffix ts depth value) p (Parser.suffix value s) := by
  obtain ⟨depth, rfl⟩ := Nat.exists_eq_add_one_of_ne_zero (Nat.ne_zero_of_lt hd)
  rw [suffix.eq_def, Parser.suffix]
  refine .sees h ?_
  cases hparen : s.take? .lparen with
  | some step =>
    obtain ⟨_, s₁, hlt₁⟩ := step
    rw [decide_eq_true (kind_of_take? hparen), if_pos rfl]
    cases value with
    | ident callee =>
      -- The arguments are read one level down, and the parenthesis has been taken there.
      obtain ⟨below, rfl⟩ := Nat.exists_eq_add_one_of_ne_zero (show depth ≠ 0 by omega)
      refine Follows.congr (bind_congr_at (arguments_of_take? h hparen below)) ?_
      have h₁ := h.taken hparen
      refine (moreArguments_steps h₁ (by omega)).bind fun args s₂ hlt₂ q₂ h₂ => ?_
      refine .previousSpan h₂ (h₁.pos_of_shorter h₂ hlt₂) ?_
      refine (suffix_pauses _ h₂ (by omega)).tail fun value s₃ hlt₃ q₃ h₃ => ?_
      exact .pure ⟨rfl, h₃⟩
    | _ => exact .throw h.le
  | none =>
    rw [decide_eq_false (kind_ne_of_take?_eq_none (by decide) hparen),
      if_neg Bool.false_ne_true]
    cases hbracket : s.take? .lbracket with
    | some step =>
      obtain ⟨_, s₁, hlt₁⟩ := step
      refine .taken h hbracket fun h₁ => ?_
      refine (expr_steps h₁ (by omega)).bind fun index s₂ hlt₂ q₂ h₂ => ?_
      refine (expect_steps h₂ (by decide)).bind fun close s₃ hlt₃ q₃ h₃ => ?_
      refine (suffix_pauses _ h₃ (by omega)).tail fun value s₄ hlt₄ q₄ h₄ => ?_
      exact .pure ⟨rfl, h₄⟩
    | none =>
      refine .untaken h (by decide) hbracket ?_
      cases hplus : s.take? .plusPlus with
      | some step =>
        obtain ⟨_, s₁, hlt₁⟩ := step
        refine .taken h hplus fun h₁ => ?_
        refine (suffix_pauses _ h₁ (by omega)).tail fun value s₂ hlt₂ q₂ h₂ => ?_
        exact .pure ⟨rfl, h₂⟩
      | none =>
        refine .untaken h (by decide) hplus ?_
        cases hminus : s.take? .minusMinus with
        | some step =>
          obtain ⟨_, s₁, hlt₁⟩ := step
          refine .taken h hminus fun h₁ => ?_
          refine (suffix_pauses _ h₁ (by omega)).tail fun value s₂ hlt₂ q₂ h₂ => ?_
          exact .pure ⟨rfl, h₂⟩
        | none => exact .untaken h (by decide) hminus (.pure ⟨rfl, h⟩)
termination_by 4 * s.size
decreasing_by all_goals omega

theorem moreArguments_steps {depth p : Nat} {s : TokenStream} (h : At ts p s)
    (hd : 4 * s.size + 2 < depth) : Steps ts (moreArguments ts depth) p (Parser.arguments s) := by
  obtain ⟨depth, rfl⟩ := Nat.exists_eq_add_one_of_ne_zero (Nat.ne_zero_of_lt hd)
  rw [moreArguments, Parser.arguments]
  split
  · rename_i ht
    exact .taken h ht fun h₁ => .pure ⟨rfl, h₁⟩
  · rename_i ht
    refine .untaken h (by decide) ht ((expr_steps h (by omega)).bind fun arg s₁ hlt₁ q₁ h₁ => ?_)
    dsimp only
    split
    · rename_i ht
      refine .taken h₁ ht fun h₂ => ?_
      refine (moreArguments_steps h₂ (by omega)).bind fun args s₃ hlt₃ q₃ h₃ => ?_
      exact .pure ⟨rfl, h₃⟩
    · rename_i ht
      refine .untaken h₁ (by decide) ht ((closeList_steps h₁).bind fun _ s₂ hlt₂ q₂ h₂ => ?_)
      exact .pure ⟨rfl, h₂⟩
termination_by 4 * s.size + 2
decreasing_by all_goals omega

theorem expr_steps {depth p : Nat} {s : TokenStream} (h : At ts p s)
    (hd : 4 * s.size + 1 < depth) : Steps ts (expr ts depth) p (Parser.expr s) := by
  obtain ⟨depth, rfl⟩ := Nat.exists_eq_add_one_of_ne_zero (Nat.ne_zero_of_lt hd)
  rw [expr, Parser.expr]
  refine (operand_steps h (by omega)).bind fun first s₁ hlt₁ q₁ h₁ => ?_
  refine (chainTail_pauses first h₁ (by omega)).bind fun chain s₂ hle₂ q₂ h₂ => ?_
  refine .previousSpan h₂ (h.pos_of_shorter h₂ (hle₂.trans_lt hlt₁)) ?_
  exact .pure ⟨rfl, h₂⟩
termination_by 4 * s.size + 1
decreasing_by all_goals omega

theorem chainTail_pauses {depth p : Nat} {s : TokenStream} (first : Value) (h : At ts p s)
    (hd : 4 * s.size < depth) :
    Pauses ts (chainTail ts depth first) p (Parser.chainTail first s) := by
  obtain ⟨depth, rfl⟩ := Nat.exists_eq_add_one_of_ne_zero (Nat.ne_zero_of_lt hd)
  rw [chainTail, Parser.chainTail]
  split
  · rename_i ho
    exact Follows.congr (bind_ok (operator?_none h ho)) (.pure ⟨rfl, h⟩)
  · rename_i ho
    obtain ⟨q₁, hop, h₁⟩ := operator?_some h ho
    refine Follows.congr (bind_ok hop) ?_
    refine (operand_steps h₁ (by omega)).bind fun next s₂ hlt₂ q₂ h₂ => ?_
    refine (chainTail_pauses next h₂ (by omega)).bind fun chain s₃ hlt₃ q₃ h₃ => ?_
    exact .pure ⟨rfl, h₃⟩
termination_by 4 * s.size
decreasing_by all_goals omega

end

end Follows

end KilnLang.Cursor
