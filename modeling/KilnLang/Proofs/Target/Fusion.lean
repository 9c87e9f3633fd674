import KilnLang.Proofs.Target.Legibility

/-!
# Tokens of the output that fuse

Operators are written next to their operands, so two tokens may be read as one: `-` before `-x` is
read as `--`, and `0xe` before `++` as one number.

**Theorem (`CExpr.tokens?_iff_separate`).** The text of an expression is read as the tokens that were
written if and only if no two of them fuse. Which tokens can meet is known from what an expression
starts and ends with (`CExpr.first_cases`, `CExpr.last_cases`).

**Theorem (`output_tokens_apart`).** In a checked unit only two operands fuse with what is in them: a
minus before an operand that is written with a minus first, and `++` or `--` after a number that ends
in an exponent letter (`Value.fuses`). What explicit references are written with never does, since
only storage and other references follow.

**Counterexample (`negated_negation_fuses`).** A unit is accepted in which a minus is written before a
minus, and the text is read as a decrement.
-/

namespace KilnLang

open CPiece CLexer

-- The kind of a token is known from lemmas: to evaluate it is slow and never needed.
attribute [local irreducible] CLiteral.token

namespace CExpr

/-! ## The ends of an expression -/

/-- The first token of an expression. -/
def first : CExpr → CLexeme
  | .name text => .word text
  | .literal text => CLiteral.token text
  | .address _ => .punct "&"
  | .prefixed op _ => .punct op.symbol
  | .index base _ => base.first
  | .suffixed _ inner => inner.first
  | .call callee _ => callee.first
  | .binary left _ _ => left.first
  | .deref _ | .paren _ | .cast _ _ | .array _ _ => .punct "("

/-- The last token of an expression. -/
def last : CExpr → CLexeme
  | .name text => .word text
  | .literal text => CLiteral.token text
  | .address inner => inner.last
  | .prefixed _ inner => inner.last
  | .index _ _ => .punct "]"
  | .suffixed op _ => .punct op.symbol
  | .binary _ _ right => right.last
  | .deref _ | .paren _ | .call _ _ | .cast _ _ => .punct ")"
  | .array _ _ => .punct "\x7d"

theorem head?_spell (e : CExpr) : e.spell.head? = some (.tight e.first) := by
  fun_induction first e <;> simp_all [spell]

theorem getLast?_spell (e : CExpr) : e.spell.getLast? = some (.tight e.last) := by
  fun_induction last e <;> simp_all [spell, List.getLast?_append, List.getLast?_cons]

/-- The punctuators that an expression may start with. -/
def firstMarks : List String := ["(", "&", "!", "-", "~", "++", "--"]

theorem symbol_mem_firstMarks (op : UnaryOp) : op.symbol ∈ firstMarks := by
  cases op <;> decide

theorem first_cases : ∀ {e : CExpr}, e.Legible →
    (e.first.Formed ∧ ∀ p, e.first ≠ .punct p) ∨ ∃ p ∈ firstMarks, e.first = .punct p
  | .name _, h => .inl ⟨h, by simp [first]⟩
  | .literal text, h => .inl ⟨h, CLiteral.token_ne_punct text⟩
  | .address _, _ => .inr ⟨"&", by decide, rfl⟩
  | .prefixed op _, _ => .inr ⟨op.symbol, symbol_mem_firstMarks op, rfl⟩
  | .index base _, h => first_cases (e := base) h.1
  | .suffixed _ inner, h => first_cases (e := inner) h.2
  | .call callee _, h => first_cases (e := callee) h.1
  | .binary left _ _, h => first_cases (e := left) h.1
  | .deref _, _ | .paren _, _ | .cast _ _, _ | .array _ _, _ => .inr ⟨"(", by decide, rfl⟩

theorem last_cases : ∀ {e : CExpr}, e.Legible →
    (e.last.Formed ∧ ∀ p, e.last ≠ .punct p) ∨
      ∃ p ∈ [")", "]", "\x7d", "++", "--"], e.last = .punct p
  | .name _, h => .inl ⟨h, by simp [last]⟩
  | .literal text, h => .inl ⟨h, CLiteral.token_ne_punct text⟩
  | .address inner, h => last_cases (e := inner) h
  | .prefixed _ inner, h => last_cases (e := inner) h
  | .index _ _, _ => .inr ⟨"]", by decide, rfl⟩
  | .suffixed op _, h => by
    rcases h.1 with rfl | rfl
    · exact .inr ⟨"++", by decide, rfl⟩
    · exact .inr ⟨"--", by decide, rfl⟩
  | .binary _ _ right, h => last_cases (e := right) h.2
  | .deref _, _ | .paren _, _ | .call _ _, _ | .cast _ _, _ => .inr ⟨")", by decide, rfl⟩
  | .array _ _, _ => .inr ⟨"\x7d", by decide, rfl⟩

/-! ## Where tokens are apart -/

instance (t u : CLexeme) : Decidable (Apart (.tight t) (.tight u)) :=
  inferInstanceAs (Decidable (∀ c ∈ u.text.toList.head?, t.goesOn c = false))

theorem star_apart_first {e : CExpr} (h : e.Legible) : Apart (mark "*") (.tight e.first) := by
  have hmarks : ∀ p ∈ firstMarks, Apart (mark "*") (mark p) := by decide +kernel
  rcases first_cases h with ⟨hformed, hpunct⟩ | ⟨p, hp, heq⟩
  · exact apart_operand hformed hpunct "*"
  · rw [heq]
    exact hmarks p hp

theorem ampersand_apart_first {e : CExpr} (h : e.Legible) :
    Apart (mark "&") (.tight e.first) ↔ e.first ≠ .punct "&" := by
  have hmarks : ∀ p ∈ firstMarks, Apart (mark "&") (mark p) ↔ p ≠ "&" := by decide +kernel
  rcases first_cases h with ⟨hformed, hpunct⟩ | ⟨p, hp, heq⟩
  · exact iff_of_true (apart_operand hformed hpunct "&") (hpunct "&")
  · rw [heq, hmarks p hp]
    simp

/-- Only a minus goes on with what an operand starts with: another minus. -/
theorem prefix_apart_first (op : UnaryOp) {e : CExpr} (h : e.Legible) :
    Apart (mark op.symbol) (.tight e.first) ↔
      ¬ (op = .neg ∧ (e.first = .punct "-" ∨ e.first = .punct "--")) := by
  have hmarks : ∀ p ∈ firstMarks,
      Apart (mark op.symbol) (mark p) ↔ ¬ (op = .neg ∧ (p = "-" ∨ p = "--")) := by
    cases op <;> decide +kernel
  rcases first_cases h with ⟨hformed, hpunct⟩ | ⟨p, hp, heq⟩
  · exact iff_of_true (apart_operand hformed hpunct _) (by simp [hpunct])
  · rw [heq, hmarks p hp, CLexeme.punct.injEq, CLexeme.punct.injEq]

/-- Whether a token is a number that goes on with a sign. -/
def endsInExponent : CLexeme → Bool
  | .number text => text.toList.getLast?.any isExponent
  | _ => false

/-- Only a number that ends in an exponent letter goes on with a sign. -/
theorem last_apart_suffix {op : UnaryOp} (hop : op = .inc ∨ op = .dec) {e : CExpr}
    (h : e.Legible) :
    Apart (.tight e.last) (mark op.symbol) ↔ endsInExponent e.last = false := by
  obtain ⟨sign, hsign, hhead⟩ : ∃ sign, (sign = '+' ∨ sign = '-') ∧
      op.symbol.toList.head? = some sign := by
    rcases hop with rfl | rfl
    · exact ⟨'+', .inl rfl, rfl⟩
    · exact ⟨'-', .inr rfl, rfl⟩
  have hplain : Lexer.isNameChar sign = false ∧ isQuote sign = false ∧
      (sign == '.') = false ∧ (sign == '+' || sign == '-') = true := by
    rcases hsign with rfl | rfl <;> decide
  have happly : Apart (.tight e.last) (mark op.symbol) ↔ e.last.goesOn sign = false := by
    simp [Apart, CLexeme.text, hhead]
  rw [happly]
  rcases last_cases h with ⟨hformed, hpunct⟩ | ⟨p, hp, heq⟩
  · cases hlast : e.last with
    | word text => simp [CLexeme.goesOn, endsInExponent, hplain]
    | number text =>
      have hextends : ∀ prev, extendsNumber prev sign = isExponent prev := fun prev => by
        simp only [extendsNumber, hplain, Bool.true_and, Bool.false_or]
      simp [CLexeme.goesOn, endsInExponent, hextends]
    | quoted text => simp [CLexeme.goesOn, endsInExponent]
    | punct p => exact absurd hlast (hpunct p)
  · have hclosed : ∀ p ∈ [")", "]", "\x7d", "++", "--"], isClosed p := by decide +kernel
    rw [heq]
    exact iff_of_true (not_goesOn_of_isClosed (hclosed p hp) sign) rfl

end CExpr

/-! ## Fusion -/

namespace CPiece

theorem parted_cons {p : CPiece} {ps : List CPiece} :
    Parted (p :: ps) ↔ (∀ q ∈ ps.head?, Apart p q) ∧ Parted ps := List.isChain_cons

theorem parted_append {ps qs : List CPiece} : Parted (ps ++ qs) ↔
    Parted ps ∧ Parted qs ∧ ∀ p ∈ ps.getLast?, ∀ q ∈ qs.head?, Apart p q := List.isChain_append

theorem parted_cons_iff {p : CPiece} {ps : List CPiece} {q : CPiece} (hq : ps.head? = some q) :
    Parted (p :: ps) ↔ Apart p q ∧ Parted ps := by
  rw [parted_cons, hq]
  simp

theorem parted_delimiter_iff {d : String} (hd : d ∈ delimiterMarks) {ps : List CPiece} :
    Parted (mark d :: ps) ↔ Parted ps := by
  rw [parted_cons]
  exact and_iff_right fun q _ => delimiter_apart q d hd

theorem parted_append_iff {d : String} (hd : d ∈ delimiterMarks) {ps qs : List CPiece}
    (hps : ∀ p ∈ ps, p.Formed) : Parted (ps ++ mark d :: qs) ↔ Parted ps ∧ Parted qs := by
  constructor
  · intro h
    obtain ⟨hleft, hright, -⟩ := parted_append.mp h
    exact ⟨hleft, (parted_delimiter_iff hd).mp hright⟩
  · rintro ⟨hleft, hright⟩
    exact hleft.append_delimiter hd hps hright

theorem parted_closed_iff {d : String} (hd : d ∈ delimiterMarks) {ps : List CPiece}
    (hps : ∀ p ∈ ps, p.Formed) : Parted (ps ++ [mark d]) ↔ Parted ps := by
  rw [parted_append_iff hd hps]
  exact and_iff_left .nil

theorem parted_spaced_iff {t : CLexeme} {ps qs : List CPiece} :
    Parted (ps ++ .spaced t :: qs) ↔ Parted ps ∧ Parted qs := by
  rw [parted_append, parted_cons]
  refine and_congr_right fun _ => ⟨fun h => h.1.2, fun h => ⟨⟨fun q _ => trivial, h⟩, ?_⟩⟩
  intro p _ q hq
  obtain rfl : .spaced t = q := by simpa using hq
  cases p <;> trivial

theorem parted_listed_iff {items : List (List CPiece)}
    (hformed : ∀ item ∈ items, ∀ p ∈ item, p.Formed) :
    Parted (listed items) ↔ ∀ item ∈ items, Parted item := by
  refine ⟨fun h => ?_, fun h => parted_listed h hformed⟩
  induction items with
  | nil => exact List.forall_mem_nil _
  | cons item items ih =>
    obtain ⟨hitem, hitems⟩ := List.forall_mem_cons.mp hformed
    cases items with
    | nil => simpa [listed] using h
    | cons next items =>
      rw [listed_cons (List.cons_ne_nil next items), parted_append_iff (by decide) hitem,
        parted_cons] at h
      exact List.forall_mem_cons.mpr ⟨h.1, ih hitems h.2.2⟩

end CPiece

namespace CExpr

mutual

/-- No two tokens of the expression fuse: a minus is not written before a minus, an ampersand not
before an ampersand, and `++` and `--` not after a number that goes on with a sign. -/
def Separate : CExpr → Prop
  | .name _ | .literal _ => True
  | .deref inner | .paren inner | .cast _ inner => inner.Separate
  | .address inner => inner.first ≠ .punct "&" ∧ inner.Separate
  | .prefixed op inner =>
    ¬ (op = .neg ∧ (inner.first = .punct "-" ∨ inner.first = .punct "--")) ∧ inner.Separate
  | .suffixed _ inner => endsInExponent inner.last = false ∧ inner.Separate
  | .index base position => base.Separate ∧ position.Separate
  | .call callee args => callee.Separate ∧ SeparateEach args
  | .array _ items => SeparateEach items
  | .binary left _ right => left.Separate ∧ right.Separate

/-- No two tokens of any of the expressions fuse. -/
def SeparateEach : List CExpr → Prop
  | [] => True
  | e :: es => e.Separate ∧ SeparateEach es

end

mutual

/-- Tokens with nothing between them are apart if and only if no two of them fuse. -/
theorem parted_iff_separate : ∀ (e : CExpr), e.Legible → (Parted e.spell ↔ e.Separate)
  | .name _, _ | .literal _, _ => iff_of_true (.singleton _) trivial
  | .deref inner, h => by
    -- The star and what it is applied to stand together.
    have hhead : (inner.spell ++ [mark ")"]).head? = some (.tight inner.first) := by
      rw [List.head?_append, head?_spell]
      rfl
    rw [spell, Separate, parted_delimiter_iff (by decide), parted_cons_iff hhead,
      parted_closed_iff (by decide) (formed_spell inner h), parted_iff_separate inner h]
    exact and_iff_right (star_apart_first (e := inner) h)
  | .address inner, h => by
    rw [spell, Separate, parted_cons_iff (head?_spell inner), ampersand_apart_first (e := inner) h,
      parted_iff_separate inner h]
  | .paren inner, h => by
    rw [spell, Separate, parted_delimiter_iff (by decide),
      parted_closed_iff (by decide) (formed_spell inner h), parted_iff_separate inner h]
  | .index base position, h => by
    rw [spell, Separate, parted_append_iff (by decide) (formed_spell base h.1),
      parted_closed_iff (by decide) (formed_spell position h.2), parted_iff_separate base h.1,
      parted_iff_separate position h.2]
  | .prefixed op inner, h => by
    rw [spell, Separate, parted_cons_iff (head?_spell inner), prefix_apart_first op (e := inner) h,
      parted_iff_separate inner h]
  | .suffixed op inner, h => by
    rw [spell, Separate, parted_append, getLast?_spell, parted_iff_separate inner h.2,
      ← last_apart_suffix h.1 h.2]
    simp [and_comm]
  | .call callee args, h => by
    have hargs := formed_spellEach args h.2
    rw [spell, Separate, parted_append_iff (by decide) (formed_spell callee h.1),
      parted_closed_iff (by decide)
        (forall_mem_listed hargs (formed_delimiter _ (by decide)) trivial),
      parted_listed_iff hargs, parted_iff_separate callee h.1, partedEach_iff_separate args h.2]
  | .cast type inner, h => by
    have htype := @CType.parted_spell type 0 [] h.1 .nil (List.forall_mem_nil _) .nil
    rw [spell, Separate, parted_delimiter_iff (by decide), parted_delimiter_iff (by decide),
      parted_append_iff (by decide) (CType.formed_spell type h.1 (List.forall_mem_nil _)),
      parted_closed_iff (by decide) (formed_spell inner h.2), parted_iff_separate inner h.2]
    exact and_iff_right htype
  | .array type items, h => by
    have htype := @CType.parted_spell type 0 [] h.1 .nil (List.forall_mem_nil _) .nil
    have hitems := formed_spellEach items h.2
    rw [spell, Separate, parted_delimiter_iff (by decide),
      parted_append_iff (by decide) (CType.formed_spell type h.1 (List.forall_mem_nil _)),
      parted_delimiter_iff (by decide), parted_closed_iff (by decide)
        (forall_mem_listed hitems (formed_delimiter _ (by decide)) trivial),
      parted_listed_iff hitems, partedEach_iff_separate items h.2]
    exact and_iff_right htype
  | .binary left op right, h => by
    rw [spell, Separate, parted_spaced_iff, parted_iff_separate left h.1,
      parted_iff_separate right h.2]

theorem partedEach_iff_separate : ∀ (es : List CExpr), LegibleEach es →
    ((∀ item ∈ spellEach es, Parted item) ↔ SeparateEach es)
  | [], _ => iff_of_true (List.forall_mem_nil _) trivial
  | e :: es, h => by
    rw [spellEach, List.forall_mem_cons, SeparateEach, parted_iff_separate e h.1,
      partedEach_iff_separate es h.2]

end

/-- The text of an expression is read as the tokens that were written, if and only if no two of them
fuse. -/
theorem tokens?_iff_separate {e : CExpr} (h : e.Legible) :
    tokens? e.render.toList = some e.tokens ↔ e.Separate := by
  rw [← text_spell e h, tokens, tokens?_iff_parted (formed_spell e h), parted_iff_separate e h]

end CExpr

/-! ## Operands that fuse -/

/-- Whether the operand is written with a minus first. -/
def Value.startsWithMinus : Value → Bool
  | .prefixed _ op _ => op == .neg || op == .dec
  | _ => false

/-- Whether the operand is a number that ends in an exponent letter. -/
def Value.endsInExponent : Value → Bool
  | .number lit => lit.text.toList.getLast?.any isExponent
  | .decimal lit => lit.text.toList.getLast?.any isExponent
  | _ => false

/-- Whether a token of the operand fuses with one of an operand in it: a minus with a minus after
it, or `++` or `--` with a number before it. -/
def Value.fuses : Value → Bool
  | .prefixed _ op inner => op == .neg && inner.startsWithMinus
  | .suffixed _ _ inner => inner.endsInExponent
  | _ => false

theorem CExpr.separateEach_iff {es : List CExpr} : SeparateEach es ↔ ∀ e ∈ es, e.Separate := by
  induction es with
  | nil => exact iff_of_true trivial (List.forall_mem_nil _)
  | cons e es ih => rw [SeparateEach, List.forall_mem_cons, ih]

namespace Lowering

open CExpr (endsInExponent Separate SeparateEach separateEach_iff)

variable {m : DataModel}

/-! ### The ends of operands -/

theorem first_readAs {type : Ty} {e : CExpr} :
    (readAs type e).first = e.first ∨ (readAs type e).first = .punct "(" := by
  unfold readAs
  split
  · exact .inr rfl
  · exact .inl rfl

theorem first_applied {callee : DottedName} {args : List CExpr} {target : Option CallTarget} :
    (applied m callee args target).first = .word callee.written ∨
      (applied m callee args target).first = .punct "(" := by
  have hhead : (readAs callee.ty (ident callee)).first = .word callee.written ∨
      (readAs callee.ty (ident callee)).first = .punct "(" := by
    rw [ident_eq]
    exact first_readAs
  cases target with
  | none => exact hhead
  | some target =>
    cases target with
    | cast type => exact .inr rfl
    | _ => exact hhead

theorem first_readCall {target : Option CallTarget} {e : CExpr} :
    (readCall target e).first = e.first ∨ (readCall target e).first = .punct "(" := by
  unfold readCall
  split
  · exact .inl rfl
  · exact first_readAs
  · exact .inl rfl

/-- An operand that takes suffixes starts with a parenthesis if it starts with a punctuator. -/
theorem first_value : ∀ {v : Value} {inside : List DeclId}, v.takesSuffix →
    (∀ o ∈ v.operands inside, o.value.Lowerable) →
      ∀ p, (value m v).first = .punct p → p = "("
  | .number _, _, _, _, p, hp | .decimal _, _, _, _, p, hp | .string _, _, _, _, p, hp
  | .char _, _, _, _, p, hp | .bool _ _, _, _, _, p, hp | .null _, _, _, _, p, hp =>
    absurd hp (CLiteral.token_ne_punct _ p)
  | .ident name, _, _, _, p, hp => by
    rw [value, ident_eq] at hp
    rcases @first_readAs name.ty (.name name.written) with heq | heq <;> rw [heq] at hp
    · cases hp
    · exact (CLexeme.punct.inj hp).symm
  | .call _ callee args target _, _, _, _, p, hp => by
    rw [value] at hp
    rcases first_readCall with heq | heq <;> rw [heq] at hp
    · rcases first_applied with heq | heq <;> rw [heq] at hp
      · cases hp
      · exact (CLexeme.punct.inj hp).symm
    · exact (CLexeme.punct.inj hp).symm
  | .index _ base _, _, _, h, p, hp => by
    simp only [Value.operands, List.forall_mem_cons, List.forall_mem_append] at h
    exact first_value h.1 h.2.1 p hp
  | .suffixed _ _ inner, _, _, h, p, hp => by
    simp only [Value.operands, List.forall_mem_cons] at h
    exact first_value (v := inner) h.1.2 h.2 p hp
  | .paren _, _, _, _, p, hp => (CLexeme.punct.inj hp).symm

/-- What refers to storage starts with a parenthesis or an ampersand if it starts with a
punctuator. -/
theorem first_pointer : ∀ {v : Value}, v.isAddressable →
    ∀ p, (pointer m v).first = .punct p → p = "(" ∨ p = "&"
  | .ident name, _, p, hp => by
    rw [pointer, ident_eq] at hp
    split at hp
    · cases hp
    · exact .inr (CLexeme.punct.inj hp).symm
  | .index _ _ _, _, p, hp => .inr (CLexeme.punct.inj hp).symm
  | .paren (.mk _ (.operand inner)), h, p, hp => by
    rw [pointer] at hp
    exact first_pointer (v := inner) h p hp

/-- Prefix operators are all that starts with a minus. -/
theorem first_minus {v : Value} {inside : List DeclId}
    (h : ∀ o ∈ v.operands inside, o.value.Lowerable) :
    ((value m v).first = .punct "-" ∨ (value m v).first = .punct "--") ↔ v.startsWithMinus := by
  by_cases htakes : v.takesSuffix
  · have hopen := first_value (m := m) htakes h
    have hminus : v.startsWithMinus = false := by
      cases v with
      | prefixed => cases htakes
      | _ => rfl
    refine iff_of_false ?_ (ne_true_of_eq_false hminus)
    rintro (heq | heq) <;> exact absurd (hopen _ heq) (by decide)
  · cases v with
    | prefixed span op inner =>
      have hop : (op.symbol = "-" ∨ op.symbol = "--") ↔ (op == .neg || op == .dec) = true := by
        cases op <;> decide
      rw [value, CExpr.first, CLexeme.punct.injEq, CLexeme.punct.injEq, hop]
      rfl
    | ref span inner =>
      simp only [Value.operands, List.forall_mem_cons] at h
      refine iff_of_false ?_ Bool.false_ne_true
      rintro (heq | heq) <;> exact absurd (first_pointer h.1 _ heq) (by decide)
    | _ => exact absurd rfl htakes

/-- A prefix operator fuses with what the operand after it starts with, or not. -/
theorem apart_prefixed {v : Value} {inside : List DeclId} (span : Span) (op : UnaryOp)
    (h : ∀ o ∈ v.operands inside, o.value.Lowerable) :
    ¬ (op = .neg ∧ ((value m v).first = .punct "-" ∨ (value m v).first = .punct "--")) ↔
      (Value.prefixed span op v).fuses = false := by
  rw [first_minus h, Value.fuses, Bool.and_eq_false_iff, not_and_or, Bool.not_eq_true,
    beq_eq_false_iff_ne]

theorem last_readAs {type : Ty} {e : CExpr} (h : endsInExponent e.last = false) :
    endsInExponent (readAs type e).last = false := by
  unfold readAs
  split
  · rfl
  · exact h

theorem last_applied {callee : DottedName} {args : List CExpr} {target : Option CallTarget} :
    endsInExponent (applied m callee args target).last = false := by
  cases target with
  | none => rfl
  | some target => cases target <;> rfl

/-- An operand that takes suffixes ends in an exponent if and only if it is a number that does. -/
theorem last_value {v : Value} {inside : List DeclId} (htakes : v.takesSuffix)
    (h : ∀ o ∈ v.operands inside, o.value.Lowerable) :
    endsInExponent (value m v).last = v.endsInExponent := by
  have hquoted {quote : String} {lit : Literal} (hquote : quote.toList.head?.any isQuote) :
      endsInExponent (CLiteral.quoted quote lit).last = false := by
    obtain ⟨text, htext, htoken⟩ := CLiteral.exists_quoted hquote lit
    rw [htext, CExpr.last, htoken]
    rfl
  cases v with
  | number lit | decimal lit =>
    simp only [Value.operands, List.forall_mem_singleton] at h
    rw [value, CExpr.last, CLiteral.token_number h]
    rfl
  | string lit | char lit => exact hquoted (by decide)
  | bool span b =>
    have hbool : ∀ b, endsInExponent (CLiteral.bool b).last = false := by decide +kernel
    exact hbool b
  | null span =>
    have hnull : endsInExponent CExpr.null.last = false := by decide +kernel
    exact hnull
  | ident name =>
    rw [value, ident_eq]
    exact last_readAs rfl
  | call span callee args target defaulted =>
    rw [value]
    unfold readCall
    split
    · exact last_applied
    · exact last_readAs last_applied
    · exact last_applied
  | suffixed span op inner => rfl
  | index span base position => rfl
  | paren inner => rfl
  | prefixed span op inner => cases htakes
  | ref span inner => cases htakes

/-! ### Operands in operands -/

theorem separate_readAs {type : Ty} {e : CExpr} : (readAs type e).Separate ↔ e.Separate := by
  unfold readAs
  split <;> rfl

theorem separate_readCall {target : Option CallTarget} {e : CExpr} :
    (readCall target e).Separate ↔ e.Separate := by
  unfold readCall
  split
  · rfl
  · exact separate_readAs
  · rfl

theorem separate_restArgs {rest : Rest Ty} {args : List CExpr} :
    (∀ e ∈ restArgs m rest args, e.Separate) ↔ ∀ e ∈ args, e.Separate := by
  cases rest with
  | none => rfl
  | untyped => rfl
  | typed elem =>
    unfold restArgs
    dsimp only
    split
    · rename_i hempty
      rw [List.isEmpty_iff.mp hempty]
      simp [CExpr.null, Separate]
    · simp [Separate, separateEach_iff]

theorem separate_applied {callee : DottedName} {args : List CExpr} {target : Option CallTarget}
    (hcast : ∀ ty, target = some (.cast ty) → args.length = 1) :
    (applied m callee args target).Separate ↔ ∀ e ∈ args, e.Separate := by
  have hhead : (readAs callee.ty (ident callee)).Separate := by
    rw [separate_readAs, ident_eq]
    trivial
  have hpassed (sig : Signature Ty) :
      (CExpr.call (readAs callee.ty (ident callee)) (args.take sig.params.length ++
        restArgs m sig.rest (args.drop sig.params.length))).Separate ↔
        ∀ e ∈ args, e.Separate := by
    rw [Separate, separateEach_iff, List.forall_mem_append, separate_restArgs,
      ← List.forall_mem_append, List.take_append_drop]
    exact and_iff_right hhead
  have hall : (CExpr.call (readAs callee.ty (ident callee)) args).Separate ↔
      ∀ e ∈ args, e.Separate := by
    rw [Separate, separateEach_iff]
    exact and_iff_right hhead
  cases target with
  | none => exact hall
  | some target =>
    cases target with
    | function decl sig => exact hpassed sig
    | functionValue sig => exact hpassed sig
    | cFunction sig => exact hpassed sig
    | macroCall => exact hall
    | cast type =>
      obtain ⟨arg, rfl⟩ := List.length_eq_one_iff.mp (hcast type rfl)
      simp [applied, Separate]

mutual

/-- **Fusion.** The tokens of an operand fuse if and only if those of an operand in it do. -/
theorem separate_value : ∀ {v : Value} {inside : List DeclId},
    (∀ o ∈ v.operands inside, o.value.Lowerable) →
      ((value m v).Separate ↔ ∀ o ∈ v.operands inside, o.value.fuses = false)
  | .number _, _, _ | .decimal _, _, _ | .string _, _, _ | .char _, _, _ | .bool _ _, _, _
  | .null _, _, _ => by
    simp only [Value.operands, List.forall_mem_singleton]
    exact iff_of_true trivial rfl
  | .ident name, _, _ => by
    simp only [Value.operands, List.forall_mem_singleton]
    rw [value, separate_readAs, ident_eq]
    exact iff_of_true trivial rfl
  | .call _ callee args target defaulted, inside, h => by
    simp only [Value.operands, List.forall_mem_cons] at h ⊢
    have hcast (ty : Ty) (hty : target = some (.cast ty)) :
        (storedEach m (paramTypes target) args).length = 1 := by
      rw [length_storedEach]
      exact (h.1.2 ty hty).2
    rw [value, separate_readCall, separate_applied hcast, separate_storedEach h.2]
    exact (and_iff_right rfl).symm
  | .index _ base position, inside, h => by
    simp only [Value.operands, List.forall_mem_cons, List.forall_mem_append] at h ⊢
    rw [value, Separate, separate_value h.2.1, separate_expr h.2.2]
    exact (and_iff_right rfl).symm
  | .ref _ inner, inside, h => by
    simp only [Value.operands, List.forall_mem_cons] at h ⊢
    rw [value, separate_pointer h.2]
    exact (and_iff_right rfl).symm
  | .prefixed span op inner, inside, h => by
    simp only [Value.operands, List.forall_mem_cons] at h ⊢
    rw [value, Separate, apart_prefixed span op h.2, separate_value h.2]
  | .suffixed _ op inner, inside, h => by
    simp only [Value.operands, List.forall_mem_cons] at h ⊢
    rw [value, Separate, last_value h.1.2 h.2, separate_value h.2]
    rfl
  | .paren inner, inside, h => by
    simp only [Value.operands, List.forall_mem_cons] at h ⊢
    rw [value, Separate, separate_expr h.2]
    exact (and_iff_right rfl).symm

theorem separate_pointer : ∀ {v : Value} {inside : List DeclId},
    (∀ o ∈ v.operands inside, o.value.Lowerable) →
      ((pointer m v).Separate ↔ ∀ o ∈ v.operands inside, o.value.fuses = false)
  | .number _, _, _ | .decimal _, _, _ | .string _, _, _ | .char _, _, _ | .bool _ _, _, _
  | .null _, _, _ => by
    simp only [Value.operands, List.forall_mem_singleton]
    exact iff_of_true trivial rfl
  | .ident name, _, _ => by
    simp only [Value.operands, List.forall_mem_singleton]
    rw [pointer, ident_eq]
    refine iff_of_true ?_ rfl
    split
    · trivial
    · exact ⟨nofun, trivial⟩
  | .call _ callee args target defaulted, inside, h => by
    simp only [Value.operands, List.forall_mem_cons] at h ⊢
    have hcast (ty : Ty) (hty : target = some (.cast ty)) :
        (storedEach m (paramTypes target) args).length = 1 := by
      rw [length_storedEach]
      exact (h.1.2 ty hty).2
    rw [pointer, separate_applied hcast, separate_storedEach h.2]
    exact (and_iff_right rfl).symm
  | .index _ base position, inside, h => by
    simp only [Value.operands, List.forall_mem_cons, List.forall_mem_append] at h ⊢
    -- An array is no address, so `&` does not meet another one.
    have hfirst : (value m base).first ≠ .punct "&" := fun heq =>
      absurd (first_value h.1 h.2.1 _ heq) (by decide)
    rw [pointer, Separate, Separate, separate_value h.2.1, separate_expr h.2.2]
    exact (and_iff_right hfirst).trans (and_iff_right rfl).symm
  | .ref _ inner, inside, h => by
    simp only [Value.operands, List.forall_mem_cons] at h ⊢
    rw [pointer, separate_pointer (v := inner) h.2]
    exact (and_iff_right rfl).symm
  | .prefixed span op inner, inside, h => by
    simp only [Value.operands, List.forall_mem_cons] at h ⊢
    rw [pointer, Separate, apart_prefixed span op h.2, separate_value h.2]
  | .suffixed _ op inner, inside, h => by
    simp only [Value.operands, List.forall_mem_cons] at h ⊢
    rw [pointer, Separate, last_value h.1.2 h.2, separate_value h.2]
    rfl
  | .paren (.mk _ (.operand inner)), inside, h => by
    simp only [Value.operands, Expr.operands, Chain.operands, List.forall_mem_cons] at h ⊢
    rw [pointer, separate_pointer (v := inner) h.2]
    exact (and_iff_right rfl).symm
  | .paren (.mk _ (.link left op rest)), inside, h => by
    simp only [Value.operands, Expr.operands, Chain.operands, List.forall_mem_cons,
      List.forall_mem_append] at h ⊢
    rw [pointer, Separate, Separate, separate_value h.2.1, separate_chain h.2.2]
    exact (and_iff_right rfl).symm

theorem separate_expr : ∀ {e : Expr} {inside : List DeclId},
    (∀ o ∈ e.operands inside, o.value.Lowerable) →
      ((expr m e).Separate ↔ ∀ o ∈ e.operands inside, o.value.fuses = false)
  | .mk _ c, inside, h => by
    simp only [Expr.operands] at h ⊢
    exact separate_chain h

theorem separate_chain : ∀ {c : Chain} {inside : List DeclId},
    (∀ o ∈ c.operands inside, o.value.Lowerable) →
      ((chain m c).Separate ↔ ∀ o ∈ c.operands inside, o.value.fuses = false)
  | .operand v, inside, h => by
    simp only [Chain.operands] at h ⊢
    exact separate_value h
  | .link v op rest, inside, h => by
    simp only [Chain.operands, List.forall_mem_append] at h ⊢
    rw [chain, Separate, separate_value h.1, separate_chain h.2]

theorem separate_stored : ∀ {e : Expr} {expected : Ty} {inside : List DeclId},
    (∀ o ∈ e.operands inside, o.value.Lowerable) →
      ((stored m expected e).Separate ↔ ∀ o ∈ e.operands inside, o.value.fuses = false)
  | .mk _ (.operand v), expected, inside, h => by
    simp only [Expr.operands, Chain.operands] at h ⊢
    rw [stored]
    split
    · exact separate_pointer h
    · exact separate_value h
  | .mk _ (.link left op rest), expected, inside, h => by
    simp only [Expr.operands, Chain.operands, List.forall_mem_append] at h ⊢
    rw [stored, Separate, separate_value h.1, separate_chain h.2]

theorem separate_storedEach : ∀ {es : List Expr} {types : List Ty} {inside copied : List DeclId}
    {written : Nat}, (∀ o ∈ Value.operandsEach inside copied written es, o.value.Lowerable) →
      ((∀ e ∈ storedEach m types es, e.Separate) ↔
        ∀ o ∈ Value.operandsEach inside copied written es, o.value.fuses = false)
  | [], _, _, _, _, _ => by simp [storedEach, Value.operandsEach]
  | e :: es, [], inside, copied, written, h => by
    simp only [Value.operandsEach, List.forall_mem_append] at h ⊢
    rw [storedEach, List.forall_mem_cons, separate_expr h.1, separate_storedEach h.2]
  | e :: es, expected :: more, inside, copied, written, h => by
    simp only [Value.operandsEach, List.forall_mem_append] at h ⊢
    rw [storedEach, List.forall_mem_cons, separate_stored h.1, separate_storedEach h.2]

end

end Lowering

/-! ## Checked units -/

/-- What every operand of an expression has does not depend on where the expression stands. -/
theorem Expr.has_iff {P : Value → Prop} {e : Expr} (inside : List DeclId) :
    e.Has P ↔ ∀ o ∈ e.operands inside, P o.value := by
  have hvalues (there : List DeclId) : (e.operands there).map (·.value) =
      (e.operands inside).map (·.value) := by
    have hsame := @Expr.values_refill .unchanged e there inside
    simpa only [Expr.refill_unchanged, Value.refill_unchanged] using hsame
  have hall (there : List DeclId) : (∀ o ∈ e.operands there, P o.value) ↔
      ∀ v ∈ (e.operands there).map (·.value), P v := by simp
  refine ⟨?_, fun h => ⟨inside, h⟩⟩
  rintro ⟨there, h⟩
  rw [hall, ← hvalues there, ← hall]
  exact h

theorem Value.has_iff {P : Value → Prop} {v : Value} (inside : List DeclId) :
    v.Has P ↔ ∀ o ∈ v.operands inside, P o.value :=
  v.alone.has_iff inside

namespace Lowering

/-- The forms in which an operand is written: its value, or its pointer. -/
def forms (m : DataModel) (v : Value) : List CExpr := [value m v, pointer m v]

/-- How an expression is written: by itself, or where a type is stored. -/
inductive WrittenAs (m : DataModel) (e : Expr) : CExpr → Prop
  | read : WrittenAs m e (expr m e)
  | stored (expected : Ty) : WrittenAs m e (stored m expected e)

variable {m : DataModel} {e : Expr} {v : Value} {c : CExpr} {inside : List DeclId}

theorem WrittenAs.legible (h : WrittenAs m e c) (hlow : ∀ o ∈ e.operands inside, o.value.Lowerable) :
    c.Legible := by
  cases h with
  | read => exact legible_expr hlow
  | stored => exact legible_stored hlow

theorem WrittenAs.separate_iff (h : WrittenAs m e c)
    (hlow : ∀ o ∈ e.operands inside, o.value.Lowerable) :
    c.Separate ↔ ∀ o ∈ e.operands inside, o.value.fuses = false := by
  cases h with
  | read => exact separate_expr hlow
  | stored => exact separate_stored hlow

theorem legible_form (h : c ∈ forms m v) (hlow : ∀ o ∈ v.operands inside, o.value.Lowerable) :
    c.Legible := by
  rcases List.mem_pair.mp h with rfl | rfl
  · exact legible_value hlow
  · exact legible_pointer hlow

theorem separate_form (h : c ∈ forms m v) (hlow : ∀ o ∈ v.operands inside, o.value.Lowerable) :
    c.Separate ↔ ∀ o ∈ v.operands inside, o.value.fuses = false := by
  rcases List.mem_pair.mp h with rfl | rfl
  · exact separate_value hlow
  · exact separate_pointer hlow

end Lowering

open Lowering in
/-- **Where output tokens fuse.** The text of an expression of a checked unit, and of each operand in
it, is read as the tokens that were written, if and only if no operand in it fuses. -/
theorem output_tokens_apart {unit : SourceUnit} {a : Analyzed} (m : DataModel)
    (htext : unit.OfText) (h : unit.analyzeBridged = .ok a) :
    ∀ n ∈ a.unit.nodes, ∀ e ∈ n.exprs,
      (∀ c, WrittenAs m e c →
        (tokens? c.render.toList = some c.tokens ↔ e.Has fun v => v.fuses = false)) ∧
      ∀ o ∈ e.operands [], ∀ c ∈ forms m o.value,
        (tokens? c.render.toList = some c.tokens ↔ o.value.Has fun v => v.fuses = false) := by
  intro n hn e he
  have hlow := SourceUnit.lowerable_operands htext h n hn e he
  constructor
  · intro c hc
    rw [CExpr.tokens?_iff_separate (hc.legible hlow), hc.separate_iff hlow, e.has_iff []]
  · intro o ho c hc
    obtain ⟨inside, hinner⟩ := Expr.has_operands hlow o ho
    rw [CExpr.tokens?_iff_separate (legible_form hc hinner), separate_form hc hinner,
      o.value.has_iff inside]

/-- Whether no operand of the expression fuses. -/
def Expr.keepsApart (e : Expr) : Bool := (e.operands []).all fun o => !o.value.fuses

/-- Operators before, after and between operands, none of which fuses. -/
theorem parenthesized_negation_apart : ∃ unit a,
    SourceUnit.parse 0 "int f(ref int x, int y) { return - (-x) - -y + -~y * y++ }" = .ok unit ∧
    unit.analyzeBridged = .ok a ∧ (∃ n ∈ a.unit.nodes, n.exprs ≠ []) ∧
    ∀ n ∈ a.unit.nodes, ∀ e ∈ n.exprs,
      tokens? (Lowering.expr .lp64 e).render.toList = some (Lowering.expr .lp64 e).tokens := by
  have hok : ((SourceUnit.parse 0
      "int f(ref int x, int y) { return - (-x) - -y + -~y * y++ }").toOption.any fun unit =>
      unit.analyzeBridged.toOption.any fun a => (a.unit.nodes.any fun n => !n.exprs.isEmpty) &&
        a.unit.nodes.all fun n => n.exprs.all Expr.keepsApart) = true := by
    rw [SourceUnit.parse_ofList]
    decide +kernel
  obtain ⟨unit, a, hparse, hanalyze, hall⟩ := SourceUnit.exists_analyzed hok
  obtain ⟨hany, hall⟩ := Bool.and_eq_true_iff.mp hall
  have htext : unit.OfText := ⟨0, _, unit, hparse, List.forall₂_same.mpr fun n _ => .inl rfl⟩
  refine ⟨unit, a, hparse, hanalyze, ?_, fun n hn e he => ?_⟩
  · obtain ⟨n, hn, hexprs⟩ := List.any_eq_true.mp hany
    exact ⟨n, hn, fun hnil => by simp [hnil] at hexprs⟩
  · have hkeeps := List.all_eq_true.mp (List.all_eq_true.mp hall n hn) e he
    refine ((output_tokens_apart .lp64 htext hanalyze n hn e he).1 _ .read).mpr ⟨[], fun o ho => ?_⟩
    simpa using List.all_eq_true.mp hkeeps o ho

/-- The negation of a negated operand is read as a decrement. -/
theorem negated_negation_fuses : ∃ unit a,
    SourceUnit.parse 0 "int f(int x) { return - -x }\n" = .ok unit ∧
    unit.analyzeBridged = .ok a ∧ ∃ n ∈ a.unit.nodes, ∃ e ∈ n.exprs,
      (Lowering.expr .lp64 e).tokens = [.punct "-", .punct "-", .word "x"] ∧
      tokens? (Lowering.expr .lp64 e).render.toList = some [.punct "--", .word "x"] := by
  have hok : ((SourceUnit.parse 0 "int f(int x) { return - -x }\n").toOption.any fun unit =>
      unit.analyzeBridged.toOption.any fun a => a.unit.nodes.any fun n => n.exprs.any fun e =>
        (Lowering.expr .lp64 e).tokens == [.punct "-", .punct "-", .word "x"] &&
          (Lowering.expr .lp64 e).render == "--x") = true := by
    rw [SourceUnit.parse_ofList]
    decide +kernel
  obtain ⟨unit, a, hparse, hanalyze, hany⟩ := SourceUnit.exists_analyzed hok
  obtain ⟨n, hn, hany⟩ := List.any_eq_true.mp hany
  obtain ⟨e, he, heq⟩ := List.any_eq_true.mp hany
  obtain ⟨htokens, hrender⟩ := Bool.and_eq_true_iff.mp heq
  refine ⟨unit, a, hparse, hanalyze, n, hn, e, he, eq_of_beq htokens, ?_⟩
  have hminus : token? '-' ['-', 'x'] = some (.punct "--", ['x']) := by decide +kernel
  have hname : token? 'x' [] = some (.word "x", []) := by decide +kernel
  have htext : "--x".toList = ['-', '-', 'x'] := by decide
  rw [eq_of_beq hrender, htext, tokens?_token (by decide) (by decide) hminus,
    tokens?_token (by decide) (by decide) hname, tokens?_nil]
  rfl

end KilnLang
