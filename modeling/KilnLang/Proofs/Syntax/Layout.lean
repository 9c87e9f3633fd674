import KilnLang.Proofs.Syntax.Respelling
import KilnLang.Proofs.Token.Insertion

/-!
# Layout

Two texts have the **same layout** if their tokens have the same kinds and texts, line breaks
between the same neighbours, and nothing between the same closing angle brackets (`SameLayout`). All
other blanks and comments are free. Then one is a unit if and only if the other is, and the units are
equal up to spans (`SourceUnit.parse_sameLayout`).

A closing parenthesis **closes a list** of a unit if the unit has a place for a comma before it
(`SourceUnit.ClosesList`). Where no comma is written there, one may be inserted, and the text is the
same unit up to spans (`SourceUnit.parse_insert_comma`).

Both are respellings of the pieces that the tokens spell.
-/

namespace KilnLang

/-! ## The same layout -/

/-- Both tokens are closing angle brackets, and nothing is between them. -/
def Token.abuts (t u : Token) : Bool :=
  t.kind == .greater && u.kind == .greater && u.span.start == t.span.stop

/-- The tokens agree in kinds and texts, in the line breaks between neighbours, and in which closing
angle brackets are adjacent. -/
structure SameLayout (ts us : List Token) : Prop where
  kinds : us.map (·.kind) = ts.map (·.kind)
  texts : us.map (·.text) = ts.map (·.text)
  breaks : us.tail.map (·.fresh) = ts.tail.map (·.fresh)
  brackets : us.zipWith Token.abuts us.tail = ts.zipWith Token.abuts ts.tail

instance (ts us : List Token) : Decidable (SameLayout ts us) :=
  decidable_of_iff
    (us.map (·.kind) = ts.map (·.kind) ∧ us.map (·.text) = ts.map (·.text) ∧
      us.tail.map (·.fresh) = ts.tail.map (·.fresh) ∧
      us.zipWith Token.abuts us.tail = ts.zipWith Token.abuts ts.tail)
    ⟨fun ⟨kinds, texts, breaks, brackets⟩ => ⟨kinds, texts, breaks, brackets⟩,
      fun h => ⟨h.kinds, h.texts, h.breaks, h.brackets⟩⟩

namespace SameLayout

variable {ts us : List Token} {t t' u u' : Token}

theorem symm (h : SameLayout ts us) : SameLayout us ts :=
  ⟨h.kinds.symm, h.texts.symm, h.breaks.symm, h.brackets.symm⟩

theorem trans {vs : List Token} (h : SameLayout ts us) (h' : SameLayout us vs) : SameLayout ts vs :=
  ⟨h'.kinds.trans h.kinds, h'.texts.trans h.texts, h'.breaks.trans h.breaks,
    h'.brackets.trans h.brackets⟩

theorem eq_nil (h : SameLayout [] us) : us = [] := List.map_eq_nil_iff.mp h.kinds

theorem exists_cons (h : SameLayout (t :: ts) us) : ∃ u us', us = u :: us' := by
  cases us with
  | nil => exact absurd h.kinds.symm (List.cons_ne_nil _ _)
  | cons u us => exact ⟨u, us, rfl⟩

theorem like (h : SameLayout (t :: ts) (u :: us)) : t.Like u :=
  ⟨(List.cons.inj h.kinds).1, (List.cons.inj h.texts).1⟩

theorem level (h : SameLayout (t :: ts) (u :: us)) : Level ts us := by
  have hbreaks := h.breaks
  cases ts with
  | nil => trivial
  | cons t' ts =>
    cases us with
    | nil => trivial
    | cons u' us => exact fun _ => (List.cons.inj hbreaks).1

theorem tail (h : SameLayout (t :: ts) (u :: us)) : SameLayout ts us where
  kinds := (List.cons.inj h.kinds).2
  texts := (List.cons.inj h.texts).2
  breaks := by
    have hbreaks := congrArg List.tail h.breaks
    rwa [List.tail_cons, List.tail_cons, ← List.map_tail, ← List.map_tail] at hbreaks
  brackets := by
    have hbrackets := congrArg List.tail h.brackets
    cases ts with
    | nil =>
      cases us with
      | nil => rfl
      | cons u' us => exact absurd (List.cons.inj h.kinds).2 (List.cons_ne_nil _ _)
    | cons t' ts =>
      cases us with
      | nil => exact absurd (List.cons.inj h.kinds).2.symm (List.cons_ne_nil _ _)
      | cons u' us => exact hbrackets

theorem abuts (h : SameLayout (t :: t' :: ts) (u :: u' :: us)) : u.abuts u' = t.abuts t' :=
  (List.cons.inj h.brackets).1

end SameLayout

/-- Tokens that are moved keep their layout. -/
theorem SameLayout.moved (file n : Nat) (ts : List Token) :
    SameLayout ts (ts.map (·.moved file n)) where
  kinds := by simp [Token.moved]
  texts := by simp [Token.moved]
  breaks := by simp [Token.moved, ← List.map_tail]
  brackets := by
    have habuts : ∀ t u : Token, (t.moved file n).abuts (u.moved file n) = t.abuts u := by
      intro t u
      have hmoved : (u.span.start + n == t.span.stop + n) = (u.span.start == t.span.stop) := by
        rw [Bool.eq_iff_iff, beq_iff_eq, beq_iff_eq, Nat.add_right_cancel_iff]
      simp only [Token.abuts, Token.moved, hmoved]
    rw [← List.map_tail, List.zipWith_map]
    simp only [habuts]

/-- Tokens of the same layout spell the same pieces. -/
theorem Spells.respelled {ps : List Piece} {ts us : List Token} (h : Spells ps ts)
    (hlayout : SameLayout ts us) : Respelled ps ts us := by
  induction h generalizing us with
  | nil =>
    rw [hlayout.eq_nil]
    exact .nil
  | mark is _ ih =>
    obtain ⟨u, us, rfl⟩ := hlayout.exists_cons
    exact .mark is.1 hlayout.like hlayout.level (ih hlayout.tail)
  | word _ ih =>
    obtain ⟨u, us, rfl⟩ := hlayout.exists_cons
    exact .word hlayout.like hlayout.level (ih hlayout.tail)
  | length kind text _ ih =>
    obtain ⟨u, us, rfl⟩ := hlayout.exists_cons
    exact .length kind text hlayout.like hlayout.level (ih hlayout.tail)
  | shift first second adjacent _ ih =>
    obtain ⟨u, us, rfl⟩ := hlayout.exists_cons
    obtain ⟨u', us, rfl⟩ := hlayout.tail.exists_cons
    have habuts : u.abuts u' = true := by
      rw [hlayout.abuts]
      simp [Token.abuts, first.1, second.1, adjacent]
    simp only [Token.abuts, Bool.and_eq_true, beq_iff_eq] at habuts
    exact .shift first.1 second.1 hlayout.like hlayout.tail.like habuts.2 hlayout.tail.level
      (ih hlayout.tail.tail)
  | skip _ ih => exact .omitted (ih hlayout)
  | take is _ ih =>
    obtain ⟨u, us, rfl⟩ := hlayout.exists_cons
    exact .kept is.1 hlayout.like hlayout.level (ih hlayout.tail)

/-- A text that respells the tokens of a unit is the same unit up to spans, also in another file. -/
theorem SourceUnit.parse_respelled {file file' : Nat} {text text' : String} {unit : SourceUnit}
    {ts us : List Token} (h : SourceUnit.parse file text = .ok unit)
    (hlex : Token.lex file text = .ok ts) (hlex' : Token.lex file' text' = .ok us)
    (hrespelled : Spells unit.pieces ts → Respelled unit.pieces ts us) :
    ∃ unit', SourceUnit.parse file' text' = .ok unit' ∧
      unit'.unspanned = ⟨file', unit.nodes.map (·.unspanned)⟩ := by
  obtain ⟨tokens, nodes, htokens, hnodes, rfl⟩ := SourceUnit.parse_eq_ok.mp h
  cases htokens.symm.trans hlex
  have hsame := hrespelled (Parser.spells_of_nodes hlex hnodes)
  obtain ⟨nodes', hnodes', hequal⟩ := (Parser.nodes_respelled _ nodes hnodes).2
    ⟨⟨file', text'.utf8ByteSize, text'.utf8ByteSize⟩, us,
      ⟨file', text'.utf8ByteSize, text'.utf8ByteSize⟩⟩ hsame
  refine ⟨⟨file', nodes'⟩, SourceUnit.parse_eq_ok.mpr ⟨us, nodes', hlex', hnodes', rfl⟩, ?_⟩
  simp only [SourceUnit.unspanned, hequal]

theorem SourceUnit.unspanned_of_parse {file : Nat} {text : String} {unit : SourceUnit}
    (h : SourceUnit.parse file text = .ok unit) :
    unit.unspanned = ⟨file, unit.nodes.map (·.unspanned)⟩ := by
  obtain ⟨_, nodes, -, -, rfl⟩ := SourceUnit.parse_eq_ok.mp h
  rfl

/-- A text is the same unit in another file. -/
theorem SourceUnit.parse_moved {file : Nat} {text : String} {unit : SourceUnit}
    (h : SourceUnit.parse file text = .ok unit) (file' : Nat) :
    ∃ unit', SourceUnit.parse file' text = .ok unit' ∧
      unit'.unspanned = ⟨file', unit.nodes.map (·.unspanned)⟩ := by
  obtain ⟨ts, _, hlex, -⟩ := SourceUnit.parse_eq_ok.mp h
  exact SourceUnit.parse_respelled h hlex (Token.lex_moved hlex file')
    fun hspells => hspells.respelled (.moved file' 0 ts)

/-- **Blanks and comments do not matter.** Of two texts with the same layout both are units or none
is, and the units are equal up to spans. -/
theorem SourceUnit.parse_sameLayout {file : Nat} {text text' : String} {ts us : List Token}
    (hlex : Token.lex file text = .ok ts) (hlex' : Token.lex file text' = .ok us)
    (h : SameLayout ts us) :
    (SourceUnit.parse file text').toOption.map (·.unspanned) =
      (SourceUnit.parse file text).toOption.map (·.unspanned) := by
  cases hparse : SourceUnit.parse file text with
  | ok unit =>
    obtain ⟨unit', hparse', hequal⟩ :=
      SourceUnit.parse_respelled hparse hlex hlex' fun hspells => hspells.respelled h
    rw [hparse']
    exact congrArg some (hequal.trans (SourceUnit.unspanned_of_parse hparse).symm)
  | error e =>
    cases hparse' : SourceUnit.parse file text' with
    | error e' => rfl
    | ok unit' =>
      -- The texts are exchanged: the first one would be a unit because the second is.
      obtain ⟨unit, hunit, -⟩ :=
        SourceUnit.parse_respelled hparse' hlex' hlex fun hspells => hspells.respelled h.symm
      cases hparse.symm.trans hunit

/-! ## A comma before a closing parenthesis -/

/-- The token `close` between `before` and `after` is the parenthesis that closes a list of the unit
which is not empty: a list of parameters, of types or of arguments. These lists, and no others, have
a place for a comma before their parenthesis. -/
inductive SourceUnit.ClosesList (unit : SourceUnit) (before : List Token) (close : Token)
    (after : List Token) : Prop
  | intro {ps qs : List Piece} (place : unit.pieces = ps ++ .optional .comma :: .mark .rparen :: qs)
      (left : Spells (ps ++ [.optional .comma]) before)
      (right : Spells (.mark .rparen :: qs) (close :: after))

theorem SameLayout.unfresh {u : Token} {ts us : List Token} (h : SameLayout ts (u :: us))
    (fresh : Bool) : SameLayout ts ({ u with fresh } :: us) where
  kinds := h.kinds
  texts := h.texts
  breaks := h.breaks
  brackets := by
    rw [← h.brackets]
    cases us <;> rfl

theorem Level.prepend {ts us : List Token} (h : Level ts us) (before : List Token) :
    Level (before ++ ts) (before ++ us) := by
  cases before with
  | nil => exact h
  | cons t before => exact fun _ => rfl

/-- What comes before is spelled as it was. -/
theorem Respelled.prepend {ps qs : List Piece} {before ts us : List Token} (h : Spells ps before)
    (hlevel : Level ts us) (hrest : Respelled qs ts us) :
    Respelled (ps ++ qs) (before ++ ts) (before ++ us) := by
  induction h with
  | nil => exact hrest
  | mark is _ ih => exact .mark is.1 ⟨rfl, rfl⟩ (hlevel.prepend _) ih
  | word _ ih => exact .word ⟨rfl, rfl⟩ (hlevel.prepend _) ih
  | length kind text _ ih => exact .length kind text ⟨rfl, rfl⟩ (hlevel.prepend _) ih
  | shift first second adjacent _ ih =>
    exact .shift first.1 second.1 ⟨rfl, rfl⟩ ⟨rfl, rfl⟩ adjacent (hlevel.prepend _) ih
  | skip _ ih => exact .omitted ih
  | take is _ ih => exact .kept is.1 ⟨rfl, rfl⟩ (hlevel.prepend _) ih

theorem Spells.exists_of_append {ps qs : List Piece} {ts : List Token} (h : Spells (ps ++ qs) ts) :
    ∃ us vs, ts = us ++ vs ∧ Spells ps us ∧ Spells qs vs := by
  induction ps generalizing ts with
  | nil => exact ⟨[], ts, rfl, .nil, h⟩
  | cons p ps ih =>
    cases h with
    | mark is rest =>
      obtain ⟨us, vs, rfl, hps, hqs⟩ := ih rest
      exact ⟨_ :: us, vs, rfl, .mark is hps, hqs⟩
    | word rest =>
      obtain ⟨us, vs, rfl, hps, hqs⟩ := ih rest
      exact ⟨_ :: us, vs, rfl, .word hps, hqs⟩
    | length kind text rest =>
      obtain ⟨us, vs, rfl, hps, hqs⟩ := ih rest
      exact ⟨_ :: us, vs, rfl, .length kind text hps, hqs⟩
    | shift first second adjacent rest =>
      obtain ⟨us, vs, rfl, hps, hqs⟩ := ih rest
      exact ⟨_ :: _ :: us, vs, rfl, .shift first second adjacent hps, hqs⟩
    | skip rest =>
      obtain ⟨us, vs, rfl, hps, hqs⟩ := ih rest
      exact ⟨us, vs, rfl, .skip hps, hqs⟩
    | take is rest =>
      obtain ⟨us, vs, rfl, hps, hqs⟩ := ih rest
      exact ⟨_ :: us, vs, rfl, .take is hps, hqs⟩

/-- A comma that is not written was left out. -/
theorem Spells.of_no_comma {ps : List Piece} {before : List Token}
    (h : Spells (ps ++ [.optional .comma]) before)
    (hcomma : ∀ t ∈ before.getLast?, t.kind ≠ .comma) : Spells ps before := by
  obtain ⟨us, vs, rfl, hps, hvs⟩ := h.exists_of_append
  cases hvs with
  | skip rest =>
    cases rest
    rwa [List.append_nil]
  | take is rest =>
    cases rest
    exact absurd is.1 (hcomma _ (by simp))

/-- Each place for a comma in a unit is before a parenthesis that closes a list. -/
theorem SourceUnit.exists_closesList {file : Nat} {text : String} {unit : SourceUnit}
    {ps qs : List Piece} (h : SourceUnit.parse file text = .ok unit)
    (hpieces : unit.pieces = ps ++ .optional .comma :: .mark .rparen :: qs) :
    ∃ before close after, Token.lex file text = .ok (before ++ close :: after) ∧
      unit.ClosesList before close after := by
  obtain ⟨tokens, nodes, hlex, hnodes, rfl⟩ := SourceUnit.parse_eq_ok.mp h
  have hspells : Spells ((ps ++ [.optional .comma]) ++ .mark .rparen :: qs) tokens := by
    rw [List.append_assoc, List.singleton_append, ← hpieces]
    exact Parser.spells_of_nodes hlex hnodes
  obtain ⟨before, rest, rfl, hbefore, hrest⟩ := hspells.exists_of_append
  have hclose := hrest
  cases hrest with
  | mark is after => exact ⟨before, _, _, hlex, .intro hpieces hbefore hclose⟩

theorem SourceUnit.ClosesList.kind {unit : SourceUnit} {before after : List Token} {close : Token}
    (h : unit.ClosesList before close after) : close.kind = .rparen := by
  obtain ⟨-, -, hclose⟩ := h
  cases hclose with
  | mark is => exact is.1

/-- The tokens after a comma was inserted respell the unit. -/
theorem SourceUnit.ClosesList.respelled {unit : SourceUnit} {before after : List Token}
    {close : Token} (h : unit.ClosesList before close after)
    (hcomma : ∀ t ∈ before.getLast?, t.kind ≠ .comma) (file : Nat) :
    Respelled unit.pieces (before ++ close :: after)
      (before ++ (Lexer.withComma file close ++ after.map (·.moved file 1))) := by
  have hkind := h.kind
  obtain ⟨hpieces, hbefore, hclose⟩ := h
  have hlayout : SameLayout (close :: after)
      ({ close.moved file 1 with fresh := false } :: after.map (·.moved file 1)) :=
    (SameLayout.moved file 1 (close :: after)).unfresh false
  rw [hpieces]
  refine Respelled.prepend (hbefore.of_no_comma hcomma) (Level.of_headKind ?_ _) ?_
  · intro hident
    cases hkind.symm.trans hident
  · exact .added hkind rfl (hclose.respelled hlayout)

/-- **A closing comma does not matter.** A comma that is inserted before the parenthesis that closes
a list leaves the unit as it is up to spans. -/
theorem SourceUnit.parse_insert_comma {file : Nat} {front back : String} {unit : SourceUnit}
    {before after : List Token} {close : Token}
    (h : SourceUnit.parse file (front ++ back) = .ok unit)
    (hlex : Token.lex file (front ++ back) = .ok (before ++ close :: after))
    (hstart : close.span.start = utf8Width front.toList)
    (hcloses : unit.ClosesList before close after)
    (hcomma : ∀ t ∈ before.getLast?, t.kind ≠ .comma) :
    ∃ unit', SourceUnit.parse file (front ++ "," ++ back) = .ok unit' ∧
      unit'.unspanned = unit.unspanned := by
  rw [SourceUnit.unspanned_of_parse h]
  exact SourceUnit.parse_respelled h hlex (Token.lex_insert_comma hlex hcloses.kind hstart)
    fun _ => hcloses.respelled hcomma file

end KilnLang
