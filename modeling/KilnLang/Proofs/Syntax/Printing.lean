import KilnLang.Proofs.Syntax.Pieces
import KilnLang.Proofs.Token.Lexemes

/-!
# Printing

A unit is **printed** on one line, with a space between any two words. A semicolon follows each
statement and each part of the unit, no comma is printed that can be left out, lengths are decimal,
and a shift is one word.

**Theorem (`lex_printed`).** The tokens of printed pieces are those of the pieces in order
(`Written`), if the words of the pieces are legible. The tokens of a shift are adjacent, since they
are one word, and no name or literal is the first of its line, since there is only one line.

The pieces that the tokens of any text spell are legible (`Spells.legible`), because the words are
the texts of these tokens.
-/

namespace KilnLang

/-! ## The text of a unit -/

/-- The words that are printed for a piece: with semicolons, without commas that can be left out. -/
def Piece.words : Piece → List String
  | .mark kind => [kind.spelling?.getD ""]
  | .word _ text => [text]
  | .length value => [toString value]
  | .shift => [">>"]
  | .optional .semi => [";"]
  | .optional .comma => []

/-- The text of a unit: its words on one line, with a space between any two. -/
def SourceUnit.print (u : SourceUnit) : String := " ".intercalate (u.pieces.flatMap (·.words))

/-- The tokens are those of the printed pieces. -/
inductive Written : List Piece → List Token → Prop
  | nil : Written [] []
  | mark {t : Token} {ps : List Piece} {ts : List Token} (rest : Written ps ts) :
      Written (.mark t.kind :: ps) (t :: ts)
  | word {t : Token} {ps : List Piece} {ts : List Token} (sameLine : t.fresh = false)
      (rest : Written ps ts) : Written (.word t.kind t.text :: ps) (t :: ts)
  | length {value : Nat} {t : Token} {ps : List Piece} {ts : List Token}
      (kind : t.kind = .intLiteral) (text : IntLiteral.value? t.text = some value)
      (rest : Written ps ts) : Written (.length value :: ps) (t :: ts)
  | shift {t u : Token} {ps : List Piece} {ts : List Token} (first : t.kind = .greater)
      (second : u.kind = .greater) (adjacent : u.span.start = t.span.stop) (rest : Written ps ts) :
      Written (.shift :: ps) (t :: u :: ts)
  | semi {t : Token} {ps : List Piece} {ts : List Token} (kind : t.kind = .semi)
      (rest : Written ps ts) : Written (.optional .semi :: ps) (t :: ts)
  | comma {ps : List Piece} {ts : List Token} (rest : Written ps ts) :
      Written (.optional .comma :: ps) ts

/-! ## Legible pieces -/

/-- The words of the piece are read as its tokens. -/
def Piece.Legible : Piece → Prop
  | .mark kind => ∃ spelling, kind.spelling? = some spelling ∧ Lexer.Legible kind spelling.toList
  | .word kind text => Lexer.Legible kind text.toList
  | .length value => value < UInt64.size
  | .shift => True
  | .optional _ => True

theorem IntLiteral.lt_of_value? {text : String} {n : Nat} (h : value? text = some n) :
    n < UInt64.size := by
  have hfilter := (Option.filter_eq_some_iff.mp h).2
  exact of_decide_eq_true hfilter

/-- Pieces that the tokens of a text spell are legible. -/
theorem Spells.legible {ps : List Piece} {ts : List Token} (h : Spells ps ts)
    (hts : ∀ t ∈ ts, t.Lexed) : ∀ p ∈ ps, p.Legible := by
  induction h with
  | nil => exact fun _ hp => absurd hp List.not_mem_nil
  | mark is _ ih =>
    obtain ⟨ht, hts⟩ := List.forall_mem_cons.mp hts
    obtain ⟨rfl, hspelling⟩ := is
    exact List.forall_mem_cons.mpr ⟨⟨_, hspelling, ht.legible⟩, ih hts⟩
  | word _ ih =>
    obtain ⟨ht, hts⟩ := List.forall_mem_cons.mp hts
    exact List.forall_mem_cons.mpr ⟨ht.legible, ih hts⟩
  | length _ htext _ ih =>
    obtain ⟨-, hts⟩ := List.forall_mem_cons.mp hts
    exact List.forall_mem_cons.mpr ⟨IntLiteral.lt_of_value? htext, ih hts⟩
  | shift _ _ _ _ ih =>
    obtain ⟨-, hts⟩ := List.forall_mem_cons.mp (List.forall_mem_cons.mp hts).2
    exact List.forall_mem_cons.mpr ⟨trivial, ih hts⟩
  | skip _ ih => exact List.forall_mem_cons.mpr ⟨trivial, ih hts⟩
  | take _ _ ih => exact List.forall_mem_cons.mpr ⟨trivial, ih (List.forall_mem_cons.mp hts).2⟩

/-! ## Reading what was printed -/

namespace Lexer

/-- Words with a space between any two, and `lead` before the first one. -/
def spaced (lead : List Char) : List String → List Char
  | [] => []
  | w :: ws => lead ++ (w.toList ++ spaced [' '] ws)

theorem spaced_space (ws : List String) : Spaced (spaced [' '] ws) := by
  cases ws with
  | nil => exact .nil
  | cons w ws => exact .cons _

theorem toList_intercalate_space (ws : List String) :
    (" ".intercalate ws).toList = spaced [] ws := by
  induction ws with
  | nil => rfl
  | cons w ws ih =>
    cases ws with
    | nil => simp [spaced]
    | cons w' ws =>
      rw [String.intercalate_cons_cons, String.toList_append, String.toList_append, ih]
      simp [spaced]

theorem scanFrom_nil (file pos : Nat) : scanFrom file pos [] = ⟨[], none⟩ := by
  have htrivia : trivia pos [] = .ok ([], []) := by rw [trivia]
  rw [scanFrom]
  split
  · simp_all
  · rfl
  · rename_i heq
    rw [htrivia] at heq
    cases heq

/-- One legible word, and what is read after it. -/
theorem scanFrom_spaced {kind : TokenKind} {w : String} (hw : Legible kind w.toList)
    {lead : List Char} (hlead : ∀ c ∈ lead, c = ' ') {ws : List String} {ps : List Piece}
    {file : Nat}
    (hmore : ∀ pos, ∃ ts, scanFrom file pos (spaced [' '] ws) = ⟨ts, none⟩ ∧ Written ps ts)
    (pos : Nat) :
    ∃ t ts, scanFrom file pos (spaced lead (w :: ws)) = ⟨t :: ts, none⟩ ∧ Written ps ts ∧
      t.kind = kind ∧ t.text = w ∧ t.fresh = false := by
  obtain ⟨ts, hscan, hts⟩ := hmore (pos + utf8Width lead + utf8Width w.toList)
  have hword := scanFrom_legible hw hlead (spaced_space ws) file pos
  rw [hscan] at hword
  exact ⟨_, ts, hword, hts, rfl, String.ofList_toList, rfl⟩

/-- A shift, and what is read after it. -/
theorem scanFrom_shift {lead : List Char} (hlead : ∀ c ∈ lead, c = ' ') {ws : List String}
    {ps : List Piece} {file : Nat}
    (hmore : ∀ pos, ∃ ts, scanFrom file pos (spaced [' '] ws) = ⟨ts, none⟩ ∧ Written ps ts)
    (pos : Nat) :
    ∃ ts, scanFrom file pos (spaced lead (">>" :: ws)) = ⟨ts, none⟩ ∧
      Written (.shift :: ps) ts := by
  have hfirst : ∀ pos, lexeme pos '>' ('>' :: spaced [' '] ws) =
      .ok (.greater, ['>'], '>' :: spaced [' '] ws) := fun _ => rfl
  have hgreater : Legible .greater ['>'] :=
    legible_of_lexeme (show lexeme 0 '>' [] = .ok (.greater, ['>'], []) from rfl) rfl
  obtain ⟨ts, hscan, hts⟩ := hmore (pos + utf8Width lead + utf8Width ['>'] + utf8Width ['>'])
  have hone := scanFrom_token hlead (by rfl) hfirst file pos
  have htwo : scanFrom file (pos + utf8Width lead + utf8Width ['>']) ('>' :: spaced [' '] ws) = _ :=
    scanFrom_legible hgreater (fun _ h => absurd h List.not_mem_nil) (spaced_space ws) file _
  rw [utf8Width_nil, Nat.add_zero, hscan] at htwo
  rw [htwo] at hone
  exact ⟨_, hone, .shift rfl rfl rfl hts⟩

/-- Printed pieces that are legible are read as their tokens. -/
theorem scanFrom_printed {ps : List Piece} (hps : ∀ p ∈ ps, p.Legible) {lead : List Char}
    (hlead : ∀ c ∈ lead, c = ' ') (file pos : Nat) :
    ∃ ts, scanFrom file pos (spaced lead (ps.flatMap (·.words))) = ⟨ts, none⟩ ∧ Written ps ts := by
  induction ps generalizing lead pos with
  | nil => exact ⟨[], scanFrom_nil file pos, .nil⟩
  | cons p ps ih =>
    obtain ⟨hp, hmore⟩ := List.forall_mem_cons.mp hps
    have hspaced : ∀ pos, ∃ ts, scanFrom file pos (spaced [' '] (ps.flatMap (·.words))) =
        ⟨ts, none⟩ ∧ Written ps ts := ih hmore (by simp)
    rw [List.flatMap_cons]
    cases p with
    | mark kind =>
      obtain ⟨spelling, hspelling, hlegible⟩ := hp
      obtain ⟨t, ts, hscan, hts, rfl, -, -⟩ := scanFrom_spaced hlegible hlead hspaced pos
      refine ⟨t :: ts, ?_, .mark hts⟩
      rw [Piece.words, hspelling]
      exact hscan
    | word kind text =>
      obtain ⟨t, ts, hscan, hts, rfl, rfl, hfresh⟩ := scanFrom_spaced hp hlead hspaced pos
      exact ⟨t :: ts, hscan, .word hfresh hts⟩
    | length value =>
      obtain ⟨t, ts, hscan, hts, hkind, htext, -⟩ :=
        scanFrom_spaced (legible_decimal value) hlead hspaced pos
      exact ⟨t :: ts, hscan, .length hkind (by rw [htext, IntLiteral.value?_toString hp]) hts⟩
    | shift => exact scanFrom_shift hlead hspaced pos
    | optional sep =>
      cases sep with
      | semi =>
        have hsemi : Legible .semi ";".toList :=
          legible_of_lexeme (show lexeme 0 ';' [] = .ok (.semi, [';'], []) from rfl) rfl
        obtain ⟨t, ts, hscan, hts, hkind, -, -⟩ := scanFrom_spaced hsemi hlead hspaced pos
        exact ⟨t :: ts, hscan, .semi hkind hts⟩
      | comma =>
        obtain ⟨ts, hscan, hts⟩ := ih hmore hlead pos
        exact ⟨ts, hscan, .comma hts⟩

end Lexer

/-- The tokens of printed pieces that are legible are as they are written. -/
theorem lex_printed {ps : List Piece} (hps : ∀ p ∈ ps, p.Legible) (file : Nat) :
    ∃ ts, Token.lex file (" ".intercalate (ps.flatMap (·.words))) = .ok ts ∧ Written ps ts := by
  obtain ⟨ts, hscan, hts⟩ :=
    Lexer.scanFrom_printed hps (fun _ h => absurd h List.not_mem_nil) file 0
  refine ⟨ts, ?_, hts⟩
  unfold Token.lex Scan.ofText
  rw [Lexer.toList_intercalate_space, hscan]

end KilnLang
