import KilnLang.Proofs.Text.ByteOffsets
import KilnLang.Proofs.Token.Insertion
import KilnLang.Proofs.Token.Places

/-!
# Tokens tile the source

The tokens of a text and the gaps between them are the text, cut into pieces.

**Theorem (`tokens_tile_source`).** Between the tokens of a text, with the token for its end, there
are gaps and nothing else: white space, line comments up to the end of their line, and block
comments up to the first mark that closes them (`Lexer.IsGap`). Each span starts and stops between
characters, has the text of its token, and is empty only at the end of the text. The spans are
disjoint and in order, and gaps and tokens put together give the text.

The pieces are laid out along the reading of the text: a gap is what `Lexer.trivia` takes, up to
where the next token starts, and the token is what `Lexer.lexeme` takes (`Lexer.scanFrom_tiled`).
-/

namespace KilnLang

/-- The token for the end of a text. -/
def Token.endOf (file : Nat) (text : List Char) : Token :=
  ⟨.eof, "", ⟨file, utf8Width text, utf8Width text⟩, false⟩

namespace Lexer

variable {text cs gap rest : List Char} {pos : Nat}

/-! ## Gaps -/

/-- The characters after the opening of a block comment, up to the first mark that closes it. -/
def ClosesBlock (body : List Char) : Prop :=
  ∃ inner, body = inner ++ ['*', '/'] ∧ ¬ ['*', '/'] <:+: inner ++ ['*']

/-- A sequence of white space and comments. A line comment goes up to a line break that belongs to
the sequence, or to its end if that is the end of the text. -/
inductive IsGap (final : Prop) : List Char → Prop
  | nil : IsGap final []
  | blank {c : Char} {gap : List Char} : isBlank c = true → IsGap final gap → IsGap final (c :: gap)
  | line {comment gap : List Char} : '\n' ∉ comment → gap.head? = some '\n' ∨ final ∧ gap = [] →
      IsGap final gap → IsGap final ('/' :: '/' :: comment ++ gap)
  | block {body gap : List Char} : ClosesBlock body → IsGap final gap →
      IsGap final ('/' :: '*' :: body ++ gap)

theorem IsGap.congr {final final' : Prop} (h : IsGap final gap) (hfinal : final ↔ final') :
    IsGap final' gap :=
  propext hfinal ▸ h

theorem closesBlock_of_blockComment {body : List Char} (h : blockComment cs = some (body, rest)) :
    ClosesBlock body := by
  fun_induction blockComment cs generalizing body rest with
  | case1 => cases h
  | case2 cs =>
    cases h
    exact ⟨[], rfl, by decide⟩
  | case3 c cs hne ih =>
    obtain ⟨⟨body, rest⟩, hbody, heq⟩ := Option.map_eq_some_iff.mp h
    cases heq
    obtain ⟨inner, hinner, hfirst⟩ := ih hbody
    refine ⟨c :: inner, by rw [hinner]; rfl, fun hinfix => ?_⟩
    rcases List.infix_cons_iff.mp hinfix with hprefix | hinfix
    · -- A mark that starts here would have ended the comment.
      obtain ⟨after, hafter⟩ := hprefix
      obtain ⟨rfl, hinner'⟩ := List.cons.inj hafter
      have happend := blockComment_append hbody
      cases inner with
      | nil => cases hinner'
      | cons d inner =>
        obtain ⟨rfl, -⟩ := List.cons.inj hinner'
        rw [hinner] at happend
        exact hne _ rfl happend.symm
    · exact hfirst hinfix

/-- What follows a line comment is the end of its line, or of the text. -/
theorem head_of_line_end {line : List Char}
    (h : trivia pos (line.dropWhile (· != '\n')) = .ok (gap, rest)) :
    gap.head? = some '\n' ∨ rest = [] ∧ gap = [] := by
  have happend := trivia_append h
  cases hcs : line.dropWhile (· != '\n') with
  | nil =>
    rw [hcs] at happend
    exact .inr (List.append_eq_nil_iff.mp happend).symm
  | cons c cs =>
    have hc : c = '\n' := by
      have hhead := List.head?_dropWhile_not (· != '\n') line
      rw [hcs] at hhead
      simpa using hhead
    subst hc
    rw [hcs] at happend h
    cases gap with
    | nil =>
      obtain rfl : rest = '\n' :: cs := happend
      exact absurd (not_startsGap_of_trivia h) (by simp [startsGap, isBlank])
    | cons g gap =>
      rw [(List.cons.inj happend).1]
      exact .inl rfl

/-- What is taken before a token is a gap, which ends the text if no token comes. -/
theorem isGap_of_trivia (h : trivia pos cs = .ok (gap, rest)) : IsGap (rest = []) gap := by
  fun_induction trivia pos cs generalizing gap rest with
  | case1 =>
    cases h
    exact .nil
  | case2 pos c cs hblank ih =>
    obtain ⟨⟨gap, rest⟩, hmore, heq⟩ := exists_of_map_eq_ok h
    cases heq
    exact .blank hblank (ih hmore)
  | case3 pos c cs _ hline comment _ =>
    rename_i ih
    obtain ⟨⟨gap, rest⟩, hmore, heq⟩ := exists_of_map_eq_ok h
    cases heq
    rw [Bool.and_eq_true, beq_iff_eq, beq_iff_eq, List.head?_eq_some_iff] at hline
    obtain ⟨rfl, cs, rfl⟩ := hline
    have hcomment : comment = '/' :: cs.takeWhile (· != '\n') := rfl
    rw [hcomment]
    refine .line (fun hbreak => ?_) (head_of_line_end hmore) (ih hmore)
    exact absurd (List.mem_takeWhile_imp hbreak) (by decide)
  | case4 => cases h
  | case5 pos c cs _ _ _ body rest hbody _ ih =>
    obtain ⟨⟨gap, rest⟩, hmore, heq⟩ := exists_of_map_eq_ok h
    cases heq
    exact .block (closesBlock_of_blockComment hbody) (ih hmore)
  | case6 =>
    cases h
    exact .nil

/-! ## Pieces -/

/-- Gaps and tokens alternate in the text from an offset on. Each gap goes from the end of the token
before to the start of its token, whose span has the text of the token. -/
def Tiled (text : List Char) : Nat → List (List Char × Token) → Prop
  | _, [] => True
  | pos, (gap, t) :: more =>
    slice? text pos t.span.start = some gap ∧ IsGap (t.kind = .eof) gap ∧
      slice? text t.span.start t.span.stop = some t.text.toList ∧ Tiled text t.span.stop more

/-- Tokens with the gaps before them, and what is put together from them. -/
def joined (pieces : List (List Char × Token)) : List Char :=
  pieces.flatMap fun (gap, t) => gap ++ t.text.toList

theorem joined_cons (gap : List Char) (t : Token) (more : List (List Char × Token)) :
    joined ((gap, t) :: more) = gap ++ t.text.toList ++ joined more :=
  rfl

/-- What is read from an offset on, and the end of the text, with the gaps between. -/
theorem scanFrom_tiled {file : Nat} (hat : Text.At text pos cs)
    (h : (scanFrom file pos cs).error = none) :
    ∃ gaps : List (List Char), gaps.length = (scanFrom file pos cs).tokens.length + 1 ∧
      Tiled text pos (gaps.zip ((scanFrom file pos cs).tokens ++ [Token.endOf file text])) ∧
      joined (gaps.zip ((scanFrom file pos cs).tokens ++ [Token.endOf file text])) = cs := by
  fun_induction scanFrom file pos cs with
  | case1 => cases h
  | case2 pos cs gap hgap =>
    have happend := trivia_append hgap
    rw [List.append_nil] at happend
    subst happend
    have hrest : Text.At text (utf8Width text) [] := ⟨text, (List.append_nil text).symm, rfl⟩
    have hisGap : IsGap (TokenKind.eof = .eof) gap := (isGap_of_trivia hgap).congr (by simp)
    exact ⟨[gap], rfl, ⟨hat.slice?_rest, hisGap, hrest.slice?_rest, trivial⟩,
      by simp [joined, Token.endOf]⟩
  | case3 => cases h
  | case4 pos cs gap c cs' hgap start kind lexed rest hlexeme _ _ _ stop next =>
    rename_i ih
    have hrest := lexeme_append hlexeme
    have hcs : gap ++ (lexed ++ rest) = cs := by rw [hrest, trivia_append hgap]
    subst hcs
    obtain ⟨gaps, hlength, htiled, hjoined⟩ := ih hat.append.append h
    have hisGap : IsGap (kind = .eof) gap := (isGap_of_trivia hgap).congr
      (by simp [(lexeme_shape hlexeme).kind_ne_eof])
    refine ⟨gap :: gaps, congrArg (· + 1) hlength, ⟨hat.slice?, hisGap, ?_, htiled⟩, ?_⟩
    · show slice? text start (start + utf8Width lexed) = some (String.ofList lexed).toList
      rw [String.toList_ofList]
      exact hat.append.slice?
    · refine (joined_cons ..).trans ?_
      rw [String.toList_ofList]
      exact congrArg (gap ++ lexed ++ ·) hjoined |>.trans (List.append_assoc ..)

/-! ## Spans -/

theorem start_lt_stop_of_mem_scanFrom {file : Nat} {t : Token}
    (h : t ∈ (scanFrom file pos cs).tokens) : t.span.file = file ∧ t.span.start < t.span.stop := by
  fun_induction scanFrom file pos cs with
  | case1 => exact absurd h List.not_mem_nil
  | case2 => exact absurd h List.not_mem_nil
  | case3 => exact absurd h List.not_mem_nil
  | case4 pos cs gap c cs' hgap start kind lexed rest hlexeme _ _ _ stop next =>
    rename_i ih
    rcases List.mem_cons.mp h with rfl | h
    · refine ⟨rfl, Nat.lt_add_of_pos_right (Nat.pos_of_ne_zero fun hwidth => ?_)⟩
      exact lexeme_text_ne_nil hlexeme (eq_nil_of_utf8Width hwidth)
    · exact ih h

theorem le_of_slice? {start stop : Nat} {part : List Char}
    (h : slice? text start stop = some part) : start ≤ stop := by
  rw [slice?] at h
  split at h
  · cases h
  · rename_i hle
    exact Nat.le_of_not_lt hle

/-- Each token of a tiling starts at its offset or after, and stops where the next ones start or
before. -/
theorem Tiled.ordered {pieces : List (List Char × Token)} (h : Tiled text pos pieces) :
    (∀ t ∈ pieces.map (·.2), pos ≤ t.span.start) ∧
      (pieces.map (·.2)).Pairwise fun t u => t.span.stop ≤ u.span.start := by
  induction pieces generalizing pos with
  | nil => exact ⟨nofun, .nil⟩
  | cons piece pieces ih =>
    obtain ⟨gap, t⟩ := piece
    obtain ⟨hgap, -, htext, hmore⟩ := h
    obtain ⟨hstart, hpairs⟩ := ih hmore
    have hle := le_of_slice? hgap
    refine ⟨?_, List.pairwise_cons.mpr ⟨hstart, hpairs⟩⟩
    rintro u (_ | ⟨_, hu⟩)
    · exact hle
    · exact Nat.le_trans (Nat.le_trans hle (le_of_slice? htext)) (hstart u hu)

end Lexer

/-- **Tokens and gaps tile the source.** The text is put together from the tokens, with the one for
its end, and the gaps before them. The gaps are white space and comments, and go from where a token
stops to where the next one starts. Spans have the texts of their tokens, and are disjoint and in
order; only the one of the end of the text is empty. -/
theorem tokens_tile_source {file : Nat} {text : String} {tokens : List Token}
    (h : Token.lex file text = .ok tokens) :
    ∃ gaps : List (List Char), gaps.length = tokens.length + 1 ∧
      Lexer.joined (gaps.zip (tokens ++ [Token.endOf file text.toList])) = text.toList ∧
      Lexer.Tiled text.toList 0 (gaps.zip (tokens ++ [Token.endOf file text.toList])) ∧
      (∀ t ∈ tokens, t.span.file = file ∧ t.kind ≠ .eof ∧ t.span.start < t.span.stop) ∧
      (tokens ++ [Token.endOf file text.toList]).Pairwise fun t u =>
        t.span.start < u.span.start ∧ t.span.stop ≤ u.span.start := by
  have hscan := Token.lex_eq_ok.mp h
  obtain ⟨gaps, hlength, htiled, hjoined⟩ :=
    Lexer.scanFrom_tiled (Text.at_zero text.toList) (congrArg Scan.error hscan)
  rw [hscan] at hlength htiled hjoined
  have hnonempty : ∀ t ∈ tokens, t.span.file = file ∧ t.span.start < t.span.stop := by
    intro t ht
    have hmem : t ∈ (Lexer.scanFrom file 0 text.toList).tokens := by
      rw [hscan]
      exact ht
    exact Lexer.start_lt_stop_of_mem_scanFrom hmem
  have hkind : ∀ t ∈ tokens, t.kind ≠ .eof :=
    fun t ht => (Lexer.lexed_of_mem_lex h ht).shape.kind_ne_eof
  have htokens : (gaps.zip (tokens ++ [Token.endOf file text.toList])).map (·.2) =
      tokens ++ [Token.endOf file text.toList] :=
    List.map_snd_zip (by rw [hlength, List.length_append]; rfl)
  have hpairs := htiled.ordered.2
  rw [htokens] at hpairs
  refine ⟨gaps, hlength, hjoined, htiled,
    fun t ht => ⟨(hnonempty t ht).1, hkind t ht, (hnonempty t ht).2⟩, ?_⟩
  -- A token is not empty, so what starts behind its end starts behind its start.
  have hstrict : ∀ t ∈ tokens, ∀ u : Token, t.span.stop ≤ u.span.start →
      t.span.start < u.span.start ∧ t.span.stop ≤ u.span.start :=
    fun t ht u hle => ⟨Nat.lt_of_lt_of_le (hnonempty t ht).2 hle, hle⟩
  obtain ⟨hinner, hend, hcross⟩ := List.pairwise_append.mp hpairs
  exact List.pairwise_append.mpr ⟨hinner.imp_of_mem fun ht _ => hstrict _ ht _,
    List.pairwise_singleton .., fun t ht u hu => hstrict t ht u (hcross t ht u hu)⟩

/-- The text of four tokens, with comments, an escape and characters of several bytes. -/
def commented : String := "str s/* é */= \"\\\" é\" // \"\n"

/-- The gaps before four tokens and the end of the text are read off the text. -/
theorem commented_is_tiled : ∃ (tokens : List Token) (gaps : List (List Char)),
    Token.lex 0 commented = .ok tokens ∧ tokens.length = 4 ∧ gaps.length = 5 ∧
      Lexer.joined (gaps.zip (tokens ++ [Token.endOf 0 commented.toList])) = commented.toList ∧
      Lexer.Tiled commented.toList 0 (gaps.zip (tokens ++ [Token.endOf 0 commented.toList])) := by
  have hok : ((Token.lex 0 commented).toOption.any fun tokens => tokens.length = 4) = true := by
    rw [commented, Token.lex_ofList]
    decide +kernel
  obtain ⟨tokens, hlex, hfour⟩ := Token.exists_lexed hok
  have hlength : tokens.length = 4 := of_decide_eq_true hfour
  obtain ⟨gaps, hgaps, hjoined, htiled, -⟩ := tokens_tile_source hlex
  exact ⟨tokens, gaps, hlex, hlength, hgaps.trans (congrArg (· + 1) hlength), hjoined, htiled⟩

end KilnLang
