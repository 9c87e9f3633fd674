import KilnLang.Proofs.Token.Lexemes

/-!
# A comma before a closing parenthesis

**Theorem (`Token.lex_insert_comma`).** Insert a comma right before a closing parenthesis that is a
token of a text. The text then has the same tokens with a comma before the parenthesis; those after
it are moved by one byte.

Nothing that comes before can reach over the place: a comma and a parenthesis alike end names,
numbers, symbols and the marks of comments (`lexeme_delimited`), and a string or a character that
ends before the place does not depend on what comes after it. What comes after is read from the same
characters at another offset, which only matters for spans and errors (`scanFrom_moved`).
-/

namespace KilnLang

/-- The token moved by `n` bytes, in the file numbered `file`. -/
def Token.moved (file n : Nat) (t : Token) : Token :=
  { t with span := ⟨file, t.span.start + n, t.span.stop + n⟩ }

namespace Lexer

/-! ## Gaps -/

theorem blockComment_ne_nil {cs body rest : List Char} (h : blockComment cs = some (body, rest)) :
    body ≠ [] := by
  fun_cases blockComment cs with
  | case1 => cases h
  | case2 cs =>
    cases h
    exact List.cons_ne_nil _ _
  | case3 c cs hnot =>
    rw [blockComment] at h
    · obtain ⟨⟨body, rest⟩, -, heq⟩ := Option.map_eq_some_iff.mp h
      cases heq
      exact List.cons_ne_nil _ _
    · exact hnot

/-- A comment is read again, whatever comes after it. -/
theorem blockComment_again {cs body rest : List Char} (h : blockComment cs = some (body, rest))
    (rest' : List Char) : blockComment (body ++ rest') = some (body, rest') := by
  fun_induction blockComment cs generalizing body rest with
  | case1 => cases h
  | case2 cs =>
    cases h
    rfl
  | case3 c cs hnot ih =>
    obtain ⟨⟨body, rest⟩, hbody, heq⟩ := Option.map_eq_some_iff.mp h
    cases heq
    have hcs := blockComment_append hbody
    rw [List.cons_append, blockComment, ih hbody]
    · rfl
    · rintro cs' rfl heq
      cases body with
      | nil => exact blockComment_ne_nil hbody rfl
      | cons e body =>
        obtain ⟨rfl, -⟩ := List.cons.inj heq
        exact hnot (body ++ rest) rfl hcs.symm

theorem trivia_line {comment : List Char} (hcomment : ∀ e ∈ comment, (e != '\n') = true)
    (hmark : comment.head? = some '/') (pos : Nat) (rest : List Char) :
    trivia pos ('/' :: (comment ++ '\n' :: rest)) =
      (trivia (pos + utf8Width ('/' :: comment)) ('\n' :: rest)).map
        fun (gap, rest) => ('/' :: comment ++ gap, rest) := by
  have hhead : (comment ++ '\n' :: rest).head? = some '/' := by rw [List.head?_append, hmark]; rfl
  have htake : (comment ++ '\n' :: rest).takeWhile (· != '\n') = comment := by
    rw [List.takeWhile_append_of_pos hcomment]
    simp
  have hdrop : (comment ++ '\n' :: rest).dropWhile (· != '\n') = '\n' :: rest := by
    rw [List.dropWhile_append_of_pos hcomment]
    simp
  rw [trivia]
  simp only [hhead, htake, hdrop]
  rfl

theorem trivia_block {body rest : List Char} (h : blockComment (body ++ rest) = some (body, rest))
    (pos : Nat) :
    trivia pos ('/' :: '*' :: (body ++ rest)) =
      (trivia (pos + utf8Width ('/' :: '*' :: body)) rest).map
        fun (gap, rest) => ('/' :: '*' :: body ++ gap, rest) := by
  rw [trivia, if_neg (by decide), if_neg (by simp), if_pos (by simp)]
  split
  · rename_i hnone
    cases h.symm.trans hnone
  · rename_i hsome
    cases h.symm.trans hsome
    rfl

/-- A gap is read again before anything that does not go on with it. -/
theorem trivia_again {pos : Nat} {cs gap rest : List Char} {c : Char}
    (h : trivia pos cs = .ok (gap, c :: rest)) (pos' : Nat) {c' : Char} {rest' : List Char}
    (hstart : startsGap c' rest'.head? = false) :
    trivia pos' (gap ++ c' :: rest') = .ok (gap, c' :: rest') := by
  fun_induction trivia pos cs generalizing gap pos' with
  | case1 => cases h
  | case2 pos e cs hblank ih =>
    obtain ⟨⟨gap, rest⟩, htail, heq⟩ := exists_of_map_eq_ok h
    cases heq
    rw [List.cons_append, trivia]
    simp only [hblank, if_true]
    rw [ih htail]
    rfl
  | case3 pos e cs hblank hline comment _ =>
    rename_i ih
    obtain ⟨⟨gap, rest⟩, htail, heq⟩ := exists_of_map_eq_ok h
    cases heq
    obtain ⟨rfl, hmark⟩ : e = '/' ∧ cs.head? = some '/' := by simpa using hline
    -- The comment ends before a line break, which the gap goes on with.
    obtain ⟨more, rfl⟩ : ∃ more, gap = '\n' :: more := by
      have hbreak := List.head?_dropWhile_not (· != '\n') cs
      rw [← trivia_append htail] at hbreak
      cases gap with
      | nil =>
        have hc : c = '\n' := by simpa using hbreak
        have hgap := not_startsGap_of_trivia htail
        rw [hc] at hgap
        cases hgap
      | cons e more => exact ⟨more, by simpa using hbreak⟩
    have hmark : comment.head? = some '/' := by
      cases cs with
      | nil => cases hmark
      | cons e cs =>
        cases hmark
        rfl
    rw [List.cons_append, List.cons_append, List.append_assoc, List.cons_append,
      trivia_line (fun _ => List.mem_takeWhile_imp) hmark, ← List.cons_append, ih htail]
    rfl
  | case4 => cases h
  | case5 pos e cs hblank hline hblock body r hb _ ih =>
    obtain ⟨⟨gap, rest⟩, htail, heq⟩ := exists_of_map_eq_ok h
    cases heq
    rw [List.cons_append, List.cons_append, List.cons_append, List.cons_append, List.append_assoc,
      trivia_block (blockComment_again hb _), ih htail]
    rfl
  | case6 pos e cs hblank hline hblock =>
    cases h
    exact trivia_of_not_startsGap hstart pos'

/-- Gaps are the same at another offset. -/
theorem trivia_at {pos : Nat} {cs : List Char} {r : List Char × List Char}
    (h : trivia pos cs = .ok r) (pos' : Nat) : trivia pos' cs = .ok r := by
  fun_induction trivia pos cs generalizing r pos' with
  | case1 =>
    rw [trivia]
    exact h
  | case2 pos c cs hblank ih =>
    obtain ⟨r, htail, rfl⟩ := exists_of_map_eq_ok h
    rw [trivia]
    simp only [hblank, if_true]
    rw [ih htail]
    rfl
  | case3 pos c cs hblank hline comment _ =>
    rename_i ih
    obtain ⟨r, htail, rfl⟩ := exists_of_map_eq_ok h
    rw [trivia]
    simp only [hblank, hline, if_true, if_false, Bool.false_eq_true]
    rw [ih htail]
    rfl
  | case4 => cases h
  | case5 pos c cs hblank hline hblock body rest hb _ ih =>
    obtain ⟨r, htail, rfl⟩ := exists_of_map_eq_ok h
    rw [trivia]
    simp only [hblank, hline, hblock, if_true, if_false, Bool.false_eq_true]
    split
    -- Both look for the same end of the comment.
    · rename_i hnone
      cases hb.symm.trans hnone
    · rename_i hsome
      cases hb.symm.trans hsome
      rw [ih htail]
      rfl
  | case6 pos c cs hblank hline hblock =>
    rw [trivia]
    simp only [hblank, hline, hblock, if_false, Bool.false_eq_true]
    exact h

/-! ## Lexemes -/

/-- The character is a symbol, and part of no other lexeme but strings and characters. -/
def Delimiter (d : Char) : Prop := d = ',' ∨ d = ')'

namespace Delimiter

variable {d : Char} {p : Char → Bool}

/-- What is false of both characters is false of a delimiter. -/
theorem of_both (hd : Delimiter d) (hcomma : p ',' = false) (hclose : p ')' = false) :
    p d = false := by
  obtain rfl | rfl := hd
  · exact hcomma
  · exact hclose

theorem takeWhile_append (hd : p d = false) (cs back : List Char) :
    (cs ++ d :: back).takeWhile p = cs.takeWhile p := by
  induction cs with
  | nil => simp [hd]
  | cons c cs ih =>
    rw [List.cons_append, List.takeWhile_cons, List.takeWhile_cons, ih]

theorem dropWhile_append (hd : p d = false) (cs back : List Char) :
    (cs ++ d :: back).dropWhile p = cs.dropWhile p ++ d :: back := by
  induction cs with
  | nil => simp [hd]
  | cons c cs ih =>
    rw [List.cons_append, List.dropWhile_cons, List.dropWhile_cons, ih]
    split
    · rfl
    · rfl

end Delimiter

variable {d : Char}

/-- What is not hexadecimal is decimal. -/
theorem digits_eq {cs : List Char} (hx : ∀ ds, cs ≠ '0' :: 'x' :: ds)
    (hX : ∀ ds, cs ≠ '0' :: 'X' :: ds) :
    digits cs = match cs.dropWhile Char.isDigit with
      | '.' :: d :: ds =>
        if d.isDigit then
          (.floatLiteral, cs.takeWhile Char.isDigit ++ '.' :: d :: ds.takeWhile Char.isDigit,
            ds.dropWhile Char.isDigit)
        else (.intLiteral, cs.takeWhile Char.isDigit, '.' :: d :: ds)
      | rest => (.intLiteral, cs.takeWhile Char.isDigit, rest) := by
  unfold digits
  split
  · exact absurd rfl (hx _)
  · exact absurd rfl (hX _)
  · rfl

/-- No number reaches over a delimiter. -/
theorem digits_delimited (hd : Delimiter d) (cs back : List Char) :
    digits (cs ++ d :: back) =
      ((digits cs).1, (digits cs).2.1, (digits cs).2.2 ++ d :: back) := by
  have hhex : isHexDigit d = false := hd.of_both rfl rfl
  have hdigit : d.isDigit = false := hd.of_both rfl rfl
  have hne : ∀ x, (x = 'x' ∨ x = 'X') → (∀ ds, cs ≠ '0' :: x :: ds) →
      ∀ ds, cs ++ d :: back ≠ '0' :: x :: ds := by
    intro x hx hcs ds heq
    rcases cs with _ | ⟨a, _ | ⟨b, cs⟩⟩
    · obtain ⟨rfl, -⟩ := List.cons.inj heq
      exact absurd hdigit (by decide)
    · obtain ⟨rfl, -⟩ := List.cons.inj (List.cons.inj heq).2
      obtain rfl | rfl := hx <;> exact absurd hd (by unfold Delimiter; decide)
    · injection heq with ha heq
      injection heq with hb heq
      exact hcs cs (by rw [ha, hb])
  fun_cases digits cs with
  | case1 ds =>
    simp only [List.cons_append, digits, Delimiter.takeWhile_append hhex,
      Delimiter.dropWhile_append hhex]
  | case2 ds =>
    simp only [List.cons_append, digits, Delimiter.takeWhile_append hhex,
      Delimiter.dropWhile_append hhex]
  | case3 cs hx hX whole e ds hdrop he =>
    rw [digits_eq (hne 'x' (.inl rfl) fun ds h => hx ds h) (hne 'X' (.inr rfl) fun ds h => hX ds h),
      Delimiter.dropWhile_append hdigit, Delimiter.takeWhile_append hdigit, hdrop]
    simp only [List.cons_append, he, if_true, Delimiter.takeWhile_append hdigit,
      Delimiter.dropWhile_append hdigit]
    rfl
  | case4 cs hx hX whole e ds hdrop he =>
    rw [digits_eq (hne 'x' (.inl rfl) fun ds h => hx ds h) (hne 'X' (.inr rfl) fun ds h => hX ds h),
      Delimiter.dropWhile_append hdigit, Delimiter.takeWhile_append hdigit, hdrop]
    simp only [List.cons_append, he, if_false, Bool.false_eq_true]
    rfl
  | case5 cs hx hX whole hnot =>
    rw [digits_eq (hne 'x' (.inl rfl) fun ds h => hx ds h) (hne 'X' (.inr rfl) fun ds h => hX ds h),
      Delimiter.dropWhile_append hdigit, Delimiter.takeWhile_append hdigit]
    -- A point before the delimiter has no digit after it.
    generalize cs.dropWhile Char.isDigit = rest at hnot
    rcases rest with _ | ⟨a, _ | ⟨b, rest⟩⟩
    · split
      · rename_i heq
        injection heq with heq
        exact absurd hd (by rw [heq]; unfold Delimiter; decide)
      · rfl
    · split
      · rename_i heq
        injection heq with ha heq
        injection heq with heq hrest
        subst heq hrest ha
        rw [if_neg (by rw [hdigit]; decide)]
        rfl
      · rfl
    · split
      · rename_i heq
        injection heq with ha heq
        exact (hnot b rest (by rw [ha])).elim
      · rfl

theorem number_delimited (hd : Delimiter d) (pos : Nat) (cs back : List Char) :
    number pos (cs ++ d :: back) =
      (number pos cs).map fun (kind, text, rest) => (kind, text, rest ++ d :: back) := by
  have hname : isNameChar d = false := hd.of_both rfl rfl
  simp only [number, digits_delimited hd, Delimiter.takeWhile_append hname]
  split_ifs <;> rfl

theorem symbols_tail_not_delimiter :
    ∀ k ∈ TokenKind.symbols, ∀ s ∈ k.spelling?, ',' ∉ s.toList.tail ∧ ')' ∉ s.toList.tail := by
  decide +kernel

theorem isPrefix_delimited {spelling cs : List Char} (h : d ∉ spelling) (back : List Char) :
    spelling <+: cs ++ d :: back ↔ spelling <+: cs := by
  induction cs generalizing spelling with
  | nil =>
    cases spelling with
    | nil => simp
    | cons e spelling =>
      have hne : e ≠ d := fun heq => h (heq ▸ List.mem_cons_self)
      simp [hne]
  | cons c cs ih =>
    cases spelling with
    | nil => simp
    | cons e spelling =>
      rw [List.cons_append, List.cons_prefix_cons, List.cons_prefix_cons,
        ih fun hmem => h (List.mem_cons_of_mem _ hmem)]

/-- No symbol reaches over a delimiter that it does not start with. -/
theorem symbol?_delimited (hd : Delimiter d) (c : Char) (cs back : List Char) :
    symbol? (c :: cs ++ d :: back) =
      (symbol? (c :: cs)).map fun (kind, text, rest) => (kind, text, rest ++ d :: back) := by
  unfold symbol?
  rw [List.map_findSome?, ← List.head?_filterMap, ← List.head?_filterMap]
  refine congrArg List.head? (List.filterMap_congr fun k hk => ?_)
  cases hs : k.spelling? with
  | none => simp [hs]
  | some s =>
    have htail : d ∉ s.toList.tail := by
      obtain ⟨hcomma, hclose⟩ := symbols_tail_not_delimiter k hk s hs
      obtain rfl | rfl := hd
      · exact hcomma
      · exact hclose
    have hbegins : s.toList <+: c :: cs ++ d :: back ↔ s.toList <+: c :: cs := by
      cases hlist : s.toList with
      | nil => simp
      | cons e spelling =>
        rw [hlist, List.tail_cons] at htail
        rw [List.cons_append, List.cons_prefix_cons, List.cons_prefix_cons,
          isPrefix_delimited htail]
    simp only [Option.bind_some, Function.comp, hs, List.isPrefixOf_iff_prefix, hbegins]
    split_ifs with hlong
    · rw [List.drop_append_of_le_length hlong.length_le]
      rfl
    · rfl

/-- No lexeme but a string or a character reaches over a delimiter. -/
theorem lexeme_delimited (hd : Delimiter d) {c : Char} (hstring : (c == '"') = false)
    (hchar : (c == '\'') = false) (pos : Nat) (cs back : List Char) :
    lexeme pos c (cs ++ d :: back) =
      (lexeme pos c cs).map fun (kind, text, rest) => (kind, text, rest ++ d :: back) := by
  have hname : isNameChar d = false := hd.of_both rfl rfl
  unfold lexeme
  simp only [hstring, hchar, if_false, Bool.false_eq_true, ← List.cons_append,
    number_delimited hd, symbol?_delimited hd, Delimiter.takeWhile_append hname,
    Delimiter.dropWhile_append hname]
  split_ifs
  · rfl
  · rfl
  · cases symbol? (c :: cs) <;> rfl

/-- A lexeme before one delimiter is read again before another. -/
theorem lexeme_again {e c : Char} (hd : Delimiter d) (he : Delimiter e) {pos : Nat}
    {cs more front back : List Char} {kind : TokenKind}
    (h : lexeme pos c cs = .ok (kind, c :: more, front ++ d :: back)) (back' : List Char) :
    lexeme pos c (more ++ (front ++ e :: back')) = .ok (kind, c :: more, front ++ e :: back') := by
  obtain rfl : more ++ (front ++ d :: back) = cs := (List.cons.inj (lexeme_append h)).2
  by_cases hstring : (c == '"') = true
  · simp only [lexeme, hstring, if_true] at h ⊢
    obtain ⟨⟨tail, rest⟩, htail, heq⟩ := exists_of_map_eq_ok h
    cases heq
    rw [stringTail_again htail]
    rfl
  · by_cases hchar : (c == '\'') = true
    · simp only [lexeme, hstring, hchar, if_true, if_false, Bool.false_eq_true] at h ⊢
      obtain ⟨⟨tail, rest⟩, htail, heq⟩ := exists_of_map_eq_ok h
      cases heq
      rw [charTail_again htail]
      rfl
    · rw [Bool.not_eq_true] at hstring hchar
      rw [← List.append_assoc, lexeme_delimited hd hstring hchar] at h
      obtain ⟨⟨kind, text, rest⟩, hread, heq⟩ := exists_of_map_eq_ok h
      injection heq with hkind heq
      injection heq with htext hrest
      rw [← List.append_assoc, lexeme_delimited he hstring hchar, hread, hkind, htext,
        List.append_cancel_right hrest]
      rfl

/-- A lexeme is the same at another offset. -/
theorem lexeme_at {c : Char} {pos : Nat} {cs : List Char} {r : TokenKind × List Char × List Char}
    (h : lexeme pos c cs = .ok r) (pos' : Nat) : lexeme pos' c cs = .ok r := by
  unfold lexeme at h ⊢
  split_ifs at h ⊢ with hstring hchar hdigit hname
  · obtain ⟨⟨tail, rest⟩, htail, rfl⟩ := exists_of_map_eq_ok h
    have hagain := stringTail_again htail pos' (pos' + 1) rest
    rw [stringTail_append htail] at hagain
    rw [hagain]
    rfl
  · obtain ⟨⟨tail, rest⟩, htail, rfl⟩ := exists_of_map_eq_ok h
    have hagain := charTail_again htail pos' (pos' + 1) rest
    rw [charTail_append htail] at hagain
    rw [hagain]
    rfl
  · simp only [number] at h ⊢
    split_ifs at h ⊢ with hhex hjunk
    exact h
  · exact h
  · split at h
    · exact h
    · cases h

/-! ## Texts -/

/-- A gap and a lexeme are read as a token. -/
theorem scanFrom_eq {file pos : Nat} {cs gap cs' text rest : List Char} {c : Char}
    {kind : TokenKind} (hgap : trivia pos cs = .ok (gap, c :: cs'))
    (hlexeme : lexeme (pos + utf8Width gap) c cs' = .ok (kind, text, rest)) :
    scanFrom file pos cs =
      ⟨⟨kind, String.ofList text,
          ⟨file, pos + utf8Width gap, pos + utf8Width gap + utf8Width text⟩, gap.contains '\n'⟩ ::
          (scanFrom file (pos + utf8Width gap + utf8Width text) rest).tokens,
        (scanFrom file (pos + utf8Width gap + utf8Width text) rest).error⟩ := by
  rw [scanFrom]
  split
  · rename_i hg
    cases hgap.symm.trans hg
  · rename_i hg
    cases hgap.symm.trans hg
  · rename_i hg
    cases hgap.symm.trans hg
    dsimp only
    split
    · rename_i hl
      cases hlexeme.symm.trans hl
    · rename_i hl
      cases hlexeme.symm.trans hl
      rfl

/-- A text without errors has the same tokens in another file and at another offset. -/
theorem scanFrom_moved {file pos : Nat} {cs : List Char} (file' n : Nat)
    (h : (scanFrom file pos cs).error = none) :
    scanFrom file' (pos + n) cs = ⟨(scanFrom file pos cs).tokens.map (·.moved file' n), none⟩ := by
  fun_induction scanFrom file pos cs with
  | case1 => cases h
  | case2 pos cs gap hgap =>
    rw [scanFrom]
    split
    · rename_i hg
      cases (trivia_at hgap _).symm.trans hg
    · rfl
    · rename_i hg
      cases (trivia_at hgap _).symm.trans hg
  | case3 => cases h
  | case4 pos cs gap c cs' hgap start kind text rest hlexeme _ _ _ stop next ih =>
    have hoffset : pos + n + utf8Width gap + utf8Width text = stop + n := by
      simp only [stop, start]
      omega
    have hstart : pos + n + utf8Width gap = start + n := by
      simp only [start]
      omega
    rw [scanFrom_eq (trivia_at hgap _) (lexeme_at hlexeme _), hoffset, ih h, hstart]
    rfl

theorem le_start_of_mem_scanFrom {file pos : Nat} {cs : List Char} {t : Token}
    (h : t ∈ (scanFrom file pos cs).tokens) : pos ≤ t.span.start := by
  fun_induction scanFrom file pos cs with
  | case1 => exact absurd h List.not_mem_nil
  | case2 => exact absurd h List.not_mem_nil
  | case3 => exact absurd h List.not_mem_nil
  | case4 pos cs gap c cs' hgap start kind text rest hlexeme _ _ _ stop next ih =>
    rcases List.mem_cons.mp h with rfl | h
    · exact Nat.le_add_right ..
    · have hle := ih h
      simp only [stop, start] at hle
      omega

theorem eq_nil_of_utf8Width {cs : List Char} (h : utf8Width cs = 0) : cs = [] := by
  cases cs with
  | nil => rfl
  | cons c cs =>
    have hpos := c.utf8Size_pos
    rw [utf8Width_cons] at h
    omega

/-- A text that is split twice is split at the smaller offset first. -/
theorem exists_of_append_eq {xs ys front back : List Char} (h : front ++ back = xs ++ ys)
    (hle : utf8Width xs ≤ utf8Width front) : ∃ mid, front = xs ++ mid ∧ ys = mid ++ back := by
  obtain ⟨mid, hxs, hback⟩ | hsplit := List.append_eq_append_iff.mp h
  · rw [hxs, utf8Width_append] at hle
    obtain rfl : mid = [] := eq_nil_of_utf8Width (by omega)
    exact ⟨[], by simp [hxs], by simp [hback]⟩
  · exact hsplit

theorem not_startsGap_delimited {c e : Char} (he : Delimiter e) {cs back back' : List Char}
    (h : startsGap c (cs ++ d :: back).head? = false) :
    startsGap c (cs ++ e :: back').head? = false := by
  cases cs with
  | nil =>
    rw [startsGap, Bool.or_eq_false_iff] at h
    obtain rfl | rfl := he
    · simp [startsGap, h.1]
    · simp [startsGap, h.1]
  | cons f cs => exact h

/-- The comma before the token `close`, which follows it without a gap. -/
def withComma (file : Nat) (close : Token) : List Token :=
  [⟨.comma, ",", ⟨file, close.span.start, close.span.start + 1⟩, close.fresh⟩,
    { close.moved file 1 with fresh := false }]

/-- A comma is read after a gap, and then the parenthesis. -/
theorem scanFrom_comma {file pos : Nat} {cs gap rest : List Char}
    (hgap : trivia pos cs = .ok (gap, ')' :: rest))
    (herror : (scanFrom file (pos + utf8Width gap + 1) rest).error = none) :
    scanFrom file pos (gap ++ ',' :: ')' :: rest) =
      ⟨withComma file ⟨.rparen, ")", ⟨file, pos + utf8Width gap, pos + utf8Width gap + 1⟩,
          gap.contains '\n'⟩ ++
        (scanFrom file (pos + utf8Width gap + 1) rest).tokens.map (·.moved file 1), none⟩ := by
  have hcomma : lexeme (pos + utf8Width gap) ',' (')' :: rest) = .ok (.comma, [','], ')' :: rest) :=
    rfl
  have hclose : lexeme (pos + utf8Width gap + 1) ')' rest = .ok (.rparen, [')'], rest) := rfl
  have hnone : trivia (pos + utf8Width gap + 1) (')' :: rest) = .ok ([], ')' :: rest) :=
    trivia_of_not_startsGap rfl _
  have hafter : scanFrom file (pos + utf8Width gap + 1) (')' :: rest) =
      ⟨⟨.rparen, ")", ⟨file, pos + utf8Width gap + 1, pos + utf8Width gap + 1 + 1⟩, false⟩ ::
        (scanFrom file (pos + utf8Width gap + 1) rest).tokens.map (·.moved file 1), none⟩ := by
    refine (scanFrom_eq hnone hclose).trans ?_
    change (⟨_ :: (scanFrom file (pos + utf8Width gap + 1 + 1) rest).tokens,
      (scanFrom file (pos + utf8Width gap + 1 + 1) rest).error⟩ : Scan) = _
    rw [scanFrom_moved file 1 herror]
    rfl
  refine (scanFrom_eq (trivia_again hgap pos rfl) hcomma).trans ?_
  change (⟨_ :: (scanFrom file (pos + utf8Width gap + 1) (')' :: rest)).tokens,
    (scanFrom file (pos + utf8Width gap + 1) (')' :: rest)).error⟩ : Scan) = _
  rw [hafter]
  rfl

/-- A token before a closing parenthesis is read again before a comma. -/
theorem scanFrom_before {file pos : Nat} {cs gap more mid back : List Char} {c : Char}
    {kind : TokenKind} (hgap : trivia pos cs = .ok (gap, c :: (more ++ (mid ++ ')' :: back))))
    (hlexeme : lexeme (pos + utf8Width gap) c (more ++ (mid ++ ')' :: back)) =
      .ok (kind, c :: more, mid ++ ')' :: back)) :
    scanFrom file pos (gap ++ c :: (more ++ (mid ++ ',' :: ')' :: back))) =
      ⟨⟨kind, String.ofList (c :: more),
          ⟨file, pos + utf8Width gap, pos + utf8Width gap + utf8Width (c :: more)⟩,
          gap.contains '\n'⟩ ::
          (scanFrom file (pos + utf8Width gap + utf8Width (c :: more))
            (mid ++ ',' :: ')' :: back)).tokens,
        (scanFrom file (pos + utf8Width gap + utf8Width (c :: more))
            (mid ++ ',' :: ')' :: back)).error⟩ := by
  refine scanFrom_eq (trivia_again hgap pos ?_)
    (lexeme_again (.inr rfl) (.inl rfl) hlexeme (')' :: back))
  have hstart := not_startsGap_of_trivia hgap
  rw [← List.append_assoc] at hstart ⊢
  exact not_startsGap_delimited (.inl rfl) hstart

/-- A closing parenthesis is read as before after a comma. -/
theorem scanFrom_insert {file pos : Nat} {cs front back : List Char} {before after : List Token}
    {close : Token} (h : scanFrom file pos cs = ⟨before ++ close :: after, none⟩)
    (hcs : front ++ back = cs) (hkind : close.kind = .rparen)
    (hstart : close.span.start = pos + utf8Width front) :
    (∃ back', back = ')' :: back') ∧
    scanFrom file pos (front ++ ',' :: back) =
      ⟨before ++ (withComma file close ++ after.map (·.moved file 1)), none⟩ := by
  fun_induction scanFrom file pos cs generalizing front before with
  | case1 =>
    injection h with _ herror
    cases herror
  | case2 =>
    injection h with htokens
    exact absurd htokens.symm (by simp)
  | case3 =>
    injection h with _ herror
    cases herror
  | case4 pos cs gap c cs' hgap start kind text rest hlexeme =>
    rename_i stop next ih
    have htext := lexeme_append hlexeme
    rw [← trivia_append hgap] at hcs
    simp only [Scan.mk.injEq] at h
    obtain ⟨htokens, herror⟩ := h
    cases before with
    | nil =>
      rw [List.nil_append, List.cons.injEq] at htokens
      obtain ⟨rfl, rfl⟩ := htokens
      have hwidth : utf8Width front = utf8Width gap := by
        simp only [start] at hstart
        omega
      -- The parenthesis is the first token, so the gap is all that comes before it.
      obtain ⟨mid, rfl, hback⟩ := exists_of_append_eq hcs hwidth.ge
      obtain rfl : mid = [] := eq_nil_of_utf8Width (by rw [utf8Width_append] at hwidth; omega)
      have hkind : kind = .rparen := hkind
      subst hkind
      obtain rfl : [')'] = text := (lexeme_shape hlexeme).toList_of_spelling rfl
      rw [List.cons_append, List.nil_append, List.cons.injEq] at htext
      obtain ⟨rfl, rfl⟩ := htext
      rw [List.nil_append] at hback
      subst hback
      refine ⟨⟨rest, rfl⟩, ?_⟩
      rw [List.append_nil]
      exact scanFrom_comma hgap herror
    | cons first before =>
      rw [List.cons_append, List.cons.injEq] at htokens
      obtain ⟨rfl, hnext⟩ := htokens
      have hscan : scanFrom file stop rest = ⟨before ++ close :: after, none⟩ := by
        rw [← hnext, ← herror]
      have hmem : close ∈ (scanFrom file stop rest).tokens := by rw [hscan]; simp
      have hle := le_start_of_mem_scanFrom hmem
      rw [← htext, ← List.append_assoc] at hcs
      -- The parenthesis is a later token, so the first lexeme is before it and stays as it is.
      obtain ⟨mid, rfl, rfl⟩ := exists_of_append_eq hcs (by
        rw [utf8Width_append]
        simp only [stop, start] at hle
        omega)
      obtain ⟨⟨back', rfl⟩, hinsert⟩ := ih hscan rfl (by
        rw [hstart, utf8Width_append, utf8Width_append]
        simp only [stop, start]
        omega)
      refine ⟨⟨back', rfl⟩, ?_⟩
      obtain ⟨more, rfl⟩ : ∃ more, text = c :: more := by
        cases text with
        | nil => exact absurd rfl (lexeme_text_ne_nil hlexeme)
        | cons c' more => exact ⟨more, by rw [(List.cons.inj htext).1]⟩
      rw [List.cons_append, List.cons.injEq] at htext
      obtain ⟨-, rfl⟩ := htext
      have hfront : gap ++ c :: more ++ mid ++ ',' :: ')' :: back' =
          gap ++ c :: (more ++ (mid ++ ',' :: ')' :: back')) := by simp
      rw [hfront, scanFrom_before hgap hlexeme]
      change (⟨_ :: (scanFrom file stop (mid ++ ',' :: ')' :: back')).tokens,
        (scanFrom file stop (mid ++ ',' :: ')' :: back')).error⟩ : Scan) = _
      rw [hinsert]
      rfl

end Lexer

theorem Token.lex_eq_ok {file : Nat} {text : String} {tokens : List Token} :
    Token.lex file text = .ok tokens ↔ Lexer.scanFrom file 0 text.toList = ⟨tokens, none⟩ := by
  simp only [Token.lex, Scan.ofText]
  rcases Lexer.scanFrom file 0 text.toList with ⟨found, _ | e⟩ <;> simp

/-- A text has the same tokens in another file. -/
theorem Token.lex_moved {file : Nat} {text : String} {tokens : List Token}
    (h : Token.lex file text = .ok tokens) (file' : Nat) :
    Token.lex file' text = .ok (tokens.map (·.moved file' 0)) := by
  have hscan := Token.lex_eq_ok.mp h
  have hmoved := Lexer.scanFrom_moved file' 0 (congrArg Scan.error hscan)
  rw [hscan] at hmoved
  exact Token.lex_eq_ok.mpr hmoved

/-- A comma right before a closing parenthesis adds one token. -/
theorem Token.lex_insert_comma {file : Nat} {front back : String} {before after : List Token}
    {close : Token} (h : Token.lex file (front ++ back) = .ok (before ++ close :: after))
    (hkind : close.kind = .rparen) (hstart : close.span.start = utf8Width front.toList) :
    Token.lex file (front ++ "," ++ back) =
      .ok (before ++ (Lexer.withComma file close ++ after.map (·.moved file 1))) := by
  obtain ⟨-, hinsert⟩ := Lexer.scanFrom_insert (Token.lex_eq_ok.mp h)
    (String.toList_append ..).symm hkind (by rw [hstart, Nat.zero_add])
  have htext : (front ++ "," ++ back).toList = front.toList ++ ',' :: back.toList := by
    simp only [String.toList_append, List.append_assoc]
    rfl
  rw [Token.lex_eq_ok, htext, hinsert]

end KilnLang
