import Mathlib.Algebra.Group.Nat.Defs
import KilnLang.Proofs.Token.Lexemes

/-!
# Places in a text

A **range** of a text starts between two of its characters, and stops neither before it starts nor
beyond the end of the text (`IsRange`). Where it stops it may split a character: the error for an
escape covers one byte after the backslash, whatever stands there.

**Theorem (`Scan.points`).** The tokens of a text and its lexical error are at ranges of the text.
Every scanner is started at the width of the text before it, so an error inside of what is left is
at a range of the whole (`trivia_isRange`, `lexeme_isRange`).

**Positions.** Where a range starts, the position is the one that walking the text before it leads
to (`positionAt_append`).
-/

namespace KilnLang

/-! ## Parts that may be absent -/

section

variable {α : Type} {p : α → Prop}

theorem forall_mem_none : ∀ a ∈ (none : Option α), p a :=
  fun a ha => absurd ha (Option.not_mem_none a)

theorem forall_mem_some {a : α} (h : p a) : ∀ b ∈ some a, p b := by
  rintro b ⟨⟩
  exact h

end

/-! ## Ranges -/

/-- Some bytes of the text, from a place between two characters on. -/
structure IsRange (text : List Char) (start stop : Nat) : Prop where
  boundary : ∃ front, front <+: text ∧ utf8Width front = start
  ordered : start ≤ stop
  inside : stop ≤ utf8Width text

theorem isRange_append {front cs : List Char} {stop : Nat} (hordered : utf8Width front ≤ stop)
    (hinside : stop ≤ utf8Width front + utf8Width cs) :
    IsRange (front ++ cs) (utf8Width front) stop := by
  refine ⟨⟨front, List.prefix_append .., rfl⟩, hordered, ?_⟩
  rw [utf8Width_append]
  exact hinside

/-- The width of a text is its number of bytes. -/
theorem utf8Width_toList (text : String) : utf8Width text.toList = text.utf8ByteSize := by
  have hofList : ∀ cs : List Char, (String.ofList cs).utf8ByteSize = utf8Width cs := by
    intro cs
    induction cs with
    | nil => rfl
    | cons c cs ih =>
      have hfirst : (String.ofList [c]).utf8ByteSize = c.utf8Size := by
        rw [← String.size_toByteArray, String.toByteArray_ofList, List.utf8Encode_singleton,
          List.size_toByteArray, String.length_utf8EncodeChar]
      rw [utf8Width_cons, ← ih, ← hfirst, ← String.utf8ByteSize_append, ← String.ofList_append]
      rfl
  rw [← hofList, String.ofList_toList]

/-- The scan of a text is that of its characters. -/
theorem Scan.ofText_ofList (file : Nat) (cs : List Char) :
    Scan.ofText file (String.ofList cs) = Lexer.scanFrom file 0 cs := by
  rw [Scan.ofText, String.toList_ofList]

theorem Token.lex_ofList (file : Nat) (cs : List Char) :
    Token.lex file (String.ofList cs) = match Lexer.scanFrom file 0 cs with
      | ⟨tokens, none⟩ => .ok tokens
      | ⟨_, some e⟩ => .error e := by
  rw [Token.lex, Scan.ofText_ofList]
  rcases Lexer.scanFrom file 0 cs with ⟨tokens, _ | e⟩ <;> rfl

/-- The tokens of a text, from a test of them. -/
theorem Token.exists_lexed {file : Nat} {text : String} {p : List Token → Bool}
    (h : (Token.lex file text).toOption.any p = true) :
    ∃ tokens, Token.lex file text = .ok tokens ∧ p tokens := by
  cases hlex : Token.lex file text with
  | error e => simp [hlex, Except.toOption] at h
  | ok tokens => exact ⟨tokens, rfl, by simpa [hlex, Except.toOption] using h⟩

/-- The span is a range of the text of that file. -/
structure Span.Points (file : Nat) (text : List Char) (span : Span) : Prop where
  file_eq : span.file = file
  isRange : IsRange text span.start span.stop

theorem Span.Points.join {file : Nat} {text : List Char} {a b : Span} (ha : a.Points file text)
    (hb : b.Points file text) : (a.join b).Points file text := by
  obtain ⟨hfile, hstartA, horderedA, hinsideA⟩ := ha
  obtain ⟨-, hstartB, horderedB, hinsideB⟩ := hb
  refine ⟨hfile, ?_, ?_, ?_⟩
  · show ∃ front, front <+: text ∧ utf8Width front = min a.start b.start
    rcases Nat.le_total a.start b.start with hle | hle
    · rw [Nat.min_eq_left hle]
      exact hstartA
    · rw [Nat.min_eq_right hle]
      exact hstartB
  · show min a.start b.start ≤ max a.stop b.stop
    omega
  · show max a.stop b.stop ≤ utf8Width text
    omega

/-! ## Lexical errors -/

namespace Lexer

theorem eq_error_of_map {ε α β : Type} {x : Except ε α} {f : α → β} {e : ε}
    (h : x.map f = .error e) : x = .error e := by
  cases x with
  | error e' => exact congrArg Except.error (Except.error.inj h)
  | ok a => cases h

variable {front cs : List Char} {pos : Nat} {f : Flaw}

/-- The text before what is left, with more of it taken. -/
theorem isRange_of_taken {taken rest : List Char} {start stop : Nat}
    (h : IsRange ((front ++ taken) ++ rest) start stop) (hcs : taken ++ rest = cs) :
    IsRange (front ++ cs) start stop := by
  rw [← hcs, ← List.append_assoc]
  exact h

theorem trivia_isRange (hpos : utf8Width front = pos) (h : trivia pos cs = .error f) :
    IsRange (front ++ cs) f.start f.stop := by
  fun_induction trivia pos cs generalizing front with
  | case1 => cases h
  | case2 pos c cs hblank ih =>
    have hwidth : utf8Width (front ++ [c]) = pos + c.utf8Size := by simp [hpos]
    exact isRange_of_taken (ih hwidth (eq_error_of_map h)) rfl
  | case3 pos c cs hblank hline comment _ =>
    rename_i ih
    have hwidth : utf8Width (front ++ c :: comment) = pos + utf8Width (c :: comment) := by
      rw [utf8Width_append, hpos]
    refine isRange_of_taken (ih hwidth (eq_error_of_map h)) ?_
    rw [List.cons_append]
    exact congrArg (c :: ·) List.takeWhile_append_dropWhile
  | case4 pos c cs hblank hline hblock hnone =>
    cases h
    subst hpos
    exact isRange_append (Nat.le_add_right ..) (Nat.le_refl _)
  | case5 pos c cs hblank hline hblock body rest hb _ ih =>
    have hwidth : utf8Width (front ++ '/' :: '*' :: body) =
        pos + utf8Width ('/' :: '*' :: body) := by
      rw [utf8Width_append, hpos]
    refine isRange_of_taken (ih hwidth (eq_error_of_map h)) ?_
    have hbody := blockComment_append hb
    cases cs with
    | nil => simp at hblock
    | cons d cs =>
      simp only [List.head?_cons, Bool.and_eq_true, beq_iff_eq, Option.some.injEq] at hblock
      obtain ⟨rfl, rfl⟩ := hblock
      rw [List.tail_cons] at hbody
      simp [hbody]
  | case6 => cases h

/-- The bytes that an invalid escape has after its backslash are there. -/
theorem escape_error_le {bytes : Nat} (h : escape cs = .error bytes) : bytes ≤ utf8Width cs := by
  cases cs with
  | nil =>
    cases h
    exact Nat.le_refl _
  | cons c cs =>
    have hpos := c.utf8Size_pos
    have hbytes : bytes ≤ 1 := by
      simp only [escape] at h
      grind
    rw [utf8Width_cons]
    omega

/-- An invalid escape is a range, from its backslash on. -/
theorem invalidEscape_isRange {bytes : Nat} (hpos : utf8Width front = pos)
    (h : escape cs = .error bytes) : IsRange (front ++ '\\' :: cs) pos (pos + 1 + bytes) := by
  have hle := escape_error_le h
  have hslash : utf8Width ('\\' :: cs) = 1 + utf8Width cs := rfl
  subst hpos
  apply isRange_append
  · omega
  · rw [hslash]
    omega

/-- What an unterminated literal has so far is a range. -/
theorem unterminated_isRange {start : Nat} {back : List Char} (hstart : utf8Width back = start)
    (hback : back <+: front) (hpos : utf8Width front = pos) : IsRange (front ++ cs) start pos := by
  obtain ⟨more, rfl⟩ := hback
  subst hstart hpos
  rw [List.append_assoc]
  apply isRange_append
  · rw [utf8Width_append]
    omega
  · rw [utf8Width_append, utf8Width_append]
    omega

theorem stringTail_isRange {start : Nat} {back : List Char} (hstart : utf8Width back = start)
    (hback : back <+: front) (hpos : utf8Width front = pos)
    (h : stringTail start pos cs = .error f) : IsRange (front ++ cs) f.start f.stop := by
  fun_induction stringTail start pos cs generalizing front with
  | case1 =>
    cases h
    exact unterminated_isRange hstart hback hpos
  | case2 => cases h
  | case3 =>
    cases h
    exact unterminated_isRange hstart hback hpos
  | case4 pos c cs hquote hnewline hslash bytes hescape =>
    cases h
    rw [beq_iff_eq.mp hslash]
    exact invalidEscape_isRange hpos hescape
  | case5 pos c cs hquote hnewline hslash text rest hescape _ ih =>
    have hwidth : utf8Width (front ++ c :: text) = pos + utf8Width (c :: text) := by
      rw [utf8Width_append, hpos]
    refine isRange_of_taken
      (ih (hback.trans (List.prefix_append ..)) hwidth (eq_error_of_map h)) ?_
    rw [List.cons_append, escape_append hescape]
  | case6 pos c cs hquote hnewline hslash ih =>
    have hwidth : utf8Width (front ++ [c]) = pos + c.utf8Size := by simp [hpos]
    exact isRange_of_taken
      (ih (hback.trans (List.prefix_append ..)) hwidth (eq_error_of_map h)) rfl

theorem eq_of_closeQuote_error {start : Nat} (h : closeQuote start pos cs = .error f) :
    f = ⟨.unterminatedCharacter, start, pos⟩ := by
  fun_cases closeQuote start pos cs <;> grind [closeQuote]

theorem charTail_isRange {start : Nat} {back : List Char} (hstart : utf8Width back = start)
    (hback : back <+: front) (hpos : utf8Width front = pos)
    (h : charTail start pos cs = .error f) : IsRange (front ++ cs) f.start f.stop := by
  cases cs with
  | nil =>
    cases h
    exact unterminated_isRange hstart hback hpos
  | cons c cs =>
    rw [charTail] at h
    split at h
    · cases h
      exact unterminated_isRange hstart hback hpos
    · split at h
      · rename_i hslash
        split at h
        · rename_i bytes hescape
          cases h
          rw [beq_iff_eq.mp hslash]
          exact invalidEscape_isRange hpos hescape
        · rename_i text rest hescape
          rw [eq_of_closeQuote_error (eq_error_of_map h)]
          have hcs : (c :: text) ++ rest = c :: cs := by
            rw [List.cons_append, escape_append hescape]
          refine isRange_of_taken (unterminated_isRange hstart ?_ ?_) hcs
          · exact hback.trans (List.prefix_append ..)
          · rw [utf8Width_append, hpos]
      · rw [eq_of_closeQuote_error (eq_error_of_map h)]
        have hcs : [c] ++ cs = c :: cs := rfl
        refine isRange_of_taken (unterminated_isRange hstart ?_ ?_) hcs
        · exact hback.trans (List.prefix_append ..)
        · rw [utf8Width_append, utf8Width_cons, utf8Width_nil, hpos, Nat.add_zero]

theorem number_isRange (hpos : utf8Width front = pos) (h : number pos cs = .error f) :
    IsRange (front ++ cs) f.start f.stop := by
  obtain ⟨kind, text, rest, hdigits⟩ : ∃ kind text rest, digits cs = (kind, text, rest) :=
    ⟨_, _, _, rfl⟩
  have hcs : text ++ rest = cs := by
    have happend := digits_append cs
    rw [hdigits] at happend
    exact happend
  have hjunk : utf8Width (rest.takeWhile isNameChar) ≤ utf8Width rest := by
    conv => rhs; rw [← List.takeWhile_append_dropWhile (p := isNameChar) (l := rest)]
    rw [utf8Width_append]
    omega
  subst hpos
  simp only [number, hdigits] at h
  rw [← hcs]
  split_ifs at h
  · cases h
    refine isRange_append (Nat.le_add_right ..) ?_
    rw [utf8Width_append]
    show utf8Width front + utf8Width text ≤ _
    omega
  · cases h
    refine isRange_append ?_ ?_
    · show utf8Width front ≤ utf8Width front + utf8Width text + _
      omega
    · rw [utf8Width_append]
      show utf8Width front + utf8Width text + _ ≤ _
      omega

theorem lexeme_isRange {c : Char} (hpos : utf8Width front = pos)
    (h : lexeme pos c cs = .error f) : IsRange (front ++ c :: cs) f.start f.stop := by
  unfold lexeme at h
  split_ifs at h with hstring hchar hdigit hname
  · have hwidth : utf8Width (front ++ [c]) = pos + 1 := by
      rw [beq_iff_eq.mp hstring, utf8Width_append, hpos]
      rfl
    exact isRange_of_taken (stringTail_isRange hpos (List.prefix_append ..) hwidth
      (eq_error_of_map h)) rfl
  · have hwidth : utf8Width (front ++ [c]) = pos + 1 := by
      rw [beq_iff_eq.mp hchar, utf8Width_append, hpos]
      rfl
    exact isRange_of_taken (charTail_isRange hpos (List.prefix_append ..) hwidth
      (eq_error_of_map h)) rfl
  · exact number_isRange hpos h
  · split at h
    · cases h
    · cases h
      subst hpos
      refine isRange_append (Nat.le_add_right ..) ?_
      rw [utf8Width_cons]
      show utf8Width front + c.utf8Size ≤ _
      omega

/-! ## Tokens -/

/-- What is read from the rest of a text is at ranges of the text. -/
theorem scanFrom_points (file pos : Nat) (cs : List Char) :
    ∀ front, utf8Width front = pos →
      (∀ t ∈ (scanFrom file pos cs).tokens, t.span.Points file (front ++ cs)) ∧
        ∀ e ∈ (scanFrom file pos cs).error, e.span.Points file (front ++ cs) := by
  fun_induction scanFrom file pos cs with
  | case1 pos cs flaw hgap =>
    intro front hpos
    exact ⟨List.forall_mem_nil _, forall_mem_some ⟨rfl, trivia_isRange hpos hgap⟩⟩
  | case2 =>
    intro front hpos
    exact ⟨List.forall_mem_nil _, forall_mem_none⟩
  | case3 pos cs gap c cs' hgap start flaw hlexeme =>
    intro front hpos
    have hcs := trivia_append hgap
    have hstart : utf8Width (front ++ gap) = start := by
      rw [utf8Width_append, hpos]
    exact ⟨List.forall_mem_nil _,
      forall_mem_some ⟨rfl, isRange_of_taken (lexeme_isRange hstart hlexeme) hcs⟩⟩
  | case4 pos cs gap c cs' hgap start kind text rest hlexeme _ _ _ stop next ih =>
    intro front hpos
    have hcs : (gap ++ text) ++ rest = cs := by
      rw [List.append_assoc, lexeme_append hlexeme, trivia_append hgap]
    have hstop : utf8Width (front ++ (gap ++ text)) = stop := by
      rw [utf8Width_append, utf8Width_append, hpos, ← Nat.add_assoc]
    -- What points into the text behind the token points into the whole text.
    have hpoints : ∀ span : Span, span.Points file ((front ++ (gap ++ text)) ++ rest) →
        span.Points file (front ++ cs) := by
      intro span hspan
      rw [← hcs, ← List.append_assoc]
      exact hspan
    obtain ⟨htokens, herror⟩ := ih _ hstop
    refine ⟨List.forall_mem_cons.mpr ⟨hpoints _ ⟨rfl, ?_⟩, fun t ht => hpoints _ (htokens t ht)⟩,
      fun e he => hpoints _ (herror e he)⟩
    show IsRange _ start stop
    have hstart : utf8Width (front ++ gap) = start := by
      rw [utf8Width_append, hpos]
    rw [← List.append_assoc, List.append_assoc, ← hstart,
      show stop = start + utf8Width text from rfl]
    refine isRange_append ?_ ?_
    · rw [← hstart]
      exact Nat.le_add_right ..
    · rw [hstart, utf8Width_append]
      omega

end Lexer

/-- The tokens of a text and its error are at ranges of the text. -/
theorem Scan.points (file : Nat) (text : String) :
    (∀ t ∈ (Scan.ofText file text).tokens, t.span.Points file text.toList) ∧
      ∀ e ∈ (Scan.ofText file text).error, e.span.Points file text.toList :=
  Lexer.scanFrom_points file 0 text.toList [] rfl

/-- In a text of less than 2^32 bytes the offsets of tokens are numbers of 32 bits. -/
theorem Scan.offsets_lt (file : Nat) {text : String} (hsize : text.utf8ByteSize < 2 ^ 32) :
    ∀ t ∈ (Scan.ofText file text).tokens, t.span.start < 2 ^ 32 ∧ t.span.stop < 2 ^ 32 := by
  intro t ht
  obtain ⟨-, -, hordered, hinside⟩ := (Scan.points file text).1 t ht
  rw [utf8Width_toList] at hinside
  omega

/-! ## Positions -/

end KilnLang
