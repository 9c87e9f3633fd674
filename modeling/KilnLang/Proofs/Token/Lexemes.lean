import Mathlib.Data.List.Basic
import Mathlib.Data.List.TakeWhile
import Mathlib.Tactic.SplitIfs
import KilnLang.Token.IntLiteral
import KilnLang.Token.Lexer

/-!
# Lexemes before a space

Where a token ends depends on what comes after it: `>` and `=` are one token if nothing stands
between them, and a digit goes on with a number. A text is **legible** as a token of a kind if it is
split off as such wherever nothing but a space comes next (`Legible`).

**Theorem (`legible_of_lexeme`).** What was split off before anything else is legible. The reason is
that a space belongs to no name, number or symbol, so it ends each of them where it ended before,
and that a string or a character ends with its own quote.

Every token of a text is therefore legible (`Token.Lexed.legible`), and so is the decimal numeral of
a number (`legible_decimal`), whose value is the number (`IntLiteral.value?_toString`). The `Shape`
of a lexeme says what its text looks like, by its kind.
-/

namespace KilnLang.Lexer

theorem exists_of_map_eq_ok {ε α β : Type} {x : Except ε α} {f : α → β} {b : β}
    (h : x.map f = .ok b) : ∃ a, x = .ok a ∧ f a = b := by
  cases x with
  | error e => exact nomatch h
  | ok a => exact ⟨a, rfl, Except.ok.inj h⟩

/-! ## Spaces -/

/-- Nothing comes next, or a space. -/
def Spaced (rest : List Char) : Prop := ∀ c ∈ rest.head?, c = ' '

namespace Spaced

variable {rest : List Char} {p : Char → Bool}

theorem nil : Spaced [] := fun _ h => nomatch h

theorem cons (rest : List Char) : Spaced (' ' :: rest) := fun _ h => (Option.some.inj h).symm

theorem takeWhile_eq_nil (h : Spaced rest) (hp : p ' ' = false) : rest.takeWhile p = [] := by
  cases rest with
  | nil => rfl
  | cons c rest => rw [h c rfl, List.takeWhile_cons_of_neg (by simp [hp])]

theorem dropWhile_eq (h : Spaced rest) (hp : p ' ' = false) : rest.dropWhile p = rest := by
  cases rest with
  | nil => rfl
  | cons c rest => rw [h c rfl, List.dropWhile_cons_of_neg (by simp [hp])]

/-- Characters of a class, followed by a space outside of it. -/
theorem takeWhile_append (h : Spaced rest) (hp : p ' ' = false) {cs : List Char}
    (hcs : ∀ c ∈ cs, p c) : (cs ++ rest).takeWhile p = cs := by
  rw [List.takeWhile_append_of_pos hcs, h.takeWhile_eq_nil hp, List.append_nil]

theorem dropWhile_append (h : Spaced rest) (hp : p ' ' = false) {cs : List Char}
    (hcs : ∀ c ∈ cs, p c) : (cs ++ rest).dropWhile p = rest := by
  rw [List.dropWhile_append_of_pos hcs, h.dropWhile_eq hp]

end Spaced

/-! ## Gaps -/

/-- White space or a comment starts with the character, if `next` comes after it. -/
def startsGap (c : Char) (next : Option Char) : Bool :=
  isBlank c || c == '/' && (next == some '/' || next == some '*')

theorem trivia_of_not_startsGap {c : Char} {cs : List Char} (h : startsGap c cs.head? = false)
    (pos : Nat) : trivia pos (c :: cs) = .ok ([], c :: cs) := by
  obtain ⟨hblank, hline, hblock⟩ : isBlank c = false ∧
      (c == '/' && cs.head? == some '/') = false ∧ (c == '/' && cs.head? == some '*') = false := by
    simpa only [startsGap, Bool.and_or_distrib_left, Bool.or_eq_false_iff] using h
  rw [trivia]
  simp only [hblank, hline, hblock, Bool.false_eq_true, if_false]

theorem not_startsGap_of_trivia {pos : Nat} {cs gap rest : List Char} {c : Char}
    (h : trivia pos cs = .ok (gap, c :: rest)) : startsGap c rest.head? = false := by
  fun_induction trivia pos cs generalizing gap with
  | case1 => cases h
  | case2 pos c cs _ ih =>
    obtain ⟨⟨gap, rest⟩, htail, heq⟩ := exists_of_map_eq_ok h
    cases heq
    exact ih htail
  | case3 =>
    rename_i ih
    obtain ⟨⟨gap, rest⟩, htail, heq⟩ := exists_of_map_eq_ok h
    cases heq
    exact ih htail
  | case4 => cases h
  | case5 pos c cs _ _ _ body r hb _ ih =>
    obtain ⟨⟨gap, rest⟩, htail, heq⟩ := exists_of_map_eq_ok h
    cases heq
    exact ih htail
  | case6 pos c cs hblank hline hblock =>
    cases h
    simp_all [startsGap]

theorem not_startsGap_of_append {c : Char} {cs rest : List Char}
    (h : startsGap c (cs ++ rest).head? = false) : startsGap c cs.head? = false := by
  cases cs with
  | nil =>
    rw [startsGap, Bool.or_eq_false_iff] at h
    simp [startsGap, h.1]
  | cons d cs => exact h

theorem not_startsGap_append {c : Char} {cs rest : List Char} (h : startsGap c cs.head? = false)
    (hrest : Spaced rest) : startsGap c (cs ++ rest).head? = false := by
  cases cs with
  | nil =>
    rw [startsGap, Bool.or_eq_false_iff] at h
    cases rest with
    | nil => simp [startsGap, h.1]
    | cons d rest => simp [startsGap, h.1, hrest d rfl]
  | cons d cs => exact h

/-! ## Strings and characters -/

/-- An escape is read again, if the same character comes next. -/
theorem escape_again {cs text rest rest' : List Char} (h : escape cs = .ok (text, rest))
    (hnext : rest'.head? = rest.head?) : escape (text ++ rest') = .ok (text, rest') := by
  cases cs with
  | nil => exact nomatch h
  | cons c cs =>
    simp only [escape] at h
    split_ifs at h with hx hdigits hsimple
    · -- At most two digits are taken, and one only if the next character is no digit.
      cases h
      simp only [escape, hx, if_true, List.cons_append]
      rcases cs with _ | ⟨a, _ | ⟨b, more⟩⟩
      · exact absurd rfl hdigits
      · by_cases ha : isHexDigit a
        · simp_all
        · simp_all
      · by_cases ha : isHexDigit a <;> by_cases hb : isHexDigit b
        · simp_all
        · cases rest' <;> simp_all
        · simp_all
        · simp_all
    · cases h
      simp only [escape, List.cons_append, List.nil_append, hx, hsimple, if_true, if_false,
        Bool.false_eq_true]

theorem stringTail_ends {start pos : Nat} {cs text rest : List Char}
    (h : stringTail start pos cs = .ok (text, rest)) : ∃ body, text = body ++ ['"'] := by
  fun_induction stringTail start pos cs generalizing text rest with
  | case1 => cases h
  | case2 pos c cs hc =>
    cases h
    exact ⟨[], by rw [eq_of_beq hc]; rfl⟩
  | case3 => cases h
  | case4 => cases h
  | case5 pos c cs _ _ _ t r he _ ih =>
    obtain ⟨⟨tail, rest⟩, htail, heq⟩ := exists_of_map_eq_ok h
    cases heq
    obtain ⟨body, rfl⟩ := ih htail
    exact ⟨c :: t ++ body, by simp⟩
  | case6 pos c cs _ _ _ ih =>
    obtain ⟨⟨tail, rest⟩, htail, heq⟩ := exists_of_map_eq_ok h
    cases heq
    obtain ⟨body, rfl⟩ := ih htail
    exact ⟨c :: body, rfl⟩

/-- The rest of a string is read again, whatever comes after it. -/
theorem stringTail_again {start pos : Nat} {cs text rest : List Char}
    (h : stringTail start pos cs = .ok (text, rest)) (start' pos' : Nat) (rest' : List Char) :
    stringTail start' pos' (text ++ rest') = .ok (text, rest') := by
  fun_induction stringTail start pos cs generalizing text rest pos' with
  | case1 => cases h
  | case2 pos c cs hc =>
    cases h
    simp [stringTail, hc]
  | case3 => cases h
  | case4 => cases h
  | case5 pos c cs hquote hbreak hescape t r he _ ih =>
    obtain ⟨⟨tail, rest⟩, htail, heq⟩ := exists_of_map_eq_ok h
    cases heq
    have hnext : (tail ++ rest').head? = r.head? := by
      obtain ⟨body, rfl⟩ := stringTail_ends htail
      rw [← stringTail_append htail]
      cases body <;> rfl
    have hagain := escape_again he hnext
    rw [List.cons_append, List.cons_append, List.append_assoc, stringTail]
    simp only [hquote, hbreak, hescape, if_true, if_false, Bool.false_eq_true]
    split
    · simp_all
    · rename_i t' r' he'
      rw [hagain] at he'
      cases he'
      rw [ih htail]
      rfl
  | case6 pos c cs hquote hbreak hescape ih =>
    obtain ⟨⟨tail, rest⟩, htail, heq⟩ := exists_of_map_eq_ok h
    cases heq
    rw [List.cons_append, stringTail]
    simp only [hquote, hbreak, hescape, if_false, Bool.false_eq_true]
    rw [ih htail]
    rfl

theorem eq_of_closeQuote {start pos : Nat} {cs text rest : List Char}
    (h : closeQuote start pos cs = .ok (text, rest)) : text = ['\''] ∧ cs = '\'' :: rest := by
  unfold closeQuote at h
  split at h
  · cases h
    exact ⟨rfl, rfl⟩
  · exact nomatch h

theorem charTail_ends {start pos : Nat} {cs text rest : List Char}
    (h : charTail start pos cs = .ok (text, rest)) : ∃ body, text = body ++ ['\''] := by
  cases cs with
  | nil => cases h
  | cons c cs =>
    rw [charTail] at h
    split_ifs at h
    · split at h
      · cases h
      · rename_i t r he
        obtain ⟨⟨tail, rest⟩, htail, heq⟩ := exists_of_map_eq_ok h
        cases heq
        exact ⟨c :: t, by rw [(eq_of_closeQuote htail).1]⟩
    · obtain ⟨⟨tail, rest⟩, htail, heq⟩ := exists_of_map_eq_ok h
      cases heq
      exact ⟨[c], by rw [(eq_of_closeQuote htail).1]; rfl⟩

/-- The rest of a character literal is read again, whatever comes after it. -/
theorem charTail_again {start pos : Nat} {cs text rest : List Char}
    (h : charTail start pos cs = .ok (text, rest)) (start' pos' : Nat) (rest' : List Char) :
    charTail start' pos' (text ++ rest') = .ok (text, rest') := by
  cases cs with
  | nil => cases h
  | cons c cs =>
    rw [charTail] at h
    split_ifs at h with hquote hescape
    · split at h
      · cases h
      · rename_i t r he
        obtain ⟨⟨tail, rest⟩, htail, heq⟩ := exists_of_map_eq_ok h
        cases heq
        obtain ⟨rfl, rfl⟩ := eq_of_closeQuote htail
        have hagain : escape (t ++ '\'' :: rest') = .ok (t, '\'' :: rest') := escape_again he rfl
        simp [charTail, hquote, hescape, hagain, closeQuote, Except.map]
    · obtain ⟨⟨tail, rest⟩, htail, heq⟩ := exists_of_map_eq_ok h
      cases heq
      obtain ⟨rfl, rfl⟩ := eq_of_closeQuote htail
      simp [charTail, hquote, hescape, closeQuote, Except.map]

/-! ## Numbers -/

/-- Decimal digits are split off where something else than a digit or the mark of hexadecimal digits
comes next. -/
theorem digits_decimal {whole tail : List Char} (hwhole : ∀ c ∈ whole, c.isDigit) :
    (∀ c ∈ tail.head?, c.isDigit = false ∧ c ≠ 'x' ∧ c ≠ 'X') →
    digits (whole ++ tail) = match tail with
      | '.' :: d :: ds =>
        if d.isDigit then
          (.floatLiteral, whole ++ '.' :: d :: ds.takeWhile Char.isDigit, ds.dropWhile Char.isDigit)
        else (.intLiteral, whole, '.' :: d :: ds)
      | rest => (.intLiteral, whole, rest) := by
  intro htail
  -- No `x` follows a first zero, so the digits are not hexadecimal.
  have hnot : ∀ x ds, (x = 'x' ∨ x = 'X') → whole ++ tail ≠ '0' :: x :: ds := by
    intro x ds hx heq
    have hdigit : x.isDigit = false := by rcases hx with rfl | rfl <;> rfl
    rcases whole with _ | ⟨a, _ | ⟨b, more⟩⟩
    · rw [List.nil_append] at heq
      exact absurd (htail '0' (by rw [heq]; rfl)).1 (by decide)
    · obtain ⟨-, rfl⟩ := List.cons.inj heq
      exact hx.elim (htail x rfl).2.1 (htail x rfl).2.2
    · obtain ⟨rfl, -⟩ := List.cons.inj (List.cons.inj heq).2
      have := hwhole b (by simp)
      rw [hdigit] at this
      exact absurd this Bool.false_ne_true
  have hstop : tail.takeWhile Char.isDigit = [] ∧ tail.dropWhile Char.isDigit = tail := by
    cases tail with
    | nil => exact ⟨rfl, rfl⟩
    | cons c tail => simp [(htail c rfl).1]
  unfold digits
  split
  · rename_i heq
    exact absurd heq (hnot _ _ (.inl rfl))
  · rename_i heq
    exact absurd heq (hnot _ _ (.inr rfl))
  · rewrite [List.takeWhile_append_of_pos hwhole, List.dropWhile_append_of_pos hwhole, hstop.1,
      hstop.2, List.append_nil]
    rfl

theorem digits_again {cs rest' : List Char} (h : Spaced rest') :
    digits ((digits cs).2.1 ++ rest') = ((digits cs).1, (digits cs).2.1, rest') := by
  have hspace : ∀ c ∈ rest'.head?, c.isDigit = false ∧ c ≠ 'x' ∧ c ≠ 'X' := by
    intro c hc
    rw [h c hc]
    decide
  have hdigits : ∀ c ∈ cs.takeWhile Char.isDigit, c.isDigit := fun _ => List.mem_takeWhile_imp
  have hdecimal : digits (cs.takeWhile Char.isDigit ++ rest') =
      (.intLiteral, cs.takeWhile Char.isDigit, rest') := by
    rw [digits_decimal hdigits hspace]
    split
    · exact absurd (h '.' rfl) (by decide)
    · rfl
  fun_cases digits cs with
  | case1 ds =>
    have hhex : ∀ c ∈ ds.takeWhile isHexDigit, isHexDigit c := fun _ => List.mem_takeWhile_imp
    simp only [List.cons_append, digits, h.takeWhile_append (p := isHexDigit) rfl hhex,
      h.dropWhile_append (p := isHexDigit) rfl hhex]
  | case2 ds =>
    have hhex : ∀ c ∈ ds.takeWhile isHexDigit, isHexDigit c := fun _ => List.mem_takeWhile_imp
    simp only [List.cons_append, digits, h.takeWhile_append (p := isHexDigit) rfl hhex,
      h.dropWhile_append (p := isHexDigit) rfl hhex]
  | case3 cs _ _ whole d ds hdrop hd =>
    have hfraction : ∀ c ∈ ds.takeWhile Char.isDigit, c.isDigit := fun _ => List.mem_takeWhile_imp
    rw [List.append_assoc, digits_decimal hdigits (by simp)]
    simp only [List.cons_append, hd, if_true, h.takeWhile_append (p := Char.isDigit) rfl hfraction,
      h.dropWhile_append (p := Char.isDigit) rfl hfraction]
    rfl
  | case4 => exact hdecimal
  | case5 => exact hdecimal

/-- A number is read again before a space. -/
theorem number_again {pos : Nat} {cs text rest : List Char} {kind : TokenKind}
    (h : number pos cs = .ok (kind, text, rest)) (pos' : Nat) {rest' : List Char}
    (hrest : Spaced rest') : number pos' (text ++ rest') = .ok (kind, text, rest') := by
  have hagain : digits ((digits cs).2.1 ++ rest') = _ := digits_again hrest
  simp only [number] at h
  split_ifs at h with hhex hjunk
  cases h
  simp only [number, hagain, hhex, hrest.takeWhile_eq_nil (p := isNameChar) rfl, if_false,
    Bool.false_eq_true]
  rfl

/-! ## Symbols -/

theorem isPrefix_append_spaced {spelling cs rest : List Char} (hspelling : ' ' ∉ spelling)
    (h : Spaced rest) : spelling <+: cs ++ rest ↔ spelling <+: cs := by
  induction cs generalizing spelling with
  | nil =>
    refine ⟨fun hbegins => ?_, fun hbegins => hbegins.trans (List.nil_prefix ..)⟩
    cases spelling with
    | nil => exact List.prefix_refl _
    | cons c spelling =>
      obtain ⟨more, hmore⟩ := hbegins
      rw [List.nil_append] at hmore
      exact absurd (h c (by rw [← hmore]; rfl)) fun hc => hspelling (hc ▸ List.mem_cons_self)
  | cons a cs ih =>
    cases spelling with
    | nil => simp
    | cons c spelling =>
      rw [List.cons_append, List.cons_prefix_cons, List.cons_prefix_cons,
        ih fun hmem => hspelling (List.mem_cons_of_mem _ hmem)]

theorem symbols_without_space :
    ∀ k ∈ TokenKind.symbols, ∀ s ∈ k.spelling?, ' ' ∉ s.toList := by
  decide +kernel

/-- No symbol reaches over a space. -/
theorem symbol?_append_spaced (cs : List Char) {rest : List Char} (h : Spaced rest) :
    symbol? (cs ++ rest) = (symbol? cs).map fun (k, text, more) => (k, text, more ++ rest) := by
  unfold symbol?
  rw [List.map_findSome?, ← List.head?_filterMap, ← List.head?_filterMap]
  refine congrArg List.head? (List.filterMap_congr fun k hk => ?_)
  cases hs : k.spelling? with
  | none => simp [hs]
  | some s =>
    have hspelling := symbols_without_space k hk s hs
    simp only [Option.bind_some, Function.comp, hs, List.isPrefixOf_iff_prefix,
      isPrefix_append_spaced hspelling h]
    split_ifs with hbegins
    · rw [List.drop_append_of_le_length hbegins.length_le]
      rfl
    · rfl

theorem symbol?_spelling :
    ∀ k ∈ TokenKind.symbols, ∀ s ∈ k.spelling?, symbol? s.toList = some (k, s.toList, []) := by
  decide +kernel

/-- A symbol is read again before a space. -/
theorem symbol?_again {cs text rest rest' : List Char} {kind : TokenKind}
    (h : symbol? cs = some (kind, text, rest)) (hrest : Spaced rest') :
    symbol? (text ++ rest') = some (kind, text, rest') := by
  obtain ⟨k, hk, hfound⟩ := List.exists_of_findSome?_eq_some h
  obtain ⟨s, hs, hfound⟩ := Option.bind_eq_some_iff.mp hfound
  split_ifs at hfound
  cases hfound
  rw [symbol?_append_spaced _ hrest, symbol?_spelling _ hk s hs]
  rfl

/-! ## Lexemes -/

/-- Before a space, the text is read as one token of the kind. -/
def Legible (kind : TokenKind) (text : List Char) : Prop :=
  ∃ c cs, text = c :: cs ∧ ∀ rest, Spaced rest →
    startsGap c (cs ++ rest).head? = false ∧
      ∀ pos, lexeme pos c (cs ++ rest) = .ok (kind, text, rest)

/-- A lexeme is legible where a gap does not start. -/
theorem legible_of_lexeme {pos : Nat} {c : Char} {cs text rest : List Char} {kind : TokenKind}
    (h : lexeme pos c cs = .ok (kind, text, rest)) (hgap : startsGap c cs.head? = false) :
    Legible kind text := by
  obtain ⟨more, rfl⟩ : ∃ more, text = c :: more := by
    cases text with
    | nil => exact absurd rfl (lexeme_text_ne_nil h)
    | cons c' more => exact ⟨more, by rw [(List.cons.inj (lexeme_append h)).1]⟩
  refine ⟨c, more, rfl, fun rest' hrest => ⟨?_, fun pos' => ?_⟩⟩
  · rw [← (List.cons.inj (lexeme_append h)).2] at hgap
    exact not_startsGap_append (not_startsGap_of_append hgap) hrest
  · unfold lexeme at h ⊢
    split_ifs at h ⊢ with hstring hchar hdigit hname
    · obtain ⟨⟨tail, rest⟩, htail, heq⟩ := exists_of_map_eq_ok h
      cases heq
      rw [stringTail_again htail]
      rfl
    · obtain ⟨⟨tail, rest⟩, htail, heq⟩ := exists_of_map_eq_ok h
      cases heq
      rw [charTail_again htail]
      rfl
    · exact number_again h pos' hrest
    · cases h
      have hword : ∀ c ∈ cs.takeWhile isNameChar, isNameChar c := fun _ => List.mem_takeWhile_imp
      rw [hrest.takeWhile_append (p := isNameChar) rfl hword,
        hrest.dropWhile_append (p := isNameChar) rfl hword]
    · split at h
      · rename_i found hfound
        cases h
        rw [← List.cons_append, symbol?_again hfound hrest]
      · exact nomatch h

/-- What the text of a token looks like. -/
inductive Shape : TokenKind → List Char → Prop
  | string (body : List Char) : Shape .stringLiteral ('"' :: body ++ ['"'])
  | char (body : List Char) : Shape .charLiteral ('\'' :: body ++ ['\''])
  | int (text : List Char) : Shape .intLiteral text
  | float (text : List Char) : Shape .floatLiteral text
  | name (text : List Char) : Shape .ident text
  | spelled {kind : TokenKind} {s : String} (spelling : kind.spelling? = some s) :
      Shape kind s.toList

namespace Shape

variable {kind : TokenKind} {text : List Char}

theorem toList_of_spelling (h : Shape kind text) {s : String} (hs : kind.spelling? = some s) :
    s.toList = text := by
  cases h with
  | spelled hs' => rw [Option.some.inj (hs.symm.trans hs')]
  | _ => exact nomatch hs

theorem exists_of_string (h : Shape .stringLiteral text) : ∃ body, text = '"' :: body ++ ['"'] := by
  cases h with
  | string body => exact ⟨body, rfl⟩
  | spelled hs => exact nomatch hs

theorem exists_of_char (h : Shape .charLiteral text) : ∃ body, text = '\'' :: body ++ ['\''] := by
  cases h with
  | char body => exact ⟨body, rfl⟩
  | spelled hs => exact nomatch hs

theorem kind_ne_eof (h : Shape kind text) : kind ≠ .eof := by
  rintro rfl
  cases h with
  | spelled hs => exact nomatch hs

end Shape

theorem number_shape {pos : Nat} {cs text rest : List Char} {kind : TokenKind}
    (h : number pos cs = .ok (kind, text, rest)) : Shape kind text := by
  simp only [number] at h
  split_ifs at h
  cases h
  fun_cases digits cs
  · exact .int _
  · exact .int _
  · exact .float _
  · exact .int _
  · exact .int _

theorem ofWord_shape (word : List Char) : Shape (.ofWord (String.ofList word)) word := by
  unfold TokenKind.ofWord
  cases hfind : TokenKind.keywords.find? (·.spelling? == some (String.ofList word)) with
  | none => exact .name word
  | some kind =>
    have hs : kind.spelling? = some (String.ofList word) := by
      have := List.find?_some hfind
      exact eq_of_beq this
    simpa using Shape.spelled hs

theorem lexeme_shape {pos : Nat} {c : Char} {cs text rest : List Char} {kind : TokenKind}
    (h : lexeme pos c cs = .ok (kind, text, rest)) : Shape kind text := by
  unfold lexeme at h
  split_ifs at h with hstring hchar
  · obtain ⟨⟨tail, rest⟩, htail, heq⟩ := exists_of_map_eq_ok h
    cases heq
    obtain ⟨body, rfl⟩ := stringTail_ends htail
    rw [eq_of_beq hstring]
    exact .string body
  · obtain ⟨⟨tail, rest⟩, htail, heq⟩ := exists_of_map_eq_ok h
    cases heq
    obtain ⟨body, rfl⟩ := charTail_ends htail
    rw [eq_of_beq hchar]
    exact .char body
  · exact number_shape h
  · cases h
    exact ofWord_shape _
  · split at h
    · rename_i found hfound
      cases h
      obtain ⟨k, hk, hfound⟩ := List.exists_of_findSome?_eq_some hfound
      obtain ⟨s, hs, hfound⟩ := Option.bind_eq_some_iff.mp hfound
      split_ifs at hfound
      cases hfound
      exact .spelled hs
    · exact nomatch h

/-! ## Numerals -/

theorem beq_of_isDigit {c d : Char} (hc : c.isDigit) (hd : d.isDigit = false) :
    (c == d) = false := by
  rw [beq_eq_false_iff_ne]
  rintro rfl
  rw [hd] at hc
  exact absurd hc Bool.false_ne_true

theorem lexeme_decimal {c : Char} {cs : List Char} (h : ∀ d ∈ c :: cs, d.isDigit) (pos : Nat) :
    lexeme pos c cs = .ok (.intLiteral, c :: cs, []) := by
  have hc : c.isDigit := h c List.mem_cons_self
  have hdigits : digits (c :: cs) = (.intLiteral, c :: cs, []) := by
    have hwhole : digits (c :: cs ++ []) = _ := digits_decimal h (by simp)
    rwa [List.append_nil] at hwhole
  have hhex : ∀ x, x.isDigit = false → (c :: cs == ['0', x]) = false := by
    intro x hx
    rw [beq_eq_false_iff_ne]
    intro heq
    exact absurd rfl (beq_eq_false_iff_ne.mp (beq_of_isDigit (h x (by simp [heq])) hx))
  unfold lexeme
  simp only [beq_of_isDigit hc (d := '"') rfl, beq_of_isDigit hc (d := '\'') rfl, hc,
    Bool.false_eq_true, if_false, if_true, number, hdigits, hhex 'x' rfl, hhex 'X' rfl]
  rfl

theorem legible_decimal (n : Nat) : Legible .intLiteral (toString n).toList := by
  rw [Nat.toString_eq_ofList_toDigits, String.toList_ofList]
  have hdigits : ∀ c ∈ Nat.toDigits 10 n, c.isDigit :=
    fun _ => Nat.isDigit_of_mem_toDigits (by decide) (by decide)
  cases htext : Nat.toDigits 10 n with
  | nil => exact absurd htext Nat.toDigits_ne_nil
  | cons c cs =>
    rw [htext] at hdigits
    refine legible_of_lexeme (lexeme_decimal hdigits 0) ?_
    have hc := hdigits c List.mem_cons_self
    simp only [startsGap, isBlank, beq_of_isDigit hc (d := ' ') rfl, beq_of_isDigit hc (d := '\t') rfl,
      beq_of_isDigit hc (d := '\n') rfl, beq_of_isDigit hc (d := '\r') rfl,
      beq_of_isDigit hc (d := '/') rfl, Bool.false_and, Bool.or_false]

end KilnLang.Lexer

namespace KilnLang.IntLiteral

theorem digitValue?_of_isDigit {c : Char} (h : c.isDigit) :
    digitValue? c = some (c.toNat - '0'.toNat) ∧ c.toNat - '0'.toNat < 10 := by
  have hle : '0' ≤ c ∧ c ≤ '9' := by simpa [Char.isDigit, Char.le_def] using h
  rw [Char.isDigit_iff_toNat] at h
  refine ⟨if_pos hle, ?_⟩
  simp only [Char.reduceToNat] at h ⊢
  omega

theorem digitsValue?_eq_ofDigitChars {ds : List Char} (h : ∀ d ∈ ds, d.isDigit) (acc : Nat) :
    digitsValue? 10 acc ds = some (Nat.ofDigitChars 10 ds acc) := by
  induction ds generalizing acc with
  | nil => rfl
  | cons d ds ih =>
    obtain ⟨hd, hds⟩ := List.forall_mem_cons.mp h
    obtain ⟨hvalue, hlt⟩ := digitValue?_of_isDigit hd
    simp only [digitsValue?, hvalue, hlt, if_true]
    rw [ih hds]
    rfl

/-- The decimal numeral of a number that fits into 64 bits has its value. -/
theorem value?_toString {n : Nat} (h : n < UInt64.size) : value? (toString n) = some n := by
  have hdigits : ∀ c ∈ Nat.toDigits 10 n, c.isDigit :=
    fun _ => Nat.isDigit_of_mem_toDigits (by decide) (by decide)
  have hvalue : digitsValue? 10 0 (Nat.toDigits 10 n) = some n := by
    rw [digitsValue?_eq_ofDigitChars hdigits, Nat.ofDigitChars_ten_toDigits]
  have hnumeral : numeralValue? 10 (Nat.toDigits 10 n) = some n := by
    unfold numeralValue?
    split
    · rename_i heq
      exact absurd heq Nat.toDigits_ne_nil
    · rename_i heq
      exact absurd (hdigits '+' (by simp [heq])) (by decide)
    · rename_i heq
      exact absurd (hdigits '+' (by simp [heq])) (by decide)
    · exact hvalue
  unfold value?
  rw [Nat.toString_eq_ofList_toDigits, String.toList_ofList]
  split
  · rename_i heq
    exact absurd (hdigits 'x' (by simp [heq])) (by decide)
  · rename_i heq
    exact absurd (hdigits 'X' (by simp [heq])) (by decide)
  · rw [hnumeral]
    exact if_pos (decide_eq_true h)

end KilnLang.IntLiteral

namespace KilnLang

open Lexer

/-! ## Tokens of a text -/

/-- The token was split off some text, where no gap starts. -/
def Token.Lexed (t : Token) : Prop :=
  ∃ pos c cs rest, startsGap c cs.head? = false ∧
    lexeme pos c cs = .ok (t.kind, t.text.toList, rest)

theorem Token.Lexed.legible {t : Token} (h : t.Lexed) : Legible t.kind t.text.toList := by
  obtain ⟨_, _, _, _, hgap, hlexeme⟩ := h
  exact legible_of_lexeme hlexeme hgap

theorem Token.Lexed.shape {t : Token} (h : t.Lexed) : Shape t.kind t.text.toList := by
  obtain ⟨_, _, _, _, -, hlexeme⟩ := h
  exact lexeme_shape hlexeme

namespace Lexer

theorem lexed_of_mem_scanFrom {file pos : Nat} {cs : List Char} {t : Token}
    (h : t ∈ (scanFrom file pos cs).tokens) : t.Lexed := by
  fun_induction scanFrom file pos cs with
  | case1 => exact absurd h List.not_mem_nil
  | case2 => exact absurd h List.not_mem_nil
  | case3 => exact absurd h List.not_mem_nil
  | case4 pos cs gap c cs' hgap start kind text rest hlexeme _ _ _ stop next ih =>
    rcases List.mem_cons.mp h with rfl | h
    · exact ⟨_, c, cs', rest, not_startsGap_of_trivia hgap, by rw [hlexeme, String.toList_ofList]⟩
    · exact ih h

theorem lexed_of_mem_lex {file : Nat} {text : String} {tokens : List Token}
    (h : Token.lex file text = .ok tokens) {t : Token} (ht : t ∈ tokens) : t.Lexed := by
  unfold Token.lex at h
  dsimp only at h
  split at h
  · exact nomatch h
  · cases h
    exact lexed_of_mem_scanFrom ht

theorem trivia_spaces {gap : List Char} (hgap : ∀ c ∈ gap, c = ' ') {c : Char} {cs : List Char}
    (h : startsGap c cs.head? = false) (pos : Nat) :
    trivia pos (gap ++ c :: cs) = .ok (gap, c :: cs) := by
  induction gap generalizing pos with
  | nil => exact trivia_of_not_startsGap h pos
  | cons d gap ih =>
    obtain ⟨rfl, hmore⟩ := List.forall_mem_cons.mp hgap
    rw [List.cons_append, trivia]
    simp [isBlank, ih hmore, Except.map]

/-- A lexeme after spaces is read as a token on the same line. -/
theorem scanFrom_token {kind : TokenKind} {gap text cs rest : List Char} {c : Char}
    (hgap : ∀ c ∈ gap, c = ' ') (hstart : startsGap c cs.head? = false)
    (hlexeme : ∀ pos, lexeme pos c cs = .ok (kind, text, rest)) (file pos : Nat) :
    scanFrom file pos (gap ++ c :: cs) =
      ⟨⟨kind, String.ofList text,
          ⟨file, pos + utf8Width gap, pos + utf8Width gap + utf8Width text⟩, false⟩ ::
          (scanFrom file (pos + utf8Width gap + utf8Width text) rest).tokens,
        (scanFrom file (pos + utf8Width gap + utf8Width text) rest).error⟩ := by
  have htrivia := trivia_spaces hgap hstart pos
  rw [scanFrom]
  split
  · simp_all
  · simp_all
  · rename_i gap' c' cs' hg
    rw [htrivia] at hg
    cases hg
    dsimp only
    split
    · simp_all
    · rename_i kind' text' rest' hl
      rw [hlexeme] at hl
      cases hl
      have hfresh : gap.contains '\n' = false := by
        simpa using fun hmem => absurd (hgap _ hmem) (by decide)
      rw [hfresh]

theorem scanFrom_legible {kind : TokenKind} {gap text rest : List Char} (h : Legible kind text)
    (hgap : ∀ c ∈ gap, c = ' ') (hrest : Spaced rest) (file pos : Nat) :
    scanFrom file pos (gap ++ (text ++ rest)) =
      ⟨⟨kind, String.ofList text,
          ⟨file, pos + utf8Width gap, pos + utf8Width gap + utf8Width text⟩, false⟩ ::
          (scanFrom file (pos + utf8Width gap + utf8Width text) rest).tokens,
        (scanFrom file (pos + utf8Width gap + utf8Width text) rest).error⟩ := by
  obtain ⟨c, cs, rfl, h⟩ := h
  obtain ⟨hstart, hlexeme⟩ := h rest hrest
  exact scanFrom_token hgap hstart hlexeme file pos

end Lexer

end KilnLang
