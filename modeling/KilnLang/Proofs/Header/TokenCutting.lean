import KilnLang.Header.CToken
import KilnLang.Proofs.Header.ParameterLists

/-!
# Cutting a header into tokens

One equation of `tokenize` for each kind of token, and where a text can be cut: a blank outside of
quotes ends every token, so the tokens of a text with such a blank are those before it and those
after it (`tokenize_append`). Blanks at the end of a text are also cut off where a quote is open.
-/

namespace KilnLang.Header

open Lexer (isNameStart isNameChar)
open Text (isBlank Blank)

/-! ## Quotes -/

/-- Whether no quote is open after a text, before which one may be open. A line break ends a quote,
and a backslash in a quote hides the character after it. -/
def closesQuotes : Option Char → List Char → Bool
  | none, [] => true
  | some _, [] => false
  | none, c :: cs => closesQuotes (if c = '"' ∨ c = '\'' then some c else none) cs
  | some q, '\\' :: _ :: cs => closesQuotes (some q) cs
  | some _, ['\\'] => false
  | some q, c :: cs => closesQuotes (if c = '\n' ∨ c = q then none else some q) cs

theorem closesQuotes_cons_of_ne {q c : Char} (hc : c ≠ '\\') (cs : List Char) :
    closesQuotes (some q) (c :: cs) =
      closesQuotes (if c = '\n' ∨ c = q then none else some q) cs := by
  rw [closesQuotes]
  · exact fun _ _ h => absurd h hc
  · exact fun h => absurd h hc

theorem closesQuotes_append {quote : Option Char} {text : List Char}
    (h : closesQuotes quote text = true) (more : List Char) :
    closesQuotes quote (text ++ more) = closesQuotes none more := by
  fun_induction closesQuotes quote text with
  | case1 => rfl
  | case2 => exact nomatch h
  | case3 c cs ih => exact ih h
  | case4 q d cs ih => exact ih h
  | case5 => exact nomatch h
  | case6 q c cs hescape hlone ih =>
    have hc : c ≠ '\\' := by
      intro hc
      cases cs with
      | nil => exact hlone hc rfl
      | cons d cs => exact hescape d cs hc rfl
    rw [List.cons_append, closesQuotes_cons_of_ne hc]
    exact ih h

/-- A line break ends every quote, unless a backslash hides it. -/
theorem closesQuotes_line {text : List Char} (h : text.getLast? ≠ some '\\')
    (quote : Option Char) : closesQuotes quote (text ++ ['\n']) = true := by
  have hrest : ∀ {c : Char} {cs : List Char}, (c :: cs).getLast? ≠ some '\\' →
      cs.getLast? ≠ some '\\' := fun h hlast => h (by rw [List.getLast?_cons, hlast]; rfl)
  fun_induction closesQuotes quote text with
  | case1 => rfl
  | case2 => simp [closesQuotes]
  | case3 c cs ih => exact ih (hrest h)
  | case4 q d cs ih => exact ih (hrest (hrest h))
  | case5 => exact absurd rfl h
  | case6 q c cs hescape hlone ih =>
    have hc : c ≠ '\\' := by
      intro hc
      cases cs with
      | nil => exact hlone hc rfl
      | cons d cs => exact hescape d cs hc rfl
    rw [List.cons_append, closesQuotes_cons_of_ne hc]
    exact ih (hrest h)

/-- The character opens a quote. -/
abbrev IsQuote (c : Char) : Prop := c = '"' ∨ c = '\''

theorem closesQuotes_of_no_quote {text : List Char} (h : ∀ c ∈ text, ¬ IsQuote c)
    (more : List Char) : closesQuotes none (text ++ more) = closesQuotes none more := by
  induction text with
  | nil => rfl
  | cons c text ih =>
    obtain ⟨hc, htext⟩ := List.forall_mem_cons.mp h
    rw [List.cons_append, closesQuotes, if_neg hc, ih htext]

/-! ## Kinds of tokens -/

namespace CToken

variable {c : Char} {cs : List Char}

/-- What a word gives together with the text after it: a quote makes a name of an encoding a part of
the literal. -/
def ofWord (word : String) : List Char → List CToken
  | [] => [.word word]
  | q :: rest =>
    if encodings.contains word && (q == '"' || q == '\'') then
      ofQuote q :: tokenize (skipQuoted q rest)
    else .word word :: tokenize (q :: rest)

theorem tokenize_space (h : isSpace c = true) : tokenize (c :: cs) = tokenize cs := by
  rw [tokenize.eq_def]
  simp only [if_pos h]

theorem tokenize_quote (h : IsQuote c) :
    tokenize (c :: cs) = ofQuote c :: tokenize (skipQuoted c cs) := by
  have hspace : ¬ isSpace c = true := by rcases h with rfl | rfl <;> decide
  rw [tokenize.eq_def]
  simp only [if_neg hspace]
  exact if_pos h

theorem not_isQuote_of_isNameChar (h : isNameChar c = true) : ¬ IsQuote c := by
  rintro (rfl | rfl) <;> exact absurd h (by decide)

theorem isSpace_of_isNameChar (h : isNameChar c = true) : ¬ isSpace c = true := by
  intro hspace
  have hmem : c ∈ [' ', '\t', '\n', '\x0C', '\r'] := by simpa [isSpace, or_assoc] using hspace
  have hnone : [' ', '\t', '\n', '\x0C', '\r'].all (!isNameChar ·) = true := by decide
  have hc := List.all_eq_true.mp hnone c hmem
  rw [h] at hc
  exact Bool.false_ne_true hc

theorem tokenize_word (h : isNameStart c = true) : tokenize (c :: cs) =
    ofWord (String.ofList (c :: cs.takeWhile isNameChar)) (cs.dropWhile isNameChar) := by
  have hchar := isNameChar_of_isNameStart h
  rw [tokenize.eq_def]
  simp only [if_neg (isSpace_of_isNameChar hchar), if_neg (not_isQuote_of_isNameChar hchar),
    if_pos h]
  split
  · rename_i hdrop
    rw [hdrop]
    rfl
  · rename_i hdrop
    rw [hdrop]
    rfl

/-- The character starts neither a literal nor a word, and is no space. -/
structure IsMark (c : Char) : Prop where
  space : isSpace c = false
  quote : ¬ IsQuote c
  start : isNameStart c = false

theorem tokenize_mark (h : IsMark c) : tokenize (c :: cs) =
    if startsNumber c cs then
      .number (String.ofList (c :: (numberTail (isHex c cs) c cs).1)) ::
        tokenize (numberTail (isHex c cs) c cs).2
    else if c = '.' ∧ cs.take 2 = ['.', '.'] then .ellipsis :: tokenize (cs.drop 2)
    else if punctuation.contains c then .punct c :: tokenize cs
    else tokenize cs := by
  rw [tokenize.eq_def]
  simp only [h.space, if_neg h.quote, h.start, Bool.false_eq_true, if_false]

theorem kinds (c : Char) :
    isSpace c = true ∨ IsQuote c ∨ isNameStart c = true ∨ IsMark c := by
  by_cases hspace : isSpace c = true
  · exact .inl hspace
  by_cases hquote : IsQuote c
  · exact .inr (.inl hquote)
  by_cases hstart : isNameStart c = true
  · exact .inr (.inr (.inl hstart))
  · exact .inr (.inr (.inr ⟨Bool.eq_false_iff.mpr hspace, hquote, Bool.eq_false_iff.mpr hstart⟩))

theorem numberTail_split (hex : Bool) (prev : Char) (cs : List Char) :
    (numberTail hex prev cs).1 ++ (numberTail hex prev cs).2 = cs ∧
      ∀ c ∈ (numberTail hex prev cs).1, ¬ IsQuote c := by
  fun_induction numberTail hex prev cs with
  | case1 => exact ⟨rfl, List.forall_mem_nil _⟩
  | case2 prev c cs hc digits rest htail ih =>
    rw [htail] at ih
    refine ⟨congrArg (c :: ·) ih.1, List.forall_mem_cons.mpr ⟨?_, ih.2⟩⟩
    rintro (rfl | rfl) <;> simp at hc <;> exact absurd hc (by decide)
  | case3 => exact ⟨rfl, List.forall_mem_nil _⟩

end CToken

/-! ## Blanks -/

open CToken

variable {b : Char} {text more : List Char}

/-- What a blank is not. -/
structure EndsTokens (b : Char) : Prop where
  name : isNameChar b = false
  quote : ¬ IsQuote b
  sign : b ≠ '+' ∧ b ≠ '-' ∧ b ≠ '.'
  punct : punctuation.contains b = false

theorem endsTokens_of_isBlank (h : isBlank b = true) : EndsTokens b := by
  have hnot : ∀ {c : Char}, isBlank c = false → b ≠ c := by
    rintro c hc rfl
    exact Bool.false_ne_true (hc.symm.trans h)
  refine ⟨?_, not_or.mpr ⟨hnot (by decide), hnot (by decide)⟩,
    ⟨hnot (by decide), hnot (by decide), hnot (by decide)⟩, ?_⟩
  · by_contra hname
    have := isBlank_of_isNameChar (eq_true_of_ne_false hname)
    exact Bool.false_ne_true (this.symm.trans h)
  · by_contra hpunct
    have hmem := List.contains_iff_mem.mp (eq_true_of_ne_false hpunct)
    have hnone : punctuation.all (!isBlank ·) = true := by decide
    have hb := List.all_eq_true.mp hnone b hmem
    rw [h] at hb
    exact Bool.false_ne_true hb

theorem tokenize_blank (h : isBlank b = true) : tokenize (b :: more) = tokenize more := by
  have hends := endsTokens_of_isBlank h
  have hname := hends.name
  rw [isNameChar, Bool.or_eq_false_iff] at hname
  by_cases hspace : isSpace b = true
  · exact tokenize_space hspace
  · have hnumber : ¬ startsNumber b more = true := by
      simp [startsNumber, hname.2, hends.sign.2.2]
    rw [tokenize_mark ⟨Bool.eq_false_iff.mpr hspace, hends.quote, hname.1⟩, if_neg hnumber,
      if_neg fun h => hends.sign.2.2 h.1, hends.punct]
    rfl

theorem tokenize_of_blank (h : Blank text) (more : List Char) :
    tokenize (text ++ more) = tokenize more := by
  induction text with
  | nil => rfl
  | cons c text ih =>
    obtain ⟨hc, htext⟩ := List.forall_mem_cons.mp h
    rw [List.cons_append, tokenize_blank hc, ih htext]

theorem tokenize_eq_nil (h : Blank text) : tokenize text = [] := by
  have hnone := tokenize_of_blank h []
  rwa [List.append_nil, tokenize] at hnone

/-! ## Cutting at a blank -/

/-- The text can be cut before the blank: no quote is open after it, or only blanks follow. -/
def CutsBefore (text : List Char) (b : Char) (more : List Char) : Prop :=
  closesQuotes none (text ++ [b]) = true ∨ Blank more

theorem CutsBefore.drop {before : List Char} (hbefore : ∀ c ∈ before, ¬ IsQuote c)
    (h : CutsBefore (before ++ text) b more) : CutsBefore text b more := by
  refine h.imp_left fun h => ?_
  rwa [List.append_assoc, closesQuotes_of_no_quote hbefore] at h

theorem takeWhile_cut {p : Char → Bool} (hb : p b = false) (cs more : List Char) :
    (cs ++ b :: more).takeWhile p = cs.takeWhile p ∧
      (cs ++ b :: more).dropWhile p = cs.dropWhile p ++ b :: more := by
  induction cs with
  | nil => simp [hb]
  | cons c cs ih => cases hc : p c <;> simp [hc, ih]

theorem numberTail_cut (hb : EndsTokens b) (hex : Bool) (prev : Char) (cs : List Char) :
    numberTail hex prev (cs ++ b :: more) =
      ((numberTail hex prev cs).1, (numberTail hex prev cs).2 ++ b :: more) := by
  induction cs generalizing prev with
  | nil => simp [numberTail, hb.name, hb.sign]
  | cons c cs ih =>
    rw [List.cons_append, numberTail, numberTail]
    split
    · rw [ih]
    · rfl

theorem skipQuoted_cons {q c : Char} (hc : c ≠ '\\') (cs : List Char) :
    skipQuoted q (c :: cs) =
      if c = '\n' then c :: cs else if c = q then cs else skipQuoted q cs := by
  rw [skipQuoted]
  · exact fun _ _ h => absurd h hc
  · exact fun h => absurd h hc

theorem isBlank_of_isQuote {q : Char} (h : IsQuote q) : isBlank q = false := by
  rcases h with rfl | rfl <;> decide

/-- Of blanks in a quote only blanks are left. -/
theorem skipQuoted_blank {q : Char} (hq : IsQuote q) (h : Blank text) :
    Blank (skipQuoted q text) := by
  induction text with
  | nil => exact h
  | cons c text ih =>
    obtain ⟨hc, htext⟩ := List.forall_mem_cons.mp h
    have hnot : ∀ {d : Char}, isBlank d = false → c ≠ d := by
      rintro d hd rfl
      exact Bool.false_ne_true (hd.symm.trans hc)
    rw [skipQuoted_cons (hnot (by decide)), if_neg (hnot (isBlank_of_isQuote hq))]
    split
    · exact h
    · exact ih htext

/-- A quote ends before the blank, or at it if that is a line break, or nothing is read after it. -/
theorem skipQuoted_cut {q : Char} (hq : IsQuote q) (hb : isBlank b = true) (cs : List Char)
    (h : closesQuotes (some q) (cs ++ [b]) = true ∨ Blank more) :
    (skipQuoted q (cs ++ b :: more) = skipQuoted q cs ++ b :: more ∧
      CutsBefore (skipQuoted q cs) b more) ∨
    (Blank (skipQuoted q (cs ++ b :: more)) ∧ skipQuoted q cs = [] ∧ Blank more) := by
  have hnot : ∀ {d : Char}, isBlank d = false → b ≠ d := by
    rintro d hd rfl
    exact Bool.false_ne_true (hd.symm.trans hb)
  fun_induction skipQuoted q cs with
  | case1 =>
    rcases h with h | hmore
    · rw [List.nil_append, closesQuotes_cons_of_ne (hnot (by decide))] at h
      -- An open quote is closed by the blank only if that is a line break.
      have hbreak : b = '\n' := by
        by_contra hbreak
        rw [if_neg (not_or.mpr ⟨hbreak, hnot (isBlank_of_isQuote hq)⟩)] at h
        exact Bool.false_ne_true h
      subst hbreak
      exact .inl ⟨rfl, .inl rfl⟩
    · exact .inr ⟨skipQuoted_blank hq (List.forall_mem_cons.mpr ⟨hb, hmore⟩), rfl, hmore⟩
  | case2 d cs ih => exact ih h
  | case3 =>
    rcases h with h | hmore
    · exact absurd h Bool.false_ne_true
    · have hblank : Blank (skipQuoted q more) := skipQuoted_blank hq hmore
      exact .inr ⟨hblank, rfl, hmore⟩
  | case4 cs =>
    refine .inl ⟨?_, h⟩
    rw [List.cons_append, skipQuoted_cons (by decide), if_pos rfl]
  | case5 cs hescape hlone hbreak =>
    have hc : q ≠ '\\' := by rcases hq with rfl | rfl <;> decide
    refine .inl ⟨?_, h.imp_left fun h => ?_⟩
    · rw [List.cons_append, skipQuoted_cons hc, if_neg hbreak, if_pos rfl]
    · rwa [List.cons_append, closesQuotes_cons_of_ne hc, if_pos (.inr rfl)] at h
  | case6 c cs hescape hlone hbreak hclose ih =>
    have hc : c ≠ '\\' := by
      intro hc
      cases cs with
      | nil => exact hlone hc rfl
      | cons d cs => exact hescape d cs hc rfl
    rw [List.cons_append, skipQuoted_cons hc, if_neg hbreak, if_neg hclose]
    refine ih (h.imp_left fun h => ?_)
    rwa [List.cons_append, closesQuotes_cons_of_ne hc, if_neg (not_or.mpr ⟨hbreak, hclose⟩)] at h

/-- A quote that has been opened is cut off before the blank with all that follows it. -/
theorem tokenize_skipQuoted_cut {q : Char} (hq : IsQuote q) (hb : isBlank b = true)
    {cs : List Char} (h : CutsBefore (q :: cs) b more)
    (ih : CutsBefore (skipQuoted q cs) b more →
      tokenize (skipQuoted q cs ++ b :: more) = tokenize (skipQuoted q cs) ++ tokenize more) :
    tokenize (skipQuoted q (cs ++ b :: more)) = tokenize (skipQuoted q cs) ++ tokenize more := by
  have hopen := h.imp_left fun h => by
    rwa [List.cons_append, closesQuotes, if_pos hq] at h
  rcases skipQuoted_cut hq hb cs hopen with ⟨heq, hcuts⟩ | ⟨hlong, hshort, hmore⟩
  · rw [heq, ih hcuts]
  · rw [hshort, tokenize_eq_nil hlong, tokenize_eq_nil hmore]
    simp [tokenize]

/-- What a word gives is cut as the text after the word is. -/
theorem ofWord_cut (hb : isBlank b = true) (word : String) {cs : List Char}
    (h : CutsBefore cs b more)
    (ih : ∀ text : List Char, text.length ≤ cs.length → CutsBefore text b more →
      tokenize (text ++ b :: more) = tokenize text ++ tokenize more) :
    ofWord word (cs ++ b :: more) = ofWord word cs ++ tokenize more := by
  cases cs with
  | nil =>
    have hquote : ¬ (encodings.contains word && (b == '"' || b == '\'')) = true := by
      simpa [IsQuote] using fun _ => (endsTokens_of_isBlank hb).quote
    have hword : ofWord word (b :: more) =
      if encodings.contains word && (b == '"' || b == '\'') then
        ofQuote b :: tokenize (skipQuoted b more)
      else .word word :: tokenize (b :: more) := rfl
    rw [List.nil_append, hword, if_neg hquote, tokenize_blank hb]
    rfl
  | cons q rest =>
    rw [List.cons_append, ofWord, ofWord]
    by_cases hquote : (encodings.contains word && (q == '"' || q == '\'')) = true
    · have hq : IsQuote q := by simpa using (Bool.and_eq_true_iff.mp hquote).2
      have hlength := skipQuoted_length q rest
      rw [if_pos hquote, if_pos hquote, List.cons_append,
        tokenize_skipQuoted_cut hq hb h (ih _ (by simp; omega))]
    · rw [if_neg hquote, if_neg hquote, ← List.cons_append, ih _ le_rfl h, List.cons_append]

/-- Where a text is cut has no part in what its first mark is. -/
theorem mark_cut (hb : EndsTokens b) (c : Char) (cs more : List Char) :
    startsNumber c (cs ++ b :: more) = startsNumber c cs ∧
      isHex c (cs ++ b :: more) = isHex c cs ∧
      ((cs ++ b :: more).take 2 = ['.', '.'] ↔ cs.take 2 = ['.', '.']) := by
  have hname := hb.name
  rw [isNameChar, Bool.or_eq_false_iff] at hname
  have hletter : ∀ {d : Char}, isNameStart d = true → b ≠ d := by
    rintro d hd rfl
    exact Bool.false_ne_true (hname.1.symm.trans hd)
  rcases cs with _ | ⟨d, _ | ⟨e, cs⟩⟩
  · have hx : b ≠ 'x' ∧ b ≠ 'X' := ⟨hletter (by decide), hletter (by decide)⟩
    simp [startsNumber, isHex, hname.2, hx, hb.sign.2.2]
  · simp [startsNumber, isHex, hb.sign.2.2]
  · simp [startsNumber, isHex]

/-- **A blank outside of quotes cuts a text into tokens.** The tokens are those of the text before
it and those of the text after it. -/
theorem tokenize_append (hb : isBlank b = true) (h : CutsBefore text b more) :
    tokenize (text ++ b :: more) = tokenize text ++ tokenize more := by
  have hends := endsTokens_of_isBlank hb
  induction hlength : text.length using Nat.strongRecOn generalizing text with
  | ind n ih =>
    subst hlength
    cases text with
    | nil =>
      rw [List.nil_append, tokenize_blank hb]
      simp [tokenize]
    | cons c cs =>
      have hskip : ¬ IsQuote c → CutsBefore cs b more := by
        intro hc
        have hcuts : CutsBefore ([c] ++ cs) b more := h
        exact hcuts.drop (List.forall_mem_singleton.mpr hc)
      rw [List.cons_append]
      rcases kinds c with hspace | hquote | hstart | hmark
      · have hc : ¬ IsQuote c := by rintro (rfl | rfl) <;> exact absurd hspace (by decide)
        rw [tokenize_space hspace, tokenize_space hspace, ih _ (by simp) (hskip hc) rfl]
      · have hlength := skipQuoted_length c cs
        rw [tokenize_quote hquote, tokenize_quote hquote, List.cons_append,
          tokenize_skipQuoted_cut hquote hb h fun hcuts => ih _ (by simp; omega) hcuts rfl]
      -- A word ends before the blank at the latest, so it is the same in the whole text.
      · obtain ⟨htake, hdrop⟩ := takeWhile_cut hends.name cs more
        have hword : ∀ d ∈ cs.takeWhile isNameChar, ¬ IsQuote d := fun d hd =>
          not_isQuote_of_isNameChar (List.mem_takeWhile_imp hd)
        have hcuts := hskip (not_isQuote_of_isNameChar (isNameChar_of_isNameStart hstart))
        rw [← List.takeWhile_append_dropWhile (p := isNameChar) (l := cs)] at hcuts
        rw [tokenize_word hstart, tokenize_word hstart, htake, hdrop]
        refine ofWord_cut hb _ (hcuts.drop hword) fun text htext hcuts => ih _ ?_ hcuts rfl
        have := (List.dropWhile_suffix isNameChar (l := cs)).length_le
        simp; omega
      · obtain ⟨hnumber, hhex, hellipsis⟩ := mark_cut hends c cs more
        have hcuts := hskip hmark.quote
        rw [tokenize_mark hmark, tokenize_mark hmark, hnumber, hhex, numberTail_cut hends]
        simp only [hellipsis]
        split_ifs with hstart hpoints hpunct
        · obtain ⟨hsplit, hdigits⟩ := numberTail_split (isHex c cs) c cs
          have hlength := numberTail_length (isHex c cs) c cs
          rw [← hsplit] at hcuts
          rw [ih _ (by simp; omega) (hcuts.drop hdigits) rfl, List.cons_append]
        · have hpoint : ∀ d ∈ cs.take 2, ¬ IsQuote d := by
            rw [hpoints.2]
            exact List.forall_mem_cons.mpr ⟨by decide, List.forall_mem_singleton.mpr (by decide)⟩
          have hlength : 2 ≤ cs.length := by
            have := congrArg List.length hpoints.2
            simp at this
            omega
          rw [← List.take_append_drop 2 cs] at hcuts
          -- Two points after the first one are in the text before the blank.
          have hshorter : (cs.drop 2).length < (c :: cs).length := by
            rw [List.length_drop, List.length_cons]
            omega
          rw [List.drop_append_of_le_length hlength, ih _ hshorter (hcuts.drop hpoint) rfl,
            List.cons_append]
        · rw [ih _ (by simp) hcuts rfl, List.cons_append]
        · rw [ih _ (by simp) hcuts rfl]

end KilnLang.Header
