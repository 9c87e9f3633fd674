import KilnLang.Token.Lexer
import Mathlib.Data.List.Chain

/-!
# The tokens of C

A text of C is split into tokens by taking the longest token that the text starts with, and white
space and comments between tokens are left out (`CLexer.tokens?`). Numbers are those of the
preprocessor: after an exponent letter a number goes on with a sign, so `0xe+1` is one token.

A text that is written token by token consists of **pieces**: tokens, some of them between spaces,
and spaces (`CPiece`). Two tokens with nothing between them are apart if the first one does not go
on with the first character of the second one (`CLexeme.goesOn`).

**Theorem (`CPiece.tokens?_iff_parted`).** The tokens of the text of pieces are the tokens of the
pieces if and only if tokens with nothing between them are apart.
-/

namespace KilnLang

/-- A token of C. -/
inductive CLexeme where
  | word (text : String)
  | number (text : String)
  | quoted (text : String)
  | punct (text : String)
  deriving DecidableEq, Repr, Inhabited

/-- The text of a token. -/
def CLexeme.text : CLexeme → String
  | .word text => text
  | .number text => text
  | .quoted text => text
  | .punct text => text

/-! ## Splitting a text -/

namespace CLexer

open Lexer (isNameStart isNameChar blockComment)

/-- A property of the characters of a list is decided for these only, not for all characters. -/
instance (priority := 2000) decidableEach (p : Char → Prop) [DecidablePred p] (cs : List Char) :
    Decidable (∀ c ∈ cs, p c) :=
  List.decidableBAll p cs

/-- A property of a character that may be there is decided for it only. -/
instance (priority := 2000) decidableHead (p : Char → Prop) [DecidablePred p] :
    (c? : Option Char) → Decidable (∀ c ∈ c?, p c)
  | none => isTrue (by simp)
  | some c => decidable_of_iff (p c) (by simp)

/-- White space between tokens. -/
def isSpace (c : Char) : Bool := [' ', '\t', '\n', '\r', '\x0b', '\x0c'].contains c

/-- A letter after which a number goes on with a sign. -/
def isExponent (c : Char) : Bool := ['e', 'E', 'p', 'P'].contains c

/-- A quote of a string or of a character. -/
def isQuote (c : Char) : Bool := c == '"' || c == '\''

/-- Whether a number whose last character is `prev` goes on with the character. -/
def extendsNumber (prev c : Char) : Bool :=
  isNameChar c || c == '.' || ((c == '+' || c == '-') && isExponent prev)

/-- Splits off what follows the character `prev` in a number. -/
def numberTail (prev : Char) : List Char → List Char × List Char
  | [] => ([], [])
  | c :: cs =>
    if extendsNumber prev c then (c :: (numberTail c cs).1, (numberTail c cs).2) else ([], c :: cs)

/-- Splits off what follows an opening quote, up to and with the closing one. The character after a
backslash is `escaped`. -/
def quotedTail (quote : Char) (escaped : Bool) : List Char → Option (List Char × List Char)
  | [] => none
  | c :: cs =>
    if c == '\n' then none
    else if c == quote && !escaped then some ([c], cs)
    else
      (quotedTail quote (c == '\\' && !escaped) cs).map fun (tail, rest) => (c :: tail, rest)

/-- Splits off what follows an opening quote, where characters are not empty. -/
def quoted? (quote : Char) (cs : List Char) : Option (List Char × List Char) :=
  if quote == '\'' && cs.head? == some '\'' then none else quotedTail quote false cs

/-- The punctuators, longer ones before shorter ones. -/
def punctuators : List String :=
  ["%:%:", "...", "<<=", ">>=", "->", "++", "--", "<<", ">>", "<=", ">=", "==", "!=", "&&", "||",
    "*=", "/=", "%=", "+=", "-=", "&=", "^=", "|=", "##", "<:", ":>", "<%", "%>", "%:", "[", "]",
    "(", ")", "\x7b", "\x7d", ".", "&", "*", "+", "-", "~", "!", "/", "%", "<", ">", "^", "|", "?",
    ":", ";", "=", ",", "#"]

/-- The longest punctuator that the text starts with. -/
def punctuator? (cs : List Char) : Option String :=
  punctuators.find? (·.toList.isPrefixOf cs)

/-- Splits off the token that starts with `c`. -/
def token? (c : Char) (cs : List Char) : Option (CLexeme × List Char) :=
  if isQuote c then
    (quoted? c cs).map fun (tail, rest) => (.quoted (String.ofList (c :: tail)), rest)
  else if c == 'L' && cs.head?.any isQuote then
    (cs.head?.bind fun quote => quoted? quote cs.tail).map fun (tail, rest) =>
      (.quoted (String.ofList (c :: cs.take 1 ++ tail)), rest)
  else if isNameStart c then
    some (.word (String.ofList (c :: cs.takeWhile isNameChar)), cs.dropWhile isNameChar)
  else if c.isDigit || (c == '.' && cs.head?.any Char.isDigit) then
    some (.number (String.ofList (c :: (numberTail c cs).1)), (numberTail c cs).2)
  else
    (punctuator? (c :: cs)).map fun p => (.punct p, (c :: cs).drop p.toList.length)

theorem numberTail_append (prev : Char) (cs : List Char) :
    (numberTail prev cs).1 ++ (numberTail prev cs).2 = cs := by
  fun_induction numberTail prev cs with
  | case1 => rfl
  | case2 prev c cs _ ih => rw [List.cons_append, ih]
  | case3 => rfl

theorem quotedTail_append {quote : Char} {escaped : Bool} {cs tail rest : List Char}
    (h : quotedTail quote escaped cs = some (tail, rest)) : tail ++ rest = cs := by
  fun_induction quotedTail quote escaped cs generalizing tail rest with
  | case1 => cases h
  | case2 => cases h
  | case3 => cases h; rfl
  | case4 escaped c cs _ _ ih =>
    obtain ⟨⟨t, r⟩, ht, heq⟩ := Option.map_eq_some_iff.mp h
    cases heq
    rw [List.cons_append, ih ht]

theorem quoted?_append {quote : Char} {cs tail rest : List Char}
    (h : quoted? quote cs = some (tail, rest)) : tail ++ rest = cs := by
  unfold quoted? at h
  split at h
  · cases h
  · exact quotedTail_append h

theorem punctuators_ne_nil : ∀ p ∈ punctuators, p.toList ≠ [] := by decide

/-- A punctuator that the text starts with is one of the list. -/
theorem punctuator?_mem {cs : List Char} {p : String} (h : punctuator? cs = some p) :
    p ∈ punctuators ∧ p.toList <+: cs := by
  unfold punctuator? at h
  exact ⟨List.mem_of_find?_eq_some h,
    List.isPrefixOf_iff_prefix.mp (by simpa using List.find?_some h)⟩

/-- A token and the text after it are the text that it was split from. -/
theorem token?_append {c : Char} {cs rest : List Char} {t : CLexeme}
    (h : token? c cs = some (t, rest)) : t.text.toList ++ rest = c :: cs := by
  unfold token? at h
  split_ifs at h with hquote hwide hname hdigit
  · obtain ⟨⟨tail, rest⟩, htail, heq⟩ := Option.map_eq_some_iff.mp h
    cases heq
    simp [CLexeme.text, quoted?_append htail]
  · obtain ⟨⟨tail, rest⟩, htail, heq⟩ := Option.map_eq_some_iff.mp h
    cases heq
    obtain ⟨quote, hhead, htail⟩ := Option.bind_eq_some_iff.mp htail
    obtain ⟨more, rfl⟩ := List.head?_eq_some_iff.mp hhead
    simp [CLexeme.text, quoted?_append (show quoted? quote more = _ from htail)]
  · cases h
    simp [CLexeme.text, List.takeWhile_append_dropWhile]
  · cases h
    simp [CLexeme.text, numberTail_append]
  · obtain ⟨p, hp, heq⟩ := Option.map_eq_some_iff.mp h
    cases heq
    obtain ⟨more, hmore⟩ := (punctuator?_mem hp).2
    simp [CLexeme.text, ← hmore]

/-- No token is empty. -/
theorem token?_ne_nil {c : Char} {cs rest : List Char} {t : CLexeme}
    (h : token? c cs = some (t, rest)) : t.text.toList ≠ [] := by
  unfold token? at h
  split_ifs at h
  · obtain ⟨v, -, heq⟩ := Option.map_eq_some_iff.mp h
    cases heq
    simp [CLexeme.text]
  · obtain ⟨v, -, heq⟩ := Option.map_eq_some_iff.mp h
    cases heq
    simp [CLexeme.text]
  · cases h
    simp [CLexeme.text]
  · cases h
    simp [CLexeme.text]
  · obtain ⟨p, hp, heq⟩ := Option.map_eq_some_iff.mp h
    cases heq
    exact punctuators_ne_nil p (punctuator?_mem hp).1

theorem token?_shorter {c : Char} {cs rest : List Char} {t : CLexeme}
    (h : token? c cs = some (t, rest)) : rest.length < (c :: cs).length := by
  have hlength := congrArg List.length (token?_append h)
  have hne := List.length_pos_iff.mpr (token?_ne_nil h)
  rw [List.length_append] at hlength
  omega

/-- Whether a comment starts with the character before the rest of the text. -/
def startsComment (c : Char) (cs : List Char) : Bool :=
  c == '/' && (cs.head? == some '/' || cs.head? == some '*')

/-- The text after a comment that starts with a slash before the given text. -/
def afterComment : List Char → Option (List Char)
  | '*' :: cs => (blockComment cs).map (·.2)
  | cs => some (cs.dropWhile (· != '\n'))

theorem afterComment_length {cs rest : List Char} (h : afterComment cs = some rest) :
    rest.length ≤ cs.length := by
  unfold afterComment at h
  split at h
  · obtain ⟨⟨body, rest⟩, hbody, rfl⟩ := Option.map_eq_some_iff.mp h
    have hlength := congrArg List.length (Lexer.blockComment_append hbody)
    simp only [List.length_append, List.length_cons] at hlength ⊢
    omega
  · cases h
    exact (List.dropWhile_suffix _).length_le

/-- The tokens of a text, if it consists of tokens, white space and comments. -/
def tokens? (cs : List Char) : Option (List CLexeme) :=
  match cs with
  | [] => some []
  | c :: cs =>
    if isSpace c then tokens? cs
    else if startsComment c cs then
      match h : afterComment cs with
      | none => none
      | some rest =>
        have := afterComment_length h
        tokens? rest
    else
      match h : token? c cs with
      | none => none
      | some (t, rest) =>
        have := token?_shorter h
        (tokens? rest).map (t :: ·)
termination_by cs.length
decreasing_by all_goals grind

theorem tokens?_nil : tokens? [] = some [] := by rw [tokens?]

theorem tokens?_space {c : Char} (h : isSpace c) (cs : List Char) :
    tokens? (c :: cs) = tokens? cs := by
  rw [tokens?, if_pos h]

theorem tokens?_token {c : Char} {cs rest : List Char} {t : CLexeme} (hspace : isSpace c = false)
    (hcomment : startsComment c cs = false) (h : token? c cs = some (t, rest)) :
    tokens? (c :: cs) = (tokens? rest).map (t :: ·) := by
  rw [tokens?, if_neg (by simp [hspace]), if_neg (by simp [hcomment])]
  split
  · simp_all
  · simp_all

/-! ## Tokens that are apart -/

/-- Whether the text is the start of a longer punctuator, or of a comment, with the character. -/
def extendsPunctuator (text : String) (c : Char) : Bool :=
  punctuators.any (fun p => (text.toList ++ [c]).isPrefixOf p.toList) ||
    (text == "/" && (c == '/' || c == '*'))

end CLexer

open CLexer

/-- Whether the text of the token before the character is not read as the token. -/
def CLexeme.goesOn : CLexeme → Char → Bool
  | .word text, c => Lexer.isNameChar c || (text == "L" && isQuote c)
  | .number text, c => text.toList.getLast?.any (extendsNumber · c)
  | .quoted _, _ => false
  | .punct text, c => extendsPunctuator text c

/-- The text of the token is read as the token, where nothing follows. -/
def CLexeme.Formed : CLexeme → Prop
  | .word text =>
    ∃ c cs, text.toList = c :: cs ∧ Lexer.isNameStart c ∧ ∀ d ∈ cs, Lexer.isNameChar d
  | .number text => ∃ c cs, text.toList = c :: cs ∧ c.isDigit ∧ numberTail c cs = (cs, [])
  | .quoted text => ∃ c cs, text.toList = c :: cs ∧ isQuote c ∧ quoted? c cs = some (cs, [])
  | .punct text => text ∈ punctuators ∧ text ≠ "." ∧ text ≠ "%:"

/-- Name characters that do not start with a digit are a word. -/
theorem formed_word_of_all {w : String} (hstart : w.toList.head?.any Lexer.isNameStart)
    (hall : w.toList.all Lexer.isNameChar) : (CLexeme.word w).Formed := by
  cases htext : w.toList with
  | nil => simp [htext] at hstart
  | cons c cs =>
    rw [htext] at hstart hall
    refine ⟨c, cs, htext, by simpa using hstart, fun d hd => ?_⟩
    exact List.all_eq_true.mp hall d (List.mem_cons_of_mem c hd)

theorem CLexeme.Formed.text_ne_nil {t : CLexeme} (h : t.Formed) : t.text.toList ≠ [] := by
  cases t with
  | word text =>
    obtain ⟨c, cs, htext, -⟩ := h
    exact htext ▸ List.cons_ne_nil c cs
  | number text =>
    obtain ⟨c, cs, htext, -⟩ := h
    exact htext ▸ List.cons_ne_nil c cs
  | quoted text =>
    obtain ⟨c, cs, htext, -⟩ := h
    exact htext ▸ List.cons_ne_nil c cs
  | punct text => exact punctuators_ne_nil text h.1

namespace CLexer

theorem numberTail_stops {prev : Char} {cs rest : List Char} (h : numberTail prev cs = (cs, []))
    (hrest : ∀ c ∈ rest.head?,
      extendsNumber ((prev :: cs).getLast (List.cons_ne_nil _ _)) c = false) :
    numberTail prev (cs ++ rest) = (cs, rest) := by
  induction cs generalizing prev with
  | nil =>
    cases rest with
    | nil => rfl
    | cons c rest =>
      have hc := hrest c rfl
      simp only [List.getLast_singleton] at hc
      simp [numberTail, hc]
  | cons c cs ih =>
    simp only [numberTail] at h
    split_ifs at h with hc
    · have htail := @ih c (by grind) (by simpa using hrest)
      simp [numberTail, hc, htail]
    · simp at h

theorem numberTail_goesOn {prev c : Char} {cs : List Char} (h : numberTail prev cs = (cs, []))
    (hc : extendsNumber ((prev :: cs).getLast (List.cons_ne_nil _ _)) c) (rest : List Char) :
    cs.length < (numberTail prev (cs ++ c :: rest)).1.length := by
  induction cs generalizing prev with
  | nil =>
    simp only [List.getLast_singleton] at hc
    simp [numberTail, hc]
  | cons d cs ih =>
    simp only [numberTail] at h
    split_ifs at h with hd
    · have htail := @ih d (by grind) (by simpa using hc)
      simpa [numberTail, hd] using htail
    · simp at h

/-- Name characters and points all belong to a number. -/
theorem numberTail_of_forall {cs : List Char} (prev : Char)
    (h : ∀ c ∈ cs, Lexer.isNameChar c ∨ c = '.') : numberTail prev cs = (cs, []) := by
  induction cs generalizing prev with
  | nil => rfl
  | cons c cs ih =>
    obtain ⟨hc, hcs⟩ := List.forall_mem_cons.mp h
    have hextends : extendsNumber prev c := by
      rcases hc with hc | hc <;> simp [extendsNumber, hc]
    simp [numberTail, hextends, ih c hcs]

theorem formed_number {text : String} {c : Char} {cs : List Char} (htext : text.toList = c :: cs)
    (hc : c.isDigit) (hcs : ∀ d ∈ cs, Lexer.isNameChar d ∨ d = '.') :
    (CLexeme.number text).Formed :=
  ⟨c, cs, htext, hc, numberTail_of_forall c hcs⟩

/-- A decimal numeral is a number. -/
theorem formed_decimal (n : Nat) : (CLexeme.number (toString n)).Formed := by
  have htext : (toString n).toList = Nat.toDigits 10 n := by
    rw [Nat.toString_eq_ofList_toDigits, String.toList_ofList]
  have hdigits : ∀ c ∈ Nat.toDigits 10 n, c.isDigit :=
    fun _ => Nat.isDigit_of_mem_toDigits (by decide) (by decide)
  obtain ⟨c, cs, hcons⟩ := List.exists_cons_of_ne_nil (Nat.toDigits_ne_nil (b := 10) (n := n))
  rw [hcons] at htext hdigits
  obtain ⟨hc, hcs⟩ := List.forall_mem_cons.mp hdigits
  exact formed_number htext hc fun d hd => .inl (by simp [Lexer.isNameChar, hcs d hd])

theorem quotedTail_again {quote : Char} {escaped : Bool} {cs tail rest : List Char}
    (h : quotedTail quote escaped cs = some (tail, rest)) (rest' : List Char) :
    quotedTail quote escaped (tail ++ rest') = some (tail, rest') := by
  fun_induction quotedTail quote escaped cs generalizing tail rest with
  | case1 => cases h
  | case2 => cases h
  | case3 escaped c cs hline hquote =>
    cases h
    simp [quotedTail, hline, hquote]
  | case4 escaped c cs hline hquote ih =>
    obtain ⟨⟨t, r⟩, ht, heq⟩ := Option.map_eq_some_iff.mp h
    cases heq
    rw [List.cons_append, quotedTail, if_neg hline, if_neg hquote, ih ht]
    rfl

theorem quotedTail_ne_nil {quote : Char} {escaped : Bool} {cs tail rest : List Char}
    (h : quotedTail quote escaped cs = some (tail, rest)) : tail ≠ [] := by
  cases cs with
  | nil => cases h
  | cons c cs =>
    unfold quotedTail at h
    split_ifs at h
    · cases h
      exact List.cons_ne_nil _ _
    · obtain ⟨v, -, heq⟩ := Option.map_eq_some_iff.mp h
      cases heq
      exact List.cons_ne_nil _ _

theorem quoted?_again {quote : Char} {cs tail rest : List Char}
    (h : quoted? quote cs = some (tail, rest)) (rest' : List Char) :
    quoted? quote (tail ++ rest') = some (tail, rest') := by
  unfold quoted? at h ⊢
  split at h
  · cases h
  · rename_i hempty
    obtain ⟨c, more, rfl⟩ := List.exists_cons_of_ne_nil (quotedTail_ne_nil h)
    rw [← quotedTail_append h] at hempty
    exact (if_neg hempty).trans (quotedTail_again h rest')

theorem punctuators_descending :
    punctuators.Pairwise fun p q => q.toList.length ≤ p.toList.length := by decide

/-- The longest punctuator of a text is at least as long as each one that the text starts with. -/
theorem exists_punctuator? {q : String} {cs : List Char} (hq : q ∈ punctuators)
    (hbegins : q.toList <+: cs) :
    ∃ p, punctuator? cs = some p ∧ q.toList.length ≤ p.toList.length := by
  have hstarts : q.toList.isPrefixOf cs := List.isPrefixOf_iff_prefix.mpr hbegins
  cases hp : punctuator? cs with
  | none =>
    have hnone := List.find?_eq_none.mp hp q hq
    exact absurd hstarts hnone
  | some p =>
    refine ⟨p, rfl, ?_⟩
    obtain ⟨-, before, after, hlist, hbefore⟩ := List.find?_eq_some_iff_append.mp hp
    rw [hlist] at hq
    rcases List.mem_append.mp hq with hq | hq
    · have hnot := hbefore q hq
      simp [hstarts] at hnot
    · rcases List.mem_cons.mp hq with rfl | hq
      · exact le_refl _
      · have hdescending := punctuators_descending
        rw [hlist, List.pairwise_append, List.pairwise_cons] at hdescending
        exact hdescending.2.1.1 q hq

theorem punctuator?_apart {p : String} {rest : List Char} (hp : p ∈ punctuators)
    (h : ∀ c ∈ rest.head?, extendsPunctuator p c = false) :
    punctuator? (p.toList ++ rest) = some p := by
  obtain ⟨q, hq, hlength⟩ := exists_punctuator? hp (List.prefix_append p.toList rest)
  obtain ⟨hmem, hbegins⟩ := punctuator?_mem hq
  have hpq : p.toList <+: q.toList :=
    List.prefix_of_prefix_length_le (List.prefix_append _ _) hbegins hlength
  obtain ⟨more, hmore⟩ := hpq
  cases more with
  | nil =>
    obtain rfl : p = q := String.toList_inj.mp (by simpa using hmore)
    exact hq
  | cons c more =>
    exfalso
    rw [← hmore, List.prefix_append_right_inj] at hbegins
    obtain ⟨after, rfl⟩ := hbegins
    have hc := h c rfl
    simp only [extendsPunctuator, Bool.or_eq_false_iff, List.any_eq_false] at hc
    refine hc.1 q hmem (List.isPrefixOf_iff_prefix.mpr ⟨more, ?_⟩)
    rw [← hmore, List.append_assoc, List.singleton_append]

/-- The starts of a punctuator are punctuators, but after one point and after the digraph of a
hash. -/
theorem punctuators_closed : ∀ q ∈ punctuators, ∀ k ∈ [1, 2], k + 1 < q.toList.length →
    String.ofList (q.toList.take k) ∈ [".", "%:"] ∨
      String.ofList (q.toList.take (k + 1)) ∈ punctuators := by
  decide

theorem punctuators_length : ∀ q ∈ punctuators, q.toList.length ≤ 4 := by decide

/-- A punctuator with the next character of a longer one is a punctuator. -/
theorem mem_punctuators_of_prefix {p q : String} {c : Char} (hp : p ∈ punctuators)
    (hpoint : p ≠ ".") (hhash : p ≠ "%:") (hq : q ∈ punctuators) (hbegins : p.toList ++ [c] <+: q.toList) :
    String.ofList (p.toList ++ [c]) ∈ punctuators := by
  obtain ⟨more, hmore⟩ := hbegins
  cases more with
  | nil => rwa [← List.append_nil (p.toList ++ [c]), hmore, String.ofList_toList]
  | cons d more =>
    have hlength := congrArg List.length hmore
    have hpos := List.length_pos_iff.mpr (punctuators_ne_nil p hp)
    have hle := punctuators_length q hq
    simp only [List.length_append, List.length_cons, List.length_nil] at hlength
    have hk : p.toList.length ∈ [1, 2] := by
      rw [List.mem_pair]
      omega
    have htake : q.toList.take p.toList.length = p.toList := by
      rw [← hmore, List.append_assoc, List.take_left]
    have hnext : q.toList.take (p.toList.length + 1) = p.toList ++ [c] := by
      rw [← hmore, List.take_left' (by simp)]
    rcases punctuators_closed q hq _ hk (by omega) with hspecial | hmem
    · rw [htake, String.ofList_toList, List.mem_pair] at hspecial
      exact absurd hspecial (not_or.mpr ⟨hpoint, hhash⟩)
    · rwa [hnext] at hmem

theorem punctuator?_goesOn {p : String} {c : Char} {rest : List Char} (hp : p ∈ punctuators)
    (hpoint : p ≠ ".") (hhash : p ≠ "%:") (hslash : p ≠ "/") (hc : extendsPunctuator p c) :
    ∃ q, punctuator? (p.toList ++ c :: rest) = some q ∧ q ≠ p := by
  have hslash : (p == "/") = false := beq_eq_false_iff_ne.mpr hslash
  simp only [extendsPunctuator, hslash, Bool.false_and, Bool.or_false, List.any_eq_true] at hc
  obtain ⟨longer, hlonger, hbegins⟩ := hc
  have hmem := mem_punctuators_of_prefix hp hpoint hhash hlonger
    (List.isPrefixOf_iff_prefix.mp hbegins)
  have hstarts : (String.ofList (p.toList ++ [c])).toList <+: p.toList ++ c :: rest :=
    ⟨rest, by simp⟩
  obtain ⟨q, hq, hlength⟩ := exists_punctuator? hmem hstarts
  refine ⟨q, hq, ?_⟩
  rintro rfl
  rw [String.toList_ofList, List.length_append] at hlength
  exact absurd hlength (by simp)

/-! ### First characters -/

/-- Punctuators start with characters that start nothing else. -/
theorem punctuators_start : ∀ p ∈ punctuators, p ≠ "." → ∀ c ∈ p.toList.head?,
    isSpace c = false ∧ isQuote c = false ∧ c ≠ 'L' ∧ Lexer.isNameStart c = false ∧
      c.isDigit = false ∧ (c = '.' → p = "...") ∧ (c = '/' → p = "/" ∨ p = "/=") := by
  decide

theorem not_isQuote_of_isNameStart {c : Char} (h : Lexer.isNameStart c) : isQuote c = false := by
  rw [Bool.eq_false_iff]
  intro hquote
  have hcases : c = '"' ∨ c = '\'' := by simpa [isQuote] using hquote
  rcases hcases with rfl | rfl <;> exact absurd h (by decide)

theorem not_isQuote_of_isDigit {c : Char} (h : c.isDigit) : isQuote c = false := by
  rw [Bool.eq_false_iff]
  intro hquote
  have hcases : c = '"' ∨ c = '\'' := by simpa [isQuote] using hquote
  rcases hcases with rfl | rfl <;> exact absurd h (by decide)

/-- What names start with. -/
theorem isNameStart_iff {c : Char} : Lexer.isNameStart c ↔
    ('A' ≤ c ∧ c ≤ 'Z') ∨ ('a' ≤ c ∧ c ≤ 'z') ∨ c = '_' := by
  have hupper : c.isUpper ↔ 'A' ≤ c ∧ c ≤ 'Z' := decide_eq_true_iff
  have hlower : c.isLower ↔ 'a' ≤ c ∧ c ≤ 'z' :=
    Bool.and_eq_true_iff.trans (and_congr decide_eq_true_iff decide_eq_true_iff)
  have halpha : c.isAlpha = (c.isUpper || c.isLower) := rfl
  rw [Lexer.isNameStart, halpha, Bool.or_eq_true, Bool.or_eq_true, hupper, hlower, beq_iff_eq,
    or_assoc]

theorem not_isNameStart_of_isDigit {c : Char} (h : c.isDigit) : Lexer.isNameStart c = false := by
  have hle : c ≤ '9' := by
    simp only [Char.isDigit, Bool.and_eq_true, decide_eq_true_eq] at h
    exact h.2
  have hupper : ¬ 'A' ≤ '9' := by decide
  have hlower : ¬ 'a' ≤ '9' := by decide
  rw [Bool.eq_false_iff, Ne, isNameStart_iff]
  rintro (⟨hc, -⟩ | ⟨hc, -⟩ | rfl)
  · exact hupper (Char.le_trans hc hle)
  · exact hlower (Char.le_trans hc hle)
  · exact absurd h (by decide)

theorem not_isQuote_of_isNameChar {c : Char} (h : Lexer.isNameChar c) : isQuote c = false := by
  rcases Bool.or_eq_true_iff.mp h with h | h
  · exact not_isQuote_of_isNameStart h
  · exact not_isQuote_of_isDigit h

theorem not_isSpace_of_isNameChar {c : Char} (h : Lexer.isNameChar c) : isSpace c = false := by
  rw [Bool.eq_false_iff]
  intro hspace
  have hcases : c ∈ [' ', '\t', '\n', '\r', '\x0b', '\x0c'] := by simpa [isSpace] using hspace
  have hnone : ∀ c ∈ [' ', '\t', '\n', '\r', '\x0b', '\x0c'], Lexer.isNameChar c = false := by
    decide
  exact absurd h (by simp [hnone c hcases])

/-- A token does not start with white space, and a comment does not start with it. -/
theorem startsToken {t : CLexeme} {c : Char} {cs rest : List Char} (ht : t.Formed)
    (htext : t.text.toList = c :: cs)
    (hrest : t = .punct "/" → ∀ d ∈ rest.head?, t.goesOn d = false) :
    isSpace c = false ∧ startsComment c (cs ++ rest) = false := by
  cases t with
  | word text =>
    obtain ⟨c', cs', htext', hstart, -⟩ := ht
    obtain ⟨rfl, rfl⟩ := List.cons.inj (htext.symm.trans htext')
    have hslash : c ≠ '/' := by
      rintro rfl
      exact absurd hstart (by decide)
    exact ⟨not_isSpace_of_isNameChar (by simp [Lexer.isNameChar, hstart]),
      by simp [startsComment, hslash]⟩
  | number text =>
    obtain ⟨c', cs', htext', hdigit, -⟩ := ht
    obtain ⟨rfl, rfl⟩ := List.cons.inj (htext.symm.trans htext')
    have hslash : c ≠ '/' := by
      rintro rfl
      exact absurd hdigit (by decide)
    exact ⟨not_isSpace_of_isNameChar (by simp [Lexer.isNameChar, hdigit]),
      by simp [startsComment, hslash]⟩
  | quoted text =>
    obtain ⟨c', cs', htext', hquote, -⟩ := ht
    obtain ⟨rfl, rfl⟩ := List.cons.inj (htext.symm.trans htext')
    have hcases : c = '"' ∨ c = '\'' := by simpa [isQuote] using hquote
    rcases hcases with rfl | rfl <;> exact ⟨by decide, rfl⟩
  | punct text =>
    obtain ⟨hmem, hpoint, -⟩ := ht
    replace htext : text.toList = c :: cs := htext
    obtain ⟨hspace, -, -, -, -, -, hslash⟩ :=
      punctuators_start text hmem hpoint c (by rw [htext]; rfl)
    refine ⟨hspace, ?_⟩
    by_cases hc : c = '/'
    -- Only `/` and `/=` start with a slash, and the first one needs what follows it.
    · rcases hslash hc with rfl | rfl
      · obtain rfl : cs = [] := (List.cons.inj htext).2.symm
        cases rest with
        | nil => simp [startsComment]
        | cons d rest =>
          have hd := hrest rfl d rfl
          simp only [CLexeme.goesOn, extendsPunctuator, Bool.or_eq_false_iff, beq_self_eq_true,
            Bool.true_and] at hd
          simp [startsComment, hd.2]
      · obtain rfl : cs = ['='] := (List.cons.inj htext).2.symm
        simp [startsComment]
    · simp [startsComment, hc]

theorem takeWhile_stops {α : Type} {p : α → Bool} {cs rest : List α} (hcs : ∀ c ∈ cs, p c)
    (hrest : ∀ c ∈ rest.head?, p c = false) :
    (cs ++ rest).takeWhile p = cs ∧ (cs ++ rest).dropWhile p = rest := by
  rw [List.takeWhile_append_of_pos hcs, List.dropWhile_append_of_pos hcs]
  cases rest with
  | nil => simp
  | cons c rest => simp [hrest c rfl]

/-- **The first token of a text.** Where a token does not go on, it is the first one. -/
theorem token?_apart {t : CLexeme} {c : Char} {cs rest : List Char} (ht : t.Formed)
    (htext : t.text.toList = c :: cs) (hrest : ∀ d ∈ rest.head?, t.goesOn d = false) :
    token? c (cs ++ rest) = some (t, rest) := by
  cases t with
  | word text =>
    obtain ⟨c', cs', htext', hstart, hword⟩ := ht
    obtain ⟨rfl, rfl⟩ := List.cons.inj (htext.symm.trans htext')
    -- The letter that opens wide literals is a word here: no quote follows it.
    have hwide : (c == 'L' && (cs ++ rest).head?.any isQuote) = false := by
      by_contra hwide
      simp only [Bool.not_eq_false, Bool.and_eq_true, beq_iff_eq] at hwide
      obtain ⟨rfl, hhead⟩ := hwide
      cases cs with
      | nil =>
        cases rest with
        | nil => cases hhead
        | cons d rest =>
          have hgoesOn := hrest d rfl
          have hwide : text = "L" := String.toList_inj.mp htext'
          have hquote : isQuote d := hhead
          simp [CLexeme.goesOn, hwide, hquote] at hgoesOn
      | cons d cs =>
        have hd := not_isQuote_of_isNameChar (hword d List.mem_cons_self)
        exact absurd hhead (by simp [hd])
    obtain ⟨htake, hdrop⟩ := takeWhile_stops hword fun d hd =>
      (Bool.or_eq_false_iff.mp (hrest d hd)).1
    rw [token?, if_neg (by simp [not_isQuote_of_isNameStart hstart]),
      if_neg (ne_true_of_eq_false hwide), if_pos hstart, htake, hdrop, ← htext',
      String.ofList_toList]
  | number text =>
    obtain ⟨c', cs', htext', hdigit, hnumber⟩ := ht
    obtain ⟨rfl, rfl⟩ := List.cons.inj (htext.symm.trans htext')
    have hwide : c ≠ 'L' := by
      rintro rfl
      exact absurd hdigit (by decide)
    have htail : numberTail c (cs ++ rest) = (cs, rest) := by
      refine numberTail_stops hnumber fun d hd => ?_
      have hgoesOn := hrest d hd
      simpa [CLexeme.goesOn, htext', List.getLast?_eq_some_getLast] using hgoesOn
    rw [token?, if_neg (by simp [not_isQuote_of_isDigit hdigit]), if_neg (by simp [hwide]),
      if_neg (by simp [not_isNameStart_of_isDigit hdigit]), if_pos (by simp [hdigit]), htail,
      ← htext', String.ofList_toList]
  | quoted text =>
    obtain ⟨c', cs', htext', hquote, hquoted⟩ := ht
    obtain ⟨rfl, rfl⟩ := List.cons.inj (htext.symm.trans htext')
    rw [token?, if_pos hquote, quoted?_again hquoted, Option.map_some]
    simp [← htext']
  | punct text =>
    obtain ⟨hmem, hpoint, -⟩ := ht
    replace htext : text.toList = c :: cs := htext
    obtain ⟨-, hquote, hwide, hname, hdigit, hdot, -⟩ :=
      punctuators_start text hmem hpoint c (by rw [htext]; rfl)
    -- A point starts a number only before a digit, and no punctuator goes on with one.
    have hnumber : (c.isDigit || (c == '.' && (cs ++ rest).head?.any Char.isDigit)) = false := by
      by_cases hc : c = '.'
      · obtain rfl := hdot hc
        obtain ⟨rfl, rfl⟩ := List.cons.inj htext
        rfl
      · simp [hdigit, hc]
    rw [token?, if_neg (by simp [hquote]), if_neg (by simp [hwide]), if_neg (by simp [hname]),
      if_neg (ne_true_of_eq_false hnumber), ← List.cons_append, ← htext,
      punctuator?_apart hmem hrest]
    simp

/-- Where a token goes on, it is not the first one. -/
theorem token?_goesOn {t : CLexeme} {c d : Char} {cs rest rest' : List Char} (ht : t.Formed)
    (hslash : t ≠ .punct "/") (htext : t.text.toList = c :: cs) (hd : t.goesOn d) :
    token? c (cs ++ d :: rest) ≠ some (t, rest') := by
  intro htoken
  cases t with
  | word text =>
    obtain ⟨c', cs', htext', hstart, hword⟩ := ht
    obtain ⟨rfl, rfl⟩ := List.cons.inj (htext.symm.trans htext')
    rw [token?, if_neg (by simp [not_isQuote_of_isNameStart hstart])] at htoken
    split_ifs at htoken with hwide
    · obtain ⟨v, -, heq⟩ := Option.map_eq_some_iff.mp htoken
      cases heq
    · have hquote : ¬ (text == "L" && isQuote d) := by
        rintro hquote
        simp only [Bool.and_eq_true, beq_iff_eq] at hquote
        obtain ⟨rfl, hquote⟩ := hquote
        have hletter : ['L'] = c :: cs := htext'
        obtain ⟨rfl, rfl⟩ := List.cons.inj hletter
        exact hwide (by simpa using hquote)
      have hname : Lexer.isNameChar d := by
        simpa [CLexeme.goesOn, hquote] using hd
      simp only [Option.some.injEq, Prod.mk.injEq, CLexeme.word.injEq] at htoken
      -- The word that is read has one character more.
      have hlength := congrArg (List.length ∘ String.toList) htoken.1
      simp [htext', List.takeWhile_append_of_pos hword, hname] at hlength
  | number text =>
    obtain ⟨c', cs', htext', hdigit, hnumber⟩ := ht
    obtain ⟨rfl, rfl⟩ := List.cons.inj (htext.symm.trans htext')
    have hwide : c ≠ 'L' := by
      rintro rfl
      exact absurd hdigit (by decide)
    have hextends : extendsNumber ((c :: cs).getLast (List.cons_ne_nil _ _)) d := by
      simpa [CLexeme.goesOn, htext', List.getLast?_eq_some_getLast] using hd
    -- So does a number, which is longer than the text it should be.
    have hlonger := numberTail_goesOn hnumber hextends rest
    rw [token?, if_neg (by simp [not_isQuote_of_isDigit hdigit]), if_neg (by simp [hwide]),
      if_neg (by simp [not_isNameStart_of_isDigit hdigit]), if_pos (by simp [hdigit])] at htoken
    simp only [Option.some.injEq, Prod.mk.injEq, CLexeme.number.injEq] at htoken
    have hlength := congrArg (List.length ∘ String.toList) htoken.1
    simp [htext'] at hlength
    omega
  | quoted text => cases hd
  | punct text =>
    obtain ⟨hmem, hpoint, hhash⟩ := ht
    replace htext : text.toList = c :: cs := htext
    obtain ⟨-, hquote, hwide, hname, hdigit, hdot, -⟩ :=
      punctuators_start text hmem hpoint c (by rw [htext]; rfl)
    have hnumber :
        (c.isDigit || (c == '.' && (cs ++ d :: rest).head?.any Char.isDigit)) = false := by
      by_cases hc : c = '.'
      · obtain rfl := hdot hc
        obtain ⟨rfl, rfl⟩ := List.cons.inj htext
        rfl
      · simp [hdigit, hc]
    obtain ⟨q, hq, hne⟩ := @punctuator?_goesOn text d rest hmem hpoint hhash
      (fun h => hslash (by rw [h])) hd
    rw [token?, if_neg (by simp [hquote]), if_neg (by simp [hwide]), if_neg (by simp [hname]),
      if_neg (ne_true_of_eq_false hnumber), ← List.cons_append, ← htext, hq] at htoken
    simp only [Option.map_some, Option.some.injEq, Prod.mk.injEq, CLexeme.punct.injEq] at htoken
    exact hne htoken.1

/-! ### Delimiters -/

/-- The characters that no token goes on with. -/
def delimiters : List Char := [' ', '(', ')', '[', ']', '{', '}', ',']

theorem delimiters_plain : ∀ c ∈ delimiters, Lexer.isNameChar c = false ∧ isQuote c = false ∧
    c ≠ '.' ∧ c ≠ '+' ∧ c ≠ '-' := by
  decide

theorem punctuators_delimited : ∀ p ∈ punctuators, ∀ c ∈ p.toList.tail, c ∉ delimiters := by
  decide

theorem goesOn_delimiter {t : CLexeme} (ht : t.Formed) {c : Char} (hc : c ∈ delimiters) :
    t.goesOn c = false := by
  obtain ⟨hname, hquote, hpoint, hplus, hminus⟩ := delimiters_plain c hc
  cases t with
  | word text => simp [CLexeme.goesOn, hname, hquote]
  | number text =>
    have hprev (prev : Char) : extendsNumber prev c = false := by
      simp [extendsNumber, hname, hpoint, hplus, hminus]
    simp [CLexeme.goesOn, hprev]
  | quoted text => rfl
  | punct text =>
    obtain ⟨d, ds, htext⟩ := List.exists_cons_of_ne_nil (punctuators_ne_nil text ht.1)
    have hnone : ∀ p ∈ punctuators, (text.toList ++ [c]).isPrefixOf p.toList = false := by
      refine fun p hp => Bool.eq_false_iff.mpr fun hbegins => ?_
      obtain ⟨more, hmore⟩ := List.isPrefixOf_iff_prefix.mp hbegins
      exact punctuators_delimited p hp c (by simp [← hmore, htext]) hc
    have hslash : c ≠ '/' := by
      rintro rfl
      exact absurd hc (by decide)
    have hstar : c ≠ '*' := by
      rintro rfl
      exact absurd hc (by decide)
    simp only [CLexeme.goesOn, extendsPunctuator, Bool.or_eq_false_iff, List.any_eq_false]
    exact ⟨fun p hp => ne_true_of_eq_false (hnone p hp), by simp [hslash, hstar]⟩

/-- The punctuators that no longer one starts with. -/
def isClosed (text : String) : Bool :=
  text != "/" && punctuators.all fun p => text.toList.isPrefixOf p.toList → p = text

theorem not_goesOn_of_isClosed {text : String} (h : isClosed text) (c : Char) :
    (CLexeme.punct text).goesOn c = false := by
  simp only [isClosed, Bool.and_eq_true, bne_iff_ne, List.all_eq_true, decide_eq_true_eq] at h
  obtain ⟨hslash, hclosed⟩ := h
  have hnone : ∀ p ∈ punctuators, ¬ (text.toList ++ [c]).isPrefixOf p.toList := by
    intro p hp hbegins
    obtain ⟨more, hmore⟩ := List.isPrefixOf_iff_prefix.mp hbegins
    have hp := hclosed p hp (List.isPrefixOf_iff_prefix.mpr ⟨c :: more, by simp [← hmore]⟩)
    have hlength := congrArg List.length hmore
    simp [hp] at hlength
  simp only [CLexeme.goesOn, extendsPunctuator, Bool.or_eq_false_iff, List.any_eq_false]
  exact ⟨hnone, by simp [hslash]⟩

/-! ### Punctuators and operands -/

theorem punctuators_plain : ∀ p ∈ punctuators, ∀ c ∈ p.toList,
    Lexer.isNameChar c = false ∧ isQuote c = false := by
  decide

/-- Punctuators do not go on with what names, numbers and quotes start with. -/
theorem not_goesOn_of_operand {text : String} {c : Char} (h : Lexer.isNameChar c ∨ isQuote c) :
    (CLexeme.punct text).goesOn c = false := by
  have hnone : ∀ p ∈ punctuators, ¬ (text.toList ++ [c]).isPrefixOf p.toList := by
    intro p hp hbegins
    obtain ⟨more, hmore⟩ := List.isPrefixOf_iff_prefix.mp hbegins
    obtain ⟨hname, hquote⟩ := punctuators_plain p hp c (by simp [← hmore])
    simp [hname, hquote] at h
  have hcomment : c ≠ '/' ∧ c ≠ '*' := by
    constructor
    all_goals
      rintro rfl
      exact absurd h (by decide)
  simp only [CLexeme.goesOn, extendsPunctuator, Bool.or_eq_false_iff, List.any_eq_false]
  exact ⟨hnone, by simp [hcomment]⟩

/-- Words do not go on with punctuators. -/
theorem word_not_goesOn {text p : String} (hp : p ∈ punctuators) :
    ∀ c ∈ p.toList.head?, (CLexeme.word text).goesOn c = false := by
  intro c hc
  obtain ⟨hname, hquote⟩ := punctuators_plain p hp c (List.mem_of_mem_head? hc)
  simp [CLexeme.goesOn, hname, hquote]

/-! ### Tokens of a text -/

/-- Where a token does not go on, the tokens of the text are the token and those of the rest. -/
theorem tokens?_apart {t : CLexeme} {rest : List Char} (ht : t.Formed)
    (hrest : ∀ d ∈ rest.head?, t.goesOn d = false) :
    tokens? (t.text.toList ++ rest) = (tokens? rest).map (t :: ·) := by
  obtain ⟨c, cs, htext⟩ := List.exists_cons_of_ne_nil ht.text_ne_nil
  obtain ⟨hspace, hcomment⟩ := startsToken ht htext fun _ => hrest
  rw [htext, List.cons_append]
  exact tokens?_token hspace hcomment (token?_apart ht htext hrest)

/-- Where a token goes on, the tokens of the text do not start with it. -/
theorem tokens?_goesOn {t : CLexeme} {d : Char} {rest : List Char} {ts : List CLexeme}
    (ht : t.Formed) (hslash : t ≠ .punct "/") (hd : t.goesOn d) :
    tokens? (t.text.toList ++ d :: rest) ≠ some (t :: ts) := by
  obtain ⟨c, cs, htext⟩ := List.exists_cons_of_ne_nil ht.text_ne_nil
  obtain ⟨hspace, hcomment⟩ := @startsToken t c cs (d :: rest) ht htext (absurd · hslash)
  intro htokens
  rw [htext, List.cons_append, tokens?, if_neg (by simp [hspace]),
    if_neg (ne_true_of_eq_false hcomment)] at htokens
  split at htokens
  · cases htokens
  · rename_i t' rest' htoken
    obtain ⟨ts', -, heq⟩ := Option.map_eq_some_iff.mp htokens
    obtain ⟨rfl, rfl⟩ := List.cons.inj heq
    exact token?_goesOn ht hslash htext hd htoken

end CLexer

/-! ## Pieces -/

/-- A piece of a text of C: a token, a token between spaces, or a space. -/
inductive CPiece where
  | tight (t : CLexeme)
  | spaced (t : CLexeme)
  | space
  deriving DecidableEq, Repr, Inhabited

namespace CPiece

/-- The characters of a piece. -/
def chars : CPiece → List Char
  | .tight t => t.text.toList
  | .spaced t => ' ' :: t.text.toList ++ [' ']
  | .space => [' ']

/-- The token of a piece. -/
def lexeme? : CPiece → Option CLexeme
  | .tight t => some t
  | .spaced t => some t
  | .space => none

/-- The characters of pieces. -/
def text (ps : List CPiece) : List Char := ps.flatMap chars

/-- The tokens of pieces. -/
def lexemes (ps : List CPiece) : List CLexeme := ps.filterMap lexeme?

@[simp] theorem text_nil : text [] = [] := rfl

@[simp] theorem text_cons (p : CPiece) (ps : List CPiece) :
    text (p :: ps) = p.chars ++ text ps :=
  rfl

@[simp] theorem text_append (ps qs : List CPiece) : text (ps ++ qs) = text ps ++ text qs :=
  List.flatMap_append

@[simp] theorem lexemes_nil : lexemes [] = [] := rfl

@[simp] theorem lexemes_tight (t : CLexeme) (ps : List CPiece) :
    lexemes (.tight t :: ps) = t :: lexemes ps := rfl

@[simp] theorem lexemes_spaced (t : CLexeme) (ps : List CPiece) :
    lexemes (.spaced t :: ps) = t :: lexemes ps := rfl

@[simp] theorem lexemes_space (ps : List CPiece) : lexemes (.space :: ps) = lexemes ps := rfl

@[simp] theorem lexemes_append (ps qs : List CPiece) :
    lexemes (ps ++ qs) = lexemes ps ++ lexemes qs := List.filterMap_append

/-- The token of the piece is formed, and a slash is between spaces, so that it starts no
comment. -/
def Formed : CPiece → Prop
  | .tight t => t.Formed ∧ t ≠ .punct "/"
  | .spaced t => t.Formed
  | .space => True

/-- The tokens of the two pieces are apart: the first one does not go on with the second one. -/
def Apart : CPiece → CPiece → Prop
  | .tight t, .tight u => ∀ c ∈ u.text.toList.head?, t.goesOn c = false
  | .tight _, .spaced _ => True
  | .tight _, .space => True
  | .spaced _, _ => True
  | .space, _ => True

/-- Tokens with nothing between them are apart. -/
abbrev Parted (ps : List CPiece) : Prop := ps.IsChain Apart

theorem apart_delimited {p : CPiece} (hp : p.Formed) {text : String} {c : Char} {cs : List Char}
    (htext : text.toList = c :: cs) (hc : c ∈ delimiters) : Apart p (.tight (.punct text)) := by
  cases p with
  | tight t =>
    intro d hd
    obtain rfl : c = d := by simpa [CLexeme.text, htext] using hd
    exact goesOn_delimiter hp.1 hc
  | spaced t => trivial
  | space => trivial

theorem apart_closed {text : String} (h : isClosed text) (p : CPiece) :
    Apart (.tight (.punct text)) p := by
  cases p with
  | tight t => exact fun c _ => not_goesOn_of_isClosed h c
  | spaced t => trivial
  | space => trivial

theorem apart_spaced (t : CLexeme) (p : CPiece) : Apart (.spaced t) p := trivial

theorem apart_space (p : CPiece) : Apart .space p := trivial

/-- What follows a token in a text whose pieces are apart does not go on with it. -/
theorem not_goesOn_head {t : CLexeme} (ht : t.Formed) {ps : List CPiece} (hps : ∀ p ∈ ps, p.Formed)
    (hapart : ∀ p ∈ ps.head?, Apart (.tight t) p) : ∀ c ∈ (text ps).head?, t.goesOn c = false := by
  intro c hc
  have hspace : ' ' ∈ delimiters := by decide
  cases ps with
  | nil => cases hc
  | cons p ps =>
    cases p with
    | tight u =>
      obtain ⟨d, ds, htext⟩ := List.exists_cons_of_ne_nil (hps _ List.mem_cons_self).1.text_ne_nil
      refine hapart _ rfl c ?_
      simpa [chars, htext] using hc
    | spaced u =>
      obtain rfl : ' ' = c := by simpa [chars] using hc
      exact goesOn_delimiter ht hspace
    | space =>
      obtain rfl : ' ' = c := by simpa [chars] using hc
      exact goesOn_delimiter ht hspace

theorem tokens?_spaced {t : CLexeme} (ht : t.Formed) (rest : List Char) :
    tokens? ((CPiece.spaced t).chars ++ rest) = (tokens? rest).map (t :: ·) := by
  rw [chars, List.cons_append, List.cons_append, tokens?_space (by decide), List.append_assoc]
  rw [tokens?_apart ht fun d hd => ?_, List.singleton_append, tokens?_space (by decide)]
  obtain rfl : ' ' = d := by simpa using hd
  exact goesOn_delimiter ht (by decide)

/-- If the tokens of a text start with the first piece, then the next piece is apart from it. -/
theorem apart_of_tokens? {t : CLexeme} (ht : (CPiece.tight t).Formed) {ps : List CPiece}
    (hps : ∀ p ∈ ps, p.Formed) {q : CPiece} (hq : q ∈ ps.head?) {ts : List CLexeme}
    (h : tokens? ((CPiece.tight t).chars ++ text ps) = some (t :: ts)) : Apart (.tight t) q := by
  obtain ⟨more, rfl⟩ := List.head?_eq_some_iff.mp hq
  cases q with
  | tight u =>
    intro c hc
    obtain ⟨cs, htext⟩ := List.head?_eq_some_iff.mp hc
    by_contra hgoesOn
    rw [text_cons, chars, chars, htext, List.cons_append] at h
    exact tokens?_goesOn ht.1 ht.2 (by simpa using hgoesOn) h
  | spaced u => trivial
  | space => trivial

/-- **The tokens of a text that is written token by token.** They are the tokens of its pieces if
and only if tokens with nothing between them are apart. -/
theorem tokens?_iff_parted {ps : List CPiece} (h : ∀ p ∈ ps, p.Formed) :
    tokens? (text ps) = some (lexemes ps) ↔ Parted ps := by
  induction ps with
  | nil => simp [tokens?_nil]
  | cons p ps ih =>
    obtain ⟨hp, hps⟩ := List.forall_mem_cons.mp h
    have hparted : Parted (p :: ps) ↔ (∀ q ∈ ps.head?, Apart p q) ∧ Parted ps := List.isChain_cons
    rw [hparted, ← ih hps, text_cons]
    cases p with
    | tight t =>
      constructor
      · intro htokens
        have hapart : ∀ q ∈ ps.head?, Apart (.tight t) q := fun q hq =>
          apart_of_tokens? hp hps hq htokens
        rw [chars, tokens?_apart hp.1 (not_goesOn_head hp.1 hps hapart)] at htokens
        obtain ⟨ts, hts, heq⟩ := Option.map_eq_some_iff.mp htokens
        exact ⟨hapart, hts.trans (congrArg some (List.cons.inj heq).2)⟩
      · rintro ⟨hapart, htokens⟩
        rw [chars, tokens?_apart hp.1 (not_goesOn_head hp.1 hps hapart), htokens]
        rfl
    | spaced t =>
      rw [tokens?_spaced hp, lexemes_spaced]
      simp [apart_spaced]
    | space =>
      rw [chars, List.singleton_append, tokens?_space (by decide), lexemes_space]
      simp [apart_space]

end CPiece

end KilnLang
