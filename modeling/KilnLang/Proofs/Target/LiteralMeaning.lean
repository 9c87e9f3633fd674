import KilnLang.Proofs.Target.IntegerConstants

/-!
# What quoted texts denote

A string or a character denotes a list of codes: the bytes of each character that stands for itself,
and one code for each escape. The source and C have different rules for escapes (`EscapeRules`). In
the source `\0` is one escape whatever comes next, and `\x` takes at most two digits; in C up to
three octal digits are one escape, and `\x` takes all digits that follow.

**Theorem (`quoted_literals_keep_meaning`).** C reads from what is written for a string the codes
that the string denotes if and only if no escape of the string runs on (`EscapeRules.runsOn`): no
octal digit comes after `\0`, and no third digit after `\x`. Characters are always read as what they
denote.

Where an escape runs on, C takes characters into it that stand for themselves in the source, so it
reads fewer codes. Both readings are at the same place again after these characters, which is why
the induction (`EscapeRules.follows`) is on the length of the text.
-/

namespace KilnLang

open Lexer (isHexDigit)

/-- An octal digit. -/
def isOctalDigit (c : Char) : Bool := '0' ≤ c && c ≤ '7'

/-- How escapes are read after their backslash: the code, and the characters that are left. -/
structure EscapeRules where
  escape? : List Char → Option (Nat × List Char)
  shorter : ∀ {cs rest : List Char} {code : Nat}, escape? cs = some (code, rest) →
    rest.length < cs.length

namespace EscapeRules

/-! ## Rules -/

/-- The codes of the escapes of one character that are the same in the source and in C. -/
def simpleCode? : Char → Option Nat
  | 'a' => some 7
  | 'b' => some 8
  | 't' => some 9
  | 'n' => some 10
  | 'v' => some 11
  | 'f' => some 12
  | 'r' => some 13
  | '"' => some 34
  | '\'' => some 39
  | '\\' => some 92
  | _ => none

/-- The number that the digits are at the start of the characters, and the characters after them. -/
def digitsCode? (base : Nat) (digits cs : List Char) : Option (Nat × List Char) :=
  (CConstant.numeral? base digits).map (·, cs.drop digits.length)

/-- Reads an escape of the source. -/
def sourceEscape? : List Char → Option (Nat × List Char)
  | [] => none
  | c :: cs =>
    if c = 'x' then digitsCode? 16 ((cs.takeWhile isHexDigit).take 2) cs
    else if c = '0' then some (0, cs)
    else if c = 'e' then some (27, cs)
    else (simpleCode? c).map (·, cs)

/-- Reads an escape of C. -/
def targetEscape? : List Char → Option (Nat × List Char)
  | [] => none
  | c :: cs =>
    if c = 'x' then digitsCode? 16 (cs.takeWhile isHexDigit) cs
    else if c = '?' then some (63, cs)
    else if isOctalDigit c then
      digitsCode? 8 (c :: (cs.takeWhile isOctalDigit).take 2) (c :: cs)
    else (simpleCode? c).map (·, cs)

theorem length_of_digitsCode? {base code : Nat} {digits cs rest : List Char}
    (h : digitsCode? base digits cs = some (code, rest)) :
    rest.length = cs.length - digits.length := by
  obtain ⟨n, -, heq⟩ := Option.map_eq_some_iff.mp h
  cases heq
  exact List.length_drop

theorem eq_of_map_simpleCode? {c : Char} {cs rest : List Char} {code : Nat}
    (h : (simpleCode? c).map (·, cs) = some (code, rest)) :
    simpleCode? c = some code ∧ cs = rest := by
  obtain ⟨n, hn, heq⟩ := Option.map_eq_some_iff.mp h
  cases heq
  exact ⟨hn, rfl⟩

/-- The rules of the source. -/
def source : EscapeRules where
  escape? := sourceEscape?
  shorter := by
    intro cs rest code h
    cases cs with
    | nil => cases h
    | cons c cs =>
      simp only [sourceEscape?] at h
      split_ifs at h
      · exact Nat.lt_succ_of_le (length_of_digitsCode? h ▸ Nat.sub_le _ _)
      · cases h
        exact Nat.lt_succ_self _
      · cases h
        exact Nat.lt_succ_self _
      · exact (eq_of_map_simpleCode? h).2 ▸ Nat.lt_succ_self _

/-- The rules of C, without names of characters by number, which are never written. -/
def target : EscapeRules where
  escape? := targetEscape?
  shorter := by
    intro cs rest code h
    cases cs with
    | nil => cases h
    | cons c cs =>
      simp only [targetEscape?] at h
      split_ifs at h
      · exact Nat.lt_succ_of_le (length_of_digitsCode? h ▸ Nat.sub_le _ _)
      · cases h
        exact Nat.lt_succ_self _
      · rw [length_of_digitsCode? h]
        exact Nat.sub_lt (Nat.succ_pos _) (Nat.succ_pos _)
      · exact (eq_of_map_simpleCode? h).2 ▸ Nat.lt_succ_self _

/-! ## Readings -/

/-- The codes of a character that stands for itself. -/
def bytes (c : Char) : List Nat := (String.utf8EncodeChar c).map UInt8.toNat

/-- Reads what is quoted up to its closing quote, after which there is nothing. -/
def body? (rules : EscapeRules) (quote : Char) (cs : List Char) : Option (List Nat) :=
  match cs with
  | [] => none
  | c :: cs =>
    if c = quote then if cs = [] then some [] else none
    else if c = '\n' then none
    else if c = '\\' then
      match h : rules.escape? cs with
      | none => none
      | some (code, rest) =>
        have := rules.shorter h
        (rules.body? quote rest).map (code :: ·)
    else (rules.body? quote cs).map (bytes c ++ ·)
termination_by cs.length

/-- The codes that a quoted text denotes. -/
def denoted? (rules : EscapeRules) (text : String) : Option (List Nat) :=
  match text.toList with
  | quote :: cs => if CLexer.isQuote quote then rules.body? quote cs else none
  | [] => none

/-- Whether C takes characters into an escape that do not belong to it in the source. -/
def runsOn : List Char → Bool
  | '\\' :: 'x' :: cs => 2 < (cs.takeWhile isHexDigit).length || runsOn cs
  | '\\' :: '0' :: cs => cs.head?.any isOctalDigit || runsOn cs
  | '\\' :: _ :: cs => runsOn cs
  | _ :: cs => runsOn cs
  | [] => false

section Readings

variable (rules : EscapeRules) {quote : Char}

/-- The character stands for itself between quotes. -/
def IsPlain (quote c : Char) : Prop := c ≠ quote ∧ c ≠ '\n' ∧ c ≠ '\\'

theorem body?_quote : rules.body? quote [quote] = some [] := by
  rw [body?, if_pos rfl, if_pos rfl]

theorem body?_plain {c : Char} (hc : IsPlain quote c) (cs : List Char) :
    rules.body? quote (c :: cs) = (rules.body? quote cs).map (bytes c ++ ·) := by
  rw [body?, if_neg hc.1, if_neg hc.2.1, if_neg hc.2.2]

theorem body?_append {ks : List Char} (hks : ∀ c ∈ ks, IsPlain quote c) (cs : List Char) :
    rules.body? quote (ks ++ cs) = (rules.body? quote cs).map (ks.flatMap bytes ++ ·) := by
  induction ks with
  | nil => simp
  | cons c ks ih =>
    obtain ⟨hc, hks⟩ := List.forall_mem_cons.mp hks
    rw [List.cons_append, body?_plain rules hc, ih hks, Option.map_map]
    simp [Function.comp_def]

theorem body?_backslash (hquote : CLexer.isQuote quote) {cs rest : List Char} {code : Nat}
    (h : rules.escape? cs = some (code, rest)) :
    rules.body? quote ('\\' :: cs) = (rules.body? quote rest).map (code :: ·) := by
  have hne : '\\' ≠ quote := by
    rintro rfl
    exact absurd hquote (by decide)
  rw [body?, if_neg hne, if_neg (by decide), if_pos rfl]
  split <;> simp_all

theorem body?_backslash_eq_none (hquote : CLexer.isQuote quote) {cs : List Char}
    (h : rules.escape? cs = none) : rules.body? quote ('\\' :: cs) = none := by
  have hne : '\\' ≠ quote := by
    rintro rfl
    exact absurd hquote (by decide)
  rw [body?, if_neg hne, if_neg (by decide), if_pos rfl]
  split <;> simp_all

variable {rules}

/-- What is read before the closing quote stands for itself, or is an escape. -/
theorem isPlain_of_body? {c : Char} {cs : List Char} {codes : List Nat} (hcs : cs ≠ [])
    (hescape : c ≠ '\\') (h : rules.body? quote (c :: cs) = some codes) : IsPlain quote c := by
  rw [body?] at h
  split_ifs at h with hquote hbreak
  exact ⟨hquote, hbreak, hescape⟩

end Readings

theorem length_le_length_bytes (cs : List Char) : cs.length ≤ (cs.flatMap bytes).length := by
  induction cs with
  | nil => exact Nat.le_refl _
  | cons c cs ih =>
    have hc : 0 < (bytes c).length := by
      rw [bytes, List.length_map, String.length_utf8EncodeChar]
      exact c.utf8Size_pos
    rw [List.flatMap_cons, List.length_append, List.length_cons]
    omega

/-! ## Where escapes end -/

theorem runsOn_cons {c : Char} (hc : c ≠ '\\') (cs : List Char) :
    runsOn (c :: cs) = runsOn cs := by
  rw [runsOn]
  all_goals simp_all

theorem runsOn_append {ks : List Char} (hks : ∀ c ∈ ks, c ≠ '\\') (cs : List Char) :
    runsOn (ks ++ cs) = runsOn cs := by
  induction ks with
  | nil => rfl
  | cons c ks ih =>
    obtain ⟨hc, hks⟩ := List.forall_mem_cons.mp hks
    rw [List.cons_append, runsOn_cons hc, ih hks]

theorem runsOn_backslash {c : Char} (hx : c ≠ 'x') (hzero : c ≠ '0') (cs : List Char) :
    runsOn ('\\' :: c :: cs) = runsOn cs := by
  rw [runsOn]
  all_goals simp_all

theorem digit_of_isHexDigit {c : Char} (h : isHexDigit c) : CConstant.digit c < 16 := by
  simp only [isHexDigit, Bool.or_eq_true, Bool.and_eq_true, decide_eq_true_eq] at h
  rw [CConstant.digit]
  rcases h with (hdigit | hlower) | hupper
  · obtain ⟨hvalue, hlt⟩ := IntLiteral.digitValue?_of_isDigit hdigit
    rw [hvalue]
    exact hlt.trans (by decide)
  · have hnot : ¬('0' ≤ c ∧ c ≤ '9') := fun h => absurd (Char.le_trans hlower.1 h.2) (by decide)
    have hle : c.toNat ≤ 'f'.toNat := hlower.2
    rw [IntLiteral.digitValue?, if_neg hnot, if_pos hlower, Option.getD_some]
    simp only [Char.reduceToNat] at hle ⊢
    omega
  · have hnot : ¬('0' ≤ c ∧ c ≤ '9') := fun h => absurd (Char.le_trans hupper.1 h.2) (by decide)
    have hnot' : ¬('a' ≤ c ∧ c ≤ 'f') := fun h => absurd (Char.le_trans h.1 hupper.2) (by decide)
    have hle : c.toNat ≤ 'F'.toNat := hupper.2
    rw [IntLiteral.digitValue?, if_neg hnot, if_neg hnot', if_pos hupper, Option.getD_some]
    simp only [Char.reduceToNat] at hle ⊢
    omega

theorem isDigit_of_isOctalDigit {c : Char} (h : isOctalDigit c) : c.isDigit := by
  simp only [isOctalDigit, Bool.and_eq_true, decide_eq_true_eq] at h
  have hle : c ≤ '9' := Char.le_trans h.2 (by decide)
  simpa [Char.isDigit, Char.le_def] using And.intro h.1 hle

theorem digit_of_isOctalDigit {c : Char} (h : isOctalDigit c) : CConstant.digit c < 8 := by
  obtain ⟨hvalue, -⟩ := IntLiteral.digitValue?_of_isDigit (isDigit_of_isOctalDigit h)
  simp only [isOctalDigit, Bool.and_eq_true, decide_eq_true_eq] at h
  have hle : c.toNat ≤ '7'.toNat := h.2
  rw [CConstant.digit, hvalue, Option.getD_some]
  simp only [Char.reduceToNat] at hle ⊢
  omega

theorem isHexDigit_of_isOctalDigit {c : Char} (h : isOctalDigit c) : isHexDigit c := by
  rw [isHexDigit, isDigit_of_isOctalDigit h, Bool.true_or, Bool.true_or]

theorem isPlain_of_isHexDigit {quote : Char} (hquote : CLexer.isQuote quote) {c : Char}
    (h : isHexDigit c) : IsPlain quote c := by
  refine ⟨?_, ?_, ?_⟩ <;> rintro rfl
  · rcases Bool.or_eq_true_iff.mp hquote with hq | hq <;> obtain rfl := eq_of_beq hq <;>
      exact absurd h (by decide)
  · exact absurd h (by decide)
  · exact absurd h (by decide)

theorem digitsCode?_append {base : Nat} {ds : List Char} (hne : ds ≠ [])
    (hds : ∀ d ∈ ds, CConstant.digit d < base) (rest : List Char) :
    digitsCode? base ds (ds ++ rest) =
      some (Nat.ofDigits base (ds.map CConstant.digit).reverse, rest) := by
  rw [digitsCode?, CConstant.numeral?, if_pos ⟨hne, hds⟩, List.drop_left]
  rfl

/-- Nothing, or a character that does not belong to the class, comes next. -/
def Stops (p : Char → Bool) (rest : List Char) : Prop := ∀ c ∈ rest.head?, p c = false

section Stops

variable {p : Char → Bool} {quote : Char} {ds rest : List Char}

theorem Stops.takeWhile_append (h : Stops p rest) (hds : ∀ d ∈ ds, p d) :
    (ds ++ rest).takeWhile p = ds := by
  rw [List.takeWhile_append_of_pos hds]
  cases rest with
  | nil => simp
  | cons c rest => simp [h c rfl]

theorem Stops.append_quote (h : Stops p rest) (hquote : p quote = false) :
    Stops p (rest ++ [quote]) := by
  cases rest with
  | nil => exact fun c hc => Option.some.inj hc ▸ hquote
  | cons c rest => exact h

theorem Stops.escape (h : Stops p rest) : Stops p (CLiteral.escape rest) := by
  have hhead : (CLiteral.escape rest).head? = rest.head? := by
    fun_cases CLiteral.escape rest <;> rfl
  rw [Stops, hhead]
  exact h

theorem stops_dropWhile (p : Char → Bool) (cs : List Char) : Stops p (cs.dropWhile p) := by
  intro c hc
  have hhead := List.head?_dropWhile_not p cs
  rwa [hc] at hhead

theorem takeWhile_append_quote (hquote : p quote = false) (cs : List Char) :
    (cs ++ [quote]).takeWhile p = cs.takeWhile p := by
  have hstops := (stops_dropWhile p cs).append_quote hquote
  have hread := hstops.takeWhile_append fun d (hd : d ∈ cs.takeWhile p) => List.mem_takeWhile_imp hd
  rwa [← List.append_assoc, List.takeWhile_append_dropWhile] at hread

end Stops

theorem take_append_drop_append (n : Nat) (ds cs : List Char) :
    ds.take n ++ (ds.drop n ++ cs) = ds ++ cs := by
  rw [← List.append_assoc, List.take_append_drop]

/-- C reads what is written for the text, and reads fewer codes exactly if an escape runs on. -/
def Follows (quote : Char) (body : List Char) : Prop :=
  ∀ codes, source.body? quote (body ++ [quote]) = some codes →
    ∃ written, target.body? quote (CLiteral.escape body ++ [quote]) = some written ∧
      (runsOn body = false → written = codes) ∧ (runsOn body → written.length < codes.length)

section Follows

variable {quote : Char} {more : List Char}

theorem follows_nil : Follows quote [] := by
  intro codes h
  rw [List.nil_append, body?_quote] at h
  cases h
  exact ⟨[], body?_quote target, fun _ => rfl, fun hruns => absurd hruns (by decide)⟩

theorem Follows.plain {c : Char} (hc : IsPlain quote c) (h : Follows quote more) :
    Follows quote (c :: more) := by
  intro codes hcodes
  rw [List.cons_append, body?_plain source hc] at hcodes
  obtain ⟨rest, hrest, rfl⟩ := Option.map_eq_some_iff.mp hcodes
  obtain ⟨written, hwritten, hsame, hfewer⟩ := h rest hrest
  have hescape : CLiteral.escape (c :: more) = c :: CLiteral.escape more :=
    CLexer.escape_of_forall (List.forall_mem_singleton.mpr hc.2.2) more
  refine ⟨bytes c ++ written, ?_, ?_, ?_⟩
  · rw [hescape, List.cons_append, body?_plain target hc, hwritten, Option.map_some]
  · rw [runsOn_cons hc.2.2]
    intro hruns
    rw [hsame hruns]
  · rw [runsOn_cons hc.2.2]
    intro hruns
    rw [List.length_append, List.length_append]
    exact Nat.add_lt_add_left (hfewer hruns) _

/-- An escape that is written as `translated`, and into which C takes the characters `taken`. -/
theorem Follows.escape (hquote : CLexer.isQuote quote) {text translated taken : List Char}
    {code code' : Nat} (htaken : ∀ c ∈ taken, IsPlain quote c)
    (hsource : source.escape? (text ++ (taken ++ (more ++ [quote]))) =
      some (code, taken ++ (more ++ [quote])))
    (htarget : target.escape? (translated ++ (taken ++ (CLiteral.escape more ++ [quote]))) =
      some (code', CLiteral.escape more ++ [quote]))
    (hcode : taken = [] → code' = code)
    (htext : CLiteral.escape ('\\' :: (text ++ (taken ++ more))) =
      '\\' :: (translated ++ (taken ++ CLiteral.escape more)))
    (hruns : runsOn ('\\' :: (text ++ (taken ++ more))) = (!taken.isEmpty || runsOn more))
    (h : Follows quote more) : Follows quote ('\\' :: (text ++ (taken ++ more))) := by
  intro codes hcodes
  simp only [List.cons_append, List.append_assoc] at hcodes
  rw [body?_backslash source hquote hsource, body?_append source htaken, Option.map_map] at hcodes
  obtain ⟨rest, hrest, rfl⟩ := Option.map_eq_some_iff.mp hcodes
  obtain ⟨written, hwritten, hsame, hfewer⟩ := h rest hrest
  have hread : target.body? quote (CLiteral.escape ('\\' :: (text ++ (taken ++ more))) ++ [quote]) =
      some (code' :: written) := by
    rw [htext]
    simp only [List.cons_append, List.append_assoc]
    rw [body?_backslash target hquote htarget, hwritten, Option.map_some]
  -- The rest gives the same codes, or fewer if an escape in it runs on.
  have hle : written.length ≤ rest.length := by
    cases hmore : runsOn more with
    | true => exact (hfewer hmore).le
    | false => exact (congrArg List.length (hsame hmore)).le
  refine ⟨code' :: written, hread, ?_, ?_⟩
  · rw [hruns, Bool.or_eq_false_iff, Bool.not_eq_false', List.isEmpty_iff]
    rintro ⟨rfl, hmore⟩
    rw [hcode rfl, hsame hmore]
    rfl
  · rw [hruns, Bool.or_eq_true, Bool.not_eq_true', List.isEmpty_eq_false_iff]
    have hbytes := length_le_length_bytes taken
    simp only [Function.comp_apply, List.length_cons, List.length_append]
    rintro (hne | hmore)
    · have := List.length_pos_iff.mpr hne
      omega
    · have := hfewer hmore
      omega

variable (hquote : CLexer.isQuote quote)

include hquote

theorem isHexDigit_quote : isHexDigit quote = false := by
  rcases Bool.or_eq_true_iff.mp hquote with hq | hq <;> rw [eq_of_beq hq] <;> decide

theorem isOctalDigit_quote : isOctalDigit quote = false := by
  rcases Bool.or_eq_true_iff.mp hquote with hq | hq <;> rw [eq_of_beq hq] <;> decide

/-- C takes all hexadecimal digits, the source two of them. -/
theorem Follows.hex {ds rest : List Char} (hne : ds ≠ []) (hds : ∀ d ∈ ds, isHexDigit d)
    (hrest : Stops isHexDigit rest) (h : Follows quote rest) :
    Follows quote ('\\' :: 'x' :: (ds ++ rest)) := by
  have hjoin := take_append_drop_append 2 ds
  have hplain : ∀ d ∈ ds, IsPlain quote d := fun d hd => isPlain_of_isHexDigit hquote (hds d hd)
  have hdigit : ∀ d ∈ ds, CConstant.digit d < 16 := fun d hd => digit_of_isHexDigit (hds d hd)
  have hquoteDigit := isHexDigit_quote hquote
  -- The source takes two digits at most.
  have hsource : source.escape? ('x' :: ds.take 2 ++ (ds.drop 2 ++ (rest ++ [quote]))) =
      some (Nat.ofDigits 16 ((ds.take 2).map CConstant.digit).reverse,
        ds.drop 2 ++ (rest ++ [quote])) := by
    have htake : ds.take 2 ≠ [] := by simpa using hne
    show sourceEscape? ('x' :: (ds.take 2 ++ (ds.drop 2 ++ (rest ++ [quote])))) = _
    rw [sourceEscape?, if_pos rfl, hjoin, (hrest.append_quote hquoteDigit).takeWhile_append hds,
      ← hjoin]
    exact digitsCode?_append htake (fun d hd => hdigit d (List.mem_of_mem_take hd)) _
  -- C takes them all.
  have htarget : target.escape? ('x' :: ds.take 2 ++
      (ds.drop 2 ++ (CLiteral.escape rest ++ [quote]))) =
      some (Nat.ofDigits 16 (ds.map CConstant.digit).reverse, CLiteral.escape rest ++ [quote]) := by
    show targetEscape? ('x' :: (ds.take 2 ++ (ds.drop 2 ++ (CLiteral.escape rest ++ [quote])))) = _
    rw [targetEscape?, if_pos rfl, hjoin,
      (hrest.escape.append_quote hquoteDigit).takeWhile_append hds]
    exact digitsCode?_append hne hdigit _
  have hcode : ds.drop 2 = [] → Nat.ofDigits 16 (ds.map CConstant.digit).reverse =
      Nat.ofDigits 16 ((ds.take 2).map CConstant.digit).reverse := by
    intro hdrop
    rw [List.take_of_length_le (List.drop_eq_nil_iff.mp hdrop)]
  have hescape := CLexer.escape_of_forall fun d hd => (hplain d hd).2.2
  have htext : CLiteral.escape ('\\' :: ('x' :: ds.take 2 ++ (ds.drop 2 ++ rest))) =
      '\\' :: ('x' :: ds.take 2 ++ (ds.drop 2 ++ CLiteral.escape rest)) := by
    rw [List.cons_append, List.cons_append, hjoin, hjoin, CLiteral.escape, hescape]
    decide
  -- So the escape runs on if digits are left, or if the rest does.
  have hruns : runsOn ('\\' :: ('x' :: ds.take 2 ++ (ds.drop 2 ++ rest))) =
      (!(ds.drop 2).isEmpty || runsOn rest) := by
    have hmore : decide (2 < ds.length) = !(ds.drop 2).isEmpty := by
      rw [Bool.eq_iff_iff, decide_eq_true_eq, Bool.not_eq_true', List.isEmpty_eq_false_iff,
        ← List.length_pos_iff, List.length_drop, Nat.sub_pos_iff_lt]
    rw [List.cons_append, hjoin, runsOn, hrest.takeWhile_append hds, hmore,
      runsOn_append fun d hd => (hplain d hd).2.2]
  have hfollows := Follows.escape hquote (fun d hd => hplain d (List.mem_of_mem_drop hd)) hsource
    htarget hcode htext hruns h
  rwa [List.cons_append, hjoin] at hfollows

/-- C takes up to two octal digits after `\0`, the source none. -/
theorem Follows.zero {ds rest : List Char} (hds : ∀ d ∈ ds, isOctalDigit d)
    (hrest : Stops isOctalDigit rest) (h : Follows quote (ds.drop 2 ++ rest)) :
    Follows quote ('\\' :: '0' :: (ds ++ rest)) := by
  have hjoin := take_append_drop_append 2 ds
  have hplain : ∀ d ∈ ds, IsPlain quote d := fun d hd =>
    isPlain_of_isHexDigit hquote (isHexDigit_of_isOctalDigit (hds d hd))
  have htake : ∀ d ∈ ds.take 2, d ≠ '\\' := fun d hd => (hplain d (List.mem_of_mem_take hd)).2.2
  have htarget : target.escape? (['0'] ++
      (ds.take 2 ++ (CLiteral.escape (ds.drop 2 ++ rest) ++ [quote]))) =
      some (Nat.ofDigits 8 (('0' :: ds.take 2).map CConstant.digit).reverse,
        CLiteral.escape (ds.drop 2 ++ rest) ++ [quote]) := by
    have hescape : CLiteral.escape (ds.drop 2 ++ rest) = ds.drop 2 ++ CLiteral.escape rest :=
      CLexer.escape_of_forall (fun d hd => (hplain d (List.mem_of_mem_drop hd)).2.2) rest
    -- In C the zero starts an octal escape, which takes up to two more digits.
    have hread : (ds ++ (CLiteral.escape rest ++ [quote])).takeWhile isOctalDigit = ds :=
      (hrest.escape.append_quote (isOctalDigit_quote hquote)).takeWhile_append hds
    have hdigit : ∀ d ∈ '0' :: ds.take 2, CConstant.digit d < 8 :=
      List.forall_mem_cons.mpr ⟨by decide, fun d hd =>
        digit_of_isOctalDigit (hds d (List.mem_of_mem_take hd))⟩
    show targetEscape? ('0' :: (ds.take 2 ++ (CLiteral.escape (ds.drop 2 ++ rest) ++ [quote]))) = _
    rw [targetEscape?, if_neg (by decide), if_neg (by decide), if_pos (by decide), hescape,
      List.append_assoc, hjoin, hread, ← hjoin]
    exact digitsCode?_append (List.cons_ne_nil _ _) hdigit _
  have htext : CLiteral.escape ('\\' :: (['0'] ++ (ds.take 2 ++ (ds.drop 2 ++ rest)))) =
      '\\' :: (['0'] ++ (ds.take 2 ++ CLiteral.escape (ds.drop 2 ++ rest))) := by
    rw [List.singleton_append, List.singleton_append, CLiteral.escape,
      CLexer.escape_of_forall htake]
    decide
  have hruns : runsOn ('\\' :: (['0'] ++ (ds.take 2 ++ (ds.drop 2 ++ rest)))) =
      (!(ds.take 2).isEmpty || runsOn (ds.drop 2 ++ rest)) := by
    have hfirst : (ds ++ rest).head?.any isOctalDigit = !(ds.take 2).isEmpty := by
      cases ds with
      | nil =>
        cases rest with
        | nil => rfl
        | cons c rest => exact hrest c rfl
      | cons d ds => exact hds d List.mem_cons_self
    rw [List.singleton_append, runsOn, runsOn_append htake, hjoin, hfirst]
  have hfollows := Follows.escape hquote (fun d hd => hplain d (List.mem_of_mem_take hd)) rfl
    htarget (fun hnil => by rw [hnil]; decide) htext hruns h
  rwa [List.singleton_append, hjoin] at hfollows

/-- No other escape takes digits. -/
theorem Follows.simple {c : Char} {code : Nat} (hc : simpleCode? c = some code)
    (h : Follows quote more) : Follows quote ('\\' :: c :: more) := by
  obtain ⟨⟨hx, hzero, he, hmark⟩, hoctal⟩ :
      (c ≠ 'x' ∧ c ≠ '0' ∧ c ≠ 'e' ∧ c ≠ '?') ∧ isOctalDigit c = false := by
    revert hc
    fun_cases simpleCode? c with
    | case11 => intro hc; cases hc
    | _ => exact fun _ => by decide
  have hsource (cs : List Char) : source.escape? (c :: cs) = some (code, cs) := by
    show sourceEscape? (c :: cs) = _
    rw [sourceEscape?, if_neg hx, if_neg hzero, if_neg he, hc, Option.map_some]
  have htarget (cs : List Char) : target.escape? (c :: cs) = some (code, cs) := by
    show targetEscape? (c :: cs) = _
    rw [targetEscape?, if_neg hx, if_neg hmark, if_neg (ne_true_of_eq_false hoctal), hc,
      Option.map_some]
  have htext : CLiteral.escape ('\\' :: c :: more) = '\\' :: c :: CLiteral.escape more := by
    rw [CLiteral.escape]
    exact fun heq => he heq
  have hempty : ∀ d ∈ ([] : List Char), IsPlain quote d := List.forall_mem_nil _
  exact @Follows.escape quote more hquote [c] [c] [] code code hempty (hsource _) (htarget _)
    (fun _ => rfl) htext (runsOn_backslash hx hzero more) h

/-- The escape that C lacks is written with all the octal digits that C takes. -/
theorem Follows.letter (h : Follows quote more) : Follows quote ('\\' :: 'e' :: more) := by
  have htarget (cs : List Char) : target.escape? ('0' :: '3' :: '3' :: cs) = some (27, cs) := by
    show targetEscape? ('0' :: '3' :: '3' :: cs) = _
    have hthree : isOctalDigit '3' := by decide
    rw [targetEscape?, if_neg (by decide), if_neg (by decide), if_pos (by decide),
      List.takeWhile_cons_of_pos hthree, List.takeWhile_cons_of_pos hthree]
    have hdigit : ∀ d ∈ ['0', '3', '3'], CConstant.digit d < 8 := by decide
    exact digitsCode?_append (List.cons_ne_nil _ _) hdigit cs
  have hempty : ∀ d ∈ ([] : List Char), IsPlain quote d := List.forall_mem_nil _
  exact @Follows.escape quote more hquote ['e'] ['0', '3', '3'] [] 27 27 hempty rfl (htarget _)
    (fun _ => rfl) rfl (runsOn_backslash (by decide) (by decide) more) h

/-- What is no escape of the source is not read. -/
theorem follows_of_escape?_eq_none {cs : List Char}
    (h : source.escape? (cs ++ [quote]) = none) : Follows quote ('\\' :: cs) := by
  intro codes hcodes
  rw [List.cons_append, body?_backslash_eq_none source hquote h] at hcodes
  cases hcodes

theorem follows_lone_backslash : Follows quote ['\\'] := by
  intro codes hcodes
  obtain ⟨code, hescape⟩ : ∃ code, source.escape? [quote] = some (code, []) := by
    rcases Bool.or_eq_true_iff.mp hquote with hq | hq <;> rw [eq_of_beq hq] <;> exact ⟨_, rfl⟩
  rw [List.singleton_append, body?_backslash source hquote hescape, body?] at hcodes
  cases hcodes

theorem follows_backslash {c : Char} {cs : List Char}
    (ih : ∀ more : List Char, more.length ≤ cs.length → Follows quote more) :
    Follows quote ('\\' :: c :: cs) := by
  by_cases hx : c = 'x'
  · subst hx
    by_cases hne : cs.takeWhile isHexDigit = []
    · apply follows_of_escape?_eq_none hquote
      show sourceEscape? ('x' :: (cs ++ [quote])) = none
      rw [sourceEscape?, if_pos rfl, takeWhile_append_quote (isHexDigit_quote hquote), hne]
      rfl
    · have hfollows := Follows.hex hquote hne (fun d hd => List.mem_takeWhile_imp hd)
        (stops_dropWhile isHexDigit cs) (ih _ (List.dropWhile_suffix isHexDigit).length_le)
      rwa [List.takeWhile_append_dropWhile] at hfollows
  · by_cases hzero : c = '0'
    · subst hzero
      -- After the escape, at most the digits behind its first two are left.
      have hsplit := congrArg List.length
        (List.takeWhile_append_dropWhile (p := isOctalDigit) (l := cs))
      have hlength : ((cs.takeWhile isOctalDigit).drop 2 ++ cs.dropWhile isOctalDigit).length ≤
          cs.length := by
        rw [List.length_append] at hsplit ⊢
        rw [List.length_drop]
        omega
      have hfollows := Follows.zero hquote (fun d hd => List.mem_takeWhile_imp hd)
        (stops_dropWhile isOctalDigit cs) (ih _ hlength)
      rwa [List.takeWhile_append_dropWhile] at hfollows
    · by_cases he : c = 'e'
      · subst he
        exact (ih cs (Nat.le_refl _)).letter hquote
      · cases hc : simpleCode? c with
        | some code => exact (ih cs (Nat.le_refl _)).simple hquote hc
        | none =>
          apply follows_of_escape?_eq_none hquote
          show sourceEscape? (c :: (cs ++ [quote])) = none
          rw [sourceEscape?, if_neg hx, if_neg hzero, if_neg he, hc]
          rfl

/-- **Reading again.** What C reads follows what the source denotes, up to every closing quote. -/
theorem follows : ∀ body : List Char, Follows quote body
  | [] => follows_nil
  | c :: cs => by
    have ih : ∀ more : List Char, more.length ≤ cs.length → Follows quote more := fun more _ =>
      follows more
    by_cases hc : c = '\\'
    · subst hc
      cases cs with
      | nil => exact follows_lone_backslash hquote
      | cons c cs => exact follows_backslash hquote fun more hle => ih more (Nat.le_succ_of_le hle)
    · intro codes hcodes
      have hplain := isPlain_of_body? (List.append_ne_nil_of_right_ne_nil cs (by simp)) hc hcodes
      exact (ih cs (Nat.le_refl _)).plain hplain codes hcodes
termination_by body => body.length

end Follows

theorem denoted?_written {quote : Char} (hquote : CLexer.isQuote quote) {body : List Char}
    {codes : List Nat} (h : source.body? quote (body ++ [quote]) = some codes)
    {text written : String} (htext : text.toList = quote :: (body ++ [quote]))
    (hwritten : written.toList = quote :: (CLiteral.escape body ++ [quote])) :
    source.denoted? text = some codes ∧
      (target.denoted? written = some codes ↔ runsOn body = false) := by
  obtain ⟨found, hfound, hsame, hfewer⟩ := follows hquote body codes h
  have hsource : source.denoted? text = some codes := by
    rw [denoted?, htext]
    exact (if_pos hquote).trans h
  have htarget : target.denoted? written = some found := by
    rw [denoted?, hwritten]
    exact (if_pos hquote).trans hfound
  refine ⟨hsource, ?_⟩
  rw [htarget, Option.some.injEq]
  constructor
  · rintro rfl
    by_contra hruns
    exact absurd (hfewer (Bool.eq_true_of_not_eq_false hruns)) (Nat.lt_irrefl _)
  · exact hsame

/-! ## Tokens -/

theorem exists_of_escape {cs text rest : List Char} (h : Lexer.escape cs = .ok (text, rest)) :
    ∃ code, source.escape? cs = some (code, rest) := by
  cases cs with
  | nil => cases h
  | cons c cs =>
    show ∃ code, sourceEscape? (c :: cs) = some (code, rest)
    simp only [Lexer.escape] at h
    rw [sourceEscape?]
    split_ifs at h with hx hdigits hsimple
    · cases h
      have hhex : ∀ d ∈ (cs.take 2).takeWhile isHexDigit, CConstant.digit d < 16 := fun d hd =>
        digit_of_isHexDigit (List.mem_takeWhile_imp hd)
      have hne : (cs.take 2).takeWhile isHexDigit ≠ [] := fun hnil => hdigits (by rw [hnil]; rfl)
      rw [if_pos (eq_of_beq hx), List.take_takeWhile, digitsCode?, CConstant.numeral?,
        if_pos ⟨hne, hhex⟩]
      exact ⟨_, rfl⟩
    · cases h
      have hcodes : ∀ d ∈ Lexer.simpleEscapes, d = '0' ∨ d = 'e' ∨ (simpleCode? d).isSome := by
        decide
      rw [if_neg fun heq => hx (beq_iff_eq.mpr heq)]
      rcases hcodes c (List.contains_iff_mem.mp hsimple) with rfl | rfl | hcode
      · exact ⟨_, rfl⟩
      · exact ⟨_, rfl⟩
      · obtain ⟨code, hcode⟩ := Option.isSome_iff_exists.mp hcode
        split_ifs
        · exact ⟨_, rfl⟩
        · exact ⟨_, rfl⟩
        · exact ⟨code, by rw [hcode]; rfl⟩

/-- An escape of the source alone does not run on. -/
theorem runsOn_of_escape {cs text rest : List Char} (h : Lexer.escape cs = .ok (text, rest)) :
    runsOn ('\\' :: text) = false := by
  cases cs with
  | nil => cases h
  | cons c cs =>
    simp only [Lexer.escape] at h
    split_ifs at h with hx hdigits hsimple
    · cases h
      obtain rfl := eq_of_beq hx
      have hlength : ((cs.take 2).takeWhile isHexDigit).length ≤ 2 :=
        (List.takeWhile_prefix _).length_le.trans (List.length_take_le 2 cs)
      have hplain : ∀ d ∈ (cs.take 2).takeWhile isHexDigit, d ≠ '\\' := fun d hd =>
        (@isPlain_of_isHexDigit '"' (by decide) d (List.mem_takeWhile_imp hd)).2.2
      have hrest := runsOn_append hplain []
      rw [List.append_nil] at hrest
      rw [runsOn, List.takeWhile_takeWhile, hrest]
      simpa [runsOn] using hlength
    · cases h
      have hx : c ≠ 'x' := fun heq => hx (beq_iff_eq.mpr heq)
      by_cases hzero : c = '0'
      · rw [hzero]
        rfl
      · rw [runsOn_backslash hx hzero]
        rfl

theorem exists_of_stringTail {start pos : Nat} {cs text : List Char}
    (h : Lexer.stringTail start pos cs = .ok (text, [])) :
    ∃ codes, source.body? '"' cs = some codes := by
  fun_induction Lexer.stringTail start pos cs generalizing text with
  | case1 => cases h
  | case2 pos c cs hc =>
    cases h
    rw [eq_of_beq hc]
    exact ⟨[], body?_quote source⟩
  | case3 => cases h
  | case4 => cases h
  | case5 pos c cs _ _ hc escaped rest hescape _ ih =>
    obtain ⟨⟨tail, _⟩, htail, heq⟩ := Lexer.exists_of_map_eq_ok h
    cases heq
    obtain ⟨codes, hcodes⟩ := ih htail
    obtain ⟨code, hcode⟩ := exists_of_escape hescape
    refine ⟨code :: codes, ?_⟩
    rw [eq_of_beq hc, body?_backslash source (by decide) hcode, hcodes]
    rfl
  | case6 pos c cs hquote hbreak hc ih =>
    obtain ⟨⟨tail, _⟩, htail, heq⟩ := Lexer.exists_of_map_eq_ok h
    cases heq
    obtain ⟨codes, hcodes⟩ := ih htail
    have hplain : IsPlain '"' c := by simpa [IsPlain] using And.intro hquote (And.intro hbreak hc)
    refine ⟨bytes c ++ codes, ?_⟩
    rw [body?_plain source hplain, hcodes]
    rfl

theorem exists_of_charTail {start pos : Nat} {body : List Char}
    (h : Lexer.charTail start pos (body ++ ['\'']) = .ok (body ++ ['\''], [])) :
    (∃ codes, source.body? '\'' (body ++ ['\'']) = some codes) ∧ runsOn body = false := by
  cases body with
  | nil => cases h
  | cons c body =>
    rw [List.cons_append, Lexer.charTail] at h
    split_ifs at h with hstop hc
    · split at h
      · cases h
      · rename_i text rest hescape
        obtain ⟨⟨tail, _⟩, htail, heq⟩ := Lexer.exists_of_map_eq_ok h
        obtain ⟨rfl, rfl⟩ := Lexer.eq_of_closeQuote htail
        obtain ⟨hcons, rfl⟩ := Prod.mk.inj heq
        obtain rfl := List.append_cancel_right (List.cons.inj hcons).2
        obtain ⟨code, hcode⟩ := exists_of_escape hescape
        obtain rfl := eq_of_beq hc
        refine ⟨⟨[code], ?_⟩, runsOn_of_escape hescape⟩
        rw [List.cons_append, body?_backslash source (by decide) hcode, body?_quote]
        rfl
    · obtain ⟨⟨tail, _⟩, htail, heq⟩ := Lexer.exists_of_map_eq_ok h
      obtain ⟨rfl, hrest⟩ := Lexer.eq_of_closeQuote htail
      obtain ⟨hcons, rfl⟩ := Prod.mk.inj heq
      obtain rfl := List.append_cancel_right (show [] ++ ['\''] = body ++ ['\''] from
        (List.cons.inj hcons).2)
      simp only [Bool.or_eq_true, beq_iff_eq, not_or] at hstop hc
      refine ⟨⟨bytes c, ?_⟩, runsOn_cons hc []⟩
      rw [List.singleton_append, body?_plain source ⟨hstop.1, hstop.2, hc⟩, body?_quote]
      simp

end EscapeRules

/-! ## Literals -/

section Literals

variable {t : Token} (h : t.Lexed)

include h

theorem Token.Lexed.lexeme_eq {c : Char} {cs : List Char} (htext : t.text.toList = c :: cs) :
    Lexer.lexeme 0 c cs = .ok (t.kind, c :: cs, []) := by
  obtain ⟨c', cs', hcs, hlexeme⟩ := Lexer.lexeme_of_legible h.legible
  rw [htext] at hcs hlexeme
  obtain ⟨rfl, rfl⟩ := List.cons.inj hcs
  exact hlexeme

theorem Token.Lexed.stringTail (hkind : t.kind = .stringLiteral) :
    ∃ body, t.text.toList = '"' :: (body ++ ['"']) ∧
      Lexer.stringTail 0 1 (body ++ ['"']) = .ok (body ++ ['"'], []) := by
  obtain ⟨body, htext⟩ := (hkind ▸ h.shape).exists_of_string
  obtain ⟨⟨tail, rest⟩, htail, heq⟩ := Lexer.exists_of_map_eq_ok (h.lexeme_eq htext)
  cases (Prod.mk.inj heq).2
  exact ⟨body, htext, htail⟩

theorem Token.Lexed.charTail (hkind : t.kind = .charLiteral) :
    ∃ body, t.text.toList = '\'' :: (body ++ ['\'']) ∧
      Lexer.charTail 0 1 (body ++ ['\'']) = .ok (body ++ ['\''], []) := by
  obtain ⟨body, htext⟩ := (hkind ▸ h.shape).exists_of_char
  obtain ⟨⟨tail, rest⟩, htail, heq⟩ := Lexer.exists_of_map_eq_ok (h.lexeme_eq htext)
  cases (Prod.mk.inj heq).2
  exact ⟨body, htext, htail⟩

end Literals

theorem Parser.toList_unquote {text : String} {c d : Char} {body : List Char}
    (h : text.toList = c :: (body ++ [d])) : (Parser.unquote text).toList = body := by
  rw [Parser.unquote, h]
  simp

theorem CLiteral.toList_quoted {quote : String} {c : Char} (hquote : quote.toList = [c])
    (lit : Literal) : (CLiteral.quoted quote lit).render.toList =
      c :: (CLiteral.escape lit.text.toList ++ [c]) := by
  simp [CLiteral.quoted, CExpr.render, hquote]

/-- **Quoted literals.** What is written for a string denotes in C what the string denotes, exactly
unless an escape runs on, which none does in a character. -/
theorem quoted_literals_keep_meaning (m : DataModel) {file : Nat} {text : String}
    {tokens : List Token} (hlex : Token.lex file text = .ok tokens) {t : Token} (ht : t ∈ tokens)
    (hkind : t.kind ∈ [TokenKind.stringLiteral, .charLiteral]) {v : Value}
    (hv : Parser.literal? t = some v) :
    ∃ codes, EscapeRules.source.denoted? t.text = some codes ∧
      (EscapeRules.target.denoted? (Lowering.value m v).render = some codes ↔
        EscapeRules.runsOn (Parser.unquote t.text).toList = false) ∧
      (t.kind = .charLiteral → EscapeRules.runsOn (Parser.unquote t.text).toList = false) := by
  have hlexed := Lexer.lexed_of_mem_lex hlex ht
  rcases List.mem_pair.mp hkind with hstring | hchar
  · obtain ⟨body, htext, htail⟩ := hlexed.stringTail hstring
    obtain ⟨codes, hcodes⟩ := EscapeRules.exists_of_stringTail htail
    rw [Parser.literal?, hstring] at hv
    cases hv
    have hwritten := CLiteral.toList_quoted (show "\"".toList = ['"'] from rfl)
      ⟨t.span, Parser.unquote t.text⟩
    rw [Parser.toList_unquote htext] at hwritten ⊢
    obtain ⟨hsource, htarget⟩ := EscapeRules.denoted?_written (by decide) hcodes htext hwritten
    exact ⟨codes, hsource, htarget, fun hchar => absurd (hstring.symm.trans hchar) nofun⟩
  · obtain ⟨body, htext, htail⟩ := hlexed.charTail hchar
    -- One character has one escape at most, with nothing behind it to run into.
    obtain ⟨⟨codes, hcodes⟩, hruns⟩ := EscapeRules.exists_of_charTail htail
    rw [Parser.literal?, hchar] at hv
    cases hv
    have hwritten := CLiteral.toList_quoted (show "'".toList = ['\''] from rfl)
      ⟨t.span, Parser.unquote t.text⟩
    rw [Parser.toList_unquote htext] at hwritten ⊢
    obtain ⟨hsource, htarget⟩ := EscapeRules.denoted?_written (by decide) hcodes htext hwritten
    exact ⟨codes, hsource, htarget, fun _ => hruns⟩

/-- The digits of the escapes end where they end in C. -/
theorem separate_escapes_keep_meaning :
    let tokens := (Scan.ofText 0 "str s = \"\\09\\x4g\\e0\\\"\"").tokens
    let t : Token := ⟨.stringLiteral, "\"\\09\\x4g\\e0\\\"\"", ⟨0, 8, 22⟩, false⟩
    let v : Value := .string ⟨t.span, Parser.unquote t.text⟩
    (Token.lex 0 "str s = \"\\09\\x4g\\e0\\\"\"" = .ok tokens ∧ t ∈ tokens ∧
      t.kind ∈ [TokenKind.stringLiteral, .charLiteral] ∧ Parser.literal? t = some v) ∧
      EscapeRules.target.denoted? (Lowering.value .lp64 v).render =
        some [0, 57, 4, 103, 27, 48, 34] := by
  intro tokens t v
  have herror : (Scan.ofText 0 "str s = \"\\09\\x4g\\e0\\\"\"").error = none := by
    rw [Scan.ofText_ofList]
    decide +kernel
  have hlex : Token.lex 0 "str s = \"\\09\\x4g\\e0\\\"\"" = .ok tokens := by
    simp only [Token.lex, herror, tokens]
  have ht : t ∈ tokens := by decide +kernel
  have hkind : t.kind ∈ [TokenKind.stringLiteral, .charLiteral] := List.mem_cons_self
  obtain ⟨codes, hcodes, hwritten, -⟩ := quoted_literals_keep_meaning .lp64 hlex ht hkind rfl
  have hdenoted : EscapeRules.source.denoted? t.text = some [0, 57, 4, 103, 27, 48, 34] := by
    decide +kernel
  have hruns : EscapeRules.runsOn (Parser.unquote t.text).toList = false := by decide +kernel
  refine ⟨⟨hlex, ht, hkind, rfl⟩, ?_⟩
  rw [← hdenoted, hcodes]
  exact hwritten.mpr hruns

/-- The string is NUL and a digit, and C reads one character. -/
theorem octal_escape_changes_meaning : ∃ tokens t v,
    Token.lex 0 "str s = \"\\01\"" = .ok tokens ∧ t ∈ tokens ∧ t.kind = .stringLiteral ∧
      Parser.literal? t = some v ∧ EscapeRules.source.denoted? t.text = some [0, 49] ∧
      EscapeRules.target.denoted? (Lowering.value .lp64 v).render = some [1] := by
  have herror : (Scan.ofText 0 "str s = \"\\01\"").error = none := by
    rw [Scan.ofText_ofList]
    decide +kernel
  have hlex : Token.lex 0 "str s = \"\\01\"" = .ok (Scan.ofText 0 "str s = \"\\01\"").tokens := by
    simp only [Token.lex, herror]
  have ht : ⟨.stringLiteral, "\"\\01\"", ⟨0, 8, 13⟩, false⟩ ∈
      (Scan.ofText 0 "str s = \"\\01\"").tokens := by
    rw [Scan.ofText_ofList]
    decide +kernel
  exact ⟨_, _, _, hlex, ht, rfl, rfl, by decide +kernel, by decide +kernel⟩

end KilnLang
