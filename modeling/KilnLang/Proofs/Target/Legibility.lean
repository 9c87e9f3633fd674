import KilnLang.Proofs.Semantic.CheckedStores
import KilnLang.Proofs.Semantic.OnlySlots
import KilnLang.Proofs.Semantic.ResolvedExpressions
import KilnLang.Proofs.Syntax.Shape
import KilnLang.Proofs.Target.Arity
import KilnLang.Proofs.Target.Declarators

/-!
# What the output says of operands

Names, numbers and quoted texts of a unit are tokens of C when they are written, quoted texts after
their escapes have been translated.

**Theorem (`SourceUnit.lowerable_operands`).** Each operand of a checked unit is `Lowerable`: its own
words are tokens of C, suffixes follow only what takes them, an explicit reference refers to storage,
and a cast has one argument. All of this is said of one operand at a time. It holds of the parsed
unit (`SourceUnit.shaped_of_parse`, `SourceUnit.readable_operands`), filling slots keeps it, and so
does the completion of calls, since each operand of the checked unit completes one of the resolved
unit (`SourceUnit.operand_origin`).

**Theorem (`Lowering.legible_value`).** What lowerable operands are lowered to is legible.
-/

namespace KilnLang

/-! ## Names and numbers -/

namespace Lexer

theorem lexeme_of_legible {kind : TokenKind} {text : List Char} (h : Legible kind text) :
    ∃ c cs, text = c :: cs ∧ lexeme 0 c cs = .ok (kind, text, []) := by
  obtain ⟨c, cs, rfl, hread⟩ := h
  have hlexeme := (hread [] .nil).2 0
  rw [List.append_nil] at hlexeme
  exact ⟨c, cs, rfl, hlexeme⟩

theorem ofWord_cases (w : String) :
    TokenKind.ofWord w = .ident ∨ TokenKind.ofWord w ∈ TokenKind.keywords := by
  unfold TokenKind.ofWord
  cases hfind : TokenKind.keywords.find? (·.spelling? == some w) with
  | none => exact .inl rfl
  | some kind => exact .inr (List.mem_of_find?_eq_some hfind)

theorem mem_symbols_of_symbol? {cs text rest : List Char} {kind : TokenKind}
    (h : symbol? cs = some (kind, text, rest)) : kind ∈ TokenKind.symbols := by
  obtain ⟨k, hk, hfound⟩ := List.exists_of_findSome?_eq_some h
  obtain ⟨s, -, hfound⟩ := Option.bind_eq_some_iff.mp hfound
  split_ifs at hfound
  cases hfound
  exact hk

/-- A name is a word of C. -/
theorem Legible.word {text : String} (h : Legible .ident text.toList) :
    (CLexeme.word text).Formed := by
  obtain ⟨c, cs, -, hlexeme⟩ := lexeme_of_legible h
  unfold lexeme at hlexeme
  split_ifs at hlexeme with hstring hchar hdigit hname
  · obtain ⟨_, -, heq⟩ := exists_of_map_eq_ok hlexeme
    cases heq
  · obtain ⟨_, -, heq⟩ := exists_of_map_eq_ok hlexeme
    cases heq
  · simp only [number] at hlexeme
    split_ifs at hlexeme
    exact absurd (Prod.mk.inj (Except.ok.inj hlexeme)).1 (kind_of_digits_ne_ident _)
  · have hword := (Prod.mk.inj (Prod.mk.inj (Except.ok.inj hlexeme)).2).1
    exact ⟨c, cs.takeWhile isNameChar, hword.symm, hname, fun d hd => List.mem_takeWhile_imp hd⟩
  · split at hlexeme
    · rename_i hsymbol
      cases hlexeme
      exact absurd (mem_symbols_of_symbol? hsymbol) (by decide)
    · cases hlexeme

theorem isNameChar_of_isHexDigit {c : Char} (h : isHexDigit c) : isNameChar c := by
  have hlower : 'f' ≤ 'z' := by decide
  have hupper : 'F' ≤ 'Z' := by decide
  simp only [isHexDigit, Bool.or_eq_true, Bool.and_eq_true, decide_eq_true_eq] at h
  rw [isNameChar, Bool.or_eq_true, CLexer.isNameStart_iff]
  rcases h with (hdigit | ⟨ha, hf⟩) | ⟨ha, hf⟩
  · exact .inr hdigit
  · exact .inl (.inr (.inl ⟨ha, Char.le_trans hf hlower⟩))
  · exact .inl (.inl ⟨ha, Char.le_trans hf hupper⟩)

theorem digits_chars (cs : List Char) : ∀ d ∈ (digits cs).2.1, isNameChar d ∨ d = '.' := by
  have hhex : ∀ ds : List Char, ∀ d ∈ ds.takeWhile isHexDigit, isNameChar d := fun ds d hd =>
    isNameChar_of_isHexDigit (List.mem_takeWhile_imp hd)
  have hdigit : ∀ ds : List Char, ∀ d ∈ ds.takeWhile Char.isDigit, isNameChar d := fun ds d hd => by
    rw [isNameChar, List.mem_takeWhile_imp hd, Bool.or_true]
  have hmark : isNameChar '0' ∧ isNameChar 'x' ∧ isNameChar 'X' := by decide
  fun_cases digits cs with
  | case1 ds =>
    simp only [List.forall_mem_cons]
    exact ⟨.inl hmark.1, .inl hmark.2.1, fun d hd => .inl (hhex ds d hd)⟩
  | case2 ds =>
    simp only [List.forall_mem_cons]
    exact ⟨.inl hmark.1, .inl hmark.2.2, fun d hd => .inl (hhex ds d hd)⟩
  | case3 cs _ _ whole d ds _ hd =>
    have hfirst : isNameChar d := by rw [isNameChar, hd, Bool.or_true]
    refine List.forall_mem_append.mpr ⟨fun d hd => .inl (hdigit cs d hd), ?_⟩
    refine List.forall_mem_cons.mpr ⟨.inr rfl, List.forall_mem_cons.mpr ⟨.inl hfirst, ?_⟩⟩
    exact fun d hd => .inl (hdigit ds d hd)
  | case4 cs => exact fun d hd => .inl (hdigit cs d hd)
  | case5 cs => exact fun d hd => .inl (hdigit cs d hd)

/-- Numbers are made of name characters and points, the first one a digit. -/
theorem Legible.number_chars {text : List Char} {kind : TokenKind}
    (hkind : kind ∈ [TokenKind.intLiteral, .floatLiteral]) (h : Legible kind text) :
    ∃ c cs, text = c :: cs ∧ c.isDigit ∧ ∀ d ∈ cs, isNameChar d ∨ d = '.' := by
  obtain ⟨c, cs, htext, hlexeme⟩ := lexeme_of_legible h
  unfold lexeme at hlexeme
  split_ifs at hlexeme with hstring hchar hdigit hname
  · obtain ⟨_, -, heq⟩ := exists_of_map_eq_ok hlexeme
    rw [← (Prod.mk.inj heq).1] at hkind
    exact absurd hkind (by decide)
  · obtain ⟨_, -, heq⟩ := exists_of_map_eq_ok hlexeme
    rw [← (Prod.mk.inj heq).1] at hkind
    exact absurd hkind (by decide)
  · simp only [Lexer.number] at hlexeme
    split_ifs at hlexeme
    have hdigits := (Prod.mk.inj (Prod.mk.inj (Except.ok.inj hlexeme)).2).1
    have hchars := digits_chars (c :: cs)
    rw [hdigits, htext] at hchars
    exact ⟨c, cs, htext, hdigit, (List.forall_mem_cons.mp hchars).2⟩
  · obtain rfl := (Prod.mk.inj (Except.ok.inj hlexeme)).1
    have hkeywords : ∀ k ∈ TokenKind.keywords, k ∉ [TokenKind.intLiteral, .floatLiteral] := by
      decide
    rcases ofWord_cases (String.ofList (c :: cs.takeWhile isNameChar)) with hword | hword
    · rw [hword] at hkind
      exact absurd hkind (by decide)
    · exact absurd hkind (hkeywords _ hword)
  · split at hlexeme
    · rename_i hsymbol
      cases hlexeme
      have hsymbols : ∀ k ∈ TokenKind.symbols, k ∉ [TokenKind.intLiteral, .floatLiteral] := by
        decide
      exact absurd hkind (hsymbols _ (mem_symbols_of_symbol? hsymbol))
    · cases hlexeme

/-- A number is a number of C. -/
theorem Legible.number {text : String} {kind : TokenKind}
    (hkind : kind ∈ [TokenKind.intLiteral, .floatLiteral]) (h : Legible kind text.toList) :
    (CLexeme.number text).Formed := by
  obtain ⟨c, cs, htext, hdigit, hchars⟩ := h.number_chars hkind
  exact CLexer.formed_number htext hdigit hchars

end Lexer

/-! ## Quoted texts -/

namespace CLexer

variable {quote : Char}

/-- The characters stand between quotes and do not end the text. -/
def Inside (quote : Char) (cs : List Char) : Prop :=
  ∀ rest, quotedTail quote false (cs ++ rest) =
    (quotedTail quote false rest).map fun (tail, rest) => (cs ++ tail, rest)

theorem inside_nil : Inside quote [] := fun rest => by simp

theorem Inside.append {cs ds : List Char} (hcs : Inside quote cs) (hds : Inside quote ds) :
    Inside quote (cs ++ ds) := by
  intro rest
  rw [List.append_assoc, hcs, hds, Option.map_map]
  simp [Function.comp_def]

theorem inside_plain {c : Char} (hquote : c ≠ quote) (hbreak : c ≠ '\n') (hescape : c ≠ '\\') :
    Inside quote [c] := by
  intro rest
  simp [quotedTail, hquote, hbreak, beq_eq_false_iff_ne.mpr hescape]

theorem inside_escaped {c : Char} (hquote : isQuote quote) (hbreak : c ≠ '\n') :
    Inside quote ['\\', c] := by
  intro rest
  have hescape : '\\' ≠ quote := by
    rintro rfl
    exact absurd hquote (by decide)
  simp [quotedTail, hescape, hbreak, Function.comp_def]

theorem inside_of_forall {cs : List Char}
    (h : ∀ c ∈ cs, c ≠ quote ∧ c ≠ '\n' ∧ c ≠ '\\') : Inside quote cs := by
  induction cs with
  | nil => exact inside_nil
  | cons c cs ih =>
    obtain ⟨⟨hquote, hbreak, hescape⟩, hcs⟩ := List.forall_mem_cons.mp h
    exact (inside_plain hquote hbreak hescape).append (ih hcs)

theorem Inside.closed {cs : List Char} (hquote : isQuote quote) (h : Inside quote cs) :
    quotedTail quote false (cs ++ [quote]) = some (cs ++ [quote], []) := by
  have hbreak : quote ≠ '\n' := by
    rintro rfl
    exact absurd hquote (by decide)
  rw [h]
  simp [quotedTail, hbreak]

theorem escape_of_forall {cs : List Char} (h : ∀ c ∈ cs, c ≠ '\\') (more : List Char) :
    CLiteral.escape (cs ++ more) = cs ++ CLiteral.escape more := by
  induction cs with
  | nil => rfl
  | cons c cs ih =>
    obtain ⟨hc, hcs⟩ := List.forall_mem_cons.mp h
    rw [List.cons_append, CLiteral.escape, ih hcs, List.cons_append]
    · rintro - rfl
      exact absurd rfl hc
    · rintro - - rfl
      exact absurd rfl hc

/-- A translated escape stands between quotes. -/
theorem inside_escape (hquote : isQuote quote) {cs text rest : List Char}
    (h : Lexer.escape cs = .ok (text, rest)) (more : List Char) :
    ∃ translated, CLiteral.escape ('\\' :: text ++ more) = '\\' :: translated ++ CLiteral.escape more ∧
      Inside quote ('\\' :: translated) := by
  cases cs with
  | nil => cases h
  | cons c cs =>
    simp only [Lexer.escape] at h
    split_ifs at h with hx hdigits hsimple
    · cases h
      obtain rfl := eq_of_beq hx
      -- Digits are neither quotes nor backslashes nor line breaks.
      have hdigit : ∀ d ∈ (cs.take 2).takeWhile Lexer.isHexDigit, Lexer.isHexDigit d := fun d hd =>
        List.mem_takeWhile_imp hd
      refine ⟨'x' :: (cs.take 2).takeWhile Lexer.isHexDigit, ?_, ?_⟩
      · rw [List.cons_append, List.cons_append, CLiteral.escape, escape_of_forall]
        · rfl
        · rintro d hd rfl
          exact absurd (hdigit _ hd) (by decide)
        · rintro ⟨⟩
      · refine (inside_escaped hquote (by decide)).append (inside_of_forall fun d hd => ?_)
        refine ⟨?_, ?_, ?_⟩ <;> rintro rfl
        · rcases Bool.or_eq_true_iff.mp hquote with hq | hq <;> obtain rfl := eq_of_beq hq <;>
            exact absurd (hdigit _ hd) (by decide)
        · exact absurd (hdigit _ hd) (by decide)
        · exact absurd (hdigit _ hd) (by decide)
    · cases h
      have hbreak : c ≠ '\n' := by
        rintro rfl
        exact absurd hsimple (by decide)
      -- Only `\e` is not copied: it becomes an octal escape.
      by_cases he : c = 'e'
      · subst he
        refine ⟨['0', '3', '3'], rfl, ?_⟩
        refine (inside_escaped hquote (by decide)).append (inside_of_forall fun d hd => ?_)
        rcases Bool.or_eq_true_iff.mp hquote with hq | hq <;> obtain rfl := eq_of_beq hq <;>
          revert d <;> decide
      · refine ⟨[c], ?_, inside_escaped hquote hbreak⟩
        rw [List.cons_append, List.singleton_append, CLiteral.escape]
        · rfl
        · exact fun heq => he heq

theorem inside_of_stringTail {start pos : Nat} {cs tail rest : List Char}
    (h : Lexer.stringTail start pos cs = .ok (tail, rest)) :
    ∃ body, tail = body ++ ['"'] ∧ Inside '"' (CLiteral.escape body) := by
  fun_induction Lexer.stringTail start pos cs generalizing tail rest with
  | case1 => cases h
  | case2 pos c cs hc =>
    cases h
    exact ⟨[], by rw [eq_of_beq hc]; rfl, inside_nil⟩
  | case3 => cases h
  | case4 => cases h
  | case5 pos c cs _ _ hc text rest' hescape _ ih =>
    obtain ⟨⟨tail', _⟩, htail, heq⟩ := Lexer.exists_of_map_eq_ok h
    cases heq
    obtain rfl := eq_of_beq hc
    obtain ⟨body, rfl, hbody⟩ := ih htail
    have hquote : isQuote '"' := by decide
    obtain ⟨translated, htext, hinside⟩ := inside_escape hquote hescape body
    refine ⟨'\\' :: text ++ body, by simp, ?_⟩
    rw [htext]
    exact hinside.append hbody
  | case6 pos c cs hquote hbreak hc ih =>
    obtain ⟨⟨tail', _⟩, htail, heq⟩ := Lexer.exists_of_map_eq_ok h
    cases heq
    obtain ⟨body, rfl, hbody⟩ := ih htail
    have hne : c ≠ '\\' := fun heq => hc (by simp [heq])
    refine ⟨c :: body, rfl, ?_⟩
    have hplain := @escape_of_forall [c] (List.forall_mem_singleton.mpr hne) body
    rw [List.singleton_append] at hplain
    rw [hplain]
    refine Inside.append (inside_plain ?_ ?_ hne) hbody
    · exact fun heq => hquote (by simp [heq])
    · exact fun heq => hbreak (by simp [heq])

theorem inside_of_charTail {start pos : Nat} {cs tail rest : List Char}
    (h : Lexer.charTail start pos cs = .ok (tail, rest)) :
    ∃ body, tail = body ++ ['\''] ∧ Inside '\'' (CLiteral.escape body) ∧
      ∃ c more, CLiteral.escape body = c :: more ∧ c ≠ '\'' := by
  cases cs with
  | nil => cases h
  | cons c cs =>
    rw [Lexer.charTail] at h
    split_ifs at h with hbreak hescape
    · split at h
      · cases h
      · rename_i text rest' hread
        obtain ⟨⟨tail', _⟩, htail, heq⟩ := Lexer.exists_of_map_eq_ok h
        cases heq
        obtain rfl := eq_of_beq hescape
        rw [(Lexer.eq_of_closeQuote htail).1]
        have hquote : isQuote '\'' := by decide
        obtain ⟨translated, htext, hinside⟩ := inside_escape hquote hread []
        rw [List.append_nil] at htext
        refine ⟨'\\' :: text, rfl, ?_⟩
        rw [htext, CLiteral.escape, List.append_nil]
        exact ⟨hinside, '\\', translated, rfl, by decide⟩
    · obtain ⟨⟨tail', _⟩, htail, heq⟩ := Lexer.exists_of_map_eq_ok h
      cases heq
      simp only [Bool.or_eq_true, beq_iff_eq, not_or] at hbreak hescape
      rw [(Lexer.eq_of_closeQuote htail).1]
      have hplain := @escape_of_forall [c] (List.forall_mem_singleton.mpr hescape) []
      rw [List.singleton_append] at hplain
      refine ⟨[c], rfl, ?_⟩
      rw [hplain]
      exact ⟨inside_plain hbreak.1 hbreak.2 hescape, c, [], rfl, hbreak.1⟩

theorem formed_quoted (hquote : isQuote quote) {cs : List Char} (h : Inside quote cs)
    (hchar : quote = '\'' → ∃ c more, cs = c :: more ∧ c ≠ '\'') {text : String}
    (htext : text.toList = quote :: (cs ++ [quote])) : (CLiteral.token text).Formed := by
  have htoken : CLiteral.token text = .quoted text := by
    rw [CLiteral.token, htext, List.head?_cons]
    exact if_pos hquote
  rw [htoken]
  refine ⟨quote, cs ++ [quote], htext, hquote, ?_⟩
  rw [quoted?, if_neg, h.closed hquote]
  rintro hempty
  simp only [Bool.and_eq_true, beq_iff_eq] at hempty
  obtain ⟨c, more, rfl, hc⟩ := hchar hempty.1
  exact hc (Option.some.inj hempty.2)

end CLexer

/-- What a string literal has between its quotes stays between them when it is escaped. -/
theorem Lexer.Legible.inside_string {lit : Literal}
    (h : Legible .stringLiteral ("\"" ++ lit.text ++ "\"").toList) :
    CLexer.Inside '"' (CLiteral.escape lit.text.toList) := by
  obtain ⟨c, cs, htext, hlexeme⟩ := lexeme_of_legible h
  have hlist : ("\"" ++ lit.text ++ "\"").toList = '"' :: (lit.text.toList ++ ['"']) := by simp
  rw [hlist] at htext hlexeme
  obtain ⟨rfl, rfl⟩ := List.cons.inj htext
  obtain ⟨⟨tail, rest⟩, htail, heq⟩ := exists_of_map_eq_ok hlexeme
  obtain rfl : lit.text.toList ++ ['"'] = tail := by cases heq; rfl
  obtain ⟨body, hbody, hinside⟩ := CLexer.inside_of_stringTail htail
  obtain rfl := List.append_cancel_right hbody
  exact hinside

theorem Lexer.Legible.string {lit : Literal}
    (h : Legible .stringLiteral ("\"" ++ lit.text ++ "\"").toList) :
    (CLiteral.string lit).Legible :=
  CLexer.formed_quoted (by decide) h.inside_string nofun (by simp)

/-- A character literal has a character between its quotes, and stays between them when it is
escaped. -/
theorem Lexer.Legible.inside_char {lit : Literal}
    (h : Legible .charLiteral ("'" ++ lit.text ++ "'").toList) :
    CLexer.Inside '\'' (CLiteral.escape lit.text.toList) ∧
      ∃ c more, CLiteral.escape lit.text.toList = c :: more ∧ c ≠ '\'' := by
  obtain ⟨c, cs, htext, hlexeme⟩ := lexeme_of_legible h
  have hlist : ("'" ++ lit.text ++ "'").toList = '\'' :: (lit.text.toList ++ ['\'']) := by simp
  rw [hlist] at htext hlexeme
  obtain ⟨rfl, rfl⟩ := List.cons.inj htext
  obtain ⟨⟨tail, rest⟩, htail, heq⟩ := exists_of_map_eq_ok hlexeme
  obtain rfl : lit.text.toList ++ ['\''] = tail := by cases heq; rfl
  obtain ⟨body, hbody, hinside, hchar⟩ := CLexer.inside_of_charTail htail
  obtain rfl := List.append_cancel_right hbody
  exact ⟨hinside, hchar⟩

theorem Lexer.Legible.char {lit : Literal}
    (h : Legible .charLiteral ("'" ++ lit.text ++ "'").toList) : (CLiteral.char lit).Legible :=
  CLexer.formed_quoted (by decide) h.inside_char.1 (fun _ => h.inside_char.2) (by simp)

theorem Lowering.legible_null : CExpr.null.Legible :=
  formed_word_of_all (by decide +kernel) (by decide +kernel)

theorem Lowering.legible_bool (b : Bool) : (CLiteral.bool b).Legible := by
  cases b
  · exact formed_word_of_all (by decide +kernel) (by decide +kernel)
  · exact formed_word_of_all (by decide +kernel) (by decide +kernel)

-- The kind of a token is known from the lemmas above: to evaluate it is slow and never needed.
attribute [local irreducible] CLiteral.token

/-! ## Operands of parsed units -/

/-- The words of the operand, not counting those of operands in it, are tokens of C. -/
def Value.Legible : Value → Prop
  | .number lit | .decimal lit => (CLexeme.number lit.text).Formed
  | .string lit => (CLiteral.string lit).Legible
  | .char lit => (CLiteral.char lit).Legible
  | .ident name | .call _ name _ _ _ => ∀ part ∈ name.parts, (CLexeme.word part.text).Formed
  | _ => True

theorem Value.legible_of_readable {v : Value} (h : Dump.Readable v.pieces) : v.Legible := by
  have hname {name : DottedName} (h : Dump.Readable name.pieces) :
      ∀ part ∈ name.parts, (CLexeme.word part.text).Formed := fun part hpart =>
    Lexer.Legible.word (Dump.legible_of_joined h part hpart)
  cases v with
  | number lit => exact Lexer.Legible.number (by decide) (Dump.readable_cons.mp h).1
  | decimal lit => exact Lexer.Legible.number (by decide) (Dump.readable_cons.mp h).1
  | string lit => exact Lexer.Legible.string (Dump.readable_cons.mp h).1
  | char lit => exact Lexer.Legible.char (Dump.readable_cons.mp h).1
  | ident name => exact hname h
  | call span callee args target defaulted => exact hname (Dump.readable_append.mp h).1
  | _ => trivial

/-- What is known of an operand as it is parsed. -/
structure Value.Parsed (v : Value) : Prop where
  shaped : v.Shaped
  legible : v.Legible

theorem SourceUnit.parsed_operands {file : Nat} {text : String} {unit : SourceUnit}
    (h : SourceUnit.parse file text = .ok unit) :
    ∀ n ∈ unit.nodes, ∀ e ∈ n.exprs, ∀ o ∈ e.operands [], o.value.Parsed := fun n hn e he o ho =>
  ⟨SourceUnit.shaped_of_parse h n hn e he o ho,
    Value.legible_of_readable (SourceUnit.readable_operands h n hn e he o ho)⟩

/-! ## Slots -/

section Slots

variable {f : Slots}

@[simp] theorem Value.takesSuffix_refill (v : Value) :
    (v.refill f).takesSuffix = v.takesSuffix := by
  cases v <;> rfl

/-- What is known of a parsed operand does not depend on its slots. -/
theorem Value.parsed_refill {v : Value} : (v.refill f).Parsed ↔ v.Parsed := by
  have hshaped : (v.refill f).Shaped ↔ v.Shaped := by
    cases v <;> simp [Value.refill, Value.Shaped]
  have hlegible : (v.refill f).Legible ↔ v.Legible := by
    cases v <;> simp [Value.refill, Value.Legible, DottedName.refill]
  exact ⟨fun h => ⟨hshaped.mp h.shaped, hlegible.mp h.legible⟩,
    fun h => ⟨hshaped.mpr h.shaped, hlegible.mpr h.legible⟩⟩

mutual

/-- The operands of an expression with other slots are its operands with other slots, copied from
wherever. -/
theorem Expr.values_refill : ∀ (e : Expr) (inside inside' : List DeclId),
    ((e.refill f).operands inside).map (·.value) =
      (e.operands inside').map fun o => o.value.refill f
  | .mk _ c, inside, inside' => by
    simp only [Expr.refill, Expr.operands]
    exact Chain.values_refill c inside inside'

theorem Chain.values_refill : ∀ (c : Chain) (inside inside' : List DeclId),
    ((c.refill f).operands inside).map (·.value) =
      (c.operands inside').map fun o => o.value.refill f
  | .operand v, inside, inside' => by
    simp only [Chain.refill, Chain.operands]
    exact Value.values_refill v inside inside'
  | .link v _ rest, inside, inside' => by
    simp only [Chain.refill, Chain.operands, List.map_append,
      Value.values_refill v inside inside', Chain.values_refill rest inside inside']

theorem Value.values_refill : ∀ (v : Value) (inside inside' : List DeclId),
    ((v.refill f).operands inside).map (·.value) =
      (v.operands inside').map fun o => o.value.refill f
  | .call _ _ args _ _, inside, inside' => by
    simp only [Value.refill, Value.operands, List.map_cons]
    exact congrArg _ (Value.values_refillEach args _ _ _ _ _ _)
  | .index _ base position, inside, inside' => by
    simp only [Value.refill, Value.operands, List.map_cons, List.map_append,
      Value.values_refill base inside inside', Expr.values_refill position inside inside']
  | .ref _ inner, inside, inside' | .prefixed _ _ inner, inside, inside'
  | .suffixed _ _ inner, inside, inside' => by
    simp only [Value.refill, Value.operands, List.map_cons,
      Value.values_refill inner inside inside']
  | .paren inner, inside, inside' => by
    simp only [Value.refill, Value.operands, List.map_cons,
      Expr.values_refill inner inside inside']
  | .ident _, _, _ | .number _, _, _ | .decimal _, _, _ | .string _, _, _ | .char _, _, _
  | .bool _ _, _, _ | .null _, _, _ => rfl

theorem Value.values_refillEach : ∀ (es : List Expr) (inside copied : List DeclId)
    (written : Nat) (inside' copied' : List DeclId) (written' : Nat),
    (Value.operandsEach inside copied written (Value.refillEach f es)).map (·.value) =
      (Value.operandsEach inside' copied' written' es).map fun o => o.value.refill f
  | [], _, _, _, _, _, _ => rfl
  | e :: es, inside, copied, written, inside', copied', written' => by
    simp only [Value.refillEach, Value.operandsEach, List.map_append]
    rw [Expr.values_refill e _ (if written' = 0 then copied' else inside'),
      Value.values_refillEach es _ _ _ inside' copied' (written' - 1)]

end

theorem Expr.parsed_refill {e : Expr} :
    (∀ o ∈ (e.refill f).operands [], o.value.Parsed) ↔ ∀ o ∈ e.operands [], o.value.Parsed := by
  have hleft : (∀ o ∈ (e.refill f).operands [], o.value.Parsed) ↔
      ∀ v ∈ ((e.refill f).operands []).map (·.value), v.Parsed := by simp
  rw [hleft, e.values_refill [] []]
  simp [Value.parsed_refill]

end Slots

/-! ## Operands of checked units -/

namespace SourceUnit

variable {unit resolved : SourceUnit} {context : SemanticContext}

theorem OfText.parsed_operands (h : unit.OfText) :
    ∀ n ∈ unit.nodes, ∀ e ∈ n.exprs, ∀ o ∈ e.operands [], o.value.Parsed := by
  obtain ⟨file, text, parsed, hparse, hnodes⟩ := h
  intro n' hn'
  obtain ⟨n, hn, rfl | ⟨item, symbols, rfl, rfl⟩⟩ := forall₂_right hnodes hn'
  · exact SourceUnit.parsed_operands hparse _ hn
  · exact List.forall_mem_nil _

/-- Resolving fills slots only. -/
theorem resolved_operands (htext : unit.OfText) (h : unit.resolve = (resolved, .ok context)) :
    ∀ n ∈ resolved.nodes, ∀ e ∈ n.exprs, ∀ o ∈ e.operands [], o.value.Parsed := by
  have hbare := unit.refill_resolve
  rw [h] at hbare
  intro n' hn' e' he'
  have hmem : n'.refill .emptied ∈ unit.nodes.map (·.refill .emptied) := by
    rw [← hbare]
    exact List.mem_map_of_mem hn'
  obtain ⟨n, hn, hsame⟩ := List.mem_map.mp hmem
  have hexpr : e'.refill .emptied ∈ n.exprs.map (·.refill .emptied) := by
    rw [← Node.exprs_refill, hsame, Node.exprs_refill]
    exact List.mem_map_of_mem he'
  obtain ⟨e, he, hsame⟩ := List.mem_map.mp hexpr
  rw [← Expr.parsed_refill, ← hsame, Expr.parsed_refill]
  exact htext.parsed_operands n hn e he

end SourceUnit

/-- What lowering needs to know of an operand, not counting operands in it. -/
def Value.Lowerable : Value → Prop
  | .number lit | .decimal lit => (CLexeme.number lit.text).Formed
  | .string lit => (CLiteral.string lit).Legible
  | .char lit => (CLiteral.char lit).Legible
  | .ident name => (CLexeme.word name.written).Formed
  | .call _ callee args target _ => (CLexeme.word callee.written).Formed ∧
    ∀ ty, target = some (.cast ty) → callee.written = callee.text ∧ args.length = 1
  | .index _ base _ => base.takesSuffix
  | .suffixed _ op inner => (op = .inc ∨ op = .dec) ∧ inner.takesSuffix
  | .ref _ inner => inner.isAddressable
  | _ => True

theorem formed_countName : (CLexeme.word Lowering.countName).Formed :=
  formed_word_of_all (by decide +kernel) (by decide +kernel)

/-- A bound name is written as a word. -/
theorem DottedName.Bound.formed {context : SemanticContext} {visible : List Node}
    {scopes : List Frame} {vargs : Option Ty} {name : DottedName}
    (h : name.Bound context visible scopes vargs)
    (hparts : ∀ part ∈ name.parts, (CLexeme.word part.text).Formed) :
    (CLexeme.word name.written).Formed := by
  obtain ⟨r, hr, ⟨part, hpart, -⟩ | ⟨-, -, rfl⟩⟩ := h
  · by_cases hcount : r.binding = .varArgsLength
    · have hwritten : name.written = Lowering.countName := by
        simp [DottedName.written, DottedName.binding?, hr, hcount]
      rw [hwritten]
      exact formed_countName
    · rw [DottedName.written_single hpart hr hcount]
      exact hparts part (by simp [hpart])
  · have hwritten : name.written = Lowering.countName := by
      simp [DottedName.written, DottedName.binding?, hr]
    rw [hwritten]
    exact formed_countName

theorem Value.CompletesTo.takesSuffix_eq {decls : DeclTable} {inside : List DeclId} {v v' : Value}
    (h : Value.CompletesTo decls inside v v') : v'.takesSuffix = v.takesSuffix := by
  cases h <;> rfl

/-- What is known of a resolved operand, once its calls are complete. -/
theorem Value.CompletesTo.lowerable {decls : DeclTable} {inside : List DeclId} {v v' : Value}
    (h : Value.CompletesTo decls inside v v') (hparsed : v.Parsed) (hdecided : v.Decided)
    (hname : ∀ name, v.name? = some name → (CLexeme.word name.written).Formed)
    (hsound : v'.Sound) : v'.Lowerable := by
  obtain ⟨hshaped, hlegible⟩ := hparsed
  cases h with
  | leaf hleaf =>
    cases v with
    | ident name => exact hname name rfl
    | number | decimal | string | char => exact hlegible
    | bool | null => trivial
    | _ => cases hleaf
  | call written omitted =>
    obtain ⟨r, t, hr, rfl, hfits, hcount⟩ := hdecided
    refine ⟨hname _ rfl, fun ty hty => ?_⟩
    obtain rfl := Option.some.inj hty
    cases hfits
    cases omitted
    refine ⟨by simp [DottedName.written, DottedName.binding?, hr], ?_⟩
    rw [List.append_nil, written.length_eq, hcount _ rfl]
  | index base position => exact base.takesSuffix_eq.trans hshaped
  | ref inner => exact hsound
  | suffixed inner => exact ⟨hshaped.1, inner.takesSuffix_eq.trans hshaped.2⟩
  | prefixed inner => trivial
  | paren inner => trivial

namespace SourceUnit

variable {unit : SourceUnit} {a : Analyzed}

/-- **Operands can be lowered.** Each operand of a checked unit is written with words that are tokens
of C, and suffixes, references and casts are on operands that C takes there. -/
theorem lowerable_operands (htext : unit.OfText) (h : unit.analyzeBridged = .ok a) :
    ∀ n ∈ a.unit.nodes, ∀ e ∈ n.exprs, ∀ o ∈ e.operands [], o.value.Lowerable := by
  have horigin := SourceUnit.operand_origin
    (P := fun v => v.Parsed ∧ v.Decided ∧
      ∀ name, v.name? = some name → (CLexeme.word name.written).Formed) htext h ?_
  · intro n hn e he o ho
    obtain ⟨v, ⟨hparsed, hdecided, hname⟩, hcompletes⟩ := horigin n hn e he o ho
    exact hcompletes.lowerable hparsed hdecided hname (operands_sound htext h n hn e he o ho)
  · intro resolved hresolve _ _ n hn e he o ho
    have hparsed := resolved_operands htext hresolve n hn e he o ho
    obtain ⟨hdecided, visible, scopes, vargs, -, hbound⟩ := resolve_exprs hresolve hn he
    refine ⟨hparsed, hdecided o ho, fun name hname => ?_⟩
    refine (hbound name (Expr.name_mem_names o ho name hname)).formed ?_
    have hlegible := hparsed.legible
    cases hvalue : o.value with
    | ident _ | call _ _ _ _ _ =>
      rw [hvalue] at hname hlegible
      obtain rfl := Option.some.inj hname
      exact hlegible
    | _ =>
      rw [hvalue] at hname
      cases hname

end SourceUnit

/-! ## Lowering -/

theorem CLiteral.token_number {text : String} (h : (CLexeme.number text).Formed) :
    token text = .number text := by
  obtain ⟨c, cs, htext, hdigit, -⟩ := h
  rw [token, htext, List.head?_cons]
  simp [CLexer.not_isQuote_of_isDigit hdigit, hdigit]

/-- A text between quotes is one token. -/
theorem CLiteral.exists_quoted {quote : String} (hquote : quote.toList.head?.any CLexer.isQuote)
    (lit : Literal) : ∃ text, quoted quote lit = .literal text ∧ token text = .quoted text := by
  refine ⟨_, rfl, ?_⟩
  cases htext : quote.toList with
  | nil => simp [htext] at hquote
  | cons c cs =>
    rw [htext] at hquote
    have hc : CLexer.isQuote c := by simpa using hquote
    simp [token, htext, hc]

theorem CExpr.legibleEach_iff {es : List CExpr} : LegibleEach es ↔ ∀ e ∈ es, e.Legible := by
  induction es with
  | nil => exact iff_of_true trivial (List.forall_mem_nil _)
  | cons e es ih => rw [LegibleEach, List.forall_mem_cons, ih]

namespace Lowering

open CExpr (LegibleEach legibleEach_iff)

variable {m : DataModel}

theorem isSpecifier_ty (t : Ty) : ∀ text ∈ (ty m t).names, CType.IsSpecifier text := by
  have hknown : KnowsPrimitives m fun _ => true := fun _ _ _ => Bool.or_true _
  exact fun text htext => ((base_ty t text htext).denotes hknown).toIsSpecifier

theorem isSpecifier_named {callee : DottedName} (h : (CLexeme.word callee.text).Formed) (t : Ty) :
    ∀ text ∈ (named m callee t).names, CType.IsSpecifier text := by
  unfold named
  split
  · exact isSpecifier_ty t
  · exact List.forall_mem_singleton.mpr (isSpecifier_of_word h).1

theorem ident_eq (name : DottedName) : ident name = .name name.written := by
  unfold ident DottedName.written
  cases name.binding? with
  | none => rfl
  | some binding => cases binding <;> rfl

theorem legible_ident {name : DottedName} (h : (CLexeme.word name.written).Formed) :
    (ident name).Legible := by
  rw [ident_eq]
  exact h

theorem legible_readAs {type : Ty} {e : CExpr} (h : e.Legible) : (readAs type e).Legible := by
  unfold readAs
  split <;> exact h

theorem legible_readCall {target : Option CallTarget} {e : CExpr} (h : e.Legible) :
    (readCall target e).Legible := by
  unfold readCall
  split
  · exact h
  · exact legible_readAs h
  · exact h

theorem legible_number {text : String} (h : (CLexeme.number text).Formed) :
    (CExpr.literal text).Legible := by
  rw [CExpr.Legible, CLiteral.token_number h]
  exact h

theorem legible_restArgs {rest : Rest Ty} {args : List CExpr} (h : ∀ e ∈ args, e.Legible) :
    ∀ e ∈ restArgs m rest args, e.Legible := by
  have hcount (n : Nat) : (CExpr.literal (toString n)).Legible :=
    legible_number (CLexer.formed_decimal n)
  cases rest with
  | none => exact h
  | untyped => exact h
  | typed elem =>
    unfold restArgs
    dsimp only
    split
    · exact List.forall_mem_cons.mpr ⟨hcount 0, List.forall_mem_singleton.mpr legible_null⟩
    · have harray : (CExpr.array (.array (ty m elem) none) args).Legible :=
        ⟨isSpecifier_ty elem, legibleEach_iff.mpr h⟩
      exact List.forall_mem_cons.mpr ⟨hcount _, List.forall_mem_singleton.mpr harray⟩

theorem legible_applied {callee : DottedName} {args : List CExpr} {target : Option CallTarget}
    (hcallee : (CLexeme.word callee.written).Formed)
    (hcast : ∀ ty, target = some (.cast ty) → callee.written = callee.text ∧ args.length = 1)
    (hargs : ∀ e ∈ args, e.Legible) : (applied m callee args target).Legible := by
  have hhead : (readAs callee.ty (ident callee)).Legible := legible_readAs (legible_ident hcallee)
  have hpassed (sig : Signature Ty) :
      (CExpr.call (readAs callee.ty (ident callee)) (args.take sig.params.length ++
        restArgs m sig.rest (args.drop sig.params.length))).Legible := by
    refine ⟨hhead, legibleEach_iff.mpr (List.forall_mem_append.mpr ⟨?_, ?_⟩)⟩
    · exact fun e he => hargs e (List.mem_of_mem_take he)
    · exact legible_restArgs fun e he => hargs e (List.mem_of_mem_drop he)
  cases target with
  | none => exact ⟨hhead, legibleEach_iff.mpr hargs⟩
  | some target =>
    cases target with
    | function decl sig => exact hpassed sig
    | functionValue sig => exact hpassed sig
    | cFunction sig => exact hpassed sig
    | macroCall => exact ⟨hhead, legibleEach_iff.mpr hargs⟩
    | cast type =>
      obtain ⟨hwritten, hlength⟩ := hcast type rfl
      rw [hwritten] at hcallee
      obtain ⟨arg, rfl⟩ := List.length_eq_one_iff.mp hlength
      exact ⟨isSpecifier_named hcallee type, hargs arg List.mem_cons_self⟩

mutual

/-- **What is lowered is legible**, if the operands can be lowered. -/
theorem legible_value : ∀ {v : Value} {inside : List DeclId},
    (∀ o ∈ v.operands inside, o.value.Lowerable) → (value m v).Legible
  | .number _, _, h | .decimal _, _, h => by
    simp only [Value.operands, List.forall_mem_singleton] at h
    exact legible_number h
  | .string _, _, h | .char _, _, h => by
    simp only [Value.operands, List.forall_mem_singleton] at h
    exact h
  | .bool _ b, _, _ => legible_bool b
  | .null _, _, _ => legible_null
  | .ident name, _, h => by
    simp only [Value.operands, List.forall_mem_singleton] at h
    exact legible_readAs (legible_ident h)
  | .call _ callee args target defaulted, inside, h => by
    simp only [Value.operands, List.forall_mem_cons] at h
    obtain ⟨⟨hcallee, hcast⟩, hargs⟩ := h
    rw [value]
    refine legible_readCall (legible_applied hcallee (fun ty hty => ?_) (legible_storedEach hargs))
    rw [length_storedEach]
    exact hcast ty hty
  | .index _ base position, inside, h => by
    simp only [Value.operands, List.forall_mem_cons, List.forall_mem_append] at h
    exact ⟨legible_value h.2.1, legible_expr h.2.2⟩
  | .ref _ inner, inside, h => by
    simp only [Value.operands, List.forall_mem_cons] at h
    exact legible_pointer h.2
  | .prefixed _ op inner, inside, h => by
    simp only [Value.operands, List.forall_mem_cons] at h
    exact legible_value (v := inner) h.2
  | .suffixed _ op inner, inside, h => by
    simp only [Value.operands, List.forall_mem_cons] at h
    exact ⟨h.1.1, legible_value h.2⟩
  | .paren inner, inside, h => by
    simp only [Value.operands, List.forall_mem_cons] at h
    exact legible_expr h.2

theorem legible_pointer : ∀ {v : Value} {inside : List DeclId},
    (∀ o ∈ v.operands inside, o.value.Lowerable) → (pointer m v).Legible
  | .number _, _, h | .decimal _, _, h => by
    simp only [Value.operands, List.forall_mem_singleton] at h
    exact legible_number h
  | .string _, _, h | .char _, _, h => by
    simp only [Value.operands, List.forall_mem_singleton] at h
    exact h
  | .bool _ b, _, _ => legible_bool b
  | .null _, _, _ => legible_null
  | .ident name, _, h => by
    simp only [Value.operands, List.forall_mem_singleton] at h
    rw [pointer]
    split
    · exact legible_ident h
    · exact legible_ident h
  | .call _ callee args target defaulted, inside, h => by
    simp only [Value.operands, List.forall_mem_cons] at h
    obtain ⟨⟨hcallee, hcast⟩, hargs⟩ := h
    rw [pointer]
    refine legible_applied hcallee (fun ty hty => ?_) (legible_storedEach hargs)
    rw [length_storedEach]
    exact hcast ty hty
  | .index _ base position, inside, h => by
    simp only [Value.operands, List.forall_mem_cons, List.forall_mem_append] at h
    exact ⟨legible_value h.2.1, legible_expr h.2.2⟩
  | .ref _ inner, inside, h => by
    simp only [Value.operands, List.forall_mem_cons] at h
    exact legible_pointer (v := inner) h.2
  | .prefixed _ op inner, inside, h => by
    simp only [Value.operands, List.forall_mem_cons] at h
    exact legible_value (v := inner) h.2
  | .suffixed _ op inner, inside, h => by
    simp only [Value.operands, List.forall_mem_cons] at h
    exact ⟨h.1.1, legible_value h.2⟩
  | .paren (.mk _ (.operand inner)), inside, h => by
    simp only [Value.operands, Expr.operands, Chain.operands, List.forall_mem_cons] at h
    exact legible_pointer (v := inner) h.2
  | .paren (.mk _ (.link left op rest)), inside, h => by
    simp only [Value.operands, Expr.operands, Chain.operands, List.forall_mem_cons,
      List.forall_mem_append] at h
    exact ⟨legible_value h.2.1, legible_chain h.2.2⟩

theorem legible_expr : ∀ {e : Expr} {inside : List DeclId},
    (∀ o ∈ e.operands inside, o.value.Lowerable) → (expr m e).Legible
  | .mk _ c, inside, h => by
    simp only [Expr.operands] at h
    exact legible_chain h

theorem legible_chain : ∀ {c : Chain} {inside : List DeclId},
    (∀ o ∈ c.operands inside, o.value.Lowerable) → (chain m c).Legible
  | .operand v, inside, h => by
    simp only [Chain.operands] at h
    exact legible_value h
  | .link v op rest, inside, h => by
    simp only [Chain.operands, List.forall_mem_append] at h
    exact ⟨legible_value h.1, legible_chain h.2⟩

theorem legible_stored : ∀ {e : Expr} {expected : Ty} {inside : List DeclId},
    (∀ o ∈ e.operands inside, o.value.Lowerable) → (stored m expected e).Legible
  | .mk _ (.operand v), expected, inside, h => by
    simp only [Expr.operands, Chain.operands] at h
    rw [stored]
    split
    · exact legible_pointer h
    · exact legible_value h
  | .mk _ (.link left op rest), expected, inside, h => by
    simp only [Expr.operands, Chain.operands, List.forall_mem_append] at h
    exact ⟨legible_value h.1, legible_chain h.2⟩

theorem legible_storedEach : ∀ {es : List Expr} {types : List Ty} {inside copied : List DeclId}
    {written : Nat}, (∀ o ∈ Value.operandsEach inside copied written es, o.value.Lowerable) →
      ∀ e ∈ storedEach m types es, e.Legible
  | [], _, _, _, _, _ => by simp [storedEach]
  | e :: es, [], inside, copied, written, h => by
    simp only [Value.operandsEach, List.forall_mem_append] at h
    exact List.forall_mem_cons.mpr ⟨legible_expr h.1, legible_storedEach h.2⟩
  | e :: es, expected :: more, inside, copied, written, h => by
    simp only [Value.operandsEach, List.forall_mem_append] at h
    exact List.forall_mem_cons.mpr ⟨legible_stored h.1, legible_storedEach h.2⟩

end

end Lowering

end KilnLang
