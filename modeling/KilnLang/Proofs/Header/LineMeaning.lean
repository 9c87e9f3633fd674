import KilnLang.Proofs.Header.LineNumbers
import KilnLang.Proofs.Header.TokenCutting

/-!
# What the lines of a header say

Each logical line says something by itself (`said`): a macro, a header to include, or tokens of
declarations. The symbols and includes of a header are those of what its lines say one after the
other (`scan_said`), whatever their numbers are. Blanks at the ends of a line say nothing, and a
line of two parts that are no directives says what the parts say (`said_append`).
-/

namespace KilnLang.Header

open Lexer (isNameStart isNameChar)
open Text (isBlank Blank trim trimStart trimEnd)
open CToken (tokenize)

/-! ## Blanks around a text -/

section Blanks

variable {text blanks : List Char}

theorem trimStart_of_blank (h : Blank blanks) (text : List Char) :
    trimStart (blanks ++ text) = trimStart text :=
  List.dropWhile_append_of_pos h

theorem trimStart_eq_nil (h : Blank text) : trimStart text = [] :=
  List.dropWhile_eq_nil_iff.mpr h

theorem trimStart_append_of_not_blank (h : ¬ Blank text) (more : List Char) :
    trimStart (text ++ more) = trimStart text ++ more := by
  have hne : trimStart text ≠ [] := fun hnil => h (List.dropWhile_eq_nil_iff.mp hnil)
  rw [trimStart, List.dropWhile_append, if_neg (by simpa [trimStart] using hne)]
  rfl

/-- What is left of a text when blanks follow it is what is left of the text, and blanks. -/
theorem trimStart_append_blank (h : Blank blanks) (text : List Char) :
    ∃ blanks', Blank blanks' ∧ trimStart (text ++ blanks) = trimStart text ++ blanks' := by
  by_cases htext : Blank text
  · refine ⟨[], nofun, ?_⟩
    rw [trimStart_eq_nil htext, trimStart_eq_nil (htext.append h), List.nil_append]
  · exact ⟨blanks, h, trimStart_append_of_not_blank htext blanks⟩

theorem trim_append_blank (h : Blank blanks) (text : List Char) :
    trim (text ++ blanks) = trim text := by
  obtain ⟨blanks', hblanks', hstart⟩ := trimStart_append_blank h text
  have hreverse : ∀ c ∈ blanks'.reverse, isBlank c = true :=
    fun c hc => hblanks' c (List.mem_reverse.mp hc)
  rw [trim, hstart, trimEnd, List.reverse_append, List.dropWhile_append_of_pos hreverse]
  rfl

theorem tokenize_append_blank (h : Blank blanks) (text : List Char) :
    tokenize (text ++ blanks) = tokenize text := by
  cases blanks with
  | nil => rw [List.append_nil]
  | cons b more =>
    obtain ⟨hb, hmore⟩ := List.forall_mem_cons.mp h
    rw [tokenize_append hb (.inr hmore), tokenize_eq_nil hmore, List.append_nil]

/-- A name ends at blanks. -/
theorem cut_name_append (h : Blank blanks) (text : List Char) :
    (text ++ blanks).takeWhile isNameChar = text.takeWhile isNameChar ∧
      (text ++ blanks).dropWhile isNameChar = text.dropWhile isNameChar ++ blanks := by
  cases blanks with
  | nil => simp
  | cons b more =>
    exact takeWhile_cut (endsTokens_of_isBlank (h b List.mem_cons_self)).name text more

theorem bodyValue_append_blank (h : Blank blanks) (body : List Char) :
    bodyValue (body ++ blanks) = bodyValue body := by
  rw [bodyValue, bodyValue, tokenize_append_blank h]

theorem splitName_append_blank (h : Blank blanks) (text : List Char) :
    splitName (text ++ blanks) = ((splitName text).1, (splitName text).2 ++ blanks) := by
  cases text with
  | nil =>
    cases blanks with
    | nil => rfl
    | cons b more =>
      have hname := (endsTokens_of_isBlank (h b List.mem_cons_self)).name
      have hstart : isNameStart b = false := (Bool.or_eq_false_iff.mp hname).1
      simp [splitName, hstart]
  | cons c text =>
    obtain ⟨htake, hdrop⟩ := cut_name_append h (c :: text)
    simp only [splitName, List.cons_append] at htake hdrop ⊢
    split
    · rw [htake, hdrop]
    · rfl

/-- A text that has the character is cut there, whatever follows the text. -/
theorem cut_at_append {c : Char} (h : c ∈ text) (more : List Char) :
    (text ++ more).takeWhile (· != c) = text.takeWhile (· != c) ∧
      ((text ++ more).dropWhile (· != c)).drop 1 =
        (text.dropWhile (· != c)).drop 1 ++ more := by
  induction text with
  | nil => exact nomatch h
  | cons d text ih =>
    by_cases hd : d = c
    · simp [hd]
    · have hmem : c ∈ text := (List.mem_cons.mp h).resolve_left (Ne.symm hd)
      simpa [hd] using ih hmem

/-- Blanks have no part in a definition: they end its name, or are at the end of its body. -/
theorem definition_append_blank (h : Blank blanks) (text : List Char) :
    definition (text ++ blanks) = definition text := by
  obtain ⟨blanks, h, hstart⟩ := trimStart_append_blank h text
  have hsplit := splitName_append_blank h (trimStart text)
  have hnot : ∀ {c : Char}, isBlank c = false → c ∉ blanks := fun hc hmem =>
    Bool.false_ne_true (hc.symm.trans (h _ hmem))
  simp only [definition, hstart, hsplit]
  cases hafter : (splitName (trimStart text)).2 with
  | nil =>
    have hbody : bodyValue blanks = bodyValue [] := bodyValue_append_blank h []
    rw [List.nil_append]
    split
    · rfl
    · split
      · exact absurd List.mem_cons_self (hnot (c := '(') (by decide))
      · rw [hbody]
  | cons c after =>
    by_cases hc : c = '('
    · subst hc
      have hnone : ')' ∉ blanks := hnot (by decide)
      simp only [List.cons_append, List.contains_eq_mem, List.mem_append, hnone, or_false]
      by_cases hmem : ')' ∈ after
      · obtain ⟨hparams, hbody⟩ := cut_at_append hmem blanks
        rw [hparams, hbody, bodyValue_append_blank h]
      · simp only [hmem, decide_false, Bool.false_eq_true, if_false]
    · have hbody : bodyValue (c :: (after ++ blanks)) = bodyValue (c :: after) :=
        bodyValue_append_blank h (c :: after)
      simp [hc, hbody]

theorem includeTarget?_append_blank (h : Blank blanks) (text : List Char) :
    includeTarget? (text ++ blanks) = includeTarget? text := by
  rw [includeTarget?, includeTarget?, trim_append_blank h]

theorem directive?_append_blank (h : Blank blanks) (line : List Char) :
    ∃ blanks', Blank blanks' ∧
      directive? (line ++ blanks) = (directive? line).map fun d => (d.1, d.2 ++ blanks') := by
  obtain ⟨blanks', hblanks', hstart⟩ := trimStart_append_blank h line
  rw [directive?, directive?, hstart]
  cases hline : trimStart line with
  | nil =>
    refine ⟨[], List.forall_mem_nil _, ?_⟩
    rw [List.nil_append]
    split
    · have hhash := hblanks' _ List.mem_cons_self
      exact absurd hhash (by decide)
    · rfl
  | cons c cs =>
    by_cases hc : c = '#'
    · subst hc
      obtain ⟨blanks, hblanks, hrest⟩ := trimStart_append_blank hblanks' cs
      obtain ⟨htake, hdrop⟩ := cut_name_append hblanks (trimStart cs)
      refine ⟨blanks, hblanks, ?_⟩
      simp only [List.cons_append, hrest, htake, hdrop]
      rfl
    · refine ⟨[], List.forall_mem_nil _, ?_⟩
      simp [hc]

end Blanks

/-! ## Lines -/

/-- A thing that a line of a header says. -/
inductive Item where
  | symbol (s : HeaderSymbol)
  | header (name : String)
  | token (t : CToken)
  deriving DecidableEq, Repr

namespace Item

def symbol? : Item → Option HeaderSymbol
  | .symbol s => some s
  | _ => none

def header? : Item → Option String
  | .header name => some name
  | _ => none

def token? : Item → Option CToken
  | .token t => some t
  | _ => none

end Item

/-- What the text of a line says. -/
def said (line : List Char) : List Item :=
  match directive? line with
  | none => (tokenize line).map .token
  | some (name, text) =>
    if name == "define" then
      match definition text with
      | .ok s => [.symbol s]
      | .error _ => []
    else if ["include", "include_next", "import"].contains name then
      (includeTarget? text).toList.map .header
    else []

/-- The text that a line adds to the declarations. -/
def declared (line : List Char) : List Char :=
  if directive? line = none then line ++ ['\n'] else []

theorem addLine_said (d : Directives) (depth : Nat) (line : LogicalLine) :
    (d.addLine depth line).1.macros = d.macros ++ (said line.text).filterMap Item.symbol? ∧
      (d.addLine depth line).1.includes = d.includes ++ (said line.text).filterMap Item.header? ∧
      (d.addLine depth line).1.declarations = d.declarations ++ declared line.text := by
  have htokens : ∀ ts : List CToken, (ts.map Item.token).filterMap Item.symbol? = [] ∧
      (ts.map Item.token).filterMap Item.header? = [] := by
    intro ts
    constructor <;> simp [Item.symbol?, Item.header?]
  have hheaders : ∀ names : List String, (names.map Item.header).filterMap Item.symbol? = [] ∧
      (names.map Item.header).filterMap Item.header? = names := by
    intro names
    constructor <;> simp [Item.symbol?, Item.header?, List.filterMap_map, Function.comp_def]
  unfold Directives.addLine said declared
  cases directive? line.text with
  | none => simp [htokens]
  | some p =>
    rw [if_neg (Option.some_ne_none p)]
    dsimp only
    by_cases hdefine : (p.1 == "define") = true
    · simp only [if_pos hdefine]
      cases definition p.2 <;> simp [Item.symbol?, Item.header?]
    · simp only [if_neg hdefine]
      by_cases hinclude : (["include", "include_next", "import"].contains p.1) = true
      · simp only [if_pos hinclude]
        simp [hheaders]
      · simp only [if_neg hinclude]
        split_ifs <;> simp

theorem addLines_said (d : Directives) (depth last : Nat) (lines : List LogicalLine) :
    (d.addLines depth last lines).macros =
        d.macros ++ (lines.flatMap (said ·.text)).filterMap Item.symbol? ∧
      (d.addLines depth last lines).includes =
        d.includes ++ (lines.flatMap (said ·.text)).filterMap Item.header? ∧
      (d.addLines depth last lines).declarations =
        d.declarations ++ lines.flatMap (declared ·.text) := by
  induction lines generalizing d depth last with
  | nil =>
    rw [Directives.addLines]
    split <;> simp
  | cons line lines ih =>
    obtain ⟨hmacros, hincludes, hdeclared⟩ := addLine_said d depth line
    obtain ⟨ihmacros, ihincludes, ihdeclared⟩ :=
      ih (d.addLine depth line).1 (d.addLine depth line).2 line.number
    rw [Directives.addLines, ihmacros, ihincludes, ihdeclared, hmacros, hincludes, hdeclared]
    simp

/-- No line ends in a backslash, so a quote is closed where a line ends. -/
theorem getLast?_lineShare (raw : List Char) : (lineShare raw).getLast? ≠ some '\\' := by
  unfold lineShare
  cases hjoin : dropFinal? '\\' (withoutReturn raw) with
  | some joined => simp
  | none =>
    intro hlast
    rw [dropFinal?, if_pos hlast] at hjoin
    exact Option.some_ne_none _ hjoin

theorem getLast?_joinedText (group : List (List Char)) :
    (joinedText group).getLast? ≠ some '\\' := by
  induction group with
  | nil => exact nofun
  | cons raw group ih =>
    intro hlast
    have hsplit : joinedText (raw :: group) = lineShare raw ++ joinedText group := rfl
    rw [hsplit, List.getLast?_append] at hlast
    cases hmore : (joinedText group).getLast? with
    | none =>
      rw [hmore] at hlast
      exact getLast?_lineShare raw hlast
    | some c =>
      rw [hmore] at hlast
      exact ih (hmore.trans hlast)

theorem getLast?_line {text : List Char} {line : LogicalLine} (h : line ∈ logicalLines text) :
    line.text.getLast? ≠ some '\\' := by
  obtain ⟨groups, -, hlines⟩ := exists_groups [] (List.forall_mem_nil _) 1
    (Text.splitAt '\n' text)
  have hmem : line ∈ numbered 1 groups := hlines ▸ h
  obtain ⟨-, group, -, -, rfl⟩ := mem_numbered hmem
  exact getLast?_joinedText group

/-- The tokens of the declarations are those of the lines. -/
theorem tokenize_declared {lines : List (List Char)}
    (h : ∀ line ∈ lines, line.getLast? ≠ some '\\') :
    tokenize (lines.flatMap declared) = (lines.flatMap said).filterMap Item.token? := by
  induction lines with
  | nil => simp [tokenize]
  | cons line lines ih =>
    obtain ⟨hline, hlines⟩ := List.forall_mem_cons.mp h
    rw [List.flatMap_cons, List.flatMap_cons, List.filterMap_append, ← ih hlines, declared]
    split
    · rename_i hnone
      have htokens : (said line).filterMap Item.token? = tokenize line := by
        simp [said, hnone, Item.token?, List.filterMap_map, Function.comp_def]
      rw [htokens, List.append_assoc, List.singleton_append,
        tokenize_append (by decide) (.inl (closesQuotes_line hline none))]
    · rename_i hsome
      obtain ⟨d, hd⟩ := Option.ne_none_iff_exists'.mp hsome
      have htokens : (said line).filterMap Item.token? = [] := by
        simp only [said, hd]
        split_ifs <;> first | (split <;> simp [Item.token?]) | simp [Item.token?]
      rw [htokens]
      rfl

/-! ## Headers -/

/-- The texts of the logical lines of a text without comments. -/
def lineTexts (text : List Char) : List (List Char) := (logicalLines text).map (·.text)

/-- What a text without comments says. -/
def textSays (text : List Char) : List Item := (lineTexts text).flatMap said

/-- The symbols of what a header says: the macros, then the declarations. -/
def symbolsOf (items : List Item) : List HeaderSymbol :=
  items.filterMap Item.symbol? ++
    (DeclScan.run ⟨[], [], false, [], []⟩ (items.filterMap Item.token?)).symbols

/-- **A header says what its lines say.** -/
theorem scan_said (contents : String) :
    (scan contents).symbols = symbolsOf (textSays (stripComments .plain contents.toList)) ∧
      (scan contents).includes =
        (textSays (stripComments .plain contents.toList)).filterMap Item.header? := by
  have hlines : ∀ line ∈ lineTexts (stripComments .plain contents.toList),
      line.getLast? ≠ some '\\' := by
    intro text htext
    obtain ⟨line, hline, rfl⟩ := List.mem_map.mp htext
    exact getLast?_line hline
  obtain ⟨hmacros, hincludes, hdeclared⟩ := addLines_said ⟨[], [], [], []⟩ 0 1
    (logicalLines (stripComments .plain contents.toList))
  have htokens := tokenize_declared hlines
  have htexts : ∀ {α : Type} (f : List Char → List α) (lines : List LogicalLine),
      lines.flatMap (fun line => f line.text) = (lines.map (·.text)).flatMap f := by
    intro α f lines
    rw [List.flatMap_map]
  rw [htexts] at hmacros hincludes hdeclared
  constructor
  · show (directives contents).macros ++
      (DeclScan.run _ (tokenize (directives contents).declarations)).symbols = _
    rw [directives, hmacros, hdeclared, List.nil_append, List.nil_append, ← lineTexts, htokens]
    rfl
  · rw [textSays]
    exact hincludes

/-! ## Parts of a line -/

section Parts

variable {blanks p q : List Char}

theorem said_of_blank (h : Blank blanks) (line : List Char) :
    said (blanks ++ line) = said line := by
  rw [said, said, directive?, directive?, trimStart_of_blank h, tokenize_of_blank h]

theorem said_eq_nil (h : Blank blanks) : said blanks = [] := by
  have hsaid := said_of_blank h []
  have hnone : said [] = [] := by simp [said, directive?, trimStart, tokenize]
  rwa [List.append_nil, hnone] at hsaid

theorem said_append_blank (h : Blank blanks) (line : List Char) :
    said (line ++ blanks) = said line := by
  obtain ⟨blanks', hblanks', hdirective⟩ := directive?_append_blank h line
  rw [said, said, hdirective, tokenize_append_blank h]
  cases directive? line with
  | none => rfl
  | some d =>
    simp only [Option.map_some, definition_append_blank hblanks',
      includeTarget?_append_blank hblanks']

theorem directive?_eq_none_iff {line : List Char} :
    directive? line = none ↔ ∀ cs, trimStart line ≠ '#' :: cs := by
  unfold directive?
  split
  · rename_i cs hline
    exact ⟨nofun, fun h => absurd hline (h cs)⟩
  · rename_i hline
    exact ⟨fun _ => hline, fun _ => rfl⟩

/-- A line of two parts that are no directives says what the parts say. -/
theorem said_append (hp : directive? p = none) (hq : directive? q = none) (h : Blank blanks)
    (hne : blanks ≠ []) (hclosed : closesQuotes none p = true) :
    said (p ++ blanks ++ q) = said p ++ said q := by
  have hnone : directive? (p ++ blanks ++ q) = none := by
    rw [directive?_eq_none_iff] at hp hq ⊢
    intro cs
    by_cases hblank : Blank p
    · rw [trimStart_of_blank (hblank.append h)]
      exact hq cs
    · rw [List.append_assoc, trimStart_append_of_not_blank hblank]
      intro heq
      cases hstart : trimStart p with
      | nil => exact hblank (List.dropWhile_eq_nil_iff.mp hstart)
      | cons c rest =>
        rw [hstart, List.cons_append] at heq
        exact hp rest ((List.cons.inj heq).1 ▸ hstart)
  obtain ⟨b, more, rfl⟩ := List.exists_cons_of_ne_nil hne
  obtain ⟨hb, hmore⟩ := List.forall_mem_cons.mp h
  have hcuts : CutsBefore p b (more ++ q) := by
    refine .inl ?_
    rw [closesQuotes_append hclosed, closesQuotes, if_neg (endsTokens_of_isBlank hb).quote]
    rfl
  have htokens : tokenize (p ++ (b :: more) ++ q) = tokenize p ++ tokenize q := by
    rw [List.append_assoc, List.cons_append, tokenize_append hb hcuts, tokenize_of_blank hmore]
  simp only [said, hnone, hp, hq, htokens, List.map_append]

end Parts

end KilnLang.Header
