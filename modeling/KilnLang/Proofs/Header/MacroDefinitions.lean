import KilnLang.Header.Table
import KilnLang.Proofs.Header.LineReading

/-!
# Definitions of macros with parameters

A definition of a macro whose name touches an opening parenthesis gives the macro its list of
parameters says (`adds_of_declares`), and only a warning if no list of parameters and closing
parenthesis follow (`warns_of_not_declares`). Both are about one logical line; a scan has what each
of its lines adds (`mem_symbols_of_adds`, `mem_warnings_of_warns`), and a definition after any text
that `EndsLine` is a line of its own (`exists_definition_line`).
-/

namespace KilnLang.Header

open Lexer (isNameChar)
open Text (isBlank Blank)

/-! ## Lines of a header -/

/-- All lines after some that are not left open are joined on their own. -/
theorem joinLines_append {raws : List (List Char)} (hraws : raws ≠ [])
    (hlast : ∀ raw ∈ raws.getLast?, dropFinal? '\\' (withoutReturn raw) = none)
    (number : Nat) (open? : Option LogicalLine) (more : List (List Char)) :
    joinLines number open? (raws ++ more) =
      joinLines number open? raws ++ joinLines (number + raws.length) none more := by
  induction raws generalizing number open? with
  | nil => exact absurd rfl hraws
  | cons raw raws ih =>
    by_cases hshort : raws = []
    · subst hshort
      have hjoin := hlast raw rfl
      rw [List.singleton_append, joinLines_of_none hjoin, joinLines_of_none hjoin]
      rfl
    · have hmore := ih hshort fun raw' h =>
        hlast raw' (by simp [List.getLast?_cons, Option.mem_def.mp h])
      rw [List.cons_append]
      cases hjoin : dropFinal? '\\' (withoutReturn raw) with
      | none =>
        rw [joinLines_of_none hjoin, joinLines_of_none hjoin, hmore, List.cons_append,
          List.length_cons, Nat.add_right_comm, Nat.add_assoc]
      | some joined =>
        rw [joinLines_of_some hjoin, joinLines_of_some hjoin, hmore, List.length_cons,
          Nat.add_right_comm, Nat.add_assoc]

/-- The text can stand before a directive: it is empty, or it ends in a line break outside of
comments and quotes that does not continue its line. -/
def EndsLine (before : List Char) : Prop :=
  before = [] ∨ ∃ lines,
    (∀ cs, stripComments .plain (before ++ cs) = lines ++ '\n' :: stripComments .plain cs) ∧
    ∀ raw ∈ (Text.splitAt '\n' lines).getLast?, dropFinal? '\\' (withoutReturn raw) = none

/-- What follows such a text starts a logical line, which has the number of its first line. -/
theorem EndsLine.logicalLines {before : List Char} (h : EndsLine before) (cs : List Char) :
    ∃ done, Header.logicalLines (stripComments .plain (before ++ cs)) =
      done ++ joinLines (before.count '\n' + 1) none
        (Text.splitAt '\n' (stripComments .plain cs)) := by
  rcases h with rfl | ⟨lines, hlines, hlast⟩
  · exact ⟨[], rfl⟩
  · have hcount : before.count '\n' = lines.count '\n' + 1 := by
      have hbefore := hlines []
      rw [List.append_nil] at hbefore
      rw [← count_stripComments .plain before, hbefore]
      simp [stripComments]
    refine ⟨joinLines 1 none (Text.splitAt '\n' lines), ?_⟩
    rw [Header.logicalLines, hlines, Text.splitAt_append_append,
      joinLines_append (Text.splitAt_ne_nil _ _) hlast, Text.length_splitAt, hcount]
    rw [Nat.add_comm 1]

/-! ## What lines add -/

/-- The line defines a macro, and says nothing else. -/
def LogicalLine.Adds (line : LogicalLine) (symbol : HeaderSymbol) : Prop :=
  ∀ d depth, Directives.addLine d depth line = ({ d with macros := d.macros ++ [symbol] }, depth)

/-- The line gives a warning, and nothing else. -/
def LogicalLine.Warns (line : LogicalLine) (flaw : DirectiveFlaw) : Prop :=
  ∀ d depth, Directives.addLine d depth line =
    ({ d with warnings := d.warnings ++ [(line.number, flaw)] }, depth)

theorem addLine_keeps (d : Directives) (depth : Nat) (line : LogicalLine) :
    d.macros ⊆ (d.addLine depth line).1.macros ∧
      d.warnings ⊆ (d.addLine depth line).1.warnings := by
  unfold Directives.addLine
  cases directive? line.text with
  | none => simp
  | some p =>
    dsimp only
    split_ifs <;> first | (split <;> simp) | simp

theorem addLines_keeps (d : Directives) (depth last : Nat) (lines : List LogicalLine) :
    d.macros ⊆ (d.addLines depth last lines).macros ∧
      d.warnings ⊆ (d.addLines depth last lines).warnings := by
  induction lines generalizing d depth last with
  | nil =>
    rw [Directives.addLines]
    split <;> simp
  | cons line lines ih =>
    have hline := addLine_keeps d depth line
    have hlines := ih (d.addLine depth line).1 (d.addLine depth line).2 line.number
    exact ⟨List.Subset.trans hline.1 hlines.1, List.Subset.trans hline.2 hlines.2⟩

/-- What a line adds is there after all lines. -/
theorem exists_addLine {line : LogicalLine} {lines : List LogicalLine} (hline : line ∈ lines)
    (d : Directives) (depth last : Nat) : ∃ d' depth',
      (Directives.addLine d' depth' line).1.macros ⊆ (d.addLines depth last lines).macros ∧
      (Directives.addLine d' depth' line).1.warnings ⊆ (d.addLines depth last lines).warnings := by
  induction lines generalizing d depth last with
  | nil => exact nomatch hline
  | cons first lines ih =>
    rcases List.mem_cons.mp hline with rfl | hline
    · exact ⟨d, depth, addLines_keeps _ _ _ lines⟩
    · exact ih hline _ _ _

/-- The logical lines of a header. -/
def linesOf (contents : String) : List LogicalLine :=
  logicalLines (stripComments .plain contents.toList)

variable {contents : String} {line : LogicalLine}

theorem mem_symbols_of_adds {symbol : HeaderSymbol} (hline : line ∈ linesOf contents)
    (h : line.Adds symbol) : symbol ∈ (scan contents).symbols := by
  obtain ⟨d, depth, hmacros, -⟩ := exists_addLine hline ⟨[], [], [], []⟩ 0 1
  rw [h] at hmacros
  exact List.mem_append_left _ (hmacros (List.mem_append_right _ (List.mem_singleton.mpr rfl)))

theorem mem_warnings_of_warns {flaw : DirectiveFlaw} (hline : line ∈ linesOf contents)
    (h : line.Warns flaw) : (line.number, flaw) ∈ (scan contents).warnings := by
  obtain ⟨d, depth, -, hwarnings⟩ := exists_addLine hline ⟨[], [], [], []⟩ 0 1
  rw [h] at hwarnings
  exact hwarnings (List.mem_append_right _ (List.mem_singleton.mpr rfl))

/-! ## Definitions -/

/-- The text separates words of a directive, and is read as these blanks. -/
structure Separates (gap blanks : List Char) : Prop where
  reads : Reads WideSpacing gap blanks
  blank : Blank blanks
  nonempty : blanks ≠ []

/-- The word that starts a definition. -/
def defineWord : List Char := ['#', 'd', 'e', 'f', 'i', 'n', 'e']

/-- A definition of a macro whose name touches an opening parenthesis. -/
def openingOf (gap name : List Char) : List Char := defineWord ++ gap ++ name ++ ['(']

theorem IsIdentifier.isCalm {name : List Char} (h : IsIdentifier name) :
    ∀ c ∈ name, Header.isCalm c = true := by
  intro c hc
  refine isCalm_of_isParamChar (by simp [isParamChar, h.chars c hc]) ?_
  exact ne_of_isNameChar (h.chars c hc) (by decide)

variable {before gap blanks name rest : List Char}

theorem reads_openingOf (hgap : Separates gap blanks) (hname : IsIdentifier name) :
    Reads WideSpacing (defineWord ++ gap ++ name) (defineWord ++ blanks ++ name) :=
  ((Reads.of_calm (by decide)).append hgap.reads).append
    (.of_calm (List.all_eq_true.mpr hname.isCalm))

/-- A definition after a text that ends a line is read as one logical line. -/
theorem exists_definition_line (hbefore : EndsLine before) (hgap : Separates gap blanks)
    (hname : IsIdentifier name) (rest : List Char) :
    ⟨before.count '\n' + 1, openingOf blanks name ++ lineText (stripComments .plain rest)⟩ ∈
      linesOf (String.ofList (before ++ openingOf gap name ++ rest)) := by
  have hparen : lineText (stripComments .plain ('(' :: rest)) =
      '(' :: lineText (stripComments .plain rest) := by
    rw [stripComments_calm (by decide)]
    exact lineText_cons_of_ne (by decide) (by decide) (by decide) _
  have htext : lineText (stripComments .plain (openingOf gap name ++ rest)) =
      openingOf blanks name ++ lineText (stripComments .plain rest) := by
    have hreads := (reads_openingOf hgap hname).lineText
      (show ¬ AtEnd (stripComments .plain ('(' :: rest)) by
        rw [stripComments_calm (by decide)]
        exact not_atEnd_cons (by decide))
    rw [hparen] at hreads
    simpa [openingOf] using hreads
  obtain ⟨done, hdone⟩ := hbefore.logicalLines (openingOf gap name ++ rest)
  obtain ⟨more, hmore⟩ := exists_joinLines (before.count '\n' + 1) none
    (stripComments .plain (openingOf gap name ++ rest))
  rw [linesOf, String.toList_ofList, List.append_assoc, hdone, hmore, htext]
  exact List.mem_append_right _ List.mem_cons_self

/-- The line of a definition is one, with the text after its word. -/
theorem directive?_openingOf (hblank : Blank blanks) (hne : blanks ≠ []) (after : List Char) :
    directive? (openingOf blanks name ++ after) =
      some ("define", blanks ++ name ++ '(' :: after) := by
  obtain ⟨b, blanks, rfl⟩ := List.exists_cons_of_ne_nil hne
  have hb : isNameChar b = false := by
    cases hb : isNameChar b with
    | false => rfl
    | true =>
      have hnot := (isBlank_of_isNameChar hb).symm.trans (hblank b List.mem_cons_self)
      exact absurd hnot (by decide)
  have hword : ∀ c ∈ ['d', 'e', 'f', 'i', 'n', 'e'], isNameChar c = true :=
    List.all_eq_true.mp (by decide)
  have hrest : openingOf (b :: blanks) name ++ after =
      '#' :: (['d', 'e', 'f', 'i', 'n', 'e'] ++ b :: (blanks ++ name ++ '(' :: after)) := by
    simp [openingOf, defineWord]
  have htrim : ∀ {c : Char} {cs : List Char}, isBlank c = false →
      Text.trimStart (c :: cs) = c :: cs := fun hc => List.dropWhile_cons_of_neg (by simp [hc])
  simp only [hrest, directive?, htrim (c := '#') (by decide), List.cons_append (a := 'd'),
    htrim (c := 'd') (by decide)]
  rw [← List.cons_append, List.takeWhile_append_of_pos hword, List.dropWhile_append_of_pos hword,
    List.takeWhile_cons_of_neg (by simp [hb]), List.dropWhile_cons_of_neg (by simp [hb])]
  simp

/-- What the definition says, by the text after its opening parenthesis. -/
theorem definition_opening (hblank : Blank blanks) (hname : IsIdentifier name)
    (after : List Char) : definition (blanks ++ name ++ '(' :: after) =
      if after.contains ')' then
        match macroParams? (after.takeWhile (· != ')')) with
        | some (arity, variadic) => .ok (.macroFn (String.ofList name) arity variadic
            (bodyValue ((after.dropWhile (· != ')')).drop 1)))
        | none => .error (.invalidParameters (String.ofList name))
      else .error (.unterminatedParameters (String.ofList name)) := by
  have hstart : Text.trimStart (blanks ++ name ++ '(' :: after) = name ++ '(' :: after := by
    obtain ⟨c, more, rfl, hc⟩ := hname.tight.first
    rw [List.append_assoc]
    exact Text.trimStart_append hblank ⟨c, _, rfl, hc⟩
  have hempty : name.isEmpty = false := by
    obtain ⟨c, more, rfl, -⟩ := hname
    rfl
  rw [definition, hstart, splitName_append hname (by simp; decide)]
  dsimp only
  rw [hempty, if_neg Bool.false_ne_true]
  rfl

/-- A list of parameters and a closing parenthesis come first in the text: the list is read as one
of `arity` names, and `body` follows. -/
def Declares (rest : List Char) (arity : Nat) (variadic : Bool) (body : List Char) : Prop :=
  ∃ list params, rest = list ++ ')' :: body ∧ Reads WideSpacing list params ∧
    IsParams params arity variadic

/-- What a macro produces whose body starts here. -/
def bodyAt (body : List Char) : MacroValue := bodyValue (lineText (stripComments .plain body))

theorem not_mem_of_isParamChar {params : List Char} (h : ∀ c ∈ params, isParamChar c = true) :
    ')' ∉ params := fun hmem => absurd (h ')' hmem) (by decide)

theorem cut_at_paren {params : List Char} (h : ')' ∉ params) (after : List Char) :
    (params ++ ')' :: after).takeWhile (· != ')') = params ∧
      (params ++ ')' :: after).dropWhile (· != ')') = ')' :: after := by
  have hparams : ∀ c ∈ params, (c != ')') = true := fun c hc =>
    bne_iff_ne.mpr fun heq => h (heq ▸ hc)
  rw [List.takeWhile_append_of_pos hparams, List.dropWhile_append_of_pos hparams]
  simp

/-- A definition with a list of parameters gives the macro. -/
theorem definition_of_declares (hblank : Blank blanks) (hname : IsIdentifier name) {arity : Nat}
    {variadic : Bool} {body : List Char} (h : Declares rest arity variadic body) :
    definition (blanks ++ name ++ '(' :: lineText (stripComments .plain rest)) =
      .ok (.macroFn (String.ofList name) arity variadic (bodyAt body)) := by
  obtain ⟨list, params, rfl, hreads, hparams⟩ := h
  have hline : lineText (stripComments .plain (list ++ ')' :: body)) =
      params ++ ')' :: lineText (stripComments .plain body) := by
    have hparen : stripComments .plain (')' :: body) = ')' :: stripComments .plain body :=
      stripComments_calm (by decide) body
    rw [hreads.lineText (by rw [hparen]; exact not_atEnd_cons (by decide)), hparen,
      lineText_cons_of_ne (by decide) (by decide) (by decide)]
  obtain ⟨htake, hdrop⟩ := cut_at_paren (not_mem_of_isParamChar hparams.chars)
    (lineText (stripComments .plain body))
  rw [definition_opening hblank hname, hline, htake, hdrop, macroParams?_eq_some.mpr hparams]
  simp [bodyAt]

/-- A definition gives a macro only if a list of parameters comes first. -/
theorem definition_of_not_declares (hblank : Blank blanks) (hname : IsIdentifier name)
    (h : ∀ arity variadic body, ¬ Declares rest arity variadic body) :
    definition (blanks ++ name ++ '(' :: lineText (stripComments .plain rest)) =
        .error (.unterminatedParameters (String.ofList name)) ∨
      definition (blanks ++ name ++ '(' :: lineText (stripComments .plain rest)) =
        .error (.invalidParameters (String.ofList name)) := by
  rw [definition_opening hblank hname]
  rcases Text.splitAt_cases ')' (lineText (stripComments .plain rest)) with
    hopen | ⟨params, after, hparams, hline⟩
  · exact .inl (by simp [hopen])
  · right
    rw [hline, (cut_at_paren hparams after).1]
    cases hcount : macroParams? params with
    | none => simp
    | some p =>
      have hlist := macroParams?_eq_some.mp hcount
      obtain ⟨list, body, heq, hreads⟩ := closes_of_lineText hlist.chars hline
      exact absurd ⟨list, params, heq, hreads, hlist⟩ (h p.1 p.2 body)

/-- The line of a definition with a list of parameters adds the macro. -/
theorem adds_of_declares (hgap : Separates gap blanks) (hname : IsIdentifier name) {arity : Nat}
    {variadic : Bool} {body : List Char} (h : Declares rest arity variadic body) (number : Nat) :
    LogicalLine.Adds ⟨number, openingOf blanks name ++ lineText (stripComments .plain rest)⟩
      (.macroFn (String.ofList name) arity variadic (bodyAt body)) := by
  intro d depth
  simp only [Directives.addLine, directive?_openingOf hgap.blank hgap.nonempty,
    definition_of_declares hgap.blank hname h, beq_self_eq_true, if_true]

/-- The line of a definition without a list of parameters only gives a warning. -/
theorem warns_of_not_declares (hgap : Separates gap blanks) (hname : IsIdentifier name)
    (h : ∀ arity variadic body, ¬ Declares rest arity variadic body) (number : Nat) :
    ∃ flaw ∈ [.unterminatedParameters (String.ofList name),
        .invalidParameters (String.ofList name)],
      LogicalLine.Warns
        ⟨number, openingOf blanks name ++ lineText (stripComments .plain rest)⟩ flaw := by
  have hline : ∀ {flaw : DirectiveFlaw},
      definition (blanks ++ name ++ '(' :: lineText (stripComments .plain rest)) = .error flaw →
      LogicalLine.Warns
        ⟨number, openingOf blanks name ++ lineText (stripComments .plain rest)⟩ flaw := by
    intro flaw hflaw d depth
    simp only [Directives.addLine, directive?_openingOf hgap.blank hgap.nonempty, hflaw,
      beq_self_eq_true, if_true]
  rcases definition_of_not_declares hgap.blank hname h with hflaw | hflaw
  · exact ⟨_, by simp, hline hflaw⟩
  · exact ⟨_, by simp, hline hflaw⟩

end KilnLang.Header
