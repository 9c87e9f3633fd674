import KilnLang.Header.Table
import KilnLang.Proofs.Text.Cutting

/-!
# Parameters of macros

The parameters of a macro are a list of names with dots at the end, or nothing
(`macroParams?_eq_some`).
-/

namespace KilnLang.Header

open Lexer (isNameStart isNameChar)
open Text (isBlank Blank Padded Tight)

/-! ## Parameter lists -/

/-- A letter or an underscore, followed by letters, underscores and digits. -/
def IsIdentifier (text : List Char) : Prop :=
  ∃ c rest, text = c :: rest ∧ isNameStart c = true ∧ ∀ d ∈ rest, isNameChar d = true

/-- The dots that stand for further arguments, directly or after a name for them. -/
def IsVariadic (text : List Char) : Prop :=
  ∃ name gap, (name = [] ∨ IsIdentifier name) ∧ Blank gap ∧ text = name ++ gap ++ ['.', '.', '.']

/-- The text lists a number of names, and dots at the end if the macro is variadic. -/
inductive ParamList : List Char → (arity : Nat) → (variadic : Bool) → Prop
  | name {text name : List Char} (hname : IsIdentifier name) (h : Padded name text) :
      ParamList text 1 false
  | dots {text dots : List Char} (hdots : IsVariadic dots) (h : Padded dots text) :
      ParamList text 0 true
  | more {part name rest : List Char} {arity : Nat} {variadic : Bool} (hname : IsIdentifier name)
      (h : Padded name part) (hrest : ParamList rest arity variadic) :
      ParamList (part ++ ',' :: rest) (arity + 1) variadic

/-- The text between the parentheses of a macro: nothing, or a list of parameters. -/
def IsParams (text : List Char) (arity : Nat) (variadic : Bool) : Prop :=
  (Blank text ∧ arity = 0 ∧ variadic = false) ∨ ParamList text arity variadic

/-- The character can stand in a list of parameters. -/
def isParamChar (c : Char) : Bool := isNameChar c || isBlank c || c == ',' || c == '.'

theorem isNameChar_of_isNameStart {c : Char} (h : isNameStart c = true) : isNameChar c = true := by
  simp [isNameChar, h]

/-- The code points of digits, letters and the underscore. -/
theorem toNat_of_isNameChar {c : Char} (h : isNameChar c = true) :
    (48 ≤ c.toNat ∧ c.toNat ≤ 57) ∨ (65 ≤ c.toNat ∧ c.toNat ≤ 90) ∨ c.toNat = 95 ∨
      (97 ≤ c.toNat ∧ c.toNat ≤ 122) := by
  have halpha : c.isAlpha = (c.isUpper || c.isLower) := rfl
  have hupper : c.isUpper = true → 65 ≤ c.toNat ∧ c.toNat ≤ 90 := decide_eq_true_iff.mp
  have hlower : c.isLower = true → 97 ≤ c.toNat ∧ c.toNat ≤ 122 := fun h =>
    (Bool.and_eq_true_iff.mp h).imp decide_eq_true_iff.mp decide_eq_true_iff.mp
  have hdigit : c.isDigit = true → 48 ≤ c.toNat ∧ c.toNat ≤ 57 := fun h =>
    (Bool.and_eq_true_iff.mp h).imp decide_eq_true_iff.mp decide_eq_true_iff.mp
  rw [isNameChar, isNameStart, halpha, Bool.or_eq_true, Bool.or_eq_true, Bool.or_eq_true,
    beq_iff_eq] at h
  rcases h with ((h | h) | rfl) | h
  · exact .inr (.inl (hupper h))
  · exact .inr (.inr (.inr (hlower h)))
  · exact .inr (.inr (.inl rfl))
  · exact .inl (hdigit h)

theorem isBlank_of_isNameChar {c : Char} (h : isNameChar c = true) : isBlank c = false := by
  have hcases := toNat_of_isNameChar h
  simp only [isBlank, Text.blankRanges, List.any_cons, List.any_nil, Bool.or_eq_false_iff,
    Bool.and_eq_false_iff, decide_eq_false_iff_not, and_true]
  omega

theorem ne_of_isNameChar {c d : Char} (h : isNameChar c = true) (hd : isNameChar d = false) :
    c ≠ d := by
  rintro rfl
  exact Bool.false_ne_true (hd.symm.trans h)

namespace IsIdentifier

variable {text : List Char}

theorem chars (h : IsIdentifier text) : ∀ c ∈ text, isNameChar c = true := by
  obtain ⟨c, rest, rfl, hc, hrest⟩ := h
  exact List.forall_mem_cons.mpr ⟨isNameChar_of_isNameStart hc, hrest⟩

theorem tight (h : IsIdentifier text) : Tight text := by
  refine ⟨?_, ?_⟩
  · obtain ⟨c, rest, rfl, hc, -⟩ := h
    exact ⟨c, rest, rfl, isBlank_of_isNameChar (isNameChar_of_isNameStart hc)⟩
  · obtain ⟨rest, c, heq⟩ : ∃ rest c, text = rest ++ [c] := by
      obtain ⟨c, rest, rfl, -⟩ := h
      exact ⟨_, _, (List.dropLast_concat_getLast (List.cons_ne_nil c rest)).symm⟩
    exact ⟨rest, c, heq, isBlank_of_isNameChar (h.chars c (by simp [heq]))⟩

end IsIdentifier

/-- The name at the start of a text, before a character that no name has. -/
theorem splitName_append {name rest : List Char} (h : IsIdentifier name)
    (hrest : ∀ c ∈ rest.head?, isNameChar c = false) : splitName (name ++ rest) = (name, rest) := by
  have hchars := h.chars
  obtain ⟨c, more, rfl, hc, -⟩ := h
  have hstop : rest.takeWhile isNameChar = [] ∧ rest.dropWhile isNameChar = rest := by
    cases rest with
    | nil => exact ⟨rfl, rfl⟩
    | cons d rest =>
      have hd : isNameChar d = false := hrest d rfl
      exact ⟨List.takeWhile_cons_of_neg (by simp [hd]), List.dropWhile_cons_of_neg (by simp [hd])⟩
  rw [List.cons_append, splitName, if_pos hc, ← List.cons_append,
    List.takeWhile_append_of_pos hchars, List.dropWhile_append_of_pos hchars, hstop.1, hstop.2,
    List.append_nil]

theorem isName_iff {text : List Char} : isName text = true ↔ IsIdentifier text := by
  constructor
  · intro h
    unfold isName splitName at h
    cases text with
    | nil => exact nomatch h
    | cons c rest =>
      dsimp only at h
      split at h
      · rename_i hc
        have hall : ∀ d ∈ c :: rest, isNameChar d = true := by
          simpa [List.dropWhile_eq_nil_iff, isNameChar_of_isNameStart hc] using h
        exact ⟨c, rest, rfl, hc, fun d hd => hall d (List.mem_cons_of_mem c hd)⟩
      · exact nomatch h
  · intro h
    have hsplit : splitName text = (text, []) := by
      simpa using splitName_append h (show ∀ c ∈ [].head?, isNameChar c = false from nofun)
    obtain ⟨c, rest, rfl, -⟩ := h
    simp [isName, hsplit]

theorem dropEllipsis?_eq_some {text named : List Char} :
    dropEllipsis? text = some named ↔ text = named ++ ['.', '.', '.'] := by
  unfold dropEllipsis?
  constructor
  · intro h
    split at h
    · rename_i hsuffix
      obtain ⟨front, rfl⟩ := List.isSuffixOf_iff_suffix.mp hsuffix
      have hfront : front = named := by simpa using h
      rw [hfront]
    · exact nomatch h
  · rintro rfl
    rw [if_pos (List.isSuffixOf_iff_suffix.mpr ⟨named, rfl⟩)]
    simp

theorem IsIdentifier.dropEllipsis? {name : List Char} (h : IsIdentifier name) :
    dropEllipsis? name = none := by
  cases hdrop : Header.dropEllipsis? name with
  | none => rfl
  | some named =>
    have hdot := h.chars '.' (by simp [dropEllipsis?_eq_some.mp hdrop])
    exact absurd hdot (by decide)

theorem not_mem_of_padded {core text : List Char} {c : Char} (hc : isBlank c = false)
    (hcore : c ∉ core) (h : Padded core text) : c ∉ text := by
  obtain ⟨before, after, hbefore, hafter, rfl⟩ := h
  simp only [List.mem_append, not_or]
  refine ⟨⟨fun hmem => ?_, hcore⟩, fun hmem => ?_⟩
  · exact Bool.false_ne_true (hc.symm.trans (hbefore c hmem))
  · exact Bool.false_ne_true (hc.symm.trans (hafter c hmem))

theorem IsIdentifier.not_mem {name : List Char} (h : IsIdentifier name) {c : Char}
    (hc : isNameChar c = false) : c ∉ name :=
  fun hmem => Bool.false_ne_true (hc.symm.trans (h.chars c hmem))

/-- Dots between blanks, and the name before them, are found by trimming. -/
theorem IsVariadic.trim {dots text : List Char} (hdots : IsVariadic dots) (h : Padded dots text) :
    ∃ named, Text.trim text = named ++ ['.', '.', '.'] ∧
      (named = [] ∨ IsIdentifier (Text.trimEnd named)) := by
  have hlast : ∀ front : List Char, ∃ rest c, front ++ ['.', '.', '.'] = rest ++ [c] ∧
      isBlank c = false := fun front => ⟨front ++ ['.', '.'], '.', by simp, by decide⟩
  obtain ⟨before, after, hbefore, hafter, rfl⟩ := h
  obtain ⟨name, gap, rfl | hname, hgap, rfl⟩ := hdots
  · refine ⟨[], ?_, .inl rfl⟩
    refine Tight.trim ⟨⟨'.', ['.', '.'], rfl, by decide⟩, hlast []⟩ ?_
    exact ⟨before ++ gap, after, hbefore.append hgap, hafter, by simp⟩
  · refine ⟨name ++ gap, ?_, .inr ?_⟩
    · refine Tight.trim ⟨?_, hlast _⟩ ⟨before, after, hbefore, hafter, rfl⟩
      obtain ⟨c, rest, rfl, hc⟩ := hname.tight.first
      exact ⟨c, rest ++ gap ++ ['.', '.', '.'], by simp, hc⟩
    · rwa [Text.trimEnd_append hgap hname.tight.last]

/-- A list of parameters is counted. -/
theorem ParamList.paramCount? {text : List Char} {arity : Nat} {variadic : Bool}
    (h : ParamList text arity variadic) (counted : Nat) :
    paramCount? counted ((Text.splitAt ',' text).map Text.trim) =
      some (counted + arity, variadic) := by
  induction h generalizing counted with
  | name hname h =>
    rw [Text.splitAt_of_not_mem (not_mem_of_padded (by decide) (hname.not_mem (by decide)) h),
      List.map_singleton, hname.tight.trim h]
    simp [Header.paramCount?, hname.dropEllipsis?, isName_iff.mpr hname]
  | @dots text dots hdots h =>
    have hcomma : ',' ∉ dots := by
      obtain ⟨name, gap, hname, hgap, rfl⟩ := hdots
      have hgap' : ',' ∉ gap := fun hmem => absurd (hgap ',' hmem) (by decide)
      rcases hname with rfl | hname
      · simp [hgap']
      · simp [hgap', hname.not_mem (c := ',') (by decide)]
    obtain ⟨named, htrim, hnamed⟩ := hdots.trim h
    rw [Text.splitAt_of_not_mem (not_mem_of_padded (by decide) hcomma h), List.map_singleton, htrim,
      Header.paramCount?, dropEllipsis?_eq_some.mpr rfl]
    rcases hnamed with rfl | hnamed
    · rfl
    · cases named with
      | nil => rfl
      | cons c named => simp [isName_iff.mpr hnamed]
  | more hname h hrest ih =>
    rw [Text.splitAt_append (not_mem_of_padded (by decide) (hname.not_mem (by decide)) h),
      List.map_cons, hname.tight.trim h, Header.paramCount?, hname.dropEllipsis?]
    simp only [isName_iff.mpr hname, if_true, ih]
    rw [Nat.add_right_comm, Nat.add_assoc]

/-- What is counted is a list of parameters. -/
theorem exists_paramList {text : List Char} {counted arity : Nat} {variadic : Bool}
    (h : paramCount? counted ((Text.splitAt ',' text).map Text.trim) = some (arity, variadic)) :
    ∃ more, arity = counted + more ∧ ParamList text more variadic := by
  induction hlength : text.length using Nat.strongRecOn generalizing text counted with
  | ind n ih =>
    have hpadded := Text.padded_trim
    rcases Text.splitAt_cases ',' text with hcomma | ⟨part, rest, hcomma, rfl⟩
    · rw [Text.splitAt_of_not_mem hcomma, List.map_singleton, paramCount?] at h
      cases hdrop : dropEllipsis? (Text.trim text) with
      | none =>
        rw [hdrop] at h
        dsimp only at h
        split at h
        · cases h
          exact ⟨1, rfl, .name (isName_iff.mp ‹_›) (hpadded text)⟩
        · exact nomatch h
      | some named =>
        rw [hdrop] at h
        -- The last part ends in dots, with a name before them or without one.
        have hdots := dropEllipsis?_eq_some.mp hdrop
        cases named with
        | nil =>
          cases h
          exact ⟨0, rfl, .dots ⟨[], [], .inl rfl, List.forall_mem_nil _, hdots⟩ (hpadded text)⟩
        | cons c named =>
          dsimp only at h
          split at h
          · rename_i hname
            cases h
            obtain ⟨gap, hgap, hnamed⟩ := Text.padded_trimEnd (c :: named)
            refine ⟨0, rfl, .dots ⟨_, gap, .inr (isName_iff.mp (by simpa using hname)), hgap, ?_⟩
              (hpadded text)⟩
            rw [← hnamed, hdots]
          · exact nomatch h
    · have hrest : ((Text.splitAt ',' rest).map Text.trim).isEmpty = false := by
        simpa using Text.splitAt_ne_nil ',' rest
      rw [Text.splitAt_append hcomma, List.map_cons, paramCount?] at h
      cases hdrop : dropEllipsis? (Text.trim part) with
      | none =>
        rw [hdrop] at h
        dsimp only at h
        split at h
        · rename_i hname
          obtain ⟨more, rfl, hlist⟩ := ih rest.length (by simp [← hlength]; omega) h rfl
          exact ⟨more + 1, by omega, .more (isName_iff.mp hname) (hpadded part) hlist⟩
        · exact nomatch h
      | some named =>
        rw [hdrop] at h
        cases named <;> simp [hrest] at h

theorem ParamList.not_blank {text : List Char} {arity : Nat} {variadic : Bool}
    (h : ParamList text arity variadic) : ¬ Blank text := by
  have hmem : ∃ c ∈ text, isBlank c = false := by
    cases h with
    | name hname h =>
      obtain ⟨before, after, -, -, rfl⟩ := h
      obtain ⟨c, rest, rfl, hc⟩ := hname.tight.first
      exact ⟨c, by simp, hc⟩
    | dots hdots h =>
      obtain ⟨before, after, -, -, rfl⟩ := h
      obtain ⟨name, gap, -, -, rfl⟩ := hdots
      exact ⟨'.', by simp, by decide⟩
    | more => exact ⟨',', by simp, by decide⟩
  obtain ⟨c, hc, hblank⟩ := hmem
  exact fun h => Bool.false_ne_true (hblank.symm.trans (h c hc))

/-- The parameters of a macro are what the grammar says. -/
theorem macroParams?_eq_some {text : List Char} {arity : Nat} {variadic : Bool} :
    macroParams? text = some (arity, variadic) ↔ IsParams text arity variadic := by
  have hempty : (Text.trim text).isEmpty = true ↔ Blank text := by
    rw [List.isEmpty_iff, Text.trim_eq_nil_iff]
  unfold macroParams? IsParams
  by_cases hblank : Blank text
  · rw [if_pos (hempty.mpr hblank)]
    constructor
    · intro h
      cases h
      exact .inl ⟨hblank, rfl, rfl⟩
    · rintro (⟨-, rfl, rfl⟩ | h)
      · rfl
      · exact absurd hblank h.not_blank
  · rw [if_neg (mt hempty.mp hblank), or_iff_right (fun h => hblank h.1)]
    constructor
    · intro h
      obtain ⟨more, rfl, hlist⟩ := exists_paramList h
      rwa [Nat.zero_add]
    · intro h
      rw [h.paramCount? 0, Nat.zero_add]

theorem ParamList.chars {text : List Char} {arity : Nat} {variadic : Bool}
    (h : ParamList text arity variadic) : ∀ c ∈ text, isParamChar c = true := by
  have hname : ∀ {name : List Char}, IsIdentifier name → ∀ c ∈ name, isParamChar c = true :=
    fun h c hc => by simp [isParamChar, h.chars c hc]
  have hblank : ∀ {text : List Char}, Blank text → ∀ c ∈ text, isParamChar c = true :=
    fun h c hc => by simp [isParamChar, h c hc]
  have hpadded : ∀ {core text : List Char}, (∀ c ∈ core, isParamChar c = true) →
      Padded core text → ∀ c ∈ text, isParamChar c = true := by
    rintro core _ hcore ⟨before, after, hbefore, hafter, rfl⟩
    simp only [List.forall_mem_append]
    exact ⟨⟨hblank hbefore, hcore⟩, hblank hafter⟩
  induction h with
  | name h hpad => exact hpadded (hname h) hpad
  | dots hdots hpad =>
    refine hpadded ?_ hpad
    obtain ⟨name, gap, hfirst, hgap, rfl⟩ := hdots
    simp only [List.forall_mem_append]
    refine ⟨⟨?_, hblank hgap⟩, List.all_eq_true.mp (by decide)⟩
    rcases hfirst with rfl | h
    · exact List.forall_mem_nil _
    · exact hname h
  | more h hpad _ ih =>
    simp only [List.forall_mem_append, List.forall_mem_cons]
    exact ⟨hpadded (hname h) hpad, by decide, ih⟩

theorem IsParams.chars {text : List Char} {arity : Nat} {variadic : Bool}
    (h : IsParams text arity variadic) : ∀ c ∈ text, isParamChar c = true := by
  rcases h with ⟨hblank, -, -⟩ | h
  · exact fun c hc => by simp [isParamChar, hblank c hc]
  · exact h.chars

end KilnLang.Header
