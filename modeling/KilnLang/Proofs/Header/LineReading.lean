import KilnLang.Header.Lines
import KilnLang.Proofs.Header.ParameterLists

/-!
# Reading logical lines

What the first logical line of a text says, character by character (`lineText`), and where in the
text it comes from: a text that `Reads` as another one, with comments and joined lines as spaces,
becomes that other text (`Reads.lineText`), and what precedes the first closing parenthesis of a
logical line is read from a part of the text (`closes_of_lineText`).
-/

namespace KilnLang.Header

open Lexer (isNameChar)
open Text (isBlank)

/-! ## Comments -/

theorem stripComments_length (r : Region) (cs : List Char) :
    (stripComments r cs).length ≤ cs.length + if r = .blockComment then 1 else 0 := by
  fun_induction stripComments r cs <;> grind

/-- Comments keep their line breaks. -/
theorem count_stripComments (region : Region) (cs : List Char) :
    (stripComments region cs).count '\n' = cs.count '\n' := by
  fun_induction stripComments region cs <;> simp_all [List.count_cons]

/-- A block comment becomes its line breaks and a space. -/
theorem stripComments_block {inside : List Char} (h : ¬ ['*', '/'] <:+: inside) (cs : List Char) :
    stripComments .blockComment (inside ++ '*' :: '/' :: cs) =
      inside.filter (· == '\n') ++ ' ' :: stripComments .plain cs := by
  induction inside with
  | nil => rfl
  | cons c inside ih =>
    have hinside : ¬ ['*', '/'] <:+: inside := fun hmem => h (List.infix_cons hmem)
    have hopen : ¬ (c = '*' ∧ ∃ more, inside ++ '*' :: '/' :: cs = '/' :: more) := by
      rintro ⟨rfl, more, hmore⟩
      cases inside with
      | nil => cases hmore
      | cons d inside =>
        cases hmore
        exact h ⟨[], inside, rfl⟩
    rw [List.cons_append, stripComments]
    · rw [ih hinside]
      by_cases hc : c = '\n' <;> simp [hc]
    · exact fun more hc hmore => hopen ⟨hc, more, hmore⟩

/-- A block comment ends, or the text ends in it. -/
theorem blockComment_cases (cs : List Char) :
    (∃ inside rest, ¬ ['*', '/'] <:+: inside ∧ cs = inside ++ '*' :: '/' :: rest) ∨
      stripComments .blockComment cs = cs.filter (· == '\n') ++ [' '] := by
  induction cs with
  | nil => exact .inr rfl
  | cons c cs ih =>
    by_cases hopen : c = '*' ∧ ∃ more, cs = '/' :: more
    · obtain ⟨rfl, more, rfl⟩ := hopen
      exact .inl ⟨[], more, by simp, rfl⟩
    · rcases ih with ⟨inside, rest, hinside, rfl⟩ | hall
      · refine .inl ⟨c :: inside, rest, fun hmem => ?_, rfl⟩
        rcases List.infix_cons_iff.mp hmem with hprefix | hmem
        · obtain ⟨more, hmore⟩ := hprefix
          cases hmore
          exact hopen ⟨rfl, more ++ '*' :: '/' :: rest, rfl⟩
        · exact hinside hmem
      · right
        rw [stripComments, hall]
        · by_cases hc : c = '\n' <;> simp [hc]
        · exact fun more hc hmore => hopen ⟨hc, more, hmore⟩

/-! ## Logical lines -/

/-- The logical line that a text without comments starts with. -/
def lineText : List Char → List Char
  | [] => []
  | '\n' :: _ => []
  | ['\r'] => []
  | '\r' :: '\n' :: _ => []
  | ['\\'] => [' ']
  | ['\\', '\r'] => [' ']
  | '\\' :: '\n' :: cs => ' ' :: lineText cs
  | '\\' :: '\r' :: '\n' :: cs => ' ' :: lineText cs
  | c :: cs => c :: lineText cs

/-- The text ends here, or a line break follows. -/
def AtEnd (cs : List Char) : Prop := cs = [] ∨ ∃ more, cs = '\n' :: more

theorem not_atEnd_cons {c : Char} {cs : List Char} (hc : c ≠ '\n') : ¬ AtEnd (c :: cs) := by
  rintro (h | ⟨more, h⟩)
  · exact nomatch h
  · exact hc (List.cons.inj h).1

theorem lineText_atEnd {cs : List Char} (h : AtEnd cs) : lineText cs = [] := by
  rcases h with rfl | ⟨more, rfl⟩ <;> rfl

theorem lineText_return {cs : List Char} (h : AtEnd cs) : lineText ('\r' :: cs) = [] := by
  rcases h with rfl | ⟨more, rfl⟩ <;> rfl

theorem lineText_continued {cs : List Char} (h : AtEnd cs) :
    lineText ('\\' :: cs) = ' ' :: lineText (cs.drop 1) := by
  rcases h with rfl | ⟨more, rfl⟩ <;> rfl

theorem lineText_continuedReturn {cs : List Char} (h : AtEnd cs) :
    lineText ('\\' :: '\r' :: cs) = ' ' :: lineText (cs.drop 1) := by
  rcases h with rfl | ⟨more, rfl⟩ <;> rfl

theorem lineText_cons {c : Char} {cs : List Char} (hnewline : c ≠ '\n')
    (hreturn : c = '\r' → ¬ AtEnd cs)
    (hbackslash : c = '\\' → ¬ AtEnd cs ∧ ∀ more, cs = '\r' :: more → ¬ AtEnd more) :
    lineText (c :: cs) = c :: lineText cs := by
  rw [lineText]
  · exact hnewline
  · exact fun hc hcs => hreturn hc (.inl hcs)
  · exact fun more hc hcs => hreturn hc (.inr ⟨more, hcs⟩)
  · exact fun hc hcs => (hbackslash hc).1 (.inl hcs)
  · exact fun hc hcs => (hbackslash hc).2 [] hcs (.inl rfl)
  · exact fun more hc hcs => (hbackslash hc).1 (.inr ⟨more, hcs⟩)
  · exact fun more hc hcs => (hbackslash hc).2 _ hcs (.inr ⟨more, rfl⟩)

theorem lineText_cons_of_ne {c : Char} (hnewline : c ≠ '\n') (hreturn : c ≠ '\r')
    (hbackslash : c ≠ '\\') (cs : List Char) : lineText (c :: cs) = c :: lineText cs :=
  lineText_cons hnewline (fun h => absurd h hreturn) fun h => absurd h hbackslash

/-- The physical line without its carriage return. -/
def withoutReturn (raw : List Char) : List Char := (dropFinal? '\r' raw).getD raw

theorem dropFinal?_cons {c d : Char} {line : List Char} (h : line ≠ []) :
    dropFinal? d (c :: line) = (dropFinal? d line).map (c :: ·) := by
  unfold dropFinal?
  rw [List.getLast?_cons, List.dropLast_cons_of_ne_nil h]
  cases hlast : line.getLast? with
  | none => exact absurd (List.getLast?_eq_none_iff.mp hlast) h
  | some e =>
    rw [Option.getD_some]
    split <;> rfl

theorem withoutReturn_cons {c : Char} {raw : List Char} (h : raw ≠ []) :
    withoutReturn (c :: raw) = c :: withoutReturn raw := by
  unfold withoutReturn
  rw [dropFinal?_cons h]
  cases dropFinal? '\r' raw <;> rfl

theorem eq_return_of_withoutReturn {raw : List Char} (hraw : raw ≠ [])
    (h : withoutReturn raw = []) : raw = ['\r'] := by
  cases raw with
  | nil => exact absurd rfl hraw
  | cons c raw =>
    cases raw with
    | nil =>
      unfold withoutReturn dropFinal? at h
      split at h
      · rename_i hlast
        cases hlast
        rfl
      · exact nomatch h
    | cons d raw =>
      rw [withoutReturn_cons (List.cons_ne_nil d raw)] at h
      exact nomatch h

theorem atEnd_of_append {raw tail : List Char} (hraw : '\n' ∉ raw) (h : AtEnd (raw ++ tail)) :
    raw = [] := by
  rcases raw with _ | ⟨c, raw⟩
  · rfl
  · rcases h with h | ⟨more, h⟩
    · exact nomatch h
    · cases h
      exact absurd List.mem_cons_self hraw

/-- A physical line that ends in a backslash goes on in the next one. -/
theorem lineText_append {raw tail : List Char} (hraw : '\n' ∉ raw) (htail : AtEnd tail) :
    lineText (raw ++ tail) = match dropFinal? '\\' (withoutReturn raw) with
      | some joined => joined ++ ' ' :: lineText (tail.drop 1)
      | none => withoutReturn raw := by
  have hnil : lineText tail = [] := by rcases htail with rfl | ⟨more, rfl⟩ <;> rfl
  induction raw with
  | nil => exact hnil
  | cons c raw ih =>
    have hc : c ≠ '\n' := fun h => hraw (h ▸ List.mem_cons_self)
    replace hraw : '\n' ∉ raw := fun h => hraw (List.mem_cons_of_mem c h)
    by_cases hshort : raw = []
    · subst hshort
      by_cases hreturn : c = '\r'
      · rw [hreturn]
        exact lineText_return htail
      by_cases hbackslash : c = '\\'
      · rw [hbackslash]
        exact lineText_continued htail
      · have hline : withoutReturn [c] = [c] := by simp [withoutReturn, dropFinal?, hreturn]
        rw [List.singleton_append, lineText_cons_of_ne hc hreturn hbackslash, hnil, hline]
        simp [dropFinal?, hbackslash]
    -- A backslash also goes on with the next line if a carriage return is between them.
    by_cases hjoin : c = '\\' ∧ raw = ['\r']
    · obtain ⟨rfl, rfl⟩ := hjoin
      exact lineText_continuedReturn htail
    · have hnot : ¬ AtEnd (raw ++ tail) := fun h => hshort (atEnd_of_append hraw h)
      rw [List.cons_append, lineText_cons hc (fun _ => hnot) ?_, ih hraw, withoutReturn_cons hshort]
      · by_cases hempty : withoutReturn raw = []
        -- Only the return is dropped from the rest, so the character before it is no backslash.
        · have hbackslash : c ≠ '\\' := fun h =>
            hjoin ⟨h, eq_return_of_withoutReturn hshort hempty⟩
          rw [hempty]
          simp [dropFinal?, hbackslash]
        · rw [dropFinal?_cons hempty]
          cases dropFinal? '\\' (withoutReturn raw) <;> rfl
      · refine fun hbackslash => ⟨hnot, fun more hmore hend => hjoin ⟨hbackslash, ?_⟩⟩
        cases raw with
        | nil => exact absurd rfl hshort
        | cons d raw =>
          cases hmore
          rw [atEnd_of_append (fun h => hraw (List.mem_cons_of_mem _ h)) hend]

theorem joinLines_of_some {number : Nat} {open? : Option LogicalLine} {raw joined : List Char}
    {more : List (List Char)} (h : dropFinal? '\\' (withoutReturn raw) = some joined) :
    joinLines number open? (raw :: more) = joinLines (number + 1)
      (some { open?.getD ⟨number, []⟩ with
        text := (open?.getD ⟨number, []⟩).text ++ joined ++ [' '] }) more := by
  rw [withoutReturn] at h
  simp only [joinLines, h]

theorem joinLines_of_none {number : Nat} {open? : Option LogicalLine} {raw : List Char}
    {more : List (List Char)} (h : dropFinal? '\\' (withoutReturn raw) = none) :
    joinLines number open? (raw :: more) = { open?.getD ⟨number, []⟩ with
      text := (open?.getD ⟨number, []⟩).text ++ withoutReturn raw } ::
        joinLines (number + 1) none more := by
  have h' := h
  rw [withoutReturn] at h'
  simp only [joinLines, h', withoutReturn]

/-- The first logical line of a text, after a part of it that was left open. -/
theorem exists_joinLines (number : Nat) (open? : Option LogicalLine) (text : List Char) :
    ∃ more, joinLines number open? (Text.splitAt '\n' text) =
      { open?.getD ⟨number, []⟩ with
        text := (open?.getD ⟨number, []⟩).text ++ lineText text } :: more := by
  induction hlength : text.length using Nat.strongRecOn generalizing text number open? with
  | ind n ih =>
    rcases Text.splitAt_cases '\n' text with hline | ⟨raw, rest, hraw, rfl⟩
    · have htext := lineText_append hline (.inl rfl)
      rw [List.append_nil] at htext
      rw [Text.splitAt_of_not_mem hline, htext]
      cases hjoin : dropFinal? '\\' (withoutReturn text) with
      | none => exact ⟨_, joinLines_of_none hjoin⟩
      | some joined =>
        rw [joinLines_of_some hjoin]
        exact ⟨[], by simp [joinLines, lineText]⟩
    · rw [Text.splitAt_append hraw, lineText_append hraw (.inr ⟨rest, rfl⟩)]
      cases hjoin : dropFinal? '\\' (withoutReturn raw) with
      | none => exact ⟨_, joinLines_of_none hjoin⟩
      | some joined =>
        obtain ⟨more, hmore⟩ := ih rest.length (by simp [← hlength]; omega) (number + 1)
          (some { open?.getD ⟨number, []⟩ with
            text := (open?.getD ⟨number, []⟩).text ++ joined ++ [' '] }) rest rfl
        rw [joinLines_of_some hjoin, hmore]
        exact ⟨more, by simp⟩

/-! ## White space in directives -/

/-- A carriage return, or nothing. -/
def IsReturn (text : List Char) : Prop := text = [] ∨ text = ['\r']

/-- What becomes a space in a directive: a block comment without line breaks, or a backslash that
ends a line. -/
inductive Spacing : List Char → List Char → Prop
  | comment {inside : List Char} (h : ¬ ['*', '/'] <:+: inside) (hline : '\n' ∉ inside) :
      Spacing ('/' :: '*' :: (inside ++ ['*', '/'])) [' ']
  | continued {ret : List Char} (hret : IsReturn ret) : Spacing ('\\' :: (ret ++ ['\n'])) [' ']

/-- Comments are replaced before lines are joined, so a backslash also ends its line if a block
comment with a line break follows. -/
inductive WideSpacing : List Char → List Char → Prop
  | spacing {raw blanks : List Char} (h : Spacing raw blanks) : WideSpacing raw blanks
  | broken {ret inside : List Char} (hret : IsReturn ret) (h : ¬ ['*', '/'] <:+: inside)
      (hline : inside.count '\n' = 1) :
      WideSpacing ('\\' :: (ret ++ ('/' :: '*' :: (inside ++ ['*', '/'])))) [' ', ' ']

/-- The character neither opens a comment or a quote nor joins or ends a line. -/
def isCalm (c : Char) : Bool :=
  c != '/' && c != '"' && c != '\'' && c != '\\' && c != '\n'

theorem isCalm_iff {c : Char} :
    isCalm c = true ↔ c ≠ '/' ∧ c ≠ '"' ∧ c ≠ '\'' ∧ c ≠ '\\' ∧ c ≠ '\n' := by
  simp [isCalm, and_assoc]

/-- The text is read as another one, where some parts are read as `space` says and all other
characters stand for themselves. -/
inductive Reads (space : List Char → List Char → Prop) : List Char → List Char → Prop
  | nil : Reads space [] []
  | char {c : Char} {raw text : List Char} (hc : isCalm c = true) (h : Reads space raw text) :
      Reads space (c :: raw) (c :: text)
  | space {gap blanks raw text : List Char} (hgap : space gap blanks) (h : Reads space raw text) :
      Reads space (gap ++ raw) (blanks ++ text)

theorem stripComments_cons {c : Char} {cs : List Char} (hslash : c ≠ '/') (hquote : c ≠ '"')
    (hquote' : c ≠ '\'') : stripComments .plain (c :: cs) = c :: stripComments .plain cs := by
  rw [stripComments, if_neg (not_or.mpr ⟨hquote, hquote'⟩)]
  · exact fun _ h => absurd h hslash
  · exact fun _ h => absurd h hslash

theorem stripComments_calm {c : Char} (hc : isCalm c = true) (cs : List Char) :
    stripComments .plain (c :: cs) = c :: stripComments .plain cs := by
  obtain ⟨hslash, hquote, hquote', -, -⟩ := isCalm_iff.mp hc
  exact stripComments_cons hslash hquote hquote'

theorem stripComments_comment {inside : List Char} (h : ¬ ['*', '/'] <:+: inside) (cs : List Char) :
    stripComments .plain ('/' :: '*' :: (inside ++ ['*', '/']) ++ cs) =
      List.replicate (inside.count '\n') '\n' ++ ' ' :: stripComments .plain cs := by
  rw [← List.filter_beq, ← stripComments_block h cs]
  simp [stripComments]

theorem stripComments_return {ret : List Char} (hret : IsReturn ret) (cs : List Char) :
    stripComments .plain (ret ++ cs) = ret ++ stripComments .plain cs := by
  rcases hret with rfl | rfl
  · rfl
  · exact stripComments_cons (by decide) (by decide) (by decide)

theorem lineText_space (cs : List Char) : lineText (' ' :: cs) = ' ' :: lineText cs :=
  lineText_cons_of_ne (by decide) (by decide) (by decide) cs

theorem lineText_joined {ret : List Char} (hret : IsReturn ret) (cs : List Char) :
    lineText ('\\' :: (ret ++ '\n' :: cs)) = ' ' :: lineText cs := by
  rcases hret with rfl | rfl <;> rfl

/-- What white space becomes when comments are replaced and lines are joined. -/
theorem WideSpacing.lineText {gap blanks : List Char} (h : WideSpacing gap blanks)
    (cs : List Char) :
    Header.lineText (stripComments .plain (gap ++ cs)) =
      blanks ++ Header.lineText (stripComments .plain cs) := by
  cases h with
  | spacing h =>
    cases h with
    | comment h hline =>
      rw [stripComments_comment h, List.count_eq_zero.mpr hline]
      exact lineText_space _
    | @continued ret hret =>
      rw [List.cons_append, List.append_assoc,
        stripComments_cons (by decide) (by decide) (by decide), stripComments_return hret]
      exact lineText_joined hret _
  | @broken ret inside hret h hline =>
    rw [List.cons_append, List.append_assoc, stripComments_cons (by decide) (by decide) (by decide),
      stripComments_return hret, stripComments_comment h, hline]
    exact (lineText_joined hret _).trans (congrArg _ (lineText_space _))

namespace Reads

variable {raw text tail : List Char}

theorem not_atEnd (h : Reads WideSpacing raw text) (htail : ¬ AtEnd (stripComments .plain tail)) :
    ¬ AtEnd (stripComments .plain (raw ++ tail)) := by
  cases h with
  | nil => exact htail
  | char hc h =>
    rw [List.cons_append, stripComments_calm hc]
    exact not_atEnd_cons (isCalm_iff.mp hc).2.2.2.2
  | space hgap h =>
    rw [List.append_assoc]
    cases hgap with
    | spacing hgap =>
      cases hgap with
      | comment hcomment hline =>
        rw [stripComments_comment hcomment, List.count_eq_zero.mpr hline]
        exact not_atEnd_cons (by decide)
      | continued =>
        rw [List.cons_append, stripComments_cons (by decide) (by decide) (by decide)]
        exact not_atEnd_cons (by decide)
    | broken =>
      rw [List.cons_append, stripComments_cons (by decide) (by decide) (by decide)]
      exact not_atEnd_cons (by decide)

/-- What is read becomes part of the logical line. -/
theorem lineText (h : Reads WideSpacing raw text) (htail : ¬ AtEnd (stripComments .plain tail)) :
    Header.lineText (stripComments .plain (raw ++ tail)) =
      text ++ Header.lineText (stripComments .plain tail) := by
  induction h with
  | nil => rfl
  | char hc h ih =>
    rw [List.cons_append, stripComments_calm hc, List.cons_append, ← ih]
    obtain ⟨-, -, -, hbackslash, hnewline⟩ := isCalm_iff.mp hc
    exact lineText_cons hnewline (fun _ => h.not_atEnd htail) fun h => absurd h hbackslash
  | space hgap h ih =>
    rw [List.append_assoc, hgap.lineText, ih, List.append_assoc]

theorem append {raw' text' : List Char} {space : List Char → List Char → Prop}
    (h : Reads space raw text) (h' : Reads space raw' text') :
    Reads space (raw ++ raw') (text ++ text') := by
  induction h with
  | nil => exact h'
  | char hc _ ih => exact .char hc ih
  | space hgap _ ih =>
    rw [List.append_assoc, List.append_assoc]
    exact .space hgap ih

theorem of_calm {space : List Char → List Char → Prop} :
    ∀ {text : List Char}, text.all isCalm = true → Reads space text text
  | [], _ => .nil
  | c :: text, h => by
    rw [List.all_cons, Bool.and_eq_true] at h
    exact .char h.1 (of_calm h.2)

end Reads

/-- A backslash before a comment is no white space. -/
theorem not_reads_backslash {raw text : List Char} :
    ∀ before : List Char, before.all isCalm = true →
      ¬ Reads Spacing (before ++ '\\' :: '/' :: raw) text
  | [], _, h => by
    generalize hall : [] ++ '\\' :: '/' :: raw = all at h
    cases h with
    | nil => exact nomatch hall
    | char hc =>
      cases hall
      exact absurd hc (by decide)
    | space hgap =>
      cases hgap with
      | comment => exact nomatch hall
      | continued hret => rcases hret with rfl | rfl <;> cases hall
  | c :: before, hbefore, h => by
    rw [List.all_cons, Bool.and_eq_true] at hbefore
    obtain ⟨hc, hbefore⟩ := hbefore
    generalize hall : c :: before ++ '\\' :: '/' :: raw = all at h
    cases h with
    | nil => exact nomatch hall
    | char _ h =>
      cases hall
      exact not_reads_backslash before hbefore h
    | space hgap =>
      cases hgap <;> (obtain ⟨rfl, -⟩ := List.cons_eq_cons.mp hall; exact absurd hc (by decide))

theorem isCalm_of_isParamChar {c : Char} (h : isParamChar c = true) (hline : c ≠ '\n') :
    isCalm c = true := by
  refine isCalm_iff.mpr ⟨?_, ?_, ?_, ?_, hline⟩ <;> rintro rfl <;> exact absurd h (by decide)

/-! ## What is read as a list -/

/-- A closing parenthesis follows what is read as a text. -/
def Closes (rest text : List Char) : Prop :=
  ∃ list body, rest = list ++ ')' :: body ∧ Reads WideSpacing list text

namespace Closes

variable {rest text : List Char}

theorem here (body : List Char) : Closes (')' :: body) [] := ⟨[], body, rfl, .nil⟩

theorem char {c : Char} (hc : isCalm c = true) : Closes rest text → Closes (c :: rest) (c :: text)
  | ⟨list, body, heq, h⟩ => ⟨c :: list, body, by rw [heq, List.cons_append], .char hc h⟩

theorem space {gap blanks : List Char} (hgap : WideSpacing gap blanks) :
    Closes rest text → Closes (gap ++ rest) (blanks ++ text)
  | ⟨list, body, heq, h⟩ => ⟨gap ++ list, body, by rw [heq, List.append_assoc], .space hgap h⟩

end Closes

theorem atEnd_lineComment (cs : List Char) : AtEnd (stripComments .lineComment cs) := by
  induction cs with
  | nil => exact .inl rfl
  | cons c cs ih =>
    rw [stripComments]
    split
    · rename_i hc
      exact .inr ⟨_, by rw [hc]⟩
    · exact ih

/-- How a text starts: with a comment that ends, with one that takes the rest of the line, or with
any other character. -/
theorem stripComments_cases (cs : List Char) :
    (∃ inside rest, ¬ ['*', '/'] <:+: inside ∧ cs = '/' :: '*' :: (inside ++ ['*', '/']) ++ rest) ∨
    (∃ lines rest, stripComments .plain cs = List.replicate lines '\n' ++ ' ' :: rest ∧
      AtEnd rest) ∨
    cs = [] ∨ ∃ c rest, cs = c :: rest ∧ stripComments .plain cs =
      c :: stripComments (if c = '"' ∨ c = '\'' then .quoted c else .plain) rest := by
  rcases cs with _ | ⟨c, cs⟩
  · exact .inr (.inr (.inl rfl))
  by_cases hblock : c = '/' ∧ ∃ more, cs = '*' :: more
  · obtain ⟨rfl, more, rfl⟩ := hblock
    rcases blockComment_cases more with ⟨inside, rest, hinside, rfl⟩ | hopen
    · exact .inl ⟨inside, rest, hinside, by simp⟩
    · refine .inr (.inl ⟨more.count '\n', [], ?_, .inl rfl⟩)
      rw [stripComments, hopen, List.filter_beq]
  by_cases hline : c = '/' ∧ ∃ more, cs = '/' :: more
  · obtain ⟨rfl, more, rfl⟩ := hline
    exact .inr (.inl ⟨0, stripComments .lineComment more, rfl, atEnd_lineComment more⟩)
  · refine .inr (.inr (.inr ⟨c, cs, rfl, ?_⟩))
    rw [stripComments]
    · exact fun more hc hmore => hline ⟨hc, more, hmore⟩
    · exact fun more hc hmore => hblock ⟨hc, more, hmore⟩

theorem stripComments_eq_return {cs more : List Char}
    (h : stripComments .plain cs = '\r' :: more) :
    ∃ rest, cs = '\r' :: rest ∧ more = stripComments .plain rest := by
  rcases stripComments_cases cs with
    ⟨inside, rest, hinside, rfl⟩ | ⟨lines, tail, heq, -⟩ | rfl | ⟨c, rest, rfl, heq⟩
  · rw [stripComments_comment hinside] at h
    cases hlines : inside.count '\n' <;> simp [hlines, List.replicate_succ] at h
  · rw [heq] at h
    cases lines <;> simp [List.replicate_succ] at h
  · simp [stripComments] at h
  · obtain ⟨rfl, hmore⟩ := List.cons.inj (heq.symm.trans h)
    exact ⟨rest, rfl, hmore.symm⟩

/-- A character of the list comes first, unless the list ends here. -/
theorem exists_cons_params {c : Char} {line params after : List Char}
    (h : c :: line = params ++ ')' :: after) (hc : c ≠ ')') :
    ∃ more, params = c :: more ∧ line = more ++ ')' :: after := by
  cases params with
  | nil => exact absurd (List.cons.inj h).1 hc
  | cons d params =>
    obtain ⟨rfl, hline⟩ := List.cons.inj h
    exact ⟨params, rfl, hline⟩

/-- Nothing is read after a comment that takes the rest of the line. -/
theorem lineText_ne_of_open {lines : Nat} {rest params after : List Char} (hrest : AtEnd rest) :
    lineText (List.replicate lines '\n' ++ ' ' :: rest) ≠ params ++ ')' :: after := by
  intro h
  cases lines with
  | zero =>
    rw [List.replicate_zero, List.nil_append, lineText_space, lineText_atEnd hrest] at h
    obtain ⟨more, -, h⟩ := exists_cons_params h (by decide)
    simp at h
  | succ lines => simp [lineText, List.replicate_succ] at h

/-- What is read after a backslash that ends a line is a list, if this holds of all shorter texts.
-/
theorem closes_joined {ret rest params after : List Char} (hret : IsReturn ret)
    (hparams : ∀ c ∈ params, isParamChar c = true) (hrest : AtEnd (stripComments .plain rest))
    (h : lineText ((stripComments .plain rest).drop 1) = params ++ ')' :: after)
    (ih : ∀ shorter params after, shorter.length < rest.length →
      (∀ c ∈ params, isParamChar c = true) →
      lineText (stripComments .plain shorter) = params ++ ')' :: after → Closes shorter params) :
    Closes ('\\' :: (ret ++ rest)) (' ' :: params) := by
  rcases stripComments_cases rest with
    ⟨inside, rest, hinside, rfl⟩ | ⟨lines, tail, heq, htail⟩ | rfl | ⟨c, rest, rfl, heq⟩
  · rw [stripComments_comment hinside] at hrest h
    match hlines : inside.count '\n' with
    | 0 =>
      rw [hlines] at hrest
      exact absurd hrest (not_atEnd_cons (by decide))
    | 1 =>
      rw [hlines] at h
      obtain ⟨more, rfl, hline⟩ := exists_cons_params ((lineText_space _).symm.trans h) (by decide)
      have hmore := ih rest more after (by simp; omega) (List.forall_mem_cons.mp hparams).2 hline
      simpa using hmore.space (.broken hret hinside hlines)
    | lines + 2 => simp [hlines, lineText, List.replicate_succ] at h
  · rw [heq] at hrest h
    cases lines with
    | zero => exact absurd hrest (not_atEnd_cons (by decide))
    | succ lines => exact absurd h (lineText_ne_of_open htail)
  · simp [stripComments, lineText] at h
  · rw [heq] at hrest h
    obtain rfl : c = '\n' := Decidable.byContradiction fun hc => not_atEnd_cons hc hrest
    have hmore := ih rest params after (Nat.lt_succ_self _) hparams h
    simpa using hmore.space (.spacing (.continued hret))

/-- What is read from a character that is not replaced is a list, if this holds of the text after
it. -/
theorem closes_cons {c : Char} {rest params after : List Char}
    (hparams : ∀ c ∈ params, isParamChar c = true) (hnewline : c ≠ '\n')
    (h : c :: lineText (stripComments (if c = '"' ∨ c = '\'' then .quoted c else .plain) rest) =
      params ++ ')' :: after)
    (ih : ∀ {params : List Char}, (∀ c ∈ params, isParamChar c = true) →
      lineText (stripComments .plain rest) = params ++ ')' :: after → Closes rest params) :
    Closes (c :: rest) params := by
  by_cases hclose : c = ')'
  · subst hclose
    cases params with
    | nil => exact .here rest
    | cons d params =>
      obtain rfl := (List.cons.inj h).1
      exact absurd (hparams _ List.mem_cons_self) (by decide)
  · obtain ⟨params, rfl, hrest⟩ := exists_cons_params h hclose
    obtain ⟨hc, hparams⟩ := List.forall_mem_cons.mp hparams
    have hcalm := isCalm_of_isParamChar hc hnewline
    obtain ⟨-, hquote, hquote', -, -⟩ := isCalm_iff.mp hcalm
    rw [if_neg (not_or.mpr ⟨hquote, hquote'⟩)] at hrest
    exact (ih hparams hrest).char hcalm

/-- What precedes the first closing parenthesis of a logical line is read from a list of parameters,
if it has only characters of such lists. -/
theorem closes_of_lineText {rest params after : List Char}
    (hparams : ∀ c ∈ params, isParamChar c = true)
    (h : lineText (stripComments .plain rest) = params ++ ')' :: after) : Closes rest params := by
  induction hlength : rest.length using Nat.strongRecOn generalizing rest params after with
  | ind n ih =>
    rcases stripComments_cases rest with
      ⟨inside, rest, hinside, rfl⟩ | ⟨lines, tail, heq, htail⟩ | rfl | ⟨c, rest, rfl, heq⟩
    · rw [stripComments_comment hinside] at h
      cases hlines : inside.count '\n' with
      | zero =>
        rw [hlines] at h
        obtain ⟨more, rfl, hline⟩ :=
          exists_cons_params ((lineText_space _).symm.trans h) (by decide)
        have hmore := ih rest.length (by simp [← hlength]; omega)
          (List.forall_mem_cons.mp hparams).2 hline rfl
        exact hmore.space (.spacing (.comment hinside (List.count_eq_zero.mp hlines)))
      | succ lines => simp [hlines, lineText, List.replicate_succ] at h
    · rw [heq] at h
      exact absurd h (lineText_ne_of_open htail)
    · simp [stripComments, lineText] at h
    · rw [heq] at h
      by_cases hnewline : c = '\n'
      · simp [hnewline, lineText] at h
      -- A backslash ends its line also where the line break is that of a comment.
      by_cases hbackslash : c = '\\' ∧ ∃ ret more, IsReturn ret ∧ rest = ret ++ more ∧
          AtEnd (stripComments .plain more)
      · obtain ⟨rfl, ret, more, hret, rfl, hmore⟩ := hbackslash
        have hline : lineText ('\\' :: stripComments .plain (ret ++ more)) =
            ' ' :: lineText ((stripComments .plain more).drop 1) := by
          rw [stripComments_return hret]
          rcases hret with rfl | rfl
          · exact lineText_continued hmore
          · exact lineText_continuedReturn hmore
        obtain ⟨params, rfl, hjoined⟩ := exists_cons_params (hline.symm.trans h) (by decide)
        refine closes_joined hret (List.forall_mem_cons.mp hparams).2 hmore hjoined ?_
        intro shorter params after hshorter hparams h
        exact ih _ (by simp [← hlength]; omega) hparams h rfl
      by_cases hreturn : c = '\r' ∧ AtEnd (stripComments .plain rest)
      · obtain ⟨rfl, hrest⟩ := hreturn
        exact absurd ((lineText_return hrest).symm.trans h) (by simp)
      have hstays : c = '\\' → ¬ AtEnd (stripComments .plain rest) ∧
          ∀ more, stripComments .plain rest = '\r' :: more → ¬ AtEnd more := by
        refine fun hc => ⟨fun hend => hbackslash ⟨hc, [], rest, .inl rfl, rfl, hend⟩, ?_⟩
        intro more hmore hend
        obtain ⟨rest, rfl, rfl⟩ := stripComments_eq_return hmore
        exact hbackslash ⟨hc, ['\r'], rest, .inr rfl, rfl, hend⟩
      rw [lineText_cons hnewline (fun hc hend => hreturn ⟨hc, by simpa [hc] using hend⟩)
        (fun hc => by simpa [hc] using hstays hc)] at h
      exact closes_cons hparams hnewline h fun hmore hline =>
        ih rest.length (by simp [← hlength]) hmore hline rfl

end KilnLang.Header
