import KilnLang.Proofs.Header.LineMeaning

/-!
# Comments as spaces

A block comment that starts outside of quotes and comments is read as its line breaks and a space.
So a comment on one line is a space (`comments_are_spaces`). The line breaks are kept so that lines
have the right numbers, but they also end the line that the comment starts on. That is the same as a
space unless it cuts a directive, a line that goes on or a quote: what the lines say is the same for
both (`CanCut.textSays`). A directive that is cut loses what follows the comment, although in C a
comment is a space there too (`comment_ends_definition`).

Where a text ends is followed by a machine over its characters (`Place`), in the middle of a comment
mark too, so that comments are removed from the text and from what follows it one after the other
(`stripComments_append`).
-/

namespace KilnLang.Header

open Text (isBlank Blank splitAt)

/-! ## Comments character by character -/

theorem stripComments_plain_cons {c : Char} {cs : List Char}
    (hline : c = '/' → ∀ rest, cs ≠ '/' :: rest) (hblock : c = '/' → ∀ rest, cs ≠ '*' :: rest) :
    stripComments .plain (c :: cs) =
      c :: stripComments (if IsQuote c then .quoted c else .plain) cs := by
  rw [stripComments]
  · exact fun rest hc hcs => hline hc rest hcs
  · exact fun rest hc hcs => hblock hc rest hcs

theorem stripComments_quoted_cons {q c : Char} (hc : c ≠ '\\') (cs : List Char) :
    stripComments (.quoted q) (c :: cs) =
      c :: stripComments (if c = q ∨ c = '\n' then .plain else .quoted q) cs := by
  rw [stripComments]
  exact fun _ _ h => absurd h hc

theorem stripComments_block_cons {c : Char} {cs : List Char}
    (h : c = '*' → ∀ rest, cs ≠ '/' :: rest) :
    stripComments .blockComment (c :: cs) =
      (if c = '\n' then [c] else []) ++ stripComments .blockComment cs := by
  rw [stripComments]
  · split <;> rfl
  · exact fun rest hc hcs => h hc rest hcs

/-! ## Where a text ends -/

/-- Where the end of a text is: in plain text, after a slash or a backslash there, in a quote, or in
a comment, after a star there. -/
inductive Place where
  | plain
  | slash
  | quoted (quote : Char)
  | escaped (quote : Char)
  | line
  | block
  | star
  deriving DecidableEq, Repr

namespace Place

/-- Where a character leads to. -/
def next : Place → Char → Place
  | .plain, c => if c = '/' then .slash else if IsQuote c then .quoted c else .plain
  | .slash, c =>
    if c = '/' then .line else if c = '*' then .block else if IsQuote c then .quoted c else .plain
  | .quoted q, c => if c = '\\' then .escaped q else if c = q ∨ c = '\n' then .plain else .quoted q
  | .escaped q, _ => .quoted q
  | .line, c => if c = '\n' then .plain else .line
  | .block, c => if c = '*' then .star else .block
  | .star, c => if c = '/' then .plain else if c = '*' then .star else .block

/-- Removes the comments of what follows a text that ends at the place. -/
def strip : Place → List Char → List Char
  | .plain, cs => stripComments .plain cs
  | .slash, cs => stripComments .plain ('/' :: cs)
  | .quoted q, cs => stripComments (.quoted q) cs
  | .escaped q, cs => stripComments (.quoted q) ('\\' :: cs)
  | .line, cs => stripComments .lineComment cs
  | .block, cs => stripComments .blockComment cs
  | .star, cs => stripComments .blockComment ('*' :: cs)

/-- What a character leaves does not depend on what follows it. -/
theorem strip_cons (place : Place) (c : Char) :
    ∃ out, ∀ cs, place.strip (c :: cs) = out ++ (place.next c).strip cs := by
  cases place with
  | plain =>
    by_cases hslash : c = '/'
    · subst hslash
      exact ⟨[], fun cs => rfl⟩
    · refine ⟨[c], fun cs => ?_⟩
      rw [strip, stripComments_plain_cons (fun h => absurd h hslash) (fun h => absurd h hslash),
        next, if_neg hslash]
      split <;> rfl
  | slash =>
    by_cases hline : c = '/'
    · subst hline
      exact ⟨[' '], fun cs => rfl⟩
    by_cases hblock : c = '*'
    · subst hblock
      exact ⟨[], fun cs => rfl⟩
    · refine ⟨['/', c], fun cs => ?_⟩
      have hslash : stripComments .plain ('/' :: c :: cs) =
          '/' :: stripComments .plain (c :: cs) :=
        stripComments_plain_cons (fun _ rest h => hline (List.cons.inj h).1)
          fun _ rest h => hblock (List.cons.inj h).1
      rw [strip, hslash,
        stripComments_plain_cons (fun h => absurd h hline) (fun h => absurd h hline),
        next, if_neg hline, if_neg hblock]
      split <;> rfl
  | quoted q =>
    by_cases hescape : c = '\\'
    · subst hescape
      exact ⟨[], fun cs => rfl⟩
    · refine ⟨[c], fun cs => ?_⟩
      rw [strip, stripComments_quoted_cons hescape, next, if_neg hescape]
      split <;> rfl
  | escaped q => exact ⟨['\\', c], fun cs => rfl⟩
  | line =>
    by_cases hbreak : c = '\n'
    · subst hbreak
      exact ⟨['\n'], fun cs => rfl⟩
    · refine ⟨[], fun cs => ?_⟩
      rw [strip, stripComments, if_neg hbreak, next, if_neg hbreak]
      rfl
  | block =>
    by_cases hstar : c = '*'
    · subst hstar
      exact ⟨[], fun cs => rfl⟩
    · refine ⟨if c = '\n' then [c] else [], fun cs => ?_⟩
      rw [strip, stripComments_block_cons fun h => absurd h hstar, next, if_neg hstar]
      rfl
  | star =>
    by_cases hclose : c = '/'
    · subst hclose
      exact ⟨[' '], fun cs => rfl⟩
    -- The star before the character closes nothing, and is left out as the character is.
    have hopen : ∀ cs, stripComments .blockComment ('*' :: c :: cs) =
        stripComments .blockComment (c :: cs) := by
      intro cs
      rw [stripComments_block_cons fun _ rest h => hclose (List.cons.inj h).1]
      rfl
    by_cases hstar : c = '*'
    · subst hstar
      exact ⟨[], hopen⟩
    · refine ⟨if c = '\n' then [c] else [], fun cs => ?_⟩
      rw [strip, hopen, stripComments_block_cons fun h => absurd h hstar, next, if_neg hclose,
        if_neg hstar]
      rfl

theorem strip_append (place : Place) (text : List Char) :
    ∃ out, ∀ cs, place.strip (text ++ cs) = out ++ (text.foldl next place).strip cs := by
  induction text generalizing place with
  | nil => exact ⟨[], fun cs => rfl⟩
  | cons c text ih =>
    obtain ⟨first, hfirst⟩ := place.strip_cons c
    obtain ⟨out, hout⟩ := ih (place.next c)
    refine ⟨first ++ out, fun cs => ?_⟩
    rw [List.cons_append, hfirst, hout, List.append_assoc]
    rfl

end Place

/-- The text ends outside of quotes and comments. -/
def EndsPlain (text : List Char) : Prop := text.foldl Place.next .plain = .plain

instance (text : List Char) : Decidable (EndsPlain text) :=
  inferInstanceAs (Decidable (_ = _))

/-- Comments are removed from a text that ends outside of them and from what follows it. -/
theorem stripComments_append {text : List Char} (h : EndsPlain text) (cs : List Char) :
    stripComments .plain (text ++ cs) = stripComments .plain text ++ stripComments .plain cs := by
  obtain ⟨out, hout⟩ := Place.plain.strip_append text
  have htext := hout []
  rw [h, List.append_nil] at htext
  have hall := hout cs
  rw [h] at hall
  have hnone : Place.plain.strip [] = [] := rfl
  rw [hnone, List.append_nil] at htext
  have hplain : ∀ cs, Place.plain.strip cs = stripComments .plain cs := fun cs => rfl
  rw [hplain] at htext hall
  rw [hall, htext]
  rfl

/-! ## Lines around a comment -/

/-- The texts of the lines that are joined, where `open?` is the line that the one before left
open. -/
def joinTexts (open? : Option (List Char)) : List (List Char) → List (List Char)
  | [] => open?.toList
  | raw :: more =>
    let text := open?.getD [] ++ lineShare raw
    if goesOn raw then joinTexts (some text) more else text :: joinTexts none more

theorem map_text_joinLines (number : Nat) (open? : Option LogicalLine)
    (raws : List (List Char)) :
    (joinLines number open? raws).map (·.text) = joinTexts (open?.map (·.text)) raws := by
  induction raws generalizing number open? with
  | nil => cases open? <;> rfl
  | cons raw raws ih =>
    have hopen : (open?.getD ⟨number, []⟩).text = (open?.map (·.text)).getD [] := by
      cases open? <;> rfl
    rw [joinTexts, lineShare, goesOn]
    cases hjoin : dropFinal? '\\' (withoutReturn raw) with
    | some joined =>
      rw [joinLines_of_some hjoin, ih, hopen, List.append_assoc]
      rfl
    | none =>
      rw [joinLines_of_none hjoin, List.map_cons, ih, hopen]
      rfl

theorem lineTexts_eq (text : List Char) :
    lineTexts text = joinTexts none (splitAt '\n' text) :=
  map_text_joinLines 1 none _

/-- What some lines give, and the line that they leave open, does not depend on the lines after
them. -/
theorem joinTexts_append (open? : Option (List Char)) (raws : List (List Char)) :
    ∃ done open', ∀ more, joinTexts open? (raws ++ more) = done ++ joinTexts open' more := by
  induction raws generalizing open? with
  | nil => exact ⟨[], open?, fun more => rfl⟩
  | cons raw raws ih =>
    by_cases hraw : goesOn raw = true
    · obtain ⟨done, open', h⟩ := ih (some (open?.getD [] ++ lineShare raw))
      refine ⟨done, open', fun more => ?_⟩
      rw [List.cons_append, joinTexts, if_pos hraw, h]
    · obtain ⟨done, open', h⟩ := ih none
      refine ⟨(open?.getD [] ++ lineShare raw) :: done, open', fun more => ?_⟩
      rw [List.cons_append, joinTexts, if_neg hraw, h, List.cons_append]

/-- The first line with a text before it. -/
def prefixFirst (text : List Char) : List (List Char) → List (List Char)
  | [] => []
  | line :: lines => (text ++ line) :: lines

theorem joinTexts_prefix (text open' : List Char) (raws : List (List Char)) :
    joinTexts (some (text ++ open')) raws = prefixFirst text (joinTexts (some open') raws) := by
  induction raws generalizing open' with
  | nil => rfl
  | cons raw raws ih =>
    rw [joinTexts, joinTexts, Option.getD_some, Option.getD_some, List.append_assoc]
    split
    · exact ih _
    · rfl

/-- The lines of a text are known up to the last one, to which what follows the text is added. -/
theorem exists_last_line (text : List Char) : ∃ raws raw, '\n' ∉ raw ∧
    ∀ more, splitAt '\n' (text ++ more) = raws ++ splitAt '\n' (raw ++ more) := by
  induction hlength : text.length using Nat.strongRecOn generalizing text with
  | ind n ih =>
    rcases Text.splitAt_cases '\n' text with hline | ⟨part, rest, hpart, rfl⟩
    · exact ⟨[], text, hline, fun more => rfl⟩
    · obtain ⟨raws, raw, hraw, h⟩ := ih rest.length (by simp [← hlength]; omega) rest rfl
      refine ⟨part :: raws, raw, hraw, fun more => ?_⟩
      rw [List.append_assoc, List.cons_append, Text.splitAt_append hpart, h, List.cons_append]

theorem splitAt_append_line {sep : Char} {part more first : List Char} {rest : List (List Char)}
    (hpart : sep ∉ part) (h : splitAt sep more = first :: rest) :
    splitAt sep (part ++ more) = (part ++ first) :: rest := by
  induction part with
  | nil => exact h
  | cons c part ih =>
    obtain ⟨hc, hpart⟩ := not_or.mp (mt List.mem_cons.mpr hpart)
    rw [List.cons_append, splitAt, if_neg (Ne.symm hc), ih hpart]
    rfl

/-- What ends a line does not depend on what is before a space in it. -/
theorem lineShare_space (before raw : List Char) :
    lineShare (before ++ ' ' :: raw) = before ++ lineShare (' ' :: raw) ∧
      goesOn (before ++ ' ' :: raw) = goesOn (' ' :: raw) := by
  induction before with
  | nil => exact ⟨rfl, rfl⟩
  | cons c before ih =>
    have hreturn : withoutReturn (c :: (before ++ ' ' :: raw)) =
        c :: withoutReturn (before ++ ' ' :: raw) := withoutReturn_cons (by simp)
    have hne : withoutReturn (before ++ ' ' :: raw) ≠ [] := by
      intro hnil
      have hmem : ' ' ∈ before ++ ' ' :: raw := by simp
      rw [eq_return_of_withoutReturn (by simp) hnil] at hmem
      exact absurd hmem (by decide)
    rw [← ih.2, List.cons_append, lineShare, goesOn, goesOn, hreturn, dropFinal?_cons hne,
      List.cons_append, ← ih.1, lineShare]
    cases dropFinal? '\\' (withoutReturn (before ++ ' ' :: raw)) with
    | none => exact ⟨rfl, rfl⟩
    | some joined => exact ⟨rfl, rfl⟩

/-- A line that does not go on is what it adds and a carriage return, or nothing. -/
theorem exists_return {raw : List Char} (h : goesOn raw = false) :
    ∃ ret, IsReturn ret ∧ raw = lineShare raw ++ ret := by
  have hshare : lineShare raw = withoutReturn raw := by
    rw [goesOn, Option.isSome_eq_false_iff, Option.isNone_iff_eq_none] at h
    rw [lineShare, h]
  rw [hshare, withoutReturn, dropFinal?]
  split
  · rename_i hlast
    obtain ⟨rest, rfl⟩ := List.getLast?_eq_some_iff.mp hlast
    exact ⟨['\r'], .inr rfl, by rw [Option.getD_some, List.dropLast_concat]⟩
  · exact ⟨[], .inl rfl, (List.append_nil raw).symm⟩

/-- The last line of a text does not go on after it. -/
def EndsItsLine (text : List Char) : Prop :=
  ∀ raw ∈ (splitAt '\n' text).getLast?, goesOn raw = false

instance (text : List Char) : Decidable (EndsItsLine text) :=
  inferInstanceAs (Decidable (∀ raw ∈ (splitAt '\n' text).getLast?, goesOn raw = false))

/-- The logical line that a text ends in. -/
def lastLine (text : List Char) : List Char := (lineTexts text).getLast?.getD []

variable {before after : List Char}

/-- A text that ends its line has some lines, and one that what follows it is added to. -/
theorem EndsItsLine.lineTexts (h : EndsItsLine before) : ∃ done open' raw, '\n' ∉ raw ∧
    goesOn raw = false ∧
    Header.lineTexts before = done ++ [(open' : Option (List Char)).getD [] ++ lineShare raw] ∧
    ∀ more, Header.lineTexts (before ++ more) =
      done ++ joinTexts open' (splitAt '\n' (raw ++ more)) := by
  obtain ⟨raws, raw, hraw, hsplit⟩ := exists_last_line before
  obtain ⟨done, open', hjoin⟩ := joinTexts_append none raws
  have hbefore := hsplit []
  rw [List.append_nil, List.append_nil, Text.splitAt_of_not_mem hraw] at hbefore
  have hgoes : goesOn raw = false := h raw (by rw [hbefore, List.getLast?_concat]; rfl)
  refine ⟨done, open', raw, hraw, hgoes, ?_, fun more => ?_⟩
  · rw [lineTexts_eq, hbefore, hjoin, joinTexts, if_neg (by simp [hgoes])]
    rfl
  · rw [lineTexts_eq, hsplit, hjoin]

/-- A line break ends the line, and the lines after it are lines of their own. -/
theorem lineTexts_break (h : EndsItsLine before) (more : List Char) :
    lineTexts (before ++ '\n' :: more) = lineTexts before ++ lineTexts more := by
  obtain ⟨done, open', raw, hraw, hgoes, htexts, hmore⟩ := h.lineTexts
  rw [hmore, htexts, Text.splitAt_append hraw, joinTexts, if_neg (by simp [hgoes]),
    ← lineTexts_eq, List.append_assoc, List.singleton_append]

/-- A space joins the lines around it. -/
theorem lineTexts_space (h : EndsItsLine before) (more : List Char) :
    ∃ done ret rest, IsReturn ret ∧ lineTexts before = done ++ [lastLine before] ∧
      lineTexts (' ' :: more) = (' ' :: lineText more) :: rest ∧
      lineTexts (before ++ ' ' :: more) =
        done ++ (lastLine before ++ ret ++ ' ' :: lineText more) :: rest := by
  obtain ⟨done, open', raw, hraw, hgoes, htexts, hmore⟩ := h.lineTexts
  have hlast : lastLine before = open'.getD [] ++ lineShare raw := by
    rw [lastLine, htexts, List.getLast?_concat, Option.getD_some]
  obtain ⟨ret, hret, hraw'⟩ := exists_return hgoes
  obtain ⟨rest, hfirst⟩ : ∃ rest, lineTexts (' ' :: more) = (' ' :: lineText more) :: rest := by
    obtain ⟨lines, hlines⟩ := exists_joinLines 1 none (' ' :: more)
    refine ⟨lines.map (·.text), ?_⟩
    rw [lineTexts, logicalLines, hlines, lineText_space]
    rfl
  refine ⟨done, ret, rest, hret, hlast ▸ htexts, hfirst, ?_⟩
  obtain ⟨first, tail, hsplit⟩ := List.exists_cons_of_ne_nil (Text.splitAt_ne_nil '\n' more)
  have hspace : splitAt '\n' (' ' :: more) = (' ' :: first) :: tail := by
    rw [← List.singleton_append, splitAt_append_line (by decide) hsplit]
    rfl
  obtain ⟨hshare, hgoes'⟩ := lineShare_space raw first
  have hjoin : joinTexts open' ((raw ++ ' ' :: first) :: tail) =
      prefixFirst (open'.getD [] ++ raw) (joinTexts none ((' ' :: first) :: tail)) := by
    rw [joinTexts, joinTexts, hshare, hgoes', ← List.append_assoc, Option.getD_none,
      List.nil_append]
    split
    · exact joinTexts_prefix _ _ _
    · rfl
  have hopen : open'.getD [] ++ raw = lastLine before ++ ret := by
    rw [hlast, List.append_assoc, ← hraw']
  rw [hmore, splitAt_append_line hraw hspace, hjoin, ← hspace, ← lineTexts_eq, hfirst, hopen]
  rfl

/-! ## Cut lines -/

theorem textSays_break (h : EndsItsLine before) (more : List Char) :
    textSays (before ++ '\n' :: more) = textSays before ++ textSays more := by
  rw [textSays, lineTexts_break h, List.flatMap_append]
  rfl

/-- Line breaks at the start of a text say nothing. -/
theorem textSays_breaks (count : Nat) (more : List Char) :
    textSays (List.replicate count '\n' ++ more) = textSays more := by
  induction count with
  | zero => rfl
  | succ count ih =>
    have hempty : EndsItsLine [] := by
      rintro _ ⟨⟩
      rfl
    have hnone : textSays [] = [] := by
      have hblank : said (lineShare []) = [] := said_eq_nil nofun
      rw [textSays, lineTexts_eq]
      simp [splitAt, joinTexts, hblank]
    have hsays := textSays_break hempty (List.replicate count '\n' ++ more)
    rw [hnone, List.nil_append, List.nil_append, ih] at hsays
    exact hsays

/-- A line can be cut between the texts: it does not go on there, and nothing but blanks is on one
side, or both parts are outside of directives and quotes. -/
structure CanCut (before after : List Char) : Prop where
  ends : EndsItsLine before
  parts : Blank (lineText after) ∨ Blank (lastLine before) ∨
    directive? (lastLine before) = none ∧ directive? (lineText after) = none ∧
      closesQuotes none (lastLine before) = true

/-- The parts of a line that can be cut say what the line says. -/
theorem CanCut.said_eq (h : CanCut before after) {ret : List Char} (hret : IsReturn ret) :
    said (lastLine before ++ ret ++ ' ' :: lineText after) =
      said (lastLine before) ++ said (' ' :: lineText after) := by
  have hspace : Blank [' '] := List.forall_mem_singleton.mpr (by decide)
  have hret : Blank ret := by
    rcases hret with rfl | rfl
    · exact nofun
    · exact List.forall_mem_singleton.mpr (by decide)
  have hafter : said (' ' :: lineText after) = said (lineText after) := said_of_blank hspace _
  have hjoin : lastLine before ++ ret ++ ' ' :: lineText after =
      lastLine before ++ (ret ++ [' ']) ++ lineText after := by simp
  rw [hafter, hjoin]
  rcases h.parts with hblank | hblank | ⟨hp, hq, hclosed⟩
  · rw [said_eq_nil hblank, List.append_nil, said_append_blank hblank,
      said_append_blank (hret.append hspace)]
  · rw [said_of_blank (hblank.append (hret.append hspace)), said_eq_nil hblank, List.nil_append]
  · exact said_append hp hq (hret.append hspace) (by simp) hclosed

/-- **Where a line can be cut, line breaks are the same as a space.** -/
theorem CanCut.textSays (h : CanCut before after) (count : Nat) :
    Header.textSays (before ++ List.replicate (count + 1) '\n' ++ ' ' :: after) =
      Header.textSays (before ++ ' ' :: after) := by
  obtain ⟨done, ret, rest, hret, hbefore, hafter, hspace⟩ := lineTexts_space h.ends after
  rw [List.append_assoc, List.replicate_succ, List.cons_append, textSays_break h.ends,
    textSays_breaks, Header.textSays, Header.textSays, Header.textSays, hspace, hbefore, hafter]
  simp only [List.flatMap_append, List.flatMap_cons, h.said_eq hret]
  simp

/-! ## Comments -/

/-- A block comment with the text inside. -/
def blockComment (inside : String) : String := "/*" ++ inside ++ "*/"

/-- The line breaks of a text. -/
def lineBreaks (text : String) : String :=
  String.ofList (List.replicate (text.toList.count '\n') '\n')

theorem stripComments_breaks (count : Nat) (cs : List Char) :
    stripComments .plain (List.replicate count '\n' ++ cs) =
      List.replicate count '\n' ++ stripComments .plain cs := by
  induction count with
  | zero => rfl
  | succ count ih =>
    rw [List.replicate_succ, List.cons_append,
      stripComments_cons (by decide) (by decide) (by decide), ih, List.cons_append]

theorem scan_congr {contents contents' : String}
    (h : stripComments .plain contents.toList = stripComments .plain contents'.toList) :
    scan contents = scan contents' := by
  rw [scan, scan, directives, directives, h]

/-- **A block comment is its line breaks and a space.** A comment that starts outside of quotes and
comments can be replaced by its line breaks and a space without any change, so by a space if it is
on one line. If it has line breaks and the line can be cut there, a space still gives the same
symbols and includes. -/
theorem comments_are_spaces {before inside : String} (hbefore : EndsPlain before.toList)
    (hinside : ¬ ['*', '/'] <:+: inside.toList) (after : String) :
    scan (before ++ blockComment inside ++ after) =
      scan (before ++ (lineBreaks inside ++ " ") ++ after) ∧
    ('\n' ∉ inside.toList →
      scan (before ++ blockComment inside ++ after) = scan (before ++ " " ++ after)) ∧
    (CanCut (stripComments .plain before.toList) (stripComments .plain after.toList) →
      (scan (before ++ blockComment inside ++ after)).symbols =
        (scan (before ++ " " ++ after)).symbols ∧
      (scan (before ++ blockComment inside ++ after)).includes =
        (scan (before ++ " " ++ after)).includes) := by
  have hcomment : stripComments .plain (before ++ blockComment inside ++ after).toList =
      stripComments .plain before.toList ++ (List.replicate (inside.toList.count '\n') '\n' ++
        ' ' :: stripComments .plain after.toList) := by
    rw [← stripComments_comment hinside, ← stripComments_append hbefore]
    simp [blockComment, String.toList_append]
  have hspaces : stripComments .plain (before ++ (lineBreaks inside ++ " ") ++ after).toList =
      stripComments .plain before.toList ++ (List.replicate (inside.toList.count '\n') '\n' ++
        ' ' :: stripComments .plain after.toList) := by
    rw [← stripComments_cons (by decide) (by decide) (by decide), ← stripComments_breaks,
      ← stripComments_append hbefore]
    simp [lineBreaks, String.toList_append]
  have hspace : stripComments .plain (before ++ " " ++ after).toList =
      stripComments .plain before.toList ++ ' ' :: stripComments .plain after.toList := by
    rw [← stripComments_cons (by decide) (by decide) (by decide), ← stripComments_append hbefore]
    simp [String.toList_append]
  have hline : '\n' ∉ inside.toList →
      scan (before ++ blockComment inside ++ after) = scan (before ++ " " ++ after) := by
    intro hline
    apply scan_congr
    rw [hcomment, hspace, List.count_eq_zero.mpr hline]
    rfl
  refine ⟨scan_congr (hcomment.trans hspaces.symm), hline, fun hcut => ?_⟩
  by_cases hbreak : '\n' ∈ inside.toList
  · obtain ⟨count, hcount⟩ := Nat.exists_eq_succ_of_ne_zero
      (Nat.pos_iff_ne_zero.mp (List.count_pos_iff.mpr hbreak))
    -- With a line break in the comment the lines differ, but not what they say.
    have hsays : textSays (stripComments .plain (before ++ blockComment inside ++ after).toList) =
        textSays (stripComments .plain (before ++ " " ++ after).toList) := by
      rw [hcomment, hspace, hcount, ← List.append_assoc]
      exact hcut.textSays count
    obtain ⟨hsymbols, hincludes⟩ := scan_said (before ++ blockComment inside ++ after)
    obtain ⟨hsymbols', hincludes'⟩ := scan_said (before ++ " " ++ after)
    rw [hsymbols, hincludes, hsymbols', hincludes', hsays]
    exact ⟨rfl, rfl⟩
  · rw [hline hbreak]
    exact ⟨rfl, rfl⟩

/-- A prototype is the same with a comment over two lines in it. -/
theorem prototype_with_comment :
    (scan ("#define A 1\nint f(" ++ blockComment " one\n two " ++ "int n);\n")).symbols =
      [.constant "A" .int, .function "f" ⟨.int, [.int], .none⟩] := by
  have hcut : CanCut (stripComments .plain "#define A 1\nint f(".toList)
      (stripComments .plain "int n);\n".toList) := by
    exact ⟨by decide +kernel, .inr (.inr (by decide +kernel))⟩
  rw [((comments_are_spaces (by decide +kernel) (by decide +kernel) _).2.2 hcut).1]
  decide +kernel

/-- A comment with a line break that starts outside of quotes and comments is no space in a
definition: the line break, which is kept for the numbers of lines only, ends the body. -/
theorem comment_ends_definition : EndsPlain "#define A ".toList ∧ ¬ ['*', '/'] <:+: "\n".toList ∧
    (scan ("#define A " ++ blockComment "\n" ++ " 1\n")).symbols ≠
      (scan ("#define A " ++ " " ++ " 1\n")).symbols := by
  decide +kernel

end KilnLang.Header
