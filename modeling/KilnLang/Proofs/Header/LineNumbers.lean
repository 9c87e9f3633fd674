import KilnLang.Proofs.Header.MacroDefinitions
import Mathlib.Algebra.Group.Nat.Defs

/-!
# Line numbers of a header

**Theorem (`warnings_keep_line_numbers`).** A header falls into characters that are kept and
comments, and each comment leaves as many line breaks as it has, so every character that is kept
stays on its line. The lines of what is left are grouped: the lines of a group are joined, all
lines are in one group, in order, and the number of a joined line is that of its first line. A
warning about a directive has the number of the line that holds the directive.

The groups are found by induction on the lines, where the lines that were joined so far are a group
that is still open (`exists_groups`).
-/

namespace KilnLang.Header

open Text (splitAt)

/-! ## What comments leave -/

/-- A part of a header: a character that is kept, or a comment. -/
inductive Piece where
  | kept (c : Char)
  | comment (text : List Char)

namespace Piece

/-- The text of the part. -/
def source : Piece → List Char
  | .kept c => [c]
  | .comment text => text

/-- What is left of the part. -/
def left : Piece → List Char
  | .kept c => [c]
  | .comment text => text.filter (· == '\n') ++ [' ']

/-- The parts one after the other. -/
def sources (pieces : List Piece) : List Char := pieces.flatMap source

/-- What is left of the parts. -/
def remains (pieces : List Piece) : List Char := pieces.flatMap left

/-- Parts leave as many line breaks as they have. -/
theorem count_remains (pieces : List Piece) :
    (remains pieces).count '\n' = (sources pieces).count '\n' := by
  induction pieces with
  | nil => rfl
  | cons piece pieces ih =>
    show (piece.left ++ remains pieces).count '\n' = (piece.source ++ sources pieces).count '\n'
    rw [List.count_append, List.count_append, ih]
    cases piece with
    | kept c => rfl
    | comment text => simp [left, source, List.filter_beq]

end Piece

/-- The text is a comment: one that ends at the line break, one that is closed, or one that is not
closed and takes the rest of the header. -/
inductive IsComment : List Char → Prop
  | line {text : List Char} (h : '\n' ∉ text) : IsComment ('/' :: '/' :: text)
  | block {inside : List Char} (h : ¬ ['*', '/'] <:+: inside) :
      IsComment ('/' :: '*' :: (inside ++ ['*', '/']))
  | unclosed {inside : List Char} (h : ¬ ['*', '/'] <:+: inside) :
      IsComment ('/' :: '*' :: inside)

/-- The text falls into these parts, comments as well as characters that are kept, and `out` is
what is left of them. -/
structure FallsInto (pieces : List Piece) (text out : List Char) : Prop where
  text_eq : Piece.sources pieces = text
  out_eq : Piece.remains pieces = out
  comments : ∀ comment, .comment comment ∈ pieces → IsComment comment

namespace FallsInto

variable {pieces : List Piece} {text out : List Char}

theorem nil : FallsInto [] [] [] := ⟨rfl, rfl, nofun⟩

theorem kept (h : FallsInto pieces text out) (c : Char) :
    FallsInto (.kept c :: pieces) (c :: text) (c :: out) where
  text_eq := congrArg (c :: ·) h.text_eq
  out_eq := congrArg (c :: ·) h.out_eq
  comments comment hmem := by
    rcases List.mem_cons.mp hmem with heq | hmem
    · exact nomatch heq
    · exact h.comments comment hmem

theorem comment (h : FallsInto pieces text out) {comment : List Char} (hc : IsComment comment) :
    FallsInto (.comment comment :: pieces) (comment ++ text)
      (comment.filter (· == '\n') ++ ' ' :: out) where
  text_eq := congrArg (comment ++ ·) h.text_eq
  out_eq := by
    show comment.filter (· == '\n') ++ [' '] ++ Piece.remains pieces = _
    rw [h.out_eq, List.append_assoc, List.singleton_append]
  comments comment' hmem := by
    rcases List.mem_cons.mp hmem with heq | hmem
    · cases heq
      exact hc
    · exact h.comments comment' hmem

end FallsInto

/-- The rest of a text that is read in a region falls into parts, after the rest of the comment that
is open. -/
def Region.Leaves (region : Region) (text out : List Char) : Prop :=
  match region with
  | .plain => ∃ pieces, FallsInto pieces text out
  | .quoted _ => ∃ pieces, FallsInto pieces text out
  | .lineComment => ∃ pieces, FallsInto pieces (text.dropWhile (· != '\n')) out
  | .blockComment =>
    (∃ inside rest pieces more, ¬ ['*', '/'] <:+: inside ∧ text = inside ++ '*' :: '/' :: rest ∧
      FallsInto pieces rest more ∧ out = inside.filter (· == '\n') ++ ' ' :: more) ∨
    (¬ ['*', '/'] <:+: text ∧ out = text.filter (· == '\n') ++ [' '])

namespace Region.Leaves

variable {text out : List Char}

theorem kept {region : Region} (hregion : region = .plain ∨ ∃ q, region = .quoted q)
    (h : region.Leaves text out) (c : Char) :
    ∃ pieces, FallsInto pieces (c :: text) (c :: out) := by
  rcases hregion with rfl | ⟨q, rfl⟩
  · obtain ⟨pieces, h⟩ := h
    exact ⟨_, h.kept c⟩
  · obtain ⟨pieces, h⟩ := h
    exact ⟨_, h.kept c⟩

theorem lineComment (h : Region.lineComment.Leaves text out) :
    Region.plain.Leaves ('/' :: '/' :: text) (' ' :: out) := by
  obtain ⟨pieces, h⟩ := h
  have hline : '\n' ∉ text.takeWhile (· != '\n') := by
    intro hmem
    simpa using List.mem_takeWhile_imp hmem
  have hnone : ('/' :: '/' :: text.takeWhile (· != '\n')).filter (· == '\n') = [] := by
    rw [List.filter_beq, List.count_eq_zero.mpr (by simpa using hline)]
    rfl
  have hpieces := h.comment (.line hline)
  rw [hnone, List.nil_append, List.cons_append, List.cons_append,
    List.takeWhile_append_dropWhile] at hpieces
  exact ⟨_, hpieces⟩

theorem blockComment (h : Region.blockComment.Leaves text out) :
    Region.plain.Leaves ('/' :: '*' :: text) out := by
  rcases h with ⟨inside, rest, pieces, more, hinside, rfl, h, rfl⟩ | ⟨hopen, rfl⟩
  · have hpieces := h.comment (.block hinside)
    simp only [List.cons_append, List.append_assoc, List.nil_append] at hpieces
    simp at hpieces
    exact ⟨_, hpieces⟩
  · have hpieces := FallsInto.nil.comment (.unclosed hopen)
    simp at hpieces
    exact ⟨_, hpieces⟩

/-- A character of a block comment is left only if it is a line break. -/
theorem inside {c : Char} (hc : ∀ rest, c = '*' → text ≠ '/' :: rest)
    (h : Region.blockComment.Leaves text out) :
    Region.blockComment.Leaves (c :: text) (if c = '\n' then c :: out else out) := by
  have hbreak : ∀ rest : List Char, (c :: rest).filter (· == '\n') =
      if c = '\n' then c :: rest.filter (· == '\n') else rest.filter (· == '\n') := by
    intro rest
    by_cases hc : c = '\n' <;> simp [hc]
  rcases h with ⟨inside, rest, pieces, more, hinside, rfl, h, rfl⟩ | ⟨hopen, rfl⟩
  · refine .inl ⟨c :: inside, rest, pieces, more, ?_, rfl, h, ?_⟩
    · intro hmem
      rcases List.infix_cons_iff.mp hmem with ⟨more, hmore⟩ | hmem
      · cases hmore
        exact hc _ rfl rfl
      · exact hinside hmem
    · rw [hbreak]
      split <;> rfl
  · refine .inr ⟨?_, ?_⟩
    · intro hmem
      rcases List.infix_cons_iff.mp hmem with ⟨more, hmore⟩ | hmem
      · cases hmore
        exact hc _ rfl rfl
      · exact hopen hmem
    · rw [hbreak]
      split <;> rfl

end Region.Leaves

theorem leaves_stripComments (region : Region) (cs : List Char) :
    region.Leaves cs (stripComments region cs) := by
  fun_induction stripComments region cs with
  | case1 => exact ⟨[], .nil⟩
  | case2 cs ih => exact ih.lineComment
  | case3 cs ih => exact ih.blockComment
  | case4 c cs hline hblock ih =>
    exact ih.kept (by split <;> simp) c
  | case5 => exact ⟨[], .nil⟩
  | case6 q c cs ih =>
    obtain ⟨pieces, h⟩ := ih
    exact ⟨_, (h.kept c).kept '\\'⟩
  | case7 q c cs hescape ih =>
    exact ih.kept (by split <;> simp) c
  | case8 => exact ⟨[], .nil⟩
  | case9 cs ih => exact ih.kept (.inl rfl) '\n'
  | case10 c cs hc ih =>
    obtain ⟨pieces, h⟩ := ih
    exact ⟨pieces, by rwa [List.dropWhile_cons_of_pos (by simpa using hc)]⟩
  | case11 => exact .inr ⟨by decide, rfl⟩
  | case12 cs ih =>
    obtain ⟨pieces, h⟩ := ih
    exact .inl ⟨[], cs, pieces, _, by decide, rfl, h, rfl⟩
  | case13 cs hclose ih => exact ih.inside hclose
  | case14 c cs hclose hc ih =>
    have hinside := ih.inside hclose
    rwa [if_neg hc] at hinside

/-! ## Groups of lines -/

/-- The line ends in a backslash, which joins the next line to it. -/
def goesOn (raw : List Char) : Bool := (dropFinal? '\\' (withoutReturn raw)).isSome

/-- What a line adds to the logical line that it is a part of. -/
def lineShare (raw : List Char) : List Char :=
  match dropFinal? '\\' (withoutReturn raw) with
  | some joined => joined ++ [' ']
  | none => withoutReturn raw

/-- The text of a group of lines that are joined. -/
def joinedText (group : List (List Char)) : List Char := group.flatMap lineShare

/-- The logical lines of groups, each with the number of its first line. -/
def numbered (number : Nat) : List (List (List Char)) → List LogicalLine
  | [] => []
  | group :: groups => ⟨number, joinedText group⟩ :: numbered (number + group.length) groups

/-- All lines are in one of the groups, in order, and the lines of a group are those that are
joined. -/
structure AreGroups (raws : List (List Char)) (groups : List (List (List Char))) : Prop where
  flatten_eq : groups.flatten = raws
  nonempty : ∀ group ∈ groups, group ≠ []
  joined : ∀ group ∈ groups, ∀ raw ∈ group.dropLast, goesOn raw = true
  ended : ∀ group ∈ groups.dropLast, ∀ raw ∈ group.getLast?, goesOn raw = false

namespace AreGroups

variable {raws group : List (List Char)} {groups : List (List (List Char))} {raw : List Char}

theorem nil : AreGroups [] [] := ⟨rfl, nofun, nofun, nofun⟩

/-- A group that the end of the header leaves open. -/
theorem single (hne : group ≠ []) (h : ∀ raw ∈ group, goesOn raw = true) :
    AreGroups group [group] where
  flatten_eq := List.append_nil group
  nonempty := List.forall_mem_singleton.mpr hne
  joined := List.forall_mem_singleton.mpr fun raw hraw => h raw (List.dropLast_subset _ hraw)
  ended := nofun

/-- A group that ends with a line that does not go on. -/
theorem cons (hgroup : ∀ raw ∈ group, goesOn raw = true) (hraw : goesOn raw = false)
    (h : AreGroups raws groups) :
    AreGroups (group ++ raw :: raws) ((group ++ [raw]) :: groups) where
  flatten_eq := by simp [h.flatten_eq]
  nonempty := List.forall_mem_cons.mpr ⟨by simp, h.nonempty⟩
  joined := by
    refine List.forall_mem_cons.mpr ⟨?_, h.joined⟩
    rw [List.dropLast_concat]
    exact hgroup
  ended := by
    cases groups with
    | nil => exact nofun
    | cons next groups =>
      refine List.forall_mem_cons.mpr ⟨?_, h.ended⟩
      rw [List.getLast?_concat]
      rintro _ ⟨⟩
      exact hraw

end AreGroups

/-- The logical line that a group of lines leaves open. -/
def openLine (number : Nat) (group : List (List Char)) : Option LogicalLine :=
  if group = [] then none else some ⟨number, joinedText group⟩

theorem openLine_getD (number : Nat) (group : List (List Char)) :
    (openLine number group).getD ⟨number + group.length, []⟩ = ⟨number, joinedText group⟩ := by
  unfold openLine
  split
  · rename_i h
    rw [h]
    rfl
  · rfl

theorem joinedText_concat (group : List (List Char)) (raw : List Char) :
    joinedText (group ++ [raw]) = joinedText group ++ lineShare raw := by
  simp [joinedText]

/-- The lines after an open group fall into groups, the first of which goes on with it. -/
theorem exists_groups (group : List (List Char)) (hgroup : ∀ raw ∈ group, goesOn raw = true)
    (number : Nat) (raws : List (List Char)) :
    ∃ groups, AreGroups (group ++ raws) groups ∧
      joinLines (number + group.length) (openLine number group) raws = numbered number groups := by
  induction raws generalizing number group with
  | nil =>
    by_cases hempty : group = []
    · subst hempty
      exact ⟨[], .nil, rfl⟩
    · refine ⟨[group], ?_, ?_⟩
      · rw [List.append_nil]
        exact .single hempty hgroup
      · rw [openLine, if_neg hempty]
        rfl
  | cons raw raws ih =>
    cases hjoin : dropFinal? '\\' (withoutReturn raw) with
    | some joined =>
      have hraw : goesOn raw = true := by rw [goesOn, hjoin]; rfl
      -- The line goes on, so it joins the open group.
      have hgroup' : ∀ raw' ∈ group ++ [raw], goesOn raw' = true :=
        List.forall_mem_append.mpr ⟨hgroup, List.forall_mem_singleton.mpr hraw⟩
      obtain ⟨groups, hgroups, hlines⟩ := ih _ hgroup' number
      refine ⟨groups, by simpa using hgroups, ?_⟩
      rw [joinLines_of_some hjoin, openLine_getD, ← hlines, openLine, if_neg (by simp),
        joinedText_concat, lineShare, hjoin, List.length_append]
      simp [Nat.add_assoc]
    | none =>
      have hraw : goesOn raw = false := by rw [goesOn, hjoin]; rfl
      obtain ⟨groups, hgroups, hlines⟩ :=
        ih [] (List.forall_mem_nil _) (number + group.length + 1)
      -- The line ends the open group, and the next group starts one line further down.
      refine ⟨(group ++ [raw]) :: groups, hgroups.cons hgroup hraw, ?_⟩
      rw [joinLines_of_none hjoin, openLine_getD, numbered, joinedText_concat, lineShare, hjoin,
        List.length_append, List.length_singleton, ← Nat.add_assoc, ← hlines]
      rfl

/-! ## Warnings -/

/-- The line is a directive that is skipped because of the flaw. -/
def Reports (text : List Char) (flaw : DirectiveFlaw) : Prop :=
  ∃ name rest, directive? text = some (name, rest) ∧
    (name = "define" ∧ definition rest = .error flaw ∨
      name ∈ ["elif", "elifdef", "elifndef", "else", "endif"] ∧ flaw = .unmatched name)

/-- A line adds only warnings about itself. -/
theorem addLine_warnings {d : Directives} {depth : Nat} {line : LogicalLine} {n : Nat}
    {flaw : DirectiveFlaw} (h : (n, flaw) ∈ (d.addLine depth line).1.warnings) :
    (n, flaw) ∈ d.warnings ∨ n = line.number ∧ Reports line.text flaw := by
  unfold Directives.addLine at h
  cases hdirective : directive? line.text with
  | none =>
    rw [hdirective] at h
    exact .inl h
  | some p =>
    obtain ⟨name, rest⟩ := p
    -- A line adds one warning at most, with its own number.
    have hwarn : ∀ {flaw'}, (n, flaw) ∈ d.warnings ++ [(line.number, flaw')] →
        (name = "define" ∧ definition rest = .error flaw' ∨
          name ∈ ["elif", "elifdef", "elifndef", "else", "endif"] ∧ flaw' = .unmatched name) →
        (n, flaw) ∈ d.warnings ∨ n = line.number ∧ Reports line.text flaw := by
      intro flaw' hmem hreports
      rcases List.mem_append.mp hmem with hmem | hmem
      · exact .inl hmem
      · cases List.mem_singleton.mp hmem
        exact .inr ⟨rfl, name, rest, hdirective, hreports⟩
    simp only [hdirective] at h
    split at h
    · rename_i hname
      split at h
      · exact .inl h
      · exact hwarn h (.inl ⟨eq_of_beq hname, ‹_›⟩)
    split at h
    · exact .inl h
    split at h
    · exact .inl h
    split at h
    · rename_i hname
      split at h
      · have hmem := List.contains_iff_mem.mp hname
        exact hwarn h (.inr ⟨List.mem_append_left ["endif"] hmem, rfl⟩)
      · exact .inl h
    split at h
    · rename_i hname
      split at h
      · exact hwarn h (.inr ⟨by simp [eq_of_beq hname], rfl⟩)
      · exact .inl h
    · exact .inl h

/-- Lines add only warnings about themselves, and one about the end of the header. -/
theorem addLines_warnings {d : Directives} {depth last : Nat} {lines : List LogicalLine} {n : Nat}
    {flaw : DirectiveFlaw} (h : (n, flaw) ∈ (d.addLines depth last lines).warnings) :
    (n, flaw) ∈ d.warnings ∨ (∃ line ∈ lines, n = line.number ∧ Reports line.text flaw) ∨
      ∃ count, flaw = .unterminatedConditionals count := by
  induction lines generalizing d depth last with
  | nil =>
    unfold Directives.addLines at h
    split at h
    · exact .inl h
    · rcases List.mem_append.mp h with h | h
      · exact .inl h
      · cases List.mem_singleton.mp h
        exact .inr (.inr ⟨_, rfl⟩)
  | cons line lines ih =>
    rcases ih h with h | ⟨line', hline', h⟩ | h
    · rcases addLine_warnings h with h | h
      · exact .inl h
      · exact .inr (.inl ⟨line, List.mem_cons_self, h⟩)
    · exact .inr (.inl ⟨line', List.mem_cons_of_mem _ hline', h⟩)
    · exact .inr (.inr h)

theorem mem_numbered {line : LogicalLine} {groups : List (List (List Char))} {number : Nat}
    (h : line ∈ numbered number groups) : ∃ before group after, groups = before ++ group :: after ∧
      line = ⟨number + before.flatten.length, joinedText group⟩ := by
  induction groups generalizing number with
  | nil => exact nomatch h
  | cons group groups ih =>
    rcases List.mem_cons.mp h with rfl | h
    · exact ⟨[], group, groups, rfl, rfl⟩
    · obtain ⟨before, group', after, rfl, rfl⟩ := ih h
      exact ⟨group :: before, group', after, rfl, by simp [Nat.add_assoc]⟩

/-- Lines are numbered up to one more than the number of line breaks, so the numbers of a header of
less than 2^32 - 1 bytes are numbers of 32 bits. -/
theorem number_lt {contents : String} {line : LogicalLine}
    (hsize : utf8Width contents.toList + 1 < 2 ^ 32) (h : line ∈ linesOf contents) :
    line.number < 2 ^ 32 := by
  obtain ⟨groups, hgroups, hlines⟩ := exists_groups [] (List.forall_mem_nil _) 1
    (splitAt '\n' (stripComments .plain contents.toList))
  have hmem : line ∈ numbered 1 groups := hlines ▸ h
  obtain ⟨before, group, after, rfl, rfl⟩ := mem_numbered hmem
  have hgroup : group ≠ [] := hgroups.nonempty group (by simp)
  have hlength := congrArg List.length hgroups.flatten_eq
  rw [List.nil_append, Text.length_splitAt, count_stripComments, List.flatten_append,
    List.flatten_cons, List.length_append, List.length_append] at hlength
  have hpos := List.length_pos_iff.mpr hgroup
  have hcount : contents.toList.count '\n' ≤ utf8Width contents.toList :=
    Nat.le_trans List.count_le_length (length_le_utf8Width _)
  dsimp only
  omega

/-- The line of a header that a text before it ends in. -/
def lineAfter (text : List Char) : Nat := text.count '\n' + 1

/-- **Warnings have the numbers of their lines.** A header falls into characters that are kept and
comments, and every character that is kept is on the same line of the header and of what is left of
it, which have the same number of lines. The logical lines are the groups of lines that are joined,
which hold all lines, in order, and have the numbers of their first lines. Every warning, other than
the one about conditionals that the end of the header leaves open, has the number of the first line
of a group that is the directive with that flaw. -/
theorem warnings_keep_line_numbers (contents : String) :
    (∃ pieces, FallsInto pieces contents.toList (stripComments .plain contents.toList) ∧
      ∀ before c after, pieces = before ++ .kept c :: after →
        lineAfter (Piece.remains before) = lineAfter (Piece.sources before)) ∧
    (splitAt '\n' (stripComments .plain contents.toList)).length =
      (splitAt '\n' contents.toList).length ∧
    ∃ groups, AreGroups (splitAt '\n' (stripComments .plain contents.toList)) groups ∧
      linesOf contents = numbered 1 groups ∧
      ∀ n flaw, (n, flaw) ∈ (scan contents).warnings →
        (∀ count, flaw ≠ .unterminatedConditionals count) →
        ∃ before group after, groups = before ++ group :: after ∧
          n = before.flatten.length + 1 ∧ Reports (joinedText group) flaw := by
  refine ⟨?_, ?_, ?_⟩
  · obtain ⟨pieces, h⟩ := leaves_stripComments .plain contents.toList
    refine ⟨pieces, h, fun before c after _ => ?_⟩
    rw [lineAfter, lineAfter, Piece.count_remains]
  · rw [Text.length_splitAt, Text.length_splitAt, count_stripComments]
  · obtain ⟨groups, hgroups, hlines⟩ := exists_groups [] (List.forall_mem_nil _) 1
      (splitAt '\n' (stripComments .plain contents.toList))
    have hlines : linesOf contents = numbered 1 groups := hlines
    refine ⟨groups, hgroups, hlines, fun n flaw hwarning hflaw => ?_⟩
    rcases addLines_warnings hwarning with h | ⟨line, hline, rfl, hreports⟩ | ⟨count, h⟩
    · exact nomatch h
    · have hmem : line ∈ numbered 1 groups := hlines ▸ hline
      obtain ⟨before, group, after, rfl, rfl⟩ := mem_numbered hmem
      exact ⟨before, group, after, rfl, Nat.add_comm 1 _, hreports⟩
    -- Conditionals that are left open are reported at the end of the file, not on a line.
    · exact absurd h (hflaw count)

/-- A header with a comment over two lines, a quote that is not closed, and a joined line. -/
def brokenLines : String := "/* one\n two */ \"x\n#define A \\\r\n  1\n#endif // none\n"

/-- The warning about the last directive has its number. -/
theorem last_directive_keeps_line_number :
    (5, .unmatched "endif") ∈ (scan brokenLines).warnings ∧
    ∃ groups before group after,
      AreGroups (splitAt '\n' (stripComments .plain brokenLines.toList)) groups ∧
      groups = before ++ group :: after ∧ before.flatten.length = 4 ∧
      Reports (joinedText group) (.unmatched "endif") := by
  have hwarning : (5, .unmatched "endif") ∈ (scan brokenLines).warnings := by decide +kernel
  obtain ⟨-, -, groups, hgroups, -, hwarnings⟩ := warnings_keep_line_numbers brokenLines
  obtain ⟨before, group, after, hsplit, hnumber, hreports⟩ := hwarnings _ _ hwarning nofun
  exact ⟨hwarning, groups, before, group, after, hgroups, hsplit, by omega, hreports⟩

end KilnLang.Header
