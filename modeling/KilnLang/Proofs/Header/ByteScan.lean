import KilnLang.Proofs.Header.CommentSpacing
import KilnLang.Proofs.Text.ByteOffsets

/-!
# The scan of a header, byte by byte

Comments and tokens by loops over the bytes of a text, as a scan runs them: the position is an
offset, a backslash in a quote moves it on by two bytes, into the middle of a character or behind
the end, and text is cut out between offsets. A step is `none` if it reads a byte that is out of
range, or cuts where no character starts, and so is a loop that does not end.

**Theorems (`stripComments_eq`, `tokenize_eq`).** From every offset where a character starts, both
loops end and give what the model reads there.

Every loop keeps its offset near a character (`Text.Near`): the bytes in the middle of one are no
ASCII characters, and so none that the loops look for, until the next character starts
(`stripComments_next`, `quotedEnd_next`).
-/

namespace KilnLang.Header

open Lexer (isNameStart isNameChar)
open Text (IsAscii Leads At Near byte? lt_of_byte? byte?_eq_none ne_of_not_isAscii trim trimStart)

namespace Checked

/-- A step that gives a value goes on with it. -/
theorem bind_of_eq {α β : Type} {x : Option α} {a : α} (h : x = some a) (f : α → Option β) :
    (x >>= f) = f a := by
  rw [h]
  rfl

/-! ## Comments -/

/-- The offset of the line break that ends a comment. -/
def lineEnd (text : List Char) (index : Nat) : Option Nat :=
  if index < utf8Width text then do
    let byte ← byte? text index
    if byte = '\n' then some index else lineEnd text (index + 1)
  else some index
termination_by utf8Width text - index
decreasing_by all_goals omega

/-- The line breaks of a block comment, after those in `breaks`, and the offset of its end. -/
def blockEnd (text breaks : List Char) (index : Nat) : Option (List Char × Nat) :=
  if index < utf8Width text then do
    let byte ← byte? text index
    if byte = '*' ∧ byte? text (index + 1) = some '/' then some (breaks, index)
    else blockEnd text (if byte = '\n' then breaks ++ [byte] else breaks) (index + 1)
  else some (breaks, index)
termination_by utf8Width text - index
decreasing_by all_goals omega

/-- Replaces comments; `out` is what precedes the offset `chunk`, and what follows it up to the
offset `index` is kept. -/
def stripComments (text out : List Char) (quote : Option Char) (chunk index : Nat) :
    Option (List Char) :=
  if index < utf8Width text then do
    let byte ← byte? text index
    match quote with
    | some q =>
      if byte = '\\' then stripComments text out (some q) chunk (index + 2)
      else
        stripComments text out (if byte = q ∨ byte = '\n' then none else some q) chunk (index + 1)
    | none =>
      if byte = '"' ∨ byte = '\'' then stripComments text out (some byte) chunk (index + 1)
      else if byte = '/' ∧ byte? text (index + 1) = some '/' then do
        let kept ← slice? text chunk index
        let stop ← lineEnd text index
        if index < stop then stripComments text (out ++ kept ++ [' ']) none stop stop else none
      else if byte = '/' ∧ byte? text (index + 1) = some '*' then do
        let kept ← slice? text chunk index
        let (breaks, close) ← blockEnd text [] (index + 2)
        let stop := min (close + 2) (utf8Width text)
        if index < stop then stripComments text (out ++ kept ++ breaks ++ [' ']) none stop stop
        else none
      else stripComments text out none chunk (index + 1)
  else do
    let kept ← slice? text (min chunk (utf8Width text)) (utf8Width text)
    return out ++ kept
termination_by utf8Width text - index
decreasing_by all_goals omega

section Comments

variable {text cs held : List Char} {i : Nat} {b : Char}

theorem lineEnd_byte (hb : byte? text i = some b) :
    lineEnd text i = if b = '\n' then some i else lineEnd text (i + 1) := by
  rw [lineEnd, if_pos (lt_of_byte? hb), hb]
  rfl

/-- A line comment ends before the line break. -/
theorem exists_lineEnd (h : At text i cs) :
    ∃ j, lineEnd text i = some j ∧ At text j (cs.dropWhile (· != '\n')) := by
  induction cs generalizing i with
  | nil => exact ⟨i, by rw [lineEnd, if_neg (by rw [h.eq_width]; omega)], h⟩
  | cons c cs ih =>
    obtain ⟨b, hb, hleads⟩ := h.exists_byte?
    by_cases hc : c = '\n'
    · subst hc
      exact ⟨i, by rw [lineEnd_byte hb, if_pos ((hleads.eq_iff (by decide)).mpr rfl)], h⟩
    · obtain ⟨next, hnext, hskip⟩ := h.near_tail.skip (lineEnd text) fun j d hd hhigh => by
        rw [lineEnd_byte hd, if_neg (ne_of_not_isAscii hhigh (by decide))]
      obtain ⟨j, hj, hat⟩ := ih hnext
      refine ⟨j, ?_, ?_⟩
      · rw [lineEnd_byte hb, if_neg (mt (hleads.eq_iff (by decide)).mp hc), hskip, hj]
      · rwa [List.dropWhile_cons_of_pos (by simpa using hc)]

theorem blockEnd_byte (hb : byte? text i = some b) (breaks : List Char)
    (h : ¬ (b = '*' ∧ byte? text (i + 1) = some '/')) :
    blockEnd text breaks i =
      blockEnd text (breaks ++ if b = '\n' then [b] else []) (i + 1) := by
  rw [blockEnd, if_pos (lt_of_byte? hb), hb]
  show (if b = '*' ∧ _ then _ else _) = _
  rw [if_neg h]
  split
  · rfl
  · rw [List.append_nil]

/-- A block comment ends where it is closed, or where the text ends. -/
theorem exists_blockEnd (h : At text i cs) (breaks : List Char) :
    ∃ found j, blockEnd text breaks i = some (breaks ++ found, j) ∧
      ((∃ rest, rest.length < cs.length ∧ At text j ('*' :: '/' :: rest) ∧
          Header.stripComments .blockComment cs =
            found ++ ' ' :: Header.stripComments .plain rest) ∨
        At text j [] ∧ Header.stripComments .blockComment cs = found ++ [' ']) := by
  induction cs generalizing i breaks with
  | nil =>
    refine ⟨[], i, ?_, .inr ⟨h, rfl⟩⟩
    rw [blockEnd, if_neg (by rw [h.eq_width]; omega), List.append_nil]
  | cons c cs ih =>
    obtain ⟨b, hb, hleads⟩ := h.exists_byte?
    by_cases hclose : b = '*' ∧ byte? text (i + 1) = some '/'
    · obtain rfl : c = '*' := (hleads.eq_iff (by decide)).mp hclose.1
      obtain ⟨rest, rfl⟩ :=
        ((h.tail_ascii (by decide)).byte?_eq_some_iff (by decide)).mp hclose.2
      refine ⟨[], i, ?_, .inl ⟨rest, by simp only [List.length_cons]; omega, h, rfl⟩⟩
      rw [blockEnd, if_pos (lt_of_byte? hb), hb, List.append_nil]
      exact if_pos hclose
    · have hopen : c = '*' → ∀ rest, cs ≠ '/' :: rest := by
        rintro rfl rest rfl
        refine hclose ⟨(hleads.eq_iff (by decide)).mpr rfl, ?_⟩
        exact ((h.tail_ascii (by decide)).byte?_eq_some_iff (by decide)).mpr ⟨rest, rfl⟩
      -- A byte is a line break only if its character is, because line breaks are ASCII.
      have hbreak : (if b = '\n' then [b] else []) = if c = '\n' then [c] else [] := by
        by_cases hc : c = '\n'
        · rw [if_pos hc, hleads.ascii (hc ▸ by decide), if_pos hc]
        · rw [if_neg hc, if_neg (mt (hleads.eq_iff (by decide)).mp hc)]
      -- The other bytes of the character are no ASCII, so they neither end the comment nor break
      -- lines.
      obtain ⟨next, hnext, hskip⟩ := h.near_tail.skip
        (blockEnd text (breaks ++ if c = '\n' then [c] else [])) fun j d hd hhigh => by
          rw [blockEnd_byte hd _ fun h => ne_of_not_isAscii hhigh (by decide) h.1,
            if_neg (ne_of_not_isAscii hhigh (by decide)), List.append_nil]
      obtain ⟨found, j, hj, hrest⟩ := ih hnext _
      refine ⟨(if c = '\n' then [c] else []) ++ found, j, ?_, ?_⟩
      · rw [blockEnd_byte hb _ hclose, hbreak, hskip, hj, List.append_assoc]
      · rw [stripComments_block_cons hopen]
        refine hrest.imp ?_ ?_
        · rintro ⟨rest, hlt, hat, heq⟩
          exact ⟨rest, Nat.lt_succ_of_lt hlt, hat, by rw [heq, List.append_assoc]⟩
        · rintro ⟨hat, heq⟩
          exact ⟨hat, by rw [heq, List.append_assoc]⟩

/-- Where a scan for comments is that is in a quote, or in none. -/
def regionOf : Option Char → Region
  | none => .plain
  | some q => .quoted q

theorem isAscii_of_isQuote {q : Char} (h : IsQuote q) : IsAscii q := by
  rcases h with rfl | rfl <;> decide

theorem stripComments_quoted {c q : Char} (hb : byte? text i = some b) (hleads : Leads b c)
    (hq : IsQuote q) (out : List Char) (chunk : Nat) :
    stripComments text out (some q) chunk i =
      if c = '\\' then stripComments text out (some q) chunk (i + 2)
      else stripComments text out (if c = q ∨ c = '\n' then none else some q) chunk (i + 1) := by
  have hbreak : IsAscii '\n' := by decide
  have hescape : IsAscii '\\' := by decide
  rw [stripComments, if_pos (lt_of_byte? hb), hb]
  simp only [← hleads.eq_iff hescape, ← hleads.eq_iff hbreak,
    ← hleads.eq_iff (isAscii_of_isQuote hq)]
  rfl

theorem stripComments_plain {c : Char} (hb : byte? text i = some b) (hleads : Leads b c)
    (out : List Char) (chunk : Nat) (hline : ¬ (b = '/' ∧ byte? text (i + 1) = some '/'))
    (hblock : ¬ (b = '/' ∧ byte? text (i + 1) = some '*')) :
    stripComments text out none chunk i =
      stripComments text out (if IsQuote c then some c else none) chunk (i + 1) := by
  rw [stripComments, if_pos (lt_of_byte? hb), hb]
  show (if IsQuote b then _ else if _ then _ else if _ then _ else _) = _
  rw [if_neg hline, if_neg hblock]
  by_cases hc : IsQuote c
  · rw [hleads.ascii (isAscii_of_isQuote hc), if_pos hc, if_pos hc]
  · have hb : ¬ IsQuote b := fun hb =>
      hc (hb.imp (hleads.eq_iff (by decide)).mp (hleads.eq_iff (by decide)).mp)
    rw [if_neg hc, if_neg hb]

variable {quote : Option Char} {out : List Char} {chunk : Nat}

theorem stripComments_end (h : At text chunk held) (hi : utf8Width text ≤ i) :
    stripComments text out quote chunk i = some (out ++ held) := by
  rw [stripComments, if_neg (Nat.not_lt.mpr hi), Nat.min_eq_left h.le, h.slice?_rest]
  rfl

theorem stripComments_high (hquote : ∀ q ∈ quote, IsQuote q) (hb : byte? text i = some b)
    (hhigh : ¬ IsAscii b) :
    stripComments text out quote chunk i = stripComments text out quote chunk (i + 1) := by
  have hne : ∀ {q : Char}, IsAscii q → b ≠ q := ne_of_not_isAscii hhigh
  cases quote with
  | none =>
    rw [stripComments_plain hb (.refl b) _ _ (fun h => hne (by decide) h.1)
      fun h => hne (by decide) h.1, if_neg (not_or.mpr ⟨hne (by decide), hne (by decide)⟩)]
  | some q =>
    have hq := hquote q rfl
    rw [stripComments_quoted hb (.refl b) hq, if_neg (hne (by decide)),
      if_neg (not_or.mpr ⟨hne (isAscii_of_isQuote hq), hne (by decide)⟩)]

/-- From the first byte of a character on, the scan goes on after the character. -/
theorem stripComments_next (hquote : ∀ q ∈ quote, IsQuote q) {c : Char}
    (h : At text i (c :: cs)) : stripComments text out quote chunk (i + 1) =
      stripComments text out quote chunk (i + c.utf8Size) := by
  obtain ⟨j, hj, hskip⟩ := h.near_tail.skip (stripComments text out quote chunk)
    fun j d hd hhigh => stripComments_high hquote hd hhigh
  rw [hskip, hj.unique h.tail]

theorem stripComments_line {kept : List Char} {stop : Nat} (hi : i < utf8Width text)
    (hb : byte? text i = some '/') (hnext : byte? text (i + 1) = some '/')
    (hkept : slice? text chunk i = some kept) (hstop : lineEnd text i = some stop)
    (hgoes : i < stop) :
    stripComments text out none chunk i =
      stripComments text (out ++ kept ++ [' ']) none stop stop := by
  rw [stripComments, if_pos hi, bind_of_eq hb]
  dsimp only
  rw [if_neg (by decide), if_pos ⟨rfl, hnext⟩, bind_of_eq hkept, bind_of_eq hstop]
  exact if_pos hgoes

theorem stripComments_block {kept breaks : List Char} {close : Nat} (hi : i < utf8Width text)
    (hb : byte? text i = some '/') (hnext : byte? text (i + 1) = some '*')
    (hkept : slice? text chunk i = some kept)
    (hclose : blockEnd text [] (i + 2) = some (breaks, close)) (hgoes : i < close + 2) :
    stripComments text out none chunk i =
      stripComments text (out ++ kept ++ breaks ++ [' ']) none (min (close + 2) (utf8Width text))
        (min (close + 2) (utf8Width text)) := by
  have hstop : i < min (close + 2) (utf8Width text) := Nat.lt_min.mpr ⟨hgoes, hi⟩
  rw [stripComments, if_pos hi, bind_of_eq hb]
  dsimp only
  rw [if_neg (by decide), if_neg (by rw [hnext]; decide), if_pos ⟨rfl, hnext⟩, bind_of_eq hkept,
    bind_of_eq hclose]
  exact if_pos hstop

theorem stripComments_lineComment (cs : List Char) :
    Header.stripComments .lineComment cs =
      Header.stripComments .plain (cs.dropWhile (· != '\n')) := by
  induction cs with
  | nil => rfl
  | cons c cs ih =>
    by_cases hc : c = '\n'
    · subst hc
      rfl
    · rw [Header.stripComments, if_neg hc, ih, List.dropWhile_cons_of_pos (by simpa using hc)]

theorem isQuote_of_mem_none : ∀ q ∈ (none : Option Char), IsQuote q := nofun

/-- Comments are replaced as the model says; what is kept so far is cut out without failure. -/
theorem stripComments_eq (hquote : ∀ q ∈ quote, IsQuote q) (h : At text chunk (held ++ cs)) :
    stripComments text out quote chunk (chunk + utf8Width held) =
      some (out ++ held ++ Header.stripComments (regionOf quote) cs) := by
  induction hlength : cs.length using Nat.strongRecOn
    generalizing quote out held chunk cs with
  | ind n ih =>
    subst hlength
    have hindex : At text (chunk + utf8Width held) cs := h.append
    cases cs with
    | nil =>
      rw [List.append_nil] at h
      have hnone : Header.stripComments (regionOf quote) [] = [] := by cases quote <;> rfl
      rw [stripComments_end h hindex.eq_width.ge, hnone, List.append_nil]
    | cons c cs =>
      obtain ⟨b, hb, hleads⟩ := hindex.exists_byte?
      -- A character that is kept joins the ones that are held back, and the induction goes on.
      have hkept : ∀ {quote}, (∀ q ∈ quote, IsQuote q) →
          stripComments text out quote chunk (chunk + utf8Width held + 1) =
            some (out ++ held ++ c :: Header.stripComments (regionOf quote) cs) := by
        intro quote hquote
        have hwidth : chunk + utf8Width held + c.utf8Size = chunk + utf8Width (held ++ [c]) := by
          simp [Nat.add_assoc]
        rw [stripComments_next hquote hindex, hwidth,
          ih cs.length (by simp) hquote (by simpa using h) rfl]
        simp
      cases quote with
      | some q =>
        have hq : IsQuote q := hquote q rfl
        rw [stripComments_quoted hb hleads hq]
        by_cases hescape : c = '\\'
        · subst hescape
          rw [if_pos rfl]
          cases cs with
          | nil =>
            have hend := (hindex.tail_ascii (by decide)).eq_width
            -- A backslash at the very end escapes nothing and is kept.
            have hlone : Header.stripComments (.quoted q) ['\\'] = ['\\'] := by
              rw [Header.stripComments]
              · split <;> rfl
              · intro d cs _ hlist
                cases hlist
            rw [stripComments_end h (by omega), regionOf, hlone, List.append_assoc]
          | cons d cs =>
            have hnext := hindex.tail_ascii (by decide)
            have hwidth : chunk + utf8Width held + 1 + d.utf8Size =
                chunk + utf8Width (held ++ ['\\', d]) := by
              rw [utf8Width_append]
              show _ = chunk + (utf8Width held + (1 + (d.utf8Size + 0)))
              omega
            rw [stripComments_next hquote hnext, hwidth,
              ih cs.length (by simp only [List.length_cons]; omega) hquote (by simpa using h) rfl]
            simp [regionOf, Header.stripComments]
        · rw [if_neg hescape, hkept (by split <;> simp [hq]), regionOf.eq_def (some q),
            stripComments_quoted_cons hescape]
          split <;> rfl
      | none =>
        by_cases hline : b = '/' ∧ byte? text (chunk + utf8Width held + 1) = some '/'
        · obtain rfl : c = '/' := (hleads.eq_iff (by decide)).mp hline.1
          obtain ⟨rest, rfl⟩ :=
            ((hindex.tail_ascii (by decide)).byte?_eq_some_iff (by decide)).mp hline.2
          -- A comment to the end of the line: the chunk before it is written, and the next one
          -- starts there.
          obtain ⟨stop, hstop, hat⟩ := exists_lineEnd hindex
          have hrest : ('/' :: '/' :: rest).dropWhile (· != '\n') =
              rest.dropWhile (· != '\n') := rfl
          have hle := (List.dropWhile_suffix (· != '\n') (l := rest)).length_le
          have hstart : At text stop ([] ++ rest.dropWhile (· != '\n')) := hrest ▸ hat
          have hgo : stripComments text (out ++ held ++ [' ']) none stop stop = _ :=
            ih _ (by simp only [List.length_cons]; omega) isQuote_of_mem_none hstart rfl
          have hgoes := hindex.lt_of_length hat
            (by rw [hrest]; simp only [List.length_cons]; omega)
          rw [stripComments_line hindex.lt (hb.trans (congrArg some hline.1)) hline.2 h.slice?
            hstop hgoes]
          refine hgo.trans ?_
          rw [regionOf, ← stripComments_lineComment]
          simp [Header.stripComments]
        by_cases hblock : b = '/' ∧ byte? text (chunk + utf8Width held + 1) = some '*'
        · obtain rfl : c = '/' := (hleads.eq_iff (by decide)).mp hblock.1
          obtain ⟨rest, rfl⟩ :=
            ((hindex.tail_ascii (by decide)).byte?_eq_some_iff (by decide)).mp hblock.2
          have hinside : At text (chunk + utf8Width held + 2) rest :=
            (hindex.tail_ascii (by decide)).tail_ascii (by decide)
          obtain ⟨found, close, hclose, hrest⟩ := exists_blockEnd hinside []
          have hgoes : chunk + utf8Width held < close + 2 := by
            -- The comment may be open at the end of the text; the index moves in both cases.
            rcases hrest with ⟨after, hlt, hat, -⟩ | ⟨hat, -⟩
            · exact Nat.lt_add_right 2
                (hindex.lt_of_length hat (by simp only [List.length_cons]; omega))
            · rw [hat.eq_width]
              exact Nat.lt_add_right 2 hindex.lt
          rw [stripComments_block hindex.lt (hb.trans (congrArg some hblock.1)) hblock.2 h.slice?
            hclose hgoes, regionOf]
          rcases hrest with ⟨after, hlt, hat, heq⟩ | ⟨hat, heq⟩
          · have hnext : At text (close + 2) after :=
              (hat.tail_ascii (by decide)).tail_ascii (by decide)
            have hstart : At text (close + 2) ([] ++ after) := hnext
            have hgo : stripComments text (out ++ held ++ found ++ [' ']) none (close + 2)
                (close + 2) = _ :=
              ih _ (by simp only [List.length_cons]; omega) isQuote_of_mem_none hstart rfl
            rw [List.nil_append, Nat.min_eq_left hnext.le]
            refine hgo.trans ?_
            simp [Header.stripComments, heq, regionOf]
          · have hend : At text (utf8Width text) [] := hat.eq_width ▸ hat
            rw [List.nil_append, hat.eq_width, Nat.min_eq_right (Nat.le_add_right ..),
              stripComments_end hend (Nat.le_refl _)]
            simp [Header.stripComments, heq]
        -- Two bytes that are no comment mark are no two characters of one either.
        · have hopen : ∀ {q : Char}, IsAscii q →
              ¬ (b = '/' ∧ byte? text (chunk + utf8Width held + 1) = some q) →
              c = '/' → ∀ rest, cs ≠ q :: rest := by
            rintro q hq hno rfl rest rfl
            refine hno ⟨(hleads.eq_iff (by decide)).mpr rfl, ?_⟩
            exact ((hindex.tail_ascii (by decide)).byte?_eq_some_iff hq).mpr ⟨rest, rfl⟩
          rw [stripComments_plain hb hleads _ _ hline hblock, hkept (by split <;> simp_all),
            regionOf.eq_def none, stripComments_plain_cons (hopen (by decide) hline) (hopen (by decide) hblock)]
          split <;> rfl

end Comments

/-! ## Tokens -/

/-- The offset after the quote that is open at the offset. -/
def quotedEnd (text : List Char) (quote : Char) (index : Nat) : Option Nat :=
  if index < utf8Width text then do
    let byte ← byte? text index
    if byte = '\\' then quotedEnd text quote (index + 2)
    else if byte = '\n' then some index
    else if byte = quote then some (index + 1)
    else quotedEnd text quote (index + 1)
  else some (utf8Width text)
termination_by utf8Width text - index
decreasing_by all_goals omega

/-- The offset after the literal that starts at the offset. -/
def skipQuoted (text : List Char) (start : Nat) : Option Nat := do
  let quote ← byte? text start
  quotedEnd text quote (start + 1)

/-- Whether the byte at the offset is a sign, and the one before it makes it a part of a number. -/
def isSigned (text : List Char) (hex : Bool) (index : Nat) (byte : Char) : Option Bool :=
  if byte = '+' ∨ byte = '-' then
    if index = 0 then none else (byte? text (index - 1)).map (CToken.isExponent hex)
  else some false

/-- The offset after a number. -/
def numberEnd (text : List Char) (hex : Bool) (index : Nat) : Option Nat :=
  if index < utf8Width text then do
    let byte ← byte? text index
    let signed ← isSigned text hex index byte
    if isNameChar byte || byte == '.' || signed then numberEnd text hex (index + 1) else some index
  else some index
termination_by utf8Width text - index
decreasing_by all_goals omega

/-- The offset of the first character that passes the test. -/
def offsetOf? (p : Char → Bool) (text : List Char) : Option Nat :=
  if text.any p then some (utf8Width (text.takeWhile fun c => !p c)) else none

/-- The number of bytes in the name that a text starts with. -/
def nameLength : List Char → Nat
  | [] => 0
  | c :: cs =>
    if isNameStart c then c.utf8Size + (offsetOf? (fun c => !isNameChar c) cs).getD (utf8Width cs)
    else 0

/-- The literal at the offset, and the offset after it. -/
def literalAt (text : List Char) (index : Nat) : Option (Option CToken × Nat) := do
  let quote ← byte? text index
  let stop ← skipQuoted text index
  return (some (CToken.ofQuote quote), stop)

/-- What is read at the offset: a token, if there is one, and the offset after it. -/
def tokenAt (text : List Char) (index : Nat) : Option (Option CToken × Nat) := do
  let byte ← byte? text index
  if CToken.isSpace byte then return (none, index + 1)
  else if byte = '"' ∨ byte = '\'' then literalAt text index
  else do
    let rest ← slice? text index (utf8Width text)
    if isNameStart byte then do
      let stop := index + nameLength rest
      let word ← slice? text index stop
      if CToken.encodings.contains (String.ofList word) &&
          (byte? text stop == some '"' || byte? text stop == some '\'') then literalAt text stop
      else return (some (.word (String.ofList word)), stop)
    else if byte.isDigit ||
        (byte == '.' && ((byte? text (index + 1)).map Char.isDigit).getD false) then do
      let hex := ['0', 'x'].isPrefixOf rest || ['0', 'X'].isPrefixOf rest
      let stop ← numberEnd text hex index
      let number ← slice? text index stop
      return (some (.number (String.ofList number)), stop)
    else if ['.', '.', '.'].isPrefixOf rest then return (some .ellipsis, index + 3)
    else
      match rest with
      | [] => return (none, index + 1)
      | c :: _ =>
        if CToken.punctuation.contains c then return (some (.punct c), index + 1)
        else return (none, index + c.utf8Size)

/-- The tokens from the offset on, after those that have been read. -/
def tokenize (text : List Char) (tokens : List CToken) (index : Nat) : Option (List CToken) :=
  if index < utf8Width text then do
    let (token?, stop) ← tokenAt text index
    if index < stop then tokenize text (tokens ++ token?.toList) stop else none
  else some tokens
termination_by utf8Width text - index
decreasing_by all_goals omega

section Tokens

variable {text cs : List Char} {i : Nat} {b c q : Char}

theorem quotedEnd_byte (hb : byte? text i = some b) (hleads : Leads b c) (hq : IsQuote q) :
    quotedEnd text q i =
      if c = '\\' then quotedEnd text q (i + 2)
      else if c = '\n' then some i
      else if c = q then some (i + 1)
      else quotedEnd text q (i + 1) := by
  have hbreak : IsAscii '\n' := by decide
  have hescape : IsAscii '\\' := by decide
  rw [quotedEnd, if_pos (lt_of_byte? hb), hb]
  simp only [← hleads.eq_iff hescape, ← hleads.eq_iff hbreak,
    ← hleads.eq_iff (isAscii_of_isQuote hq)]
  rfl

/-- From the first byte of a character on, the search goes on after the character. -/
theorem quotedEnd_next (hq : IsQuote q) (h : At text i (c :: cs)) :
    quotedEnd text q (i + 1) = quotedEnd text q (i + c.utf8Size) := by
  obtain ⟨j, hj, hskip⟩ := h.near_tail.skip (quotedEnd text q) fun j d hd hhigh => by
    rw [quotedEnd_byte hd (.refl d) hq, if_neg (ne_of_not_isAscii hhigh (by decide)),
      if_neg (ne_of_not_isAscii hhigh (by decide)),
      if_neg (ne_of_not_isAscii hhigh (isAscii_of_isQuote hq))]
  rw [hskip, hj.unique h.tail]

/-- A literal ends where the model says, at a character. -/
theorem exists_quotedEnd (hq : IsQuote q) (h : At text i cs) :
    ∃ j, quotedEnd text q i = some j ∧ At text j (CToken.skipQuoted q cs) := by
  have hend : ∀ {i}, utf8Width text ≤ i → quotedEnd text q i = some (utf8Width text) :=
    fun hi => by rw [quotedEnd, if_neg (Nat.not_lt.mpr hi)]
  fun_induction CToken.skipQuoted q cs generalizing i with
  | case1 => exact ⟨_, hend (Nat.le_of_eq h.eq_width.symm), h.eq_width ▸ h⟩
  | case2 d cs ih =>
    obtain ⟨b, hb, hleads⟩ := h.exists_byte?
    have hnext := h.tail_ascii (by decide)
    rw [quotedEnd_byte hb hleads hq, if_pos rfl, quotedEnd_next hq hnext]
    exact ih hnext.tail
  | case3 =>
    obtain ⟨b, hb, hleads⟩ := h.exists_byte?
    have hnext := h.tail_ascii (by decide)
    rw [quotedEnd_byte hb hleads hq, if_pos rfl, hend (by rw [← hnext.eq_width]; omega)]
    exact ⟨_, rfl, hnext.eq_width ▸ hnext⟩
  | case4 cs hescape hlone =>
    obtain ⟨b, hb, hleads⟩ := h.exists_byte?
    rw [quotedEnd_byte hb hleads hq, if_neg (by decide), if_pos rfl]
    exact ⟨i, rfl, h⟩
  | case5 cs hescape hlone hbreak =>
    obtain ⟨b, hb, hleads⟩ := h.exists_byte?
    -- The quote itself is no escape.
    have hne : q ≠ '\\' := by rcases hq with rfl | rfl <;> decide
    rw [quotedEnd_byte hb hleads hq, if_neg hne, if_neg hbreak, if_pos rfl]
    exact ⟨i + 1, rfl, h.tail_ascii (isAscii_of_isQuote hq)⟩
  | case6 c cs hescape hlone hbreak hclose ih =>
    obtain ⟨b, hb, hleads⟩ := h.exists_byte?
    have hne : c ≠ '\\' := by
      intro hc
      cases cs with
      | nil => exact hlone hc rfl
      | cons d cs => exact hescape d cs hc rfl
    rw [quotedEnd_byte hb hleads hq, if_neg hne, if_neg hbreak, if_neg hclose, quotedEnd_next hq h]
    exact ih h.tail

theorem exists_skipQuoted (hq : IsQuote q) (h : At text i (q :: cs)) :
    ∃ j, skipQuoted text i = some j ∧ At text j (CToken.skipQuoted q cs) := by
  rw [skipQuoted, h.byte?_ascii (isAscii_of_isQuote hq)]
  exact exists_quotedEnd hq (h.tail_ascii (isAscii_of_isQuote hq))

theorem isAscii_of_isNameChar (h : isNameChar c = true) : IsAscii c := by
  have := toNat_of_isNameChar h
  omega

theorem numberEnd_byte (hex : Bool) {prev : Char} (hprev : byte? text i = some prev)
    (hb : byte? text (i + 1) = some b) (hleads : Leads b c) :
    numberEnd text hex (i + 1) =
      if isNameChar c || c == '.' || ((c == '+' || c == '-') && CToken.isExponent hex prev)
      then numberEnd text hex (i + 1 + 1) else some (i + 1) := by
  have hsame := hleads.test (p := fun d => isNameChar d || d == '.' ||
    ((d == '+' || d == '-') && CToken.isExponent hex prev)) fun d hd => by
      simp only [Bool.or_eq_true, Bool.and_eq_true, beq_iff_eq] at hd
      rcases hd with (hd | rfl) | ⟨rfl | rfl, -⟩
      · exact isAscii_of_isNameChar hd
      all_goals decide
  have hsigned : isSigned text hex (i + 1) b =
      some ((b == '+' || b == '-') && CToken.isExponent hex prev) := by
    rw [isSigned, if_neg (Nat.succ_ne_zero i), Nat.add_sub_cancel, hprev]
    by_cases hsign : b = '+' ∨ b = '-'
    · rw [if_pos hsign, show (b == '+' || b == '-') = true by simpa using hsign, Bool.true_and]
      rfl
    · rw [if_neg hsign, show (b == '+' || b == '-') = false by simpa using hsign, Bool.false_and]
  rw [← hsame, numberEnd, if_pos (lt_of_byte? hb), hb, Option.bind_eq_bind, Option.bind_some,
    hsigned]
  rfl

/-- A number ends where the model says. -/
theorem exists_numberEnd (hex : Bool) {prev : Char} (hprev : IsAscii prev)
    (h : At text i (prev :: cs)) : ∃ j, numberEnd text hex (i + 1) = some j ∧
      At text j (CToken.numberTail hex prev cs).2 ∧
      j = i + 1 + utf8Width (CToken.numberTail hex prev cs).1 := by
  have hnext := h.tail_ascii hprev
  induction cs generalizing i prev with
  | nil =>
    refine ⟨i + 1, ?_, hnext, rfl⟩
    rw [numberEnd, if_neg (by rw [hnext.eq_width]; omega)]
  | cons c cs ih =>
    obtain ⟨b, hb, hleads⟩ := hnext.exists_byte?
    rw [numberEnd_byte hex (h.byte?_ascii hprev) hb hleads, CToken.numberTail]
    split
    · rename_i hgoes
      have hc : IsAscii c := by
        simp only [Bool.or_eq_true, Bool.and_eq_true, beq_iff_eq] at hgoes
        rcases hgoes with (hgoes | rfl) | ⟨rfl | rfl, -⟩
        · exact isAscii_of_isNameChar hgoes
        all_goals decide
      obtain ⟨j, hj, hat, hwidth⟩ := ih hc hnext (hnext.tail_ascii hc)
      refine ⟨j, hj, hat, ?_⟩
      rw [hwidth, utf8Width_cons, At.utf8Size_eq_one hc]
      omega
    · exact ⟨i + 1, rfl, hnext, rfl⟩

/-! ### All tokens -/

/-- The first part of a text that passes a test is cut off without failure. -/
theorem width_takeWhile (p : Char → Bool) (cs : List Char) :
    (offsetOf? (fun c => !p c) cs).getD (utf8Width cs) = utf8Width (cs.takeWhile p) := by
  rw [offsetOf?]
  split
  · simp
  · rename_i hall
    have hall : ∀ c ∈ cs, p c = true := by simpa using hall
    rw [Option.getD_none, List.takeWhile_eq_self_iff.mpr hall]

theorem nameLength_cons (h : isNameStart c = true) (cs : List Char) :
    nameLength (c :: cs) = utf8Width (c :: cs.takeWhile isNameChar) := by
  rw [nameLength, if_pos h, width_takeWhile, utf8Width_cons]

theorem isAscii_of_isSpace (h : CToken.isSpace c = true) : IsAscii c := by
  have hmem : c ∈ [' ', '\t', '\n', '\x0C', '\r'] := by simpa [CToken.isSpace, or_assoc] using h
  have hall : [' ', '\t', '\n', '\x0C', '\r'].all (decide <| IsAscii ·) = true := by decide
  exact of_decide_eq_true (List.all_eq_true.mp hall c hmem)

theorem isAscii_of_isNameStart (h : isNameStart c = true) : IsAscii c :=
  isAscii_of_isNameChar (isNameChar_of_isNameStart h)

/-- What is read at the offset is the token that the model reads first, if it reads one, and the
model reads on after it. -/
def ReadsToken (text : List Char) (i : Nat) (cs : List Char) : Prop :=
  ∃ token? j rest, tokenAt text i = some (token?, j) ∧ At text j rest ∧
    rest.length < cs.length ∧ CToken.tokenize cs = token?.toList ++ CToken.tokenize rest

theorem exists_literalAt (hq : IsQuote q) (h : At text i (q :: cs)) :
    ∃ j, literalAt text i = some (some (CToken.ofQuote q), j) ∧
      At text j (CToken.skipQuoted q cs) := by
  obtain ⟨j, hj, hat⟩ := exists_skipQuoted hq h
  refine ⟨j, ?_, hat⟩
  rw [literalAt, bind_of_eq (h.byte?_ascii (isAscii_of_isQuote hq)), bind_of_eq hj]
  rfl

theorem readsToken_space (h : At text i (c :: cs)) (hc : CToken.isSpace c = true) :
    ReadsToken text i (c :: cs) := by
  have hascii := isAscii_of_isSpace hc
  refine ⟨none, i + 1, cs, ?_, h.tail_ascii hascii, Nat.lt_succ_self _, CToken.tokenize_space hc⟩
  rw [tokenAt, bind_of_eq (h.byte?_ascii hascii), if_pos hc]
  rfl

theorem readsToken_quote (h : At text i (c :: cs)) (hc : IsQuote c) :
    ReadsToken text i (c :: cs) := by
  have hspace : ¬ CToken.isSpace c = true := by rcases hc with rfl | rfl <;> decide
  obtain ⟨j, hj, hat⟩ := exists_literalAt hc h
  have hlength := CToken.skipQuoted_length c cs
  refine ⟨some (CToken.ofQuote c), j, _, ?_, hat, Nat.lt_succ_of_le hlength,
    CToken.tokenize_quote hc⟩
  rw [tokenAt, bind_of_eq (h.byte?_ascii (isAscii_of_isQuote hc)), if_neg hspace, if_pos hc, hj]

theorem readsToken_word (h : At text i (c :: cs)) (hc : isNameStart c = true) :
    ReadsToken text i (c :: cs) := by
  have hchar := isNameChar_of_isNameStart hc
  have hsplit : c :: cs = (c :: cs.takeWhile isNameChar) ++ cs.dropWhile isNameChar := by
    rw [List.cons_append, List.takeWhile_append_dropWhile]
  have hparts : At text i ((c :: cs.takeWhile isNameChar) ++ cs.dropWhile isNameChar) := hsplit ▸ h
  have hstop := hparts.append
  have hlength := (List.dropWhile_suffix isNameChar (l := cs)).length_le
  rw [ReadsToken, tokenAt, bind_of_eq (h.byte?_ascii (isAscii_of_isNameStart hc)),
    if_neg (CToken.isSpace_of_isNameChar hchar), if_neg (CToken.not_isQuote_of_isNameChar hchar),
    bind_of_eq h.slice?_rest, if_pos hc]
  dsimp only
  rw [nameLength_cons hc, bind_of_eq hparts.slice?, CToken.tokenize_word hc,
    hstop.byte?_beq (by decide), hstop.byte?_beq (by decide)]
  -- Only where the word ends matters from here on, and what it is.
  generalize i + utf8Width (c :: cs.takeWhile isNameChar) = stop at hstop ⊢
  generalize String.ofList (c :: cs.takeWhile isNameChar) = word
  cases hrest : cs.dropWhile isNameChar with
  | nil =>
    rw [hrest] at hstop
    refine ⟨some (.word word), stop, [], ?_, hstop, Nat.succ_pos _, ?_⟩
    · rw [if_neg (by simp)]
      rfl
    · rw [CToken.ofWord, CToken.tokenize]
      rfl
  | cons q rest =>
    rw [hrest] at hstop hlength
    rw [CToken.ofWord]
    -- A prefix of a literal is a part of the literal.
    by_cases hquote : (CToken.encodings.contains word && (q == '"' || q == '\'')) = true
    · have hq : IsQuote q := by simpa using (Bool.and_eq_true_iff.mp hquote).2
      obtain ⟨j, hj, hat⟩ := exists_literalAt hq hstop
      have hskip := CToken.skipQuoted_length q rest
      rw [if_pos hquote, if_pos (by simpa using hquote), hj]
      exact ⟨_, j, _, rfl, hat, by simp only [List.length_cons] at *; omega, rfl⟩
    · rw [if_neg hquote, if_neg (by simpa using hquote)]
      exact ⟨_, stop, _, rfl, hstop, Nat.lt_succ_of_le hlength, rfl⟩

theorem isAscii_of_isDigit (h : c.isDigit = true) : IsAscii c :=
  isAscii_of_isNameChar (by rw [isNameChar, h, Bool.or_true])

theorem startsNumber_eq (h : At text i (c :: cs)) (hleads : Leads b c) :
    (b.isDigit || (b == '.' && ((byte? text (i + 1)).map Char.isDigit).getD false)) =
      CToken.startsNumber c cs := by
  have hdigit := hleads.test (p := Char.isDigit) fun d hd => isAscii_of_isDigit hd
  rw [hdigit, CToken.startsNumber]
  by_cases hc : c = '.'
  · have hnext := (h.tail_ascii (hc ▸ by decide)).byte?_test (p := Char.isDigit)
      fun d hd => isAscii_of_isDigit hd
    rw [hnext, hleads.ascii (hc ▸ by decide)]
  · have hb : b ≠ '.' := mt (hleads.eq_iff (by decide)).mp hc
    rw [beq_eq_false_iff_ne.mpr hb, beq_eq_false_iff_ne.mpr hc, Bool.false_and, Bool.false_and]

theorem isHex_eq (c : Char) (cs : List Char) :
    (['0', 'x'].isPrefixOf (c :: cs) || ['0', 'X'].isPrefixOf (c :: cs)) = CToken.isHex c cs := by
  cases cs with
  | nil => simp [CToken.isHex, List.isPrefixOf]
  | cons d cs =>
    rw [Bool.eq_iff_iff]
    simp only [List.isPrefixOf, CToken.isHex, Bool.or_eq_true, Bool.and_eq_true, beq_iff_eq,
      List.head?_cons, Option.some_inj, and_true]
    grind

/-- The first character of a number belongs to it. -/
theorem numberEnd_first (hex : Bool) (h : At text i (c :: cs))
    (hc : CToken.startsNumber c cs = true) :
    IsAscii c ∧ numberEnd text hex i = numberEnd text hex (i + 1) := by
  have hfirst : c.isDigit = true ∨ c = '.' := by
    rw [CToken.startsNumber, Bool.or_eq_true, Bool.and_eq_true, beq_iff_eq] at hc
    exact hc.imp_right (·.1)
  have hascii : IsAscii c := by
    rcases hfirst with hdigit | rfl
    · exact isAscii_of_isDigit hdigit
    · decide
  have hsign : ¬ (c = '+' ∨ c = '-') := by
    rintro (rfl | rfl) <;> exact absurd hfirst (by decide)
  have hsigned : isSigned text hex i c = some false := if_neg hsign
  have hgoes : (isNameChar c || c == '.' || false) = true := by
    rcases hfirst with hdigit | rfl
    · rw [isNameChar, hdigit, Bool.or_true]
      rfl
    · decide
  refine ⟨hascii, ?_⟩
  rw [numberEnd, if_pos h.lt, bind_of_eq (h.byte?_ascii hascii), bind_of_eq hsigned, if_pos hgoes]

theorem isPrefixOf_dots (c : Char) (cs : List Char) :
    ['.', '.', '.'].isPrefixOf (c :: cs) = true ↔ c = '.' ∧ cs.take 2 = ['.', '.'] := by
  match cs with
  | [] => simp [List.isPrefixOf]
  | [d] => simp [List.isPrefixOf]
  | d :: e :: cs =>
    simp only [List.isPrefixOf, Bool.and_eq_true, beq_iff_eq, and_true, List.take_succ_cons,
      List.take_zero, List.cons.injEq]
    grind

theorem readsToken_mark (h : At text i (c :: cs)) (hc : CToken.IsMark c) :
    ReadsToken text i (c :: cs) := by
  obtain ⟨b, hb, hleads⟩ := h.exists_byte?
  have hspace := hleads.test (p := CToken.isSpace) fun d hd => isAscii_of_isSpace hd
  have hstart := hleads.test (p := isNameStart) fun d hd => isAscii_of_isNameStart hd
  have hquote : ¬ (b = '"' ∨ b = '\'') := fun hquote =>
    hc.quote (hquote.imp (hleads.eq_iff (by decide)).mp (hleads.eq_iff (by decide)).mp)
  rw [ReadsToken, tokenAt, bind_of_eq hb, if_neg (by rw [hspace, hc.space]; decide),
    if_neg hquote, bind_of_eq h.slice?_rest, if_neg (by rw [hstart, hc.start]; decide),
    startsNumber_eq h hleads, CToken.tokenize_mark hc]
  by_cases hnumber : CToken.startsNumber c cs = true
  · rw [if_pos hnumber, if_pos hnumber]
    dsimp only
    rw [isHex_eq]
    obtain ⟨hascii, hfirst⟩ := numberEnd_first (CToken.isHex c cs) h hnumber
    obtain ⟨j, hj, hat, hwidth⟩ := exists_numberEnd (CToken.isHex c cs) hascii h
    obtain ⟨hsplit, -⟩ := CToken.numberTail_split (CToken.isHex c cs) c cs
    have hlength := CToken.numberTail_length (CToken.isHex c cs) c cs
    generalize CToken.numberTail (CToken.isHex c cs) c cs = tail at hat hwidth hsplit hlength ⊢
    have hparts : At text i ((c :: tail.1) ++ tail.2) := by rwa [List.cons_append, hsplit]
    have hstop : j = i + utf8Width (c :: tail.1) := by
      rw [hwidth, utf8Width_cons, At.utf8Size_eq_one hascii]
      omega
    rw [bind_of_eq (hfirst.trans hj), bind_of_eq (hstop ▸ hparts.slice?)]
    exact ⟨_, j, tail.2, rfl, hat, Nat.lt_succ_of_le hlength, rfl⟩
  rw [if_neg hnumber, if_neg hnumber]
  -- Three dots are one token; a byte of ASCII is enough to compare with.
  by_cases hellipsis : c = '.' ∧ cs.take 2 = ['.', '.']
  · obtain ⟨rfl, htake⟩ := hellipsis
    have hsplit : '.' :: cs = ['.', '.', '.'] ++ cs.drop 2 := by
      rw [← List.take_append_drop 2 cs, htake]
      simp
    have hparts : At text i (['.', '.', '.'] ++ cs.drop 2) := hsplit ▸ h
    have hrest : At text (i + 3) (cs.drop 2) := hparts.append
    have hlength : (cs.drop 2).length ≤ cs.length := List.length_drop ▸ Nat.sub_le ..
    rw [if_pos ((isPrefixOf_dots _ _).mpr ⟨rfl, htake⟩), if_pos ⟨rfl, htake⟩]
    exact ⟨_, i + 3, _, rfl, hrest, Nat.lt_succ_of_le hlength, rfl⟩
  rw [if_neg (mt (isPrefixOf_dots c cs).mp hellipsis), if_neg hellipsis]
  dsimp only
  split
  · rename_i hpunct
    have hascii : IsAscii c := by
      have hall : CToken.punctuation.all (decide <| IsAscii ·) = true := by decide
      exact of_decide_eq_true (List.all_eq_true.mp hall c (List.contains_iff_mem.mp hpunct))
    exact ⟨_, i + 1, cs, rfl, h.tail_ascii hascii, Nat.lt_succ_self _, rfl⟩
  · exact ⟨_, i + c.utf8Size, cs, rfl, h.tail, Nat.lt_succ_self _, rfl⟩

theorem readsToken (h : At text i (c :: cs)) : ReadsToken text i (c :: cs) := by
  rcases CToken.kinds c with hspace | hquote | hstart | hmark
  · exact readsToken_space h hspace
  · exact readsToken_quote h hquote
  · exact readsToken_word h hstart
  · exact readsToken_mark h hmark

/-- The tokens from an offset on are read as the model reads them. -/
theorem tokenize_eq (tokens : List CToken) (h : At text i cs) :
    tokenize text tokens i = some (tokens ++ CToken.tokenize cs) := by
  induction hlength : cs.length using Nat.strongRecOn generalizing cs i tokens with
  | ind n ih =>
    subst hlength
    cases cs with
    | nil =>
      rw [tokenize, if_neg (by rw [h.eq_width]; omega), CToken.tokenize, List.append_nil]
    | cons c cs =>
      obtain ⟨token?, j, rest, htoken, hat, hlt, heq⟩ := readsToken h
      rw [tokenize, if_pos h.lt, bind_of_eq htoken]
      refine (if_pos (h.lt_of_length hat hlt)).trans ?_
      rw [ih _ hlt _ hat rfl, heq, List.append_assoc]

end Tokens

end Checked

end KilnLang.Header
