import Mathlib.Data.List.TakeWhile
import KilnLang.Text.Blank

/-!
# Cutting and trimming texts

Cutting a text at a separator and joining the pieces are inverse to each other, and trimming takes
off all blanks at the ends: a text is its trimmed text between blanks (`padded_trim`), and no other
text without blanks at its ends fits (`Tight.trim`).
-/

namespace KilnLang.Text

variable {sep : Char} {text more core part : List Char}

/-! ## Cutting -/

theorem splitAt_append (h : sep ∉ part) (more : List Char) :
    splitAt sep (part ++ sep :: more) = part :: splitAt sep more := by
  induction part with
  | nil => simp [splitAt]
  | cons c part ih =>
    rw [List.mem_cons, not_or] at h
    rw [List.cons_append, splitAt, if_neg (Ne.symm h.1), ih h.2]

theorem splitAt_of_not_mem (h : sep ∉ text) : splitAt sep text = [text] := by
  induction text with
  | nil => rfl
  | cons c text ih =>
    rw [List.mem_cons, not_or] at h
    rw [splitAt, if_neg (Ne.symm h.1), ih h.2]

/-- A text without the separator is one piece, and any other goes on after its first piece. -/
theorem splitAt_cases (sep : Char) (text : List Char) : sep ∉ text ∨
    ∃ part more, sep ∉ part ∧ text = part ++ sep :: more := by
  induction text with
  | nil => exact .inl List.not_mem_nil
  | cons c text ih =>
    by_cases hc : sep = c
    · exact .inr ⟨[], text, List.not_mem_nil, by rw [hc, List.nil_append]⟩
    · rcases ih with h | ⟨part, more, hpart, rfl⟩
      · exact .inl (by simp [hc, h])
      · exact .inr ⟨c :: part, more, by simp [hc, hpart], rfl⟩

theorem splitAt_ne_nil (sep : Char) (text : List Char) : splitAt sep text ≠ [] := by
  cases text with
  | nil => simp [splitAt]
  | cons c text =>
    rw [splitAt]
    split
    · simp
    · split <;> simp

/-- Cutting at a separator of a text cuts what is before it and what is after it. -/
theorem splitAt_append_append (text more : List Char) :
    splitAt sep (text ++ sep :: more) = splitAt sep text ++ splitAt sep more := by
  induction text with
  | nil => simp [splitAt]
  | cons c text ih =>
    rw [List.cons_append, splitAt, splitAt, ih]
    split
    · rfl
    · cases hpieces : splitAt sep text with
      | nil => exact absurd hpieces (splitAt_ne_nil sep text)
      | cons piece pieces => rfl

theorem length_splitAt (text : List Char) : (splitAt sep text).length = text.count sep + 1 := by
  induction text with
  | nil => rfl
  | cons c text ih =>
    rw [splitAt]
    split
    · rename_i hc
      rw [List.length_cons, ih, hc, List.count_cons_self]
    · rename_i hc
      rw [List.count_cons_of_ne hc, ← ih]
      split
      · rename_i hnil
        rw [hnil, List.length_nil] at ih
        omega
      · rename_i hcons
        rw [hcons, List.length_cons, List.length_cons]

theorem not_mem_piece {piece : List Char} (h : piece ∈ splitAt sep text) : sep ∉ piece := by
  induction text generalizing piece with
  | nil =>
    rw [splitAt, List.mem_singleton] at h
    exact h ▸ List.not_mem_nil
  | cons c text ih =>
    rw [splitAt] at h
    split at h
    · rcases List.mem_cons.mp h with rfl | h
      · exact List.not_mem_nil
      · exact ih h
    · rename_i hc
      split at h
      · rw [List.mem_singleton.mp h, List.mem_singleton]
        exact Ne.symm hc
      · rename_i first pieces hpieces
        rw [hpieces] at ih
        rcases List.mem_cons.mp h with rfl | h
        · rw [List.mem_cons, not_or]
          exact ⟨Ne.symm hc, ih List.mem_cons_self⟩
        · exact ih (List.mem_cons_of_mem _ h)

theorem mem_of_mem_piece {c : Char} {piece : List Char} (h : piece ∈ splitAt sep text)
    (hc : c ∈ piece) : c ∈ text := by
  induction text generalizing piece with
  | nil =>
    rw [splitAt, List.mem_singleton] at h
    exact absurd (h ▸ hc) List.not_mem_nil
  | cons d text ih =>
    rw [splitAt] at h
    split at h
    · rcases List.mem_cons.mp h with rfl | h
      · exact absurd hc List.not_mem_nil
      · exact List.mem_cons_of_mem _ (ih h hc)
    · split at h
      · rw [List.mem_singleton.mp h] at hc
        exact List.mem_singleton.mp hc ▸ List.mem_cons_self
      · rename_i first pieces hpieces
        rw [hpieces] at ih
        rcases List.mem_cons.mp h with rfl | h
        · rcases List.mem_cons.mp hc with rfl | hc
          · exact List.mem_cons_self
          · exact List.mem_cons_of_mem _ (ih List.mem_cons_self hc)
        · exact List.mem_cons_of_mem _ (ih (List.mem_cons_of_mem _ h) hc)

/-! ## Trimming -/

/-- The text has only blanks. -/
def Blank (text : List Char) : Prop := ∀ c ∈ text, isBlank c = true

theorem Blank.append (h : Blank text) (h' : Blank more) : Blank (text ++ more) :=
  List.forall_mem_append.mpr ⟨h, h'⟩

/-- The text is `core` between blanks. -/
def Padded (core text : List Char) : Prop :=
  ∃ before after, Blank before ∧ Blank after ∧ text = before ++ core ++ after

/-- The text is not empty and has no blanks at its ends. -/
structure Tight (text : List Char) : Prop where
  first : ∃ c rest, text = c :: rest ∧ isBlank c = false
  last : ∃ rest c, text = rest ++ [c] ∧ isBlank c = false

theorem blank_takeWhile (text : List Char) : Blank (text.takeWhile isBlank) :=
  fun _ hc => List.all_takeWhile (p := isBlank) |> List.all_eq_true.mp |> (· _ hc)

theorem padded_trimStart (text : List Char) : ∃ before, Blank before ∧
    text = before ++ trimStart text :=
  ⟨text.takeWhile isBlank, blank_takeWhile text, (List.takeWhile_append_dropWhile).symm⟩

theorem padded_trimEnd (text : List Char) : ∃ after, Blank after ∧
    text = trimEnd text ++ after := by
  refine ⟨(text.reverse.takeWhile isBlank).reverse, fun c hc => ?_, ?_⟩
  · exact blank_takeWhile text.reverse c (List.mem_reverse.mp hc)
  · rw [trimEnd, ← List.reverse_append, List.takeWhile_append_dropWhile, List.reverse_reverse]

theorem padded_trim (text : List Char) : Padded (trim text) text := by
  obtain ⟨before, hbefore, hstart⟩ := padded_trimStart text
  obtain ⟨after, hafter, hend⟩ := padded_trimEnd (trimStart text)
  exact ⟨before, after, hbefore, hafter, by rw [List.append_assoc, trim, ← hend, ← hstart]⟩

theorem trimStart_append (hbefore : Blank part)
    (hcore : ∃ c rest, core = c :: rest ∧ isBlank c = false) :
    trimStart (part ++ core) = core := by
  obtain ⟨c, rest, rfl, hc⟩ := hcore
  rw [trimStart, List.dropWhile_append_of_pos hbefore, List.dropWhile_cons_of_neg (by simp [hc])]

theorem trimEnd_append (hafter : Blank more)
    (hcore : ∃ rest c, core = rest ++ [c] ∧ isBlank c = false) :
    trimEnd (core ++ more) = core := by
  obtain ⟨rest, c, rfl, hc⟩ := hcore
  have hreverse : ∀ c ∈ more.reverse, isBlank c = true :=
    fun c hc => hafter c (List.mem_reverse.mp hc)
  rw [trimEnd, List.reverse_append, List.dropWhile_append_of_pos hreverse, List.reverse_append,
    List.reverse_singleton, List.singleton_append, List.dropWhile_cons_of_neg (by simp [hc])]
  simp

theorem Tight.trim (hcore : Tight core) (h : Padded core text) : trim text = core := by
  obtain ⟨before, after, hbefore, hafter, rfl⟩ := h
  rw [List.append_assoc, Text.trim, trimStart_append hbefore, trimEnd_append hafter hcore.last]
  obtain ⟨c, rest, rfl, hc⟩ := hcore.first
  exact ⟨c, rest ++ after, rfl, hc⟩

theorem trim_eq_nil_iff : trim text = [] ↔ Blank text := by
  constructor
  · intro h
    obtain ⟨before, after, hbefore, hafter, heq⟩ := padded_trim text
    rw [heq, h, List.append_nil]
    exact hbefore.append hafter
  · intro h
    rw [trim, trimStart, List.dropWhile_eq_nil_iff.mpr h]
    rfl

end KilnLang.Text
