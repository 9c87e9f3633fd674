/-!
# Spans

A **span** is a half-open range of byte offsets into the UTF-8 text of one numbered file. Spans
never hold lines or columns: those are computed from the text when a message is written, so a
span stays exact however much white space surrounds it.

**Width.** `utf8Width` measures a list of characters in bytes; every offset of the library is the
width of the text before it.
-/

namespace KilnLang

/-- The number of bytes that the characters take in UTF-8. -/
def utf8Width : List Char → Nat
  | [] => 0
  | c :: cs => c.utf8Size + utf8Width cs

@[simp] theorem utf8Width_nil : utf8Width [] = 0 := rfl

@[simp] theorem utf8Width_cons (c : Char) (cs : List Char) :
    utf8Width (c :: cs) = c.utf8Size + utf8Width cs := rfl

@[simp] theorem utf8Width_append (xs ys : List Char) :
    utf8Width (xs ++ ys) = utf8Width xs + utf8Width ys := by
  induction xs with
  | nil => simp
  | cons c cs ih => simp [ih, Nat.add_assoc]

theorem length_le_utf8Width (cs : List Char) : cs.length ≤ utf8Width cs := by
  induction cs with
  | nil => exact Nat.le_refl _
  | cons c cs ih =>
    have := c.utf8Size_pos
    rw [List.length_cons, utf8Width_cons]
    omega

/-- The byte range `[start, stop)` of the file numbered `file`. The offsets are not bounded here; in
a text of less than 2^32 bytes they are numbers of 32 bits (`Scan.offsets_lt`). -/
structure Span where
  file : Nat
  start : Nat
  stop : Nat
  deriving DecidableEq, Repr, Inhabited

namespace Span

/-- The smallest span of `a`'s file that covers the offsets of both. -/
def join (a b : Span) : Span :=
  ⟨a.file, min a.start b.start, max a.stop b.stop⟩

/-- The number of bytes covered, none for a reversed range. -/
def length (s : Span) : Nat := s.stop - s.start

/-- Whether no byte is covered. -/
def isEmpty (s : Span) : Bool := s.length == 0

end Span

end KilnLang
