/-!
# Reading UTF-8

Bytes are read as characters one at a time. Where they are no character, the **maximal** part that
could have started one is a single fault: `decode?` refuses it and `decodeLossy` writes one
replacement character for it.
-/

namespace KilnLang.Utf8

/-- What the first byte of a longer character promises: the bits that it contributes, the number of
bytes to come, and the range of the first of those. -/
structure Lead where
  bits : Nat
  owed : Nat
  low : Nat
  high : Nat
  deriving DecidableEq, Repr, Inhabited

/-- The promise of a byte that starts a character of two, three or four bytes. -/
def lead? (b : Nat) : Option Lead :=
  if 0xC2 ≤ b ∧ b ≤ 0xDF then some ⟨b - 0xC0, 1, 0x80, 0xBF⟩
  else if b = 0xE0 then some ⟨0, 2, 0xA0, 0xBF⟩
  else if b = 0xED then some ⟨0xD, 2, 0x80, 0x9F⟩
  else if 0xE1 ≤ b ∧ b ≤ 0xEF then some ⟨b - 0xE0, 2, 0x80, 0xBF⟩
  else if b = 0xF0 then some ⟨0, 3, 0x90, 0xBF⟩
  else if 0xF1 ≤ b ∧ b ≤ 0xF3 then some ⟨b - 0xF0, 3, 0x80, 0xBF⟩
  else if b = 0xF4 then some ⟨4, 3, 0x80, 0x8F⟩
  else none

/-- Reads the bytes that are owed, the first of which has the given range; `none` at the first one
that does not fit, which is left unread. -/
def tail (low high acc : Nat) : (owed : Nat) → List UInt8 → Option Nat × List UInt8
  | 0, bs => (some acc, bs)
  | _ + 1, [] => (none, [])
  | owed + 1, b :: bs =>
    if low ≤ b.toNat ∧ b.toNat ≤ high then tail 0x80 0xBF (acc * 64 + (b.toNat - 0x80)) owed bs
    else (none, b :: bs)

theorem tail_length (low high acc owed : Nat) (bs : List UInt8) :
    (tail low high acc owed bs).2.length ≤ bs.length := by
  fun_induction tail low high acc owed bs <;> grind

/-- Reads one character, or one fault, whose first byte is `b`. -/
def next (b : UInt8) (bs : List UInt8) : Option Char × List UInt8 :=
  if b < 0x80 then (some (Char.ofNat b.toNat), bs)
  else
    match lead? b.toNat with
    | none => (none, bs)
    | some lead =>
      let (value, rest) := tail lead.low lead.high lead.bits lead.owed bs
      (value.map Char.ofNat, rest)

theorem next_length (b : UInt8) (bs : List UInt8) : (next b bs).2.length ≤ bs.length := by
  unfold next
  split
  · simp
  · split
    · simp
    · exact tail_length ..

/-- The characters of a byte sequence, `none` for each fault. -/
def decodeEach : List UInt8 → List (Option Char)
  | [] => []
  | b :: bs =>
    have := next_length b bs
    (next b bs).1 :: decodeEach (next b bs).2
termination_by bs => bs.length
decreasing_by grind

/-- The text of a byte sequence without faults. -/
def decode? (bs : List UInt8) : Option String := ((decodeEach bs).mapM id).map String.ofList

/-- The text of a byte sequence with a replacement character for each fault. -/
def decodeLossy (bs : List UInt8) : String :=
  String.ofList ((decodeEach bs).map (·.getD (Char.ofNat 0xFFFD)))

/-- The bytes of a text. -/
def encode (text : String) : List UInt8 := text.toUTF8.toList

end KilnLang.Utf8
