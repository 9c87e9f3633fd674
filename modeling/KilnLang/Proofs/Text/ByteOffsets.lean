import KilnLang.Source
import Mathlib.Tactic.SplitIfs

/-!
# Byte offsets of a text

A loop over the bytes of a text can stand in the middle of a character. `At` says that an offset is
where some rest of the text starts, and `Near` that it is some bytes before that, none of which is
an ASCII character. A loop that steps over such bytes comes to the start of the rest (`Near.skip`),
and slices between offsets where rests start are cut without failure (`At.slice?`).
-/

namespace KilnLang.Text

/-- The bytes of a text in UTF-8, each as the character with its number. -/
def bytes (text : List Char) : List Char :=
  (text.flatMap String.utf8EncodeChar).map Char.ofUInt8

/-- The byte at an offset, if that is in range. -/
def byte? (text : List Char) (offset : Nat) : Option Char := (bytes text)[offset]?

/-- The character is in ASCII. -/
abbrev IsAscii (c : Char) : Prop := c.toNat < 128

variable {text cs more : List Char} {c b : Char} {i : Nat}

/-! ## Bytes -/

theorem bytes_append (text more : List Char) : bytes (text ++ more) = bytes text ++ bytes more := by
  rw [bytes, List.flatMap_append, List.map_append]
  rfl

theorem bytes_cons (c : Char) (cs : List Char) :
    bytes (c :: cs) = (String.utf8EncodeChar c).map Char.ofUInt8 ++ bytes cs :=
  bytes_append [c] cs |>.trans (by simp [bytes])

theorem length_bytes (text : List Char) : (bytes text).length = utf8Width text := by
  induction text with
  | nil => rfl
  | cons c cs ih =>
    rw [bytes_cons, List.length_append, List.length_map, String.length_utf8EncodeChar, ih,
      utf8Width_cons]

theorem bytes_ascii (h : IsAscii c) (cs : List Char) : bytes (c :: cs) = c :: bytes cs := by
  have hle : c.val.toNat ≤ 127 := Nat.le_of_lt_succ h
  have hbyte : Char.ofUInt8 (UInt8.ofNat c.val.toNat) = c := by
    apply Char.ext
    apply UInt32.toNat_inj.mp
    show (UInt8.ofNat c.val.toNat).toNat = c.val.toNat
    rw [UInt8.toNat_ofNat']
    omega
  rw [bytes_cons, String.utf8EncodeChar]
  simp only [hle, if_true, List.map_cons, List.map_nil, hbyte]
  rfl

/-- The bytes of other characters are no ASCII characters. -/
theorem high_bytes (h : ¬ IsAscii c) :
    ∀ b ∈ (String.utf8EncodeChar c).map Char.ofUInt8, ¬ IsAscii b := by
  have hle : ¬ c.val.toNat ≤ 127 := fun hle => h (Nat.lt_succ_of_le hle)
  have hbytes : ∀ b ∈ String.utf8EncodeChar c, 128 ≤ b.toNat := by
    rw [String.utf8EncodeChar]
    simp only [hle, if_false]
    split_ifs <;> simp only [List.forall_mem_cons, UInt8.toNat_ofNat', List.not_mem_nil,
      false_implies, implies_true, and_true] <;> omega
  intro b hb
  obtain ⟨byte, hbyte, rfl⟩ := List.mem_map.mp hb
  exact Nat.not_lt.mpr (hbytes byte hbyte)

/-- The byte is the character, or both are outside of ASCII. -/
structure Leads (b c : Char) : Prop where
  ascii : IsAscii c → b = c
  other : ¬ IsAscii c → ¬ IsAscii b

namespace Leads

theorem refl (c : Char) : Leads c c := ⟨fun _ => rfl, id⟩

/-- A byte is compared with a character of ASCII as the character is. -/
theorem eq_iff (h : Leads b c) {q : Char} (hq : IsAscii q) : b = q ↔ c = q := by
  by_cases hc : IsAscii c
  · rw [h.ascii hc]
  · constructor
    · rintro rfl
      exact absurd hq (h.other hc)
    · rintro rfl
      exact absurd hq hc

/-- A byte passes a test for characters of ASCII as the character does. -/
theorem test (h : Leads b c) {p : Char → Bool} (hp : ∀ d, p d = true → IsAscii d) : p b = p c := by
  by_cases hc : IsAscii c
  · rw [h.ascii hc]
  · rw [Bool.eq_false_iff.mpr (mt (hp b) (h.other hc)), Bool.eq_false_iff.mpr (mt (hp c) hc)]

end Leads

theorem ne_of_not_isAscii (hb : ¬ IsAscii b) (hc : IsAscii c) : b ≠ c :=
  fun h => hb (h ▸ hc)

theorem lt_of_byte? (h : byte? text i = some b) : i < utf8Width text := by
  rw [← length_bytes]
  exact (List.getElem?_eq_some_iff.mp h).1

theorem byte?_eq_none (h : utf8Width text ≤ i) : byte? text i = none :=
  List.getElem?_eq_none (by rwa [length_bytes])

/-! ## Offsets where a rest of the text starts -/

/-- The rest of the text from the offset on is `cs`. -/
def At (text : List Char) (offset : Nat) (cs : List Char) : Prop :=
  ∃ before, text = before ++ cs ∧ utf8Width before = offset

theorem at_zero (text : List Char) : At text 0 text := ⟨[], rfl, rfl⟩

namespace At

theorem append {part : List Char} (h : At text i (part ++ cs)) :
    At text (i + utf8Width part) cs := by
  obtain ⟨before, rfl, rfl⟩ := h
  exact ⟨before ++ part, (List.append_assoc ..).symm, utf8Width_append before part⟩

theorem tail (h : At text i (c :: cs)) : At text (i + c.utf8Size) cs :=
  append (show At text i ([c] ++ cs) from h)

theorem utf8Size_eq_one (h : IsAscii c) : c.utf8Size = 1 :=
  Char.utf8Size_eq_one_iff.mpr (UInt32.le_iff_toNat_le.mpr (Nat.le_of_lt_succ h))

theorem tail_ascii (h : At text i (c :: cs)) (hc : IsAscii c) : At text (i + 1) cs :=
  utf8Size_eq_one hc ▸ h.tail

theorem byte?_add (h : At text i cs) (k : Nat) : byte? text (i + k) = (bytes cs)[k]? := by
  obtain ⟨before, rfl, rfl⟩ := h
  rw [byte?, bytes_append, List.getElem?_append_right (by rw [length_bytes]; omega), length_bytes,
    Nat.add_sub_cancel_left]

theorem width (h : At text i cs) : i + utf8Width cs = utf8Width text := by
  obtain ⟨before, rfl, rfl⟩ := h
  exact (utf8Width_append before cs).symm

theorem le (h : At text i cs) : i ≤ utf8Width text := h.width ▸ Nat.le_add_right ..

theorem eq_width (h : At text i []) : i = utf8Width text := h.width

theorem unique {j : Nat} (h : At text i cs) (h' : At text j cs) : i = j :=
  Nat.add_right_cancel (h.width.trans h'.width.symm)

theorem lt (h : At text i (c :: cs)) : i < utf8Width text := by
  have := h.width
  have := c.utf8Size_pos
  rw [utf8Width_cons] at *
  omega

/-- A shorter rest starts at a later offset. -/
theorem lt_of_length {j : Nat} (h : At text i cs) (h' : At text j more)
    (hlength : more.length < cs.length) : i < j := by
  obtain ⟨before, rfl, rfl⟩ := h
  obtain ⟨before', hsplit, rfl⟩ := h'
  rcases List.append_eq_append_iff.mp hsplit with ⟨part, rfl, rfl⟩ | ⟨part, -, rfl⟩
  · cases part with
    | nil => exact absurd hlength (Nat.lt_irrefl _)
    | cons c part =>
      have := c.utf8Size_pos
      rw [utf8Width_append, utf8Width_cons]
      omega
  · rw [List.length_append] at hlength
    omega

/-- The bytes of the first character. -/
theorem exists_byte?_add (h : At text i (c :: cs)) {k : Nat} (hk : k < c.utf8Size) :
    ∃ b ∈ (String.utf8EncodeChar c).map Char.ofUInt8, byte? text (i + k) = some b := by
  have hlength : k < ((String.utf8EncodeChar c).map Char.ofUInt8).length := by
    rwa [List.length_map, String.length_utf8EncodeChar]
  refine ⟨_, List.getElem_mem hlength, ?_⟩
  rw [h.byte?_add, bytes_cons, List.getElem?_append_left hlength, List.getElem?_eq_getElem hlength]

/-- The byte where the rest starts is the first of those of its first character. -/
theorem exists_byte? (h : At text i (c :: cs)) : ∃ b, byte? text i = some b ∧ Leads b c := by
  by_cases hc : IsAscii c
  · refine ⟨c, ?_, fun _ => rfl, fun h => absurd hc h⟩
    rw [← Nat.add_zero i, h.byte?_add, bytes_ascii hc]
    rfl
  · obtain ⟨b, hmem, hb⟩ := h.exists_byte?_add c.utf8Size_pos
    exact ⟨b, hb, fun h => absurd h hc, fun _ => high_bytes hc b hmem⟩

theorem byte?_ascii (h : At text i (c :: cs)) (hc : IsAscii c) : byte? text i = some c := by
  obtain ⟨b, hb, hleads⟩ := h.exists_byte?
  rw [hb, hleads.ascii hc]

/-- What a look ahead for a character of ASCII sees. -/
theorem byte?_eq_some_iff (h : At text i cs) {q : Char} (hq : IsAscii q) :
    byte? text i = some q ↔ ∃ rest, cs = q :: rest := by
  cases cs with
  | nil =>
    rw [byte?_eq_none (Nat.le_of_eq h.eq_width.symm)]
    exact ⟨nofun, nofun⟩
  | cons c cs =>
    obtain ⟨b, hb, hleads⟩ := h.exists_byte?
    rw [hb, Option.some_inj, hleads.eq_iff hq]
    constructor
    · rintro rfl
      exact ⟨cs, rfl⟩
    · rintro ⟨rest, hrest⟩
      exact (List.cons.inj hrest).1

theorem byte?_beq (h : At text i cs) {q : Char} (hq : IsAscii q) :
    (byte? text i == some q) = (cs.head? == some q) := by
  rw [Bool.eq_iff_iff, beq_iff_eq, beq_iff_eq, h.byte?_eq_some_iff hq, List.head?_eq_some_iff]

/-- A look ahead passes a test for characters of ASCII as the next character does. -/
theorem byte?_test (h : At text i cs) {p : Char → Bool} (hp : ∀ d, p d = true → IsAscii d) :
    ((byte? text i).map p).getD false = (cs.head?.map p).getD false := by
  cases cs with
  | nil =>
    rw [byte?_eq_none (Nat.le_of_eq h.eq_width.symm)]
    rfl
  | cons c cs =>
    obtain ⟨b, hb, hleads⟩ := h.exists_byte?
    rw [hb]
    exact hleads.test hp

/-! ### Slices -/

theorem dropBytes?_append (before cs : List Char) :
    dropBytes? (before ++ cs) (utf8Width before) = some cs := by
  induction before with
  | nil => cases cs <;> rfl
  | cons c before ih =>
    have hpos := c.utf8Size_pos
    obtain ⟨n, hn⟩ : ∃ n, c.utf8Size + utf8Width before = n + 1 :=
      ⟨c.utf8Size + utf8Width before - 1, by omega⟩
    have hrest : n + 1 - c.utf8Size = utf8Width before := by omega
    rw [List.cons_append, utf8Width_cons, hn, dropBytes?, if_neg (by omega), hrest, ih]

theorem takeBytes?_append (part cs : List Char) :
    takeBytes? (part ++ cs) (utf8Width part) = some part := by
  induction part with
  | nil => cases cs <;> rfl
  | cons c part ih =>
    have hpos := c.utf8Size_pos
    obtain ⟨n, hn⟩ : ∃ n, c.utf8Size + utf8Width part = n + 1 :=
      ⟨c.utf8Size + utf8Width part - 1, by omega⟩
    have hrest : n + 1 - c.utf8Size = utf8Width part := by omega
    rw [List.cons_append, utf8Width_cons, hn, takeBytes?, if_neg (by omega), hrest, ih]
    rfl

theorem slice? {part : List Char} (h : At text i (part ++ cs)) :
    KilnLang.slice? text i (i + utf8Width part) = some part := by
  obtain ⟨before, rfl, rfl⟩ := h
  rw [KilnLang.slice?, if_neg (by omega), dropBytes?_append, Option.bind_some,
    Nat.add_sub_cancel_left, takeBytes?_append]

theorem slice?_rest (h : At text i cs) : KilnLang.slice? text i (utf8Width text) = some cs := by
  rw [← h.width]
  have hall : At text i (cs ++ []) := by rwa [List.append_nil]
  exact hall.slice?

end At

/-! ## Offsets in the middle of a character -/

/-- Some bytes follow the offset that are no ASCII characters, and then `cs`. -/
def Near (text : List Char) (offset : Nat) (cs : List Char) : Prop :=
  ∃ k, At text (offset + k) cs ∧
    ∀ j < k, ∃ b, byte? text (offset + j) = some b ∧ ¬ IsAscii b

theorem At.near (h : At text i cs) : Near text i cs := ⟨0, h, fun _ hj => nomatch hj⟩

/-- The offset after the first byte of a character. -/
theorem At.near_tail (h : At text i (c :: cs)) : Near text (i + 1) cs := by
  by_cases hc : IsAscii c
  · exact (h.tail_ascii hc).near
  · have hpos := c.utf8Size_pos
    have hsize : i + 1 + (c.utf8Size - 1) = i + c.utf8Size := by omega
    refine ⟨c.utf8Size - 1, hsize ▸ h.tail, fun j hj => ?_⟩
    obtain ⟨b, hmem, hb⟩ := h.exists_byte?_add (k := 1 + j) (by omega)
    exact ⟨b, by rwa [Nat.add_assoc], high_bytes hc b hmem⟩

/-- A loop that steps over the bytes of a character comes to the rest after it. -/
theorem Near.skip {α : Type} (loop : Nat → α) (h : Near text i cs)
    (hstep : ∀ j b, byte? text j = some b → ¬ IsAscii b → loop j = loop (j + 1)) :
    ∃ j, At text j cs ∧ loop i = loop j := by
  obtain ⟨k, hk, hbytes⟩ := h
  induction k generalizing i with
  | zero => exact ⟨i, hk, rfl⟩
  | succ k ih =>
    obtain ⟨b, hb, hhigh⟩ := hbytes 0 (Nat.succ_pos k)
    obtain ⟨j, hj, hloop⟩ := ih (i := i + 1) (by rwa [Nat.add_right_comm, Nat.add_assoc])
      fun j hj => by
        rw [Nat.add_right_comm, Nat.add_assoc]
        exact hbytes (j + 1) (Nat.succ_lt_succ hj)
    exact ⟨j, hj, (hstep i b hb hhigh).trans hloop⟩

end KilnLang.Text
