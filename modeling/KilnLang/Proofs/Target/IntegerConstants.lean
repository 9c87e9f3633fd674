import Mathlib.Algebra.Order.BigOperators.Group.List
import Mathlib.Data.Nat.Digits.Defs
import KilnLang.Proofs.Target.Legibility

/-!
# Integer constants

C takes the base of an integer constant from how it starts: sixteen after `0x`, eight after any
other `0`, and ten otherwise. Integer literals are decimal unless they start with `0x`, and are
written as they stand.

**Theorem (`integer_literals_keep_value`).** C reads the value of an integer literal from what is
written for it if and only if C does not take it for octal, or the value is below eight. Lengths of
arrays are written as decimal numerals, from which C always reads the length.

An octal constant has the digits of the literal, if they are below eight, but every place from the
second one on is worth less in base eight than in base ten. So the values agree only if there is
nothing but zeros in these places (`CConstant.numeral?_eight`).
-/

namespace KilnLang

/-! ## What C reads -/

namespace CConstant

/-- The value of a digit; other characters have one that is too large for any base. -/
def digit (c : Char) : Nat := (IntLiteral.digitValue? c).getD 16

/-- The number that has the digits in the base. -/
def numeral? (base : Nat) (cs : List Char) : Option Nat :=
  if cs ≠ [] ∧ ∀ c ∈ cs, digit c < base then some (Nat.ofDigits base (cs.map digit).reverse)
  else none

/-- The base of a constant, and its digits. -/
def split : List Char → Nat × List Char
  | '0' :: 'x' :: cs => (16, cs)
  | '0' :: 'X' :: cs => (16, cs)
  | '0' :: cs => (8, '0' :: cs)
  | cs => (10, cs)

/-- The integer that C reads from a constant without a suffix. -/
def integer? (text : String) : Option Nat :=
  numeral? (split text.toList).1 (split text.toList).2

/-- Whether C takes a constant for octal. -/
def isOctal (text : String) : Bool := (split text.toList).1 == 8

/-! ## Numerals -/

section Numerals

variable {base n : Nat} {cs : List Char}

theorem digitsValue?_eq (hbase : base ≤ 16) (acc : Nat) :
    IntLiteral.digitsValue? base acc cs = if ∀ c ∈ cs, digit c < base then
      some (Nat.ofDigits base (cs.map digit).reverse + base ^ cs.length * acc) else none := by
  induction cs generalizing acc with
  | nil => simp [IntLiteral.digitsValue?]
  | cons c cs ih =>
    rw [IntLiteral.digitsValue?]
    simp only [List.forall_mem_cons]
    cases hvalue : IntLiteral.digitValue? c with
    | none =>
      have hdigit : ¬digit c < base := by
        rw [digit, hvalue]
        exact Nat.not_lt.mpr hbase
      rw [if_neg fun h => hdigit h.1]
    | some d =>
      have hdigit : digit c = d := by rw [digit, hvalue, Option.getD_some]
      by_cases hd : d < base
      · have hsum : Nat.ofDigits base (cs.map digit).reverse + base ^ cs.length * (base * acc + d) =
            Nat.ofDigits base ((c :: cs).map digit).reverse + base ^ (c :: cs).length * acc := by
          rw [List.map_cons, hdigit, Nat.ofDigits_reverse_cons, List.length_map, List.length_cons]
          ring
        simp only [hdigit, hd, true_and, if_true]
        rw [ih, hsum]
      · simp only [hdigit, hd, false_and, if_false]

theorem numeral?_eq_digitsValue? (hbase : base ≤ 16) (hne : cs ≠ []) :
    numeral? base cs = IntLiteral.digitsValue? base 0 cs := by
  rw [numeral?, digitsValue?_eq hbase, Nat.mul_zero, Nat.add_zero]
  simp only [hne, ne_eq, not_false_eq_true, true_and]

theorem numeralValue?_eq (hbase : base ≤ 16) (hplus : '+' ∉ cs) :
    IntLiteral.numeralValue? base cs = numeral? base cs := by
  unfold IntLiteral.numeralValue?
  split
  · rfl
  · exact absurd List.mem_cons_self hplus
  · exact absurd List.mem_cons_self hplus
  · rename_i hne _ _
    exact (numeral?_eq_digitsValue? hbase hne).symm

/-- The values agree in both bases if and only if the places from the second one on hold zeros. -/
theorem ofDigits_eight {ds : List Nat} (h : ∀ d ∈ ds, d < 8) :
    Nat.ofDigits 8 ds = Nat.ofDigits 10 ds ↔ Nat.ofDigits 10 ds < 8 := by
  cases ds with
  | nil => decide
  | cons d ds =>
    have hmono : Nat.ofDigits 8 ds ≤ Nat.ofDigits 10 ds := Nat.ofDigits_monotone ds (by decide)
    have hd : d < 8 := h d List.mem_cons_self
    rw [Nat.ofDigits_cons, Nat.ofDigits_cons]
    omega

/-- **Octal and decimal.** A decimal numeral has its value in base eight if and only if the value is
below eight. -/
theorem numeral?_eight (h : numeral? 10 cs = some n) : numeral? 8 cs = some n ↔ n < 8 := by
  rw [numeral?, Option.ite_none_right_eq_some, Option.some.injEq] at h
  obtain ⟨⟨hne, -⟩, rfl⟩ := h
  rw [numeral?]
  by_cases hoctal : ∀ c ∈ cs, digit c < 8
  · have hdigits : ∀ d ∈ (cs.map digit).reverse, d < 8 := by simpa using hoctal
    rw [if_pos ⟨hne, hoctal⟩, Option.some.injEq]
    exact ofDigits_eight hdigits
  · rw [if_neg fun h => hoctal h.2]
    apply iff_of_false nofun
    intro hlt
    apply hoctal
    intro c hc
    have hmem : digit c ∈ (cs.map digit).reverse := List.mem_reverse.mpr (List.mem_map_of_mem hc)
    exact ((List.le_sum_of_mem hmem).trans (Nat.sum_le_ofDigits _ (by decide))).trans_lt hlt

end Numerals

/-! ## Literals -/

/-- The value of an integer literal, where C's octal constants are taken for decimal. -/
theorem value?_eq {text : String} (hplus : '+' ∉ text.toList) :
    IntLiteral.value? text =
      (numeral? (if isOctal text then 10 else (split text.toList).1) (split text.toList).2).filter
        (· < UInt64.size) := by
  unfold IntLiteral.value? isOctal
  generalize text.toList = cs at hplus
  fun_cases split cs with
  | case1 cs =>
    have hcs : '+' ∉ cs := fun h => hplus (List.mem_cons_of_mem _ (List.mem_cons_of_mem _ h))
    simp [numeralValue?_eq (Nat.le_refl 16) hcs]
  | case2 cs =>
    have hcs : '+' ∉ cs := fun h => hplus (List.mem_cons_of_mem _ (List.mem_cons_of_mem _ h))
    simp [numeralValue?_eq (Nat.le_refl 16) hcs]
  | case3 cs hlower hupper =>
    split
    · rename_i heq
      exact absurd (List.cons.inj heq).2 (hlower _)
    · rename_i heq
      exact absurd (List.cons.inj heq).2 (hupper _)
    · simp [numeralValue?_eq (show 10 ≤ 16 by decide) hplus]
  | case4 cs hlower hupper =>
    split
    · exact absurd rfl (hlower _)
    · exact absurd rfl (hupper _)
    · simp [numeralValue?_eq (show 10 ≤ 16 by decide) hplus]

theorem integer?_eq {text : String} (hplus : '+' ∉ text.toList) {n : Nat}
    (h : IntLiteral.value? text = some n) :
    integer? text = some n ↔ (isOctal text → n < 8) := by
  rw [value?_eq hplus, Option.filter_eq_some_iff] at h
  obtain ⟨hnumeral, -⟩ := h
  rw [integer?]
  by_cases hoctal : isOctal text
  · rw [if_pos hoctal] at hnumeral
    rw [eq_of_beq hoctal, numeral?_eight hnumeral]
    exact (imp_iff_right hoctal).symm
  · rw [if_neg hoctal] at hnumeral
    exact iff_of_true hnumeral fun h => absurd h hoctal

/-- C reads a number from its decimal numeral. -/
theorem integer?_toString (n : Nat) : integer? (toString n) = some n := by
  have hdigits : ∀ c ∈ Nat.toDigits 10 n, c.isDigit :=
    fun _ => Nat.isDigit_of_mem_toDigits (by decide) (by decide)
  have hnumeral : numeral? 10 (Nat.toDigits 10 n) = some n := by
    rw [numeral?_eq_digitsValue? (by decide) Nat.toDigits_ne_nil,
      IntLiteral.digitsValue?_eq_ofDigitChars hdigits, Nat.ofDigitChars_ten_toDigits]
  rw [integer?, Nat.toString_eq_ofList_toDigits, String.toList_ofList]
  rcases Nat.eq_zero_or_pos n with rfl | hpos
  · decide
  · have hfirst := CDeclaration.head?_toDigits_ne_zero hpos
    have hsplit : split (Nat.toDigits 10 n) = (10, Nat.toDigits 10 n) := by
      revert hfirst
      fun_cases split (Nat.toDigits 10 n) with
      | case4 => exact fun _ => rfl
      | _ => simp_all
    rw [hsplit]
    exact hnumeral

end CConstant

/-- **Integer literals.** C reads the value of a literal from what is written for it, unless C takes
it for octal and the value is not below eight. The length that the value is in a type is always read
back. -/
theorem integer_literals_keep_value (m : DataModel) {file : Nat} {text : String}
    {tokens : List Token} (hlex : Token.lex file text = .ok tokens) {t : Token} (ht : t ∈ tokens)
    (hkind : t.kind = .intLiteral) {v : Value} (hv : Parser.literal? t = some v) {n : Nat}
    (hn : IntLiteral.value? t.text = some n) :
    (CConstant.integer? (Lowering.value m v).render = some n ↔
      (CConstant.isOctal t.text → n < 8)) ∧ CConstant.integer? (toString n) = some n := by
  have hlegible : Lexer.Legible .intLiteral t.text.toList :=
    hkind ▸ (Lexer.lexed_of_mem_lex hlex ht).legible
  have hplus : '+' ∉ t.text.toList := by
    obtain ⟨c, cs, htext, hc, hcs⟩ := hlegible.number_chars (by decide)
    rw [htext, List.mem_cons]
    rintro (rfl | hmem)
    · exact absurd hc (by decide)
    · exact absurd (hcs _ hmem) (by decide)
  have hrender : (Lowering.value m v).render = t.text := by
    rw [Parser.literal?, hkind] at hv
    cases hv
    rw [Lowering.value, CExpr.render]
  rw [hrender]
  exact ⟨CConstant.integer?_eq hplus hn, CConstant.integer?_toString n⟩

/-- The literal is hexadecimal for C too. -/
theorem hexadecimal_literal_keeps_value :
    let tokens := (Scan.ofText 0 "int[0x10] x = 0xfF").tokens
    let t : Token := ⟨.intLiteral, "0xfF", ⟨0, 14, 18⟩, false⟩
    (Token.lex 0 "int[0x10] x = 0xfF" = .ok tokens ∧ t ∈ tokens ∧ t.kind = .intLiteral ∧
      Parser.literal? t = some (.number ⟨t.span, "0xfF"⟩) ∧
      IntLiteral.value? t.text = some 255) ∧
      CConstant.integer? (Lowering.value .lp64 (.number ⟨t.span, "0xfF"⟩)).render = some 255 := by
  intro tokens t
  have herror : (Scan.ofText 0 "int[0x10] x = 0xfF").error = none := by
    rw [Scan.ofText_ofList]
    decide +kernel
  have hlex : Token.lex 0 "int[0x10] x = 0xfF" = .ok tokens := by
    simp only [Token.lex, herror, tokens]
  have ht : t ∈ tokens := by decide +kernel
  have hvalue : IntLiteral.value? t.text = some 255 := by decide +kernel
  have hoctal : CConstant.isOctal t.text = false := by decide +kernel
  refine ⟨⟨hlex, ht, rfl, rfl, hvalue⟩, ?_⟩
  apply (integer_literals_keep_value .lp64 hlex ht rfl rfl hvalue).1.mpr
  intro h
  exact absurd (hoctal.symm.trans h) Bool.false_ne_true

/-- The literal is ten, and C reads eight. -/
theorem octal_literal_changes_value : ∃ tokens t v,
    Token.lex 0 "int x = 010" = .ok tokens ∧ t ∈ tokens ∧ t.kind = .intLiteral ∧
      Parser.literal? t = some v ∧ IntLiteral.value? t.text = some 10 ∧
      CConstant.integer? (Lowering.value .lp64 v).render = some 8 := by
  have herror : (Scan.ofText 0 "int x = 010").error = none := by
    rw [Scan.ofText_ofList]
    decide +kernel
  have hlex : Token.lex 0 "int x = 010" = .ok (Scan.ofText 0 "int x = 010").tokens := by
    simp only [Token.lex, herror]
  have ht : ⟨.intLiteral, "010", ⟨0, 8, 11⟩, false⟩ ∈ (Scan.ofText 0 "int x = 010").tokens := by
    rw [Scan.ofText_ofList]
    decide +kernel
  have hinteger : CConstant.integer? "010" = some 8 := by decide +kernel
  exact ⟨_, _, _, hlex, ht, rfl, rfl, by decide +kernel, hinteger⟩

end KilnLang
