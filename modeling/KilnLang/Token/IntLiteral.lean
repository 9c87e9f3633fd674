/-!
# Integer literals

The value of the text of an integer literal: decimal digits, or hexadecimal digits after `0x`. The
value must be below `2 ^ 64`. Besides what the lexer produces, one plus sign may stand before the
digits.
-/

namespace KilnLang.IntLiteral

/-- The value of a digit in bases up to sixteen, letters of either case. -/
def digitValue? (c : Char) : Option Nat :=
  if '0' ≤ c ∧ c ≤ '9' then some (c.toNat - '0'.toNat)
  else if 'a' ≤ c ∧ c ≤ 'f' then some (c.toNat - 'a'.toNat + 10)
  else if 'A' ≤ c ∧ c ≤ 'F' then some (c.toNat - 'A'.toNat + 10)
  else none

/-- Appends the digits to the number `acc`; fails on a character that is no digit of the base. -/
def digitsValue? (base acc : Nat) : List Char → Option Nat
  | [] => some acc
  | c :: cs =>
    match digitValue? c with
    | some d => if d < base then digitsValue? base (base * acc + d) cs else none
    | none => none

/-- The value of one or more digits, which a plus sign may precede. -/
def numeralValue? (base : Nat) : List Char → Option Nat
  | [] => none
  | ['+'] => none
  | '+' :: cs => digitsValue? base 0 cs
  | cs => digitsValue? base 0 cs

/-- The value of an integer literal that fits into 64 bits. -/
def value? (text : String) : Option Nat :=
  let value := match text.toList with
    | '0' :: 'x' :: cs => numeralValue? 16 cs
    | '0' :: 'X' :: cs => numeralValue? 16 cs
    | cs => numeralValue? 10 cs
  value.filter (· < UInt64.size)

end KilnLang.IntLiteral
