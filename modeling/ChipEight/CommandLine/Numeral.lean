/-!
# Decimal numerals

Numbers as they are written on a command line: a sign that may be missing, and at least one digit
from `0` to `9`. Leading zeros are fine; blanks and anything else are not.
-/

namespace ChipEight.CommandLine.Numeral

/-- The value of a digit. -/
def digitValue? (c : Char) : Option Nat :=
  if '0' ≤ c ∧ c ≤ '9' then some (c.toNat - '0'.toNat) else none

/-- The value of digits read behind a number `value`. -/
def digitsValue? (value : Nat) : List Char → Option Nat
  | [] => some value
  | c :: cs => do digitsValue? (value * 10 + (← digitValue? c)) cs

/-- The value of one or more digits. -/
def ofDigits? : List Char → Option Nat
  | [] => none
  | cs => digitsValue? 0 cs

/-- The number that a numeral without a minus sign stands for. -/
def unsigned? (s : String) : Option Nat :=
  match s.toList with
  | '+' :: cs => ofDigits? cs
  | cs => ofDigits? cs

/-- The number that a numeral with any sign stands for. -/
def signed? (s : String) : Option Int :=
  match s.toList with
  | '-' :: cs => (ofDigits? cs).map fun n => -(n : Int)
  | _ => (unsigned? s).map fun n => (n : Int)

end ChipEight.CommandLine.Numeral
