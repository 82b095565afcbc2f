/-!
# Hexadecimal numerals

Upper-case numerals in base sixteen. `Hex.digits` writes a number with as few digits as it needs,
`Hex.padded` fills up with zeros on the left to a least width and never cuts a digit off.
-/

namespace ChipEight.Hex

/-- The sixteen digits, in the order of their values. -/
def alphabet : Vector Char 16 :=
  #v['0', '1', '2', '3', '4', '5', '6', '7', '8', '9', 'A', 'B', 'C', 'D', 'E', 'F']

/-- The digit that stands for a value below sixteen. -/
def digit (d : Fin 16) : Char := alphabet.get d

/-- The digits of `n`, most significant first, without leading zeros; zero is one digit. -/
def digits (n : Nat) : List Char :=
  if h : n < 16 then [digit ⟨n, h⟩]
  else digits (n / 16) ++ [digit ⟨n % 16, Nat.mod_lt n (by decide)⟩]

/-- The numeral of `n` with at least `width` digits. -/
def padded (width n : Nat) : String := String.ofList ((digits n).leftpad width '0')

theorem digits_of_lt {n : Nat} (h : n < 16) : digits n = [digit ⟨n, h⟩] := by
  rw [digits, dif_pos h]

theorem digits_of_le {n : Nat} (h : 16 ≤ n) :
    digits n = digits (n / 16) ++ [digit ⟨n % 16, Nat.mod_lt n (by decide)⟩] := by
  rw [digits, dif_neg (Nat.not_lt.mpr h)]

end ChipEight.Hex
