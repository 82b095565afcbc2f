/-!
# Words and their fields

A program is made of 16-bit words, each stored high byte first. The digits of a word in base sixteen
are, from the left, the family, the register `x`, the register `y` and the height `n`; the low byte
`kk` and the low twelve bits `addr` overlap them. Every field is a quotient or a remainder of the
word's value.
-/

namespace ChipEight

/-- A 16-bit word of a program. -/
abbrev Word := UInt16

/-- The number of one of the registers V0 to VF. -/
abbrev Register := Fin 16

/-- An address as an instruction can name it, twelve bits wide. -/
abbrev Address := Fin 4096

/-- Digits and registers can be written as numerals. -/
instance neZero_sixteen : @NeZero Nat Zero.ofOfNat0 16 := ⟨by decide⟩

namespace Word

/-- The first digit, which tells the families of instructions apart. -/
def family (w : Word) : Fin 16 := ⟨w.toNat / 4096, by have := w.toNat_lt; omega⟩

/-- The second digit, a register. -/
def x (w : Word) : Register := ⟨w.toNat / 256 % 16, Nat.mod_lt _ (by decide)⟩

/-- The third digit, a register. -/
def y (w : Word) : Register := ⟨w.toNat / 16 % 16, Nat.mod_lt _ (by decide)⟩

/-- The last digit, the height of a sprite. -/
def n (w : Word) : Fin 16 := ⟨w.toNat % 16, Nat.mod_lt _ (by decide)⟩

/-- The low byte. -/
def kk (w : Word) : UInt8 := UInt8.ofNat w.toNat

/-- All but the first digit. -/
def addr (w : Word) : Address := ⟨w.toNat % 4096, Nat.mod_lt _ (by decide)⟩

/-- The four digits, from the left. -/
def nibbles (w : Word) : List (Fin 16) := [w.family, w.x, w.y, w.n]

/-- The word that two bytes spell, the high byte first. -/
def ofBytes (high low : UInt8) : Word := UInt16.ofNat (high.toNat * 256 + low.toNat)

/-- The high byte. -/
def highByte (w : Word) : UInt8 := UInt8.ofNat (w.toNat / 256)

/-- The low byte. -/
def lowByte (w : Word) : UInt8 := w.kk

theorem toNat_kk (w : Word) : w.kk.toNat = w.toNat % 256 := UInt8.toNat_ofNat'

theorem toNat_highByte (w : Word) : w.highByte.toNat = w.toNat / 256 := by
  have := w.toNat_lt
  rw [highByte, UInt8.toNat_ofNat']
  omega

theorem toNat_ofBytes (high low : UInt8) :
    (ofBytes high low).toNat = high.toNat * 256 + low.toNat := by
  have := high.toNat_lt
  have := low.toNat_lt
  rw [ofBytes, UInt16.toNat_ofNat']
  omega

theorem ofBytes_bytes (w : Word) : ofBytes w.highByte w.lowByte = w := by
  apply UInt16.toNat_inj.mp
  rw [toNat_ofBytes, toNat_highByte, lowByte, toNat_kk]
  omega

end Word

end ChipEight
