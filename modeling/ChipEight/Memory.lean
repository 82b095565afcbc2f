import ChipEight.Fault
import ChipEight.Font
import ChipEight.Word

/-!
# Memory

4096 bytes, with the font at the bottom and the program from `programStart` on. Bytes, words and
blocks are read and written only where every byte lies inside; an access that does not reports an
address past the end and changes nothing. A block is checked by its end, so an empty block at the
end of memory is inside.
-/

namespace ChipEight

/-- Bytes of memory. -/
def memorySize : Nat := 4096

/-- Where programs are loaded and where they start. -/
def programStart : Nat := 0x200

/-- The longest program that is loaded; the last byte of memory stays free. -/
def maxRomSize : Nat := 3583

/-- The content of memory, by address. -/
abbrev Memory := Vector UInt8 memorySize

namespace Memory

/-- The byte at an address. -/
def readByte (m : Memory) (addr : Nat) : Except Fault UInt8 :=
  if h : addr < memorySize then .ok m[addr] else .error (.memoryOutOfBounds addr)

/-- The word whose high byte stands at an address. -/
def readWord (m : Memory) (addr : Nat) : Except Fault Word := do
  let high ← m.readByte addr
  let low ← m.readByte (addr + 1)
  return .ofBytes high low

/-- The `len` bytes from an address on. -/
def readBlock (m : Memory) (addr len : Nat) : Except Fault (List UInt8) :=
  if h : addr + len ≤ memorySize then .ok (List.ofFn fun k : Fin len => m[addr + k])
  else .error (.memoryOutOfBounds (addr + len - 1))

/-- Memory with some bytes put in from an address on; what would fall past the end is dropped. -/
def overwrite (m : Memory) (addr : Nat) : List UInt8 → Memory
  | [] => m
  | b :: bytes => overwrite (m.setIfInBounds addr b) (addr + 1) bytes

/-- Writes a block of bytes from an address on, all of it or nothing. -/
def writeBlock (m : Memory) (addr : Nat) (bytes : List UInt8) : Except Fault Memory :=
  if addr + bytes.length ≤ memorySize then .ok (m.overwrite addr bytes)
  else .error (.memoryOutOfBounds (addr + bytes.length - 1))

/-- Writes a byte. -/
def writeByte (m : Memory) (addr : Nat) (value : UInt8) : Except Fault Memory :=
  m.writeBlock addr [value]

/-- Writes a word, its high byte first. -/
def writeWord (m : Memory) (addr : Nat) (w : Word) : Except Fault Memory :=
  m.writeBlock addr [w.highByte, w.lowByte]

/-- Memory before any program is loaded: the font, and zeros behind it. -/
def initial : Memory := overwrite (Vector.replicate memorySize 0) 0 Font.glyphs

/-- Puts a program where programs start, unless it is too long. -/
def loadRom (m : Memory) (rom : List UInt8) : Except Fault Memory :=
  if rom.length ≤ maxRomSize then .ok (m.overwrite programStart rom)
  else .error (.romTooLarge rom.length maxRomSize)

/-! ### What a write does to each byte -/

/-- Inside the block the new bytes show, outside it the old ones. -/
theorem getElem_overwrite (m : Memory) (addr : Nat) (bytes : List UInt8) (k : Nat)
    (hk : k < memorySize) :
    (m.overwrite addr bytes)[k] =
      if h : addr ≤ k ∧ k < addr + bytes.length then bytes[k - addr] else m[k] := by
  induction bytes generalizing m addr with
  | nil =>
    have h : ¬(addr ≤ k ∧ k < addr + ([] : List UInt8).length) := by simp
    rw [dif_neg h, overwrite]
  | cons b bytes ih =>
    rw [overwrite, ih]
    by_cases h1 : addr + 1 ≤ k ∧ k < addr + 1 + bytes.length
    · have h2 : addr ≤ k ∧ k < addr + (b :: bytes).length := by simp; omega
      rw [dif_pos h1, dif_pos h2]
      have h3 : k - addr = (k - (addr + 1)) + 1 := by omega
      simp [h3]
    · rw [dif_neg h1]
      by_cases h2 : addr = k
      · subst h2
        simp
      · have h3 : ¬(addr ≤ k ∧ k < addr + (b :: bytes).length) := by simp; omega
        rw [dif_neg h3]
        simp [h2]

theorem readByte_eq_ok_iff {m : Memory} {addr : Nat} :
    (∃ b, m.readByte addr = .ok b) ↔ addr < memorySize := by
  by_cases h : addr < memorySize <;> simp [readByte, h]

theorem length_of_readBlock {m : Memory} {addr len : Nat} {bytes : List UInt8}
    (h : m.readBlock addr len = .ok bytes) : bytes.length = len := by
  unfold readBlock at h
  split at h
  · cases h
    simp
  · cases h

end Memory

end ChipEight
