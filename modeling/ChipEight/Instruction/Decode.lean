import ChipEight.Instruction.Basic

/-!
# Decoding words

`Instruction.decode?` reads the instruction that a word stands for. Words of family 0 other than the
two that clear the screen and return, and gaps in the families 5, 8, 9, E and F, stand for none.
-/

namespace ChipEight

/-- The operation that the last digit of a word of family 8 selects; 0 is the plain load and not an
operation. -/
def Alu.ofDigit? (n : Fin 16) : Option Alu :=
  match n.val with
  | 0x1 => some .or
  | 0x2 => some .and
  | 0x3 => some .xor
  | 0x4 => some .add
  | 0x5 => some .sub
  | 0x6 => some .shr
  | 0x7 => some .subn
  | 0xE => some .shl
  | _ => none

namespace Instruction

/-- The instruction on register `x` that the low byte of a word of family F selects. -/
def miscellaneous? (x : Register) (kk : UInt8) : Option Instruction :=
  match kk.toNat with
  | 0x07 => some (readDelay x)
  | 0x0A => some (waitKey x)
  | 0x15 => some (setDelay x)
  | 0x18 => some (setSound x)
  | 0x1E => some (addIndex x)
  | 0x29 => some (glyph x)
  | 0x33 => some (decimal x)
  | 0x55 => some (store x)
  | 0x65 => some (fetch x)
  | _ => none

/-- The instruction that a word stands for. -/
def decode? (w : Word) : Option Instruction :=
  match w.family.val with
  | 0x0 => if w = 0x00E0 then some clear else if w = 0x00EE then some ret else none
  | 0x1 => some (jump w.addr)
  | 0x2 => some (call w.addr)
  | 0x3 => some (skipEqual w.x (.byte w.kk))
  | 0x4 => some (skipUnequal w.x (.byte w.kk))
  | 0x5 => if w.n = 0 then some (skipEqual w.x (.register w.y)) else none
  | 0x6 => some (load w.x (.byte w.kk))
  | 0x7 => some (addByte w.x w.kk)
  | 0x8 =>
    if w.n = 0 then some (load w.x (.register w.y))
    else (Alu.ofDigit? w.n).map fun op => alu op w.x w.y
  | 0x9 => if w.n = 0 then some (skipUnequal w.x (.register w.y)) else none
  | 0xA => some (loadIndex w.addr)
  | 0xB => some (jumpOffset w.addr)
  | 0xC => some (random w.x w.kk)
  | 0xD => some (draw w.x w.y w.n)
  | 0xE =>
    if w.kk = 0x9E then some (skipKey w.x)
    else if w.kk = 0xA1 then some (skipNoKey w.x)
    else none
  | _ => miscellaneous? w.x w.kk

end Instruction

end ChipEight
