import ChipEight.Word

/-!
# Instructions

What a word can ask for. Instructions that differ only in where their right-hand value comes from
share a constructor and take an `Operand`; the arithmetic on two registers is one constructor over
the operations of `Alu`, whose meaning on bytes is `Alu.apply`.
-/

namespace ChipEight

/-- The right-hand value of a comparison or a load: a byte of the instruction itself, or the content
of a register. -/
inductive Operand where
  | byte (kk : UInt8)
  | register (y : Register)
  deriving DecidableEq

/-- The operations on two registers. Of the two differences `sub` is left minus right and `subn`
right minus left; the shifts move the right operand by one bit. -/
inductive Alu where
  | or
  | and
  | xor
  | add
  | sub
  | shr
  | subn
  | shl
  deriving DecidableEq

/-- The result of an operation on two bytes, and the flag it raises or lowers if it has one: the
carry of a sum, the absence of a borrow, the bit that a shift drops. -/
def Alu.apply (op : Alu) (a b : UInt8) : UInt8 × Option Bool :=
  match op with
  | .or => (a ||| b, none)
  | .and => (a &&& b, none)
  | .xor => (a ^^^ b, none)
  | .add => (a + b, some (255 < a.toNat + b.toNat))
  | .sub => (a - b, some (b ≤ a))
  | .shr => (b >>> 1, some (b &&& 1 = 1))
  | .subn => (b - a, some (a ≤ b))
  | .shl => (b <<< 1, some (b >>> 7 = 1))

/-- One instruction of the machine.

* `ret` goes on behind the latest `call`, which remembers where it stands.
* `jumpOffset` goes on at an address plus V0.
* The skips pass over the instruction behind them, the ones on keys if the key that the register
  names is held, or is not.
* `addByte` has no flag; `alu` combines two registers into the first.
* `random` sets the register to a random byte, masked.
* `draw` draws the `n` sprite bytes at the index register, with the corner at the two registers.
* `waitKey` waits until a key is held and reads which.
* `addIndex` moves the index register on by a register, `glyph` points it at the glyph of a digit.
* `decimal` writes three decimal digits, `store` and `fetch` move V0 to Vx, all at the index
  register. -/
inductive Instruction where
  | clear
  | ret
  | jump (addr : Address)
  | call (addr : Address)
  | skipEqual (x : Register) (operand : Operand)
  | skipUnequal (x : Register) (operand : Operand)
  | load (x : Register) (operand : Operand)
  | addByte (x : Register) (kk : UInt8)
  | alu (op : Alu) (x y : Register)
  | loadIndex (addr : Address)
  | jumpOffset (addr : Address)
  | random (x : Register) (kk : UInt8)
  | draw (x y : Register) (n : Fin 16)
  | skipKey (x : Register)
  | skipNoKey (x : Register)
  | readDelay (x : Register)
  | waitKey (x : Register)
  | setDelay (x : Register)
  | setSound (x : Register)
  | addIndex (x : Register)
  | glyph (x : Register)
  | decimal (x : Register)
  | store (x : Register)
  | fetch (x : Register)
  deriving DecidableEq

namespace Instruction

/-- Whether the instruction touches the screen. -/
def redraws : Instruction → Bool
  | clear | draw .. => true
  | _ => false

end Instruction

end ChipEight
