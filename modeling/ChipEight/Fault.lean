import ChipEight.Hex

/-!
# Faults

What can go wrong while a machine is built or run, and the sentence that reports it. Only an unknown
word leaves something to carry on with; every other fault halts the machine.
-/

namespace ChipEight

/-- The cause of a failure: a program of `size` bytes where at most `limit` fit, a word that stands
for no instruction, a call at `pc` with every stack slot in use, a return at `pc` with none, an
access that reaches `addr` past the end of memory, settings that no machine can be built with, or a
screen, keypad or speaker that gave up. -/
inductive Fault where
  | romTooLarge (size limit : Nat)
  | unknownOpcode (word : UInt16)
  | stackOverflow (pc : UInt16)
  | stackUnderflow (pc : UInt16)
  | memoryOutOfBounds (addr : Nat)
  | invalidConfig (text : String)
  | frontend (text : String)
  deriving DecidableEq

namespace Fault

/-- The sentence that reports a fault. -/
def message : Fault → String
  | romTooLarge size limit => s!"rom is {size} bytes but at most {limit} fit in memory"
  | unknownOpcode word => s!"unknown opcode 0x{Hex.padded 4 word.toNat}"
  | stackOverflow pc => s!"stack overflow calling from 0x{Hex.padded 3 pc.toNat}"
  | stackUnderflow pc => s!"stack underflow returning from 0x{Hex.padded 3 pc.toNat}"
  | memoryOutOfBounds addr => s!"memory access out of bounds at 0x{Hex.padded 4 addr}"
  | invalidConfig text => s!"invalid config: {text}"
  | frontend text => s!"frontend error: {text}"

/-- Whether the machine can carry on behind the fault. -/
def isRecoverable : Fault → Bool
  | unknownOpcode _ => true
  | _ => false

end Fault

end ChipEight
