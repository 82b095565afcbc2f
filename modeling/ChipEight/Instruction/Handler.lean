import ChipEight.Instruction.Basic
import ChipEight.Snapshot

/-!
# Handlers

The small programs that instructions are made of. A handler changes a snapshot in place, one store
after the other, and a fault leaves behind what was stored before it. Each of these handlers checks
before it stores anything.
-/

namespace ChipEight

/-- A program that changes a snapshot in place and may end with a fault. -/
abbrev Handler := EStateM Fault Snapshot

/-- The decimal digits of a byte, three of them. -/
def decimalDigits (b : UInt8) : List UInt8 := [b / 100, b / 10 % 10, b % 10]

namespace Handler

/-! ### Counter and stack -/

/-- Goes on to the next instruction. -/
def next : Handler Unit := modify Snapshot.next

/-- Goes on, past the next instruction if `skip`. -/
def skipIf (skip : Bool) : Handler Unit := modify (·.skipIf skip)

/-- Goes on at an address. -/
def jump (addr : Nat) : Handler Unit := modify (·.jump addr)

/-- Puts an address on the stack, unless every slot is in use. -/
def push (addr : UInt16) : Handler Unit := do
  let s ← get
  if s.sp.toNat < stackDepth then
    modify fun s => { s with stack := s.stack.setIfInBounds s.sp.toNat addr }
    modify fun s => { s with sp := s.sp + 1 }
  else throw (.stackOverflow s.pc)

/-- Takes the latest address from the stack, unless no slot is in use. -/
def pop : Handler UInt16 := do
  let s ← get
  if h : 0 < s.sp.toNat ∧ s.sp.toNat ≤ stackDepth then
    modify fun s => { s with sp := s.sp - 1 }
    return s.stack[s.sp.toNat - 1]
  else throw (.stackUnderflow s.pc)

/-- Goes on behind the call that was made last. -/
def ret : Handler Unit := do
  let addr ← pop
  modify fun s => { s with pc := addr + 2 }

/-- Remembers the counter and goes on at an address. -/
def call (addr : Nat) : Handler Unit := do
  push (← get).pc
  jump addr

/-! ### Registers -/

/-- Sets a register and goes on. -/
def load (x : Register) (value : UInt8) : Handler Unit := do
  modify (·.setRegister x value)
  next

/-- Points the index register at an address and goes on. -/
def loadIndex (addr : UInt16) : Handler Unit := do
  modify (·.setIndex addr)
  next

/-- Combines two registers into the first and goes on; a flag is written last. -/
def combine (op : Alu) (x y : Register) : Handler Unit := do
  let s ← get
  let (result, flag) := op.apply (s.register x) (s.register y)
  modify (·.setRegister x result)
  if let some flag := flag then modify (·.setFlag flag)
  next

/-- Starts the delay timer and goes on. -/
def setDelay (ticks : UInt8) : Handler Unit := do
  modify fun s => { s with delay := ticks }
  next

/-- Starts the sound timer and goes on. -/
def setSound (ticks : UInt8) : Handler Unit := do
  modify fun s => { s with sound := ticks }
  next

/-! ### Memory and screen -/

/-- Asks for a block of memory. -/
def lend (addr len : Nat) : Handler Unit :=
  if addr + len ≤ memorySize then pure () else throw (.memoryOutOfBounds (addr + len - 1))

/-- Writes bytes one by one. -/
def poke (addr : Nat) : List UInt8 → Handler Unit
  | [] => pure ()
  | b :: bytes => do
    modify fun s => { s with memory := s.memory.setIfInBounds addr b }
    poke (addr + 1) bytes

/-- The `len` bytes from the index register on. -/
def readIndexed (len : Nat) : Handler (List UInt8) := do
  match (← get).readIndexed len with
  | .ok bytes => return bytes
  | .error fault => throw fault

/-- Writes bytes from the index register on. -/
def writeIndexed (bytes : List UInt8) : Handler Unit := do
  let addr := (← get).index.toNat
  lend addr bytes.length
  poke addr bytes

/-- Blanks the screen and goes on. -/
def clear : Handler Unit := do
  modify Snapshot.clearScreen
  next

/-- Draws the bytes at the index register and goes on. -/
def draw (x y : Register) (n : Nat) : Handler Unit := do
  let bytes ← readIndexed n
  modify fun s => s.drawSprite (s.register x).toNat (s.register y).toNat bytes
  next

/-- Writes the decimal digits of a register and goes on. -/
def decimal (x : Register) : Handler Unit := do
  writeIndexed (decimalDigits ((← get).register x))
  next

/-- Writes the registers up to `x` and goes on. -/
def store (x : Register) : Handler Unit := do
  writeIndexed ((← get).v.toList.take (x + 1))
  next

/-- Reads the registers up to `x` and goes on. -/
def fetch (x : Register) : Handler Unit := do
  let bytes ← readIndexed (x + 1)
  modify (·.setLeading bytes)
  next

end Handler

end ChipEight
