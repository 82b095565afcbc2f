import ChipEight.Hex
import ChipEight.Memory
import ChipEight.Screen

/-!
# Snapshots

Everything that rewinding brings back: registers, counters, stack, memory, screen and timers. Keys
and random bytes are no part of it. The operations are the small steps that instructions are made
of; each says what becomes of one part and leaves the others alone.
-/

namespace ChipEight

/-- The content of the registers V0 to VF. -/
abbrev Registers := Vector UInt8 16

/-- The register that flags go to. -/
def flagRegister : Register := 15

/-- Slots of the stack. -/
def stackDepth : Nat := 16

/-- The state of a machine at one moment. `pc` is where the next instruction stands and `sp` how
many return addresses are on the stack, the oldest first; a slot keeps its content when it is
popped. The timers hold the ticks until they are at zero, and `drawn` says whether the latest cycle
touched the picture. -/
structure Snapshot where
  pc : UInt16
  sp : UInt8
  index : UInt16
  v : Registers
  delay : UInt8
  sound : UInt8
  stack : Vector UInt16 stackDepth
  memory : Memory
  screen : Screen
  drawn : Bool
  deriving DecidableEq

namespace Snapshot

/-- The state before anything has run. -/
def initial : Snapshot where
  pc := UInt16.ofNat programStart
  sp := 0
  index := 0
  v := Vector.replicate 16 0
  delay := 0
  sound := 0
  stack := Vector.replicate stackDepth 0
  memory := .initial
  screen := .blank
  drawn := false

/-- Puts a program into memory. -/
def loadRom (s : Snapshot) (rom : List UInt8) : Except Fault Snapshot := do
  return { s with memory := ← s.memory.loadRom rom }

/-! ### Program counter -/

/-- Goes on to the next instruction. -/
def next (s : Snapshot) : Snapshot := { s with pc := s.pc + 2 }

/-- Goes on, past the next instruction if `skip`. -/
def skipIf (s : Snapshot) (skip : Bool) : Snapshot := { s with pc := s.pc + if skip then 4 else 2 }

/-- Goes on at an address. -/
def jump (s : Snapshot) (addr : Nat) : Snapshot := { s with pc := UInt16.ofNat addr }

/-! ### Registers -/

/-- The content of a register. -/
def register (s : Snapshot) (x : Register) : UInt8 := s.v[x]

/-- Sets a register. -/
def setRegister (s : Snapshot) (x : Register) (value : UInt8) : Snapshot :=
  { s with v := s.v.set x value }

/-- Raises or lowers the flag. -/
def setFlag (s : Snapshot) (flag : Bool) : Snapshot :=
  s.setRegister flagRegister (if flag then 1 else 0)

/-- Sets the leading registers, one for each byte. -/
def setLeading (s : Snapshot) (bytes : List UInt8) : Snapshot :=
  { s with v := Vector.ofFn fun k => bytes[k.val]?.getD (s.v.get k) }

/-- Points the index register at an address. -/
def setIndex (s : Snapshot) (addr : UInt16) : Snapshot := { s with index := addr }

/-! ### Memory and screen at the index register -/

/-- The `len` bytes from the index register on. -/
def readIndexed (s : Snapshot) (len : Nat) : Except Fault (List UInt8) :=
  s.memory.readBlock s.index.toNat len

/-- Blanks the screen. -/
def clearScreen (s : Snapshot) : Snapshot := { s with screen := .blank, drawn := true }

/-- Draws a sprite over the screen; the flag says whether a lit pixel went dark. -/
def drawSprite (s : Snapshot) (left top : Nat) (bytes : List UInt8) : Snapshot :=
  let sprite := Screen.sprite left top bytes
  { s.setFlag (s.screen.overlaps sprite) with screen := s.screen.xor sprite, drawn := true }

/-! ### Timers -/

/-- Counts both timers down, each no further than zero. -/
def tick (s : Snapshot) : Snapshot :=
  { s with
    delay := if s.delay = 0 then 0 else s.delay - 1
    sound := if s.sound = 0 then 0 else s.sound - 1 }

/-- Whether the next tick runs the sound timer out. -/
def soundExpires (s : Snapshot) : Bool := s.sound = 1

/-! ### Text -/

/-- The counters, timers and registers on one line, in base sixteen. -/
def dump (s : Snapshot) : String :=
  let registers := ", ".intercalate (s.v.toList.map fun b => Hex.padded 2 b.toNat)
  s!"pc{Hex.padded 4 s.pc.toNat} i{Hex.padded 4 s.index.toNat} sp{Hex.padded 2 s.sp.toNat} " ++
    s!"dt{Hex.padded 2 s.delay.toNat} st{Hex.padded 2 s.sound.toNat} v[{registers}]"

end Snapshot

end ChipEight
