import ChipEight.Instruction.Decode
import ChipEight.Instruction.Execute
import ChipEight.Machine.Basic

/-!
# One cycle

`Machine.cycle` fetches the word at the program counter, decodes it and executes the instruction.

* A word that stands for no instruction is passed over and reported.
* Behind any other fault the snapshot before the cycle is put back; what else the failed instruction
  has changed stays changed.
* The snapshot before the cycle goes into the past if the cycle changed anything but whether the
  picture was touched: waiting for a key or jumping on the spot leaves no trace.
-/

namespace ChipEight

/-- What a cycle asks of the screen: to show the picture that it touched, or nothing. -/
inductive Cycle where
  | redraw
  | poll
  deriving DecidableEq

namespace Machine

/-- The word at the program counter; the fault of a counter past the last word names the counter. -/
def fetch (m : Machine) : Except Fault Word :=
  match m.state.memory.readWord m.state.pc.toNat with
  | .ok w => .ok w
  | .error _ => .error (.memoryOutOfBounds m.state.pc.toNat)

/-- The snapshot that a cycle starts from: the picture is not touched yet. -/
def untouched (m : Machine) : Snapshot := { m.state with drawn := false }

/-- What the instruction of a cycle works on. -/
def context (m : Machine) : Context := ⟨m.untouched, m.keys, m.random⟩

/-- The machine after a word that stands for no instruction. -/
def passOver (m : Machine) : Machine :=
  { m with state := m.untouched.next, history := m.remembered }

/-- The machine after an instruction has left `c`. -/
def commit (m : Machine) (c : Context) : Machine :=
  { m with
    state := c.state
    history := if { m.state with drawn := c.state.drawn } = c.state then m.history else m.remembered
    keys := c.keys
    random := c.random }

/-- The machine after an instruction has failed and left `c` behind: the snapshot is put back, and
nothing else is. -/
def putBack (m : Machine) (c : Context) : Machine :=
  { m with
    keys := c.keys
    random := c.random }

/-- Runs a cycle. -/
def cycle (m : Machine) : Machine × Except Fault Cycle :=
  match m.fetch with
  | .error fault => (m, .error fault)
  | .ok word =>
    match Instruction.decode? word with
    | none => (m.passOver, .error (.unknownOpcode word))
    | some i =>
      match (i.inPlace m.settings.clearKeysOnRead).run m.context with
      | .error fault c => (m.putBack c, .error fault)
      | .ok _ c => (m.commit c, .ok (if i.redraws then .redraw else .poll))

/-- What the next cycle reports: the word, the state and the instruction that it executes. -/
def cycleEvent? (m : Machine) : Option Event := do
  let word ← m.fetch.toOption
  let i ← Instruction.decode? word
  return .executing word m.untouched i

end Machine

end ChipEight
