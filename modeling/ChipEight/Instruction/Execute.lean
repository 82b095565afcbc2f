import ChipEight.ByteStream.Basic
import ChipEight.Instruction.Handler
import ChipEight.Keypad.Basic

/-!
# Executing instructions

`Instruction.inPlace` carries one instruction out on a `Context`: a snapshot, the keypad and the
random bytes, all three changed in place. Every instruction moves the program counter itself.
`Instruction.execute` is what comes of it if nobody looks at what a failed instruction leaves
behind.
-/

namespace ChipEight

/-- What an instruction can read and change. -/
structure Context where
  state : Snapshot
  keys : Keypad
  random : ByteStream

namespace Context

/-- The key that a register names by its low digit. -/
def namedKey (c : Context) (x : Register) : Key :=
  ⟨(c.state.register x).toNat % 16, Nat.mod_lt _ (by decide)⟩

/-- The value of an operand. -/
def value (c : Context) : Operand → UInt8
  | .byte kk => kk
  | .register y => c.state.register y

/-- The context with another snapshot. -/
def withState (c : Context) (s : Snapshot) : Context := { c with state := s }

end Context

/-- A program that changes a context in place and may end with a fault. -/
abbrev Execution := EStateM Fault Context

namespace Execution

/-- A handler works on the snapshot; keys and random bytes are out of its reach. -/
def handle {α : Type} (h : Handler α) : Execution α := fun c =>
  match h.run c.state with
  | .ok a s => .ok a (c.withState s)
  | .error fault s => .error fault (c.withState s)

/-- Takes a random byte. -/
def randomByte : Execution UInt8 :=
  modifyGet fun c => (c.random.head, { c with random := c.random.tail })

/-- Whether the key that a register names is down. One that is seen down is released if keys are
consumed by reading. -/
def pressed (consume : Bool) (x : Register) : Execution Bool := do
  let c ← get
  let key := c.namedKey x
  let down := c.keys[key]
  if down then set { c with keys := c.keys.afterRead consume key }
  return down

/-- Reads the lowest key that is down and goes on; with no key down nothing happens, and the
instruction is met again. -/
def awaitKey (consume : Bool) (x : Register) : Execution Unit := do
  match (← get).keys.lowest? with
  | some key =>
    modify fun c => { c with keys := c.keys.afterRead consume key }
    handle (.load x (UInt8.ofNat key))
  | none => pure ()

end Execution

namespace Instruction

open Execution in
/-- Carries an instruction out; `consume` tells whether a key seen down is released. -/
def inPlace (consume : Bool) : Instruction → Execution Unit
  | clear => handle .clear
  | ret => handle .ret
  | jump addr => handle (.jump addr)
  | call addr => handle (.call addr)
  | skipEqual x operand => do
    let c ← get
    handle (.skipIf (c.state.register x = c.value operand))
  | skipUnequal x operand => do
    let c ← get
    handle (.skipIf (c.state.register x ≠ c.value operand))
  | load x operand => do handle (.load x ((← get).value operand))
  | addByte x kk => do handle (.load x ((← get).state.register x + kk))
  | alu op x y => handle (.combine op x y)
  | loadIndex addr => handle (.loadIndex (UInt16.ofNat addr))
  | jumpOffset addr => do handle (.jump (addr + ((← get).state.register 0).toNat))
  | random x kk => do handle (.load x ((← randomByte) &&& kk))
  | draw x y n => handle (.draw x y n)
  | skipKey x => do handle (.skipIf (← pressed consume x))
  | skipNoKey x => do handle (.skipIf (!(← pressed consume x)))
  | readDelay x => do handle (.load x (← get).state.delay)
  | waitKey x => awaitKey consume x
  | setDelay x => do handle (.setDelay ((← get).state.register x))
  | setSound x => do handle (.setSound ((← get).state.register x))
  | addIndex x => do
    let s := (← get).state
    handle (.loadIndex (s.index + (s.register x).toUInt16))
  | glyph x => do
    let addr := ((← get).state.register x).toNat * Font.glyphHeight
    handle (.loadIndex (UInt16.ofNat addr))
  | decimal x => handle (.decimal x)
  | store x => handle (.store x)
  | fetch x => handle (.fetch x)

/-- What an instruction makes of a context, or its fault. -/
def execute (consume : Bool) (c : Context) (i : Instruction) : Except Fault Context :=
  match (i.inPlace consume).run c with
  | .ok _ c => .ok c
  | .error fault _ => .error fault

end Instruction

end ChipEight
