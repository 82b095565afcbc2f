import ChipEight.Fault
import ChipEight.Keypad.Basic
import ChipEight.Screen

/-!
# Frontends

A frontend is the outside of a machine: keys, a screen and a speaker. It has a state of its own, and
each call answers with the state that follows and with what the call comes to. Any call may fail,
and any call may find that the session has been cancelled meanwhile.
-/

namespace ChipEight

/-- What the user asks for besides keys: to end the session, to let time run faster, to go back
instead of on. -/
structure Control where
  quit : Bool := false
  fastForward : Bool := false
  rewind : Bool := false
  deriving DecidableEq

/-- The answer to a call: the state behind it, whether the session was cancelled during it, and what
it comes to. -/
structure Reply (σ α : Type) where
  device : σ
  cancels : Bool := false
  result : Except Fault α

/-- The answer to a look at the keys: the keys that are down now, and the nanoseconds it has
taken. -/
structure PollReply (σ : Type) extends Reply σ Control where
  keys : Keypad
  elapsed : Nat := 0

/-- Keys, screen and speaker over a state `σ`. A look at the keys is given the time and the keys
that were down so far. -/
structure Frontend (σ : Type) where
  poll : Nat → Keypad → σ → PollReply σ
  render : Screen → σ → Reply σ Unit
  beep : σ → Reply σ Unit

namespace Frontend

/-- A frontend that shows nothing, plays nothing and has no keys. -/
def silent {σ : Type} : Frontend σ where
  poll _ keys device := { device, keys, result := .ok {} }
  render _ device := { device, result := .ok () }
  beep device := { device, result := .ok () }

end Frontend

end ChipEight
