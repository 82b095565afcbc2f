import ChipEight.ByteStream.Basic
import ChipEight.Journal
import ChipEight.Keypad.Basic
import ChipEight.Mailbox
import ChipEight.Settings

/-!
# Machines

A machine is a snapshot with what rewinding does not bring back: the earlier snapshots themselves,
the keys, the random bytes and the mailbox for tones. This module builds machines and holds all that
is done to one between two cycles: loading, keys, timers, tones, pictures and rewinding.
-/

namespace ChipEight

/-- A machine with its past: how it was asked to run, where it stands, where it stood before with
the latest first, which keys are down, the random bytes, the mailbox that its tones go to, and
whether the receiving end of the mailbox has been handed out. -/
structure Machine where
  settings : Settings
  state : Snapshot
  history : List Snapshot
  keys : Keypad
  random : ByteStream
  mailbox : Mailbox
  receiverTaken : Bool

namespace Machine

/-- A machine with no program, whose random bytes are those that the source has for its seed. -/
def create (settings : Settings) (source : RandomSource) : Except Fault Machine := do
  settings.check
  return {
    settings
    state := .initial
    history := []
    keys := .released
    random := source.bytes settings.seed
    mailbox := {}
    receiverTaken := false }

/-- Puts a program into memory; all else stays as it is. -/
def load (m : Machine) (rom : List UInt8) : Except Fault Machine := do
  return { m with state := ← m.state.loadRom rom }

/-! ### Keys -/

/-- A key goes down; a number that is no key's is ignored. -/
def press (m : Machine) (key : Nat) : Machine := { m with keys := m.keys.press key }

/-- A key goes up; a number that is no key's is ignored. -/
def release (m : Machine) (key : Nat) : Machine := { m with keys := m.keys.release key }

/-- All keys at once. -/
def setKeys (m : Machine) (keys : Keypad) : Machine := { m with keys }

/-! ### Pictures -/

/-- The picture, if the latest cycle touched it. -/
def frame? (m : Machine) : Option Screen := if m.state.drawn then some m.state.screen else none

/-! ### Rewinding -/

/-- The past with the present put in front, cut to the length that the settings allow. -/
def remembered (m : Machine) : List Snapshot := (m.state :: m.history).take m.settings.history

/-- Goes back to the latest snapshot of the past, if there is one. Its picture has to be shown
again, so it counts as touched. -/
def reverse (m : Machine) : Machine × Bool :=
  match m.history with
  | [] => (m, false)
  | s :: history => ({ m with state := { s with drawn := true }, history }, true)

/-! ### Timers and tones -/

/-- Counts the timers down, and sends a tone if the sound timer runs out. -/
def tick (m : Machine) : Machine :=
  { m with
    state := m.state.tick
    mailbox := if m.state.soundExpires then m.mailbox.send else m.mailbox }

/-- What the next tick reports. -/
def tickEvent? (m : Machine) : Option Event :=
  if m.state.soundExpires then some (if m.mailbox.accepts then .toneQueued else .toneDropped)
  else none

/-- Hands out the receiving end of the mailbox, which works once. -/
def takeReceiver (m : Machine) : Machine × Bool :=
  ({ m with receiverTaken := true }, !m.receiverTaken)

/-- The receiving end of the mailbox goes away. -/
def dropReceiver (m : Machine) : Machine := { m with mailbox := m.mailbox.dropReceiver }

/-- The receiving end takes the pending tone, if there is one. -/
def receiveTone (m : Machine) : Machine × Bool :=
  ({ m with mailbox := m.mailbox.receive }, m.mailbox.pending)

end Machine

end ChipEight
