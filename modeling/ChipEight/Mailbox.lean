/-!
# The tone mailbox

A mailbox with one slot carries the request for a tone from the timers to whoever makes sound.
Neither side waits: a tone sent while another is pending, or when nobody is left to receive it, is
dropped.
-/

namespace ChipEight

/-- Whether a tone waits in the slot, and which of the two ends still exist. -/
structure Mailbox where
  pending : Bool := false
  hasSender : Bool := true
  hasReceiver : Bool := true
  deriving DecidableEq

namespace Mailbox

/-- Whether a tone sent now would be queued. -/
def accepts (m : Mailbox) : Bool := m.hasReceiver && !m.pending

/-- Queues a tone, or drops it if it is not accepted. -/
def send (m : Mailbox) : Mailbox := if m.accepts then { m with pending := true } else m

/-- Takes the pending tone out, if there is one; it can be taken after the sender is gone. -/
def receive (m : Mailbox) : Mailbox := { m with pending := false }

/-- The sending end goes away. -/
def dropSender (m : Mailbox) : Mailbox := { m with hasSender := false }

/-- The receiving end goes away, and the pending tone with it. -/
def dropReceiver (m : Mailbox) : Mailbox := { m with hasReceiver := false, pending := false }

end Mailbox

end ChipEight
