import ChipEight.Cancellation
import ChipEight.Frontend.Basic
import ChipEight.Workbench
import ChipEight.Pacing

/-!
# Sessions

A session runs a machine against a frontend until it is cancelled. It holds the machine, its pacing
and a clock; the `World` adds the state of the frontend and the journal.
-/

namespace ChipEight

/-- A machine at work. It listens if it holds the receiving end of the machine's mailbox, and it
holds one of the handles by which it can be cancelled. The clock counts nanoseconds from its
start. -/
structure Session where
  machine : Machine
  listening : Bool
  pacing : Pacing
  handles : Cancellation := .single
  handle : Nat := 0
  now : Nat := 0

/-- A session over a machine, with the clock at zero. -/
def Session.start (m : Machine) : Session :=
  let (machine, listening) := m.takeReceiver
  { machine, listening, pacing := .start m.settings.clockHz m.settings.timerHz 0 }

/-- Whether the session has been cancelled, which is never undone. -/
def Session.cancelled (s : Session) : Bool := s.handles.isRaised s.handle

/-- The session cancelled through its own handle. -/
def Session.cancel (s : Session) : Session := { s with handles := s.handles.cancel s.handle }

/-- The session behind a call to its frontend, during which it may have been cancelled. -/
def Session.heed (s : Session) (cancels : Bool) : Session :=
  { s with handles := if cancels then s.handles.cancel s.handle else s.handles }

/-- The session when more work comes due, if nothing happens until then. -/
def Session.rest (s : Session) : Session := { s with now := s.now + s.pacing.idle }

namespace Session

@[simp] theorem cancelled_cancel (s : Session) : s.cancel.cancelled = true :=
  Cancellation.isRaised_cancel ..

theorem cancel_of_cancelled {s : Session} (h : s.cancelled = true) : s.cancel = s := by
  rw [cancel, Cancellation.cancel_of_isRaised h]

theorem cancelled_heed (s : Session) (cancels : Bool) :
    (s.heed cancels).cancelled = (s.cancelled || cancels) := by
  cases cancels with
  | false => exact (Bool.or_false _).symm
  | true => exact s.cancelled_cancel.trans (Bool.or_true _).symm

theorem heed_heed (s : Session) (cancels again : Bool) :
    (s.heed cancels).heed again = s.heed (cancels || again) := by
  cases cancels with
  | false => rfl
  | true =>
    cases again with
    | false => rfl
    | true => exact cancel_of_cancelled s.cancelled_cancel

end Session

/-- All that a turn can read and change. -/
structure World (σ : Type) where
  session : Session
  device : σ
  journal : Journal := {}

namespace World

variable {σ α : Type}

/-- The world with the state of the frontend after a call, and the session cancelled if it was. -/
def afterCall (w : World σ) (r : Reply σ α) : World σ :=
  { w with
    device := r.device
    session := w.session.heed r.cancels }

/-- The world after a look at the keys: time has passed, and keys may have changed. -/
def afterPoll (w : World σ) (r : PollReply σ) : World σ :=
  let w := w.afterCall r.toReply
  { w with
    session := { w.session with
      machine := w.session.machine.setKeys r.keys
      now := w.session.now + r.elapsed } }

/-- The machine with the journal, to work on. -/
def bench (w : World σ) : Workbench := ⟨w.session.machine, w.journal⟩

/-- The world after work. -/
def withBench (w : World σ) (b : Workbench) : World σ :=
  { w with session := { w.session with machine := b.machine }, journal := b.journal }

end World

end ChipEight
