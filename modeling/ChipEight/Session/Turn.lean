import ChipEight.Session.Basic

/-!
# Turns

Each turn of a session looks at the keys, does the work that has come due (or takes as many cycles
back), shows the picture if it was touched, plays a pending tone and rests until more work comes
due.

A `Turn` is a program over the world; a fault ends it where it arises and keeps what was done
before. Time stands still but for looking at the keys and resting.
-/

namespace ChipEight

/-- How many times faster time runs while the user asks for it. -/
def fastForwardSpeed : Nat := 8

/-- A program over the world that may end with a fault. -/
abbrev Turn (σ : Type) := EStateM Fault (World σ)

namespace Turn

variable {σ α : Type}

/-- Ends a call with its result. -/
def conclude : Except Fault α → Turn σ α
  | .ok a => pure a
  | .error fault => throw fault

/-- Adds an event to the journal. -/
def report (e : Event) : Turn σ Unit :=
  modify fun w => { w with journal := w.journal.add e }

/-- Whether the session has been cancelled. -/
def isCancelled : Turn σ Bool := return (← get).session.cancelled

/-- Cancels the session. -/
def cancel : Turn σ Unit := modify fun w => { w with session := w.session.cancel }

/-- Looks at the keys. -/
def poll (f : Frontend σ) : Turn σ Control := do
  let w ← get
  let r := f.poll w.session.now w.session.machine.keys w.device
  set (w.afterPoll r)
  conclude r.result

/-- Hands out the work that has come due. -/
def due (fast : Bool) : Turn σ Due := do
  let w ← get
  let (pacing, due) := w.session.pacing.advance w.session.now (if fast then fastForwardSpeed else 1)
  set { w with session := { w.session with pacing } }
  return due

/-- Runs the cycles, as long as the session has not been cancelled, and then makes the ticks, which
a fault in a cycle prevents. The answer tells whether a cycle touched the picture. -/
def work (due : Due) : Turn σ Bool := do
  let w ← get
  let (b, result) := w.bench.cycles w.session.cancelled false due.cycles
  set (w.withBench b)
  let drawn ← conclude result
  modify fun w => w.withBench (w.bench.ticks due.ticks)
  return drawn

/-- Takes cycles back. The answer tells whether there were any. -/
def rewind (cycles : Nat) : Turn σ Bool := do
  let w ← get
  let (b, rewound) := w.bench.rewind cycles
  set (w.withBench b)
  return rewound

/-- Shows the picture. -/
def render (f : Frontend σ) : Turn σ Unit := do
  let w ← get
  let r := f.render w.session.machine.state.screen w.device
  set (w.afterCall r)
  conclude r.result

/-- Takes the pending tone out of the mailbox; nothing is pending for a session that does not hold
the receiving end. -/
def takeTone : Turn σ Bool := do
  let w ← get
  if w.session.listening then
    let (machine, pending) := w.session.machine.receiveTone
    set { w with session := { w.session with machine } }
    return pending
  else return false

/-- Plays a tone. -/
def beep (f : Frontend σ) : Turn σ Unit := do
  let w ← get
  let r := f.beep w.device
  set (w.afterCall r)
  conclude r.result

/-- Looks into the mailbox up to `looks` times, as long as there is a tone in it, and plays each. -/
def drain (f : Frontend σ) : Nat → Turn σ Unit
  | 0 => pure ()
  | looks + 1 => do
    if ← takeTone then
      beep f
      drain f looks

/-- Plays every pending tone. The mailbox has one slot, so the second look finds it empty. -/
def sound (f : Frontend σ) : Turn σ Unit := drain f 2

/-- Rests until more work comes due. -/
def rest : Turn σ Unit :=
  modify fun w => { w with session := w.session.rest }

/-- Shows the picture if it was touched, plays what is pending and rests. -/
def present (f : Frontend σ) (drawn : Bool) : Turn σ Unit := do
  if drawn then render f
  sound f
  rest

/-- Does what the user asked for, with the work that has come due. -/
def serve (f : Frontend σ) (control : Control) : Turn σ Unit := do
  let due ← due control.fastForward
  let drawn ← if control.rewind then rewind due.cycles else work due
  present f drawn

/-- One turn. A user who quits cancels the session, and nothing else is done. -/
def once (f : Frontend σ) : Turn σ Unit := do
  let control ← poll f
  if control.quit then cancel else serve f control

/-- Up to `n` turns, until the session is cancelled. The answer tells whether it is. -/
def upTo (f : Frontend σ) : Nat → Turn σ Bool
  | 0 => isCancelled
  | n + 1 => do
    if ← isCancelled then return true
    once f
    upTo f n

/-- Reports that the session runs. -/
def announce : Turn σ Unit := do
  let settings := (← get).session.machine.settings
  report (.running settings.clockHz settings.timerHz)

/-- A run of up to `n` turns. The answer tells whether it came to its end because the session is
cancelled. -/
def untilCancelled (f : Frontend σ) (n : Nat) : Turn σ Bool := do
  announce
  let cancelled ← upTo f n
  if cancelled then report .stopping
  return cancelled

theorem upTo_of_cancelled (f : Frontend σ) (n : Nat) {w : World σ}
    (h : w.session.cancelled = true) : (upTo f n).run w = .ok true w := by
  cases n with
  | zero => exact congrArg (EStateM.Result.ok · w) h
  | succ n =>
    have hc : isCancelled w = .ok true w := congrArg (EStateM.Result.ok · w) h
    simp only [upTo, EStateM.run, bind, EStateM.bind, hc]
    rfl

end Turn

end ChipEight
