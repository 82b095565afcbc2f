import ChipEight.Frontend.Basic

/-!
# Scripted and recorded frontends

A `Script` says in advance what each look at the keys comes to, and at which pictures and tones the
frontend cancels the session or fails; apart from that, pictures and tones go to another frontend.
`Frontend.recorded` keeps the calls that another frontend receives.
-/

namespace ChipEight

/-- What one look at the keys comes to: the nanoseconds it takes, the keys that are down if they are
to change, whether the session is cancelled meanwhile, the text of the fault it ends with if it
fails, and what the user asks for. -/
structure ScriptedPoll where
  wait : Nat := 0
  keys : Option Keypad := none
  cancels : Bool := false
  failure : Option String := none
  control : Control := {}

/-- The course of a session: the looks at the keys, behind the last of which the user quits, the
picture at which the session is cancelled, and the picture and the tone that fail. Pictures and
tones are counted from 1. -/
structure Script where
  polls : List ScriptedPoll := []
  cancellingRender : Nat := 0
  failingRender : Nat := 0
  failingBeep : Nat := 0

/-- How far a script has been followed, over a device of type `σ`: the looks at the keys that are
left, and the pictures and tones so far. -/
structure Playback (σ : Type) where
  polls : List ScriptedPoll
  renders : Nat := 0
  beeps : Nat := 0
  device : σ

namespace Script

variable {σ : Type}

/-- The beginning of a script. -/
def begin (s : Script) (device : σ) : Playback σ := { polls := s.polls, device }

/-- The answer to a look at the keys. -/
def poll (keys : Keypad) (p : Playback σ) : PollReply (Playback σ) :=
  match p.polls with
  | [] => { device := p, keys, result := .ok { quit := true } }
  | step :: rest =>
    { device := { p with polls := rest }
      cancels := step.cancels
      keys := step.keys.getD keys
      elapsed := step.wait
      result := step.failure.elim (.ok step.control) fun text => .error (.frontend text) }

/-- The answer to a picture. -/
def render (s : Script) (inner : Frontend σ) (screen : Screen) (p : Playback σ) :
    Reply (Playback σ) Unit :=
  let p := { p with renders := p.renders + 1 }
  let cancels := p.renders = s.cancellingRender
  if p.renders = s.failingRender then
    { device := p, cancels, result := .error (.frontend "render failed") }
  else
    let r := inner.render screen p.device
    { device := { p with device := r.device }, cancels := cancels || r.cancels, result := r.result }

/-- The answer to a tone. -/
def beep (s : Script) (inner : Frontend σ) (p : Playback σ) : Reply (Playback σ) Unit :=
  let p := { p with beeps := p.beeps + 1 }
  if p.beeps = s.failingBeep then { device := p, result := .error (.frontend "beep failed") }
  else
    let r := inner.beep p.device
    { device := { p with device := r.device }, cancels := r.cancels, result := r.result }

/-- A script as a frontend, over another one. -/
def frontend (s : Script) (inner : Frontend σ) : Frontend (Playback σ) where
  poll _ keys p := poll keys p
  render := s.render inner
  beep := s.beep inner

end Script

/-- A call that a frontend received; a look at the keys is given the time and the keys so far. -/
inductive Call where
  | poll (now : Nat) (keys : Keypad)
  | render (screen : Screen)
  | beep

/-- A device and the calls that it received, the oldest first. -/
structure Recorded (σ : Type) where
  device : σ
  calls : Array Call := #[]

/-- Adds a call and takes over the state of the device behind it. -/
def Recorded.after {σ : Type} (r : Recorded σ) (call : Call) (device : σ) : Recorded σ :=
  { device, calls := r.calls.push call }

/-- A frontend that keeps the calls it receives, and answers as another one does. -/
def Frontend.recorded {σ : Type} (inner : Frontend σ) : Frontend (Recorded σ) where
  poll now keys r :=
    let reply := inner.poll now keys r.device
    { reply with device := r.after (.poll now keys) reply.device }
  render screen r :=
    let reply := inner.render screen r.device
    { reply with device := r.after (.render screen) reply.device }
  beep r :=
    let reply := inner.beep r.device
    { reply with device := r.after .beep reply.device }

end ChipEight
