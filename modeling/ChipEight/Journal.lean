import ChipEight.Instruction.Assembly
import ChipEight.Snapshot

/-!
# The journal

What a machine and its session report while they work. An `Event` keeps what happened; its level and
its sentence are read off it. A `Journal` keeps the events from a level on.
-/

namespace ChipEight

/-- How important a report is. -/
inductive Level where
  | trace | debug | info | warn | error
  deriving DecidableEq

namespace Level

/-- Higher for what is more important. -/
def rank : Level → Nat
  | trace => 0
  | debug => 1
  | info => 2
  | warn => 3
  | error => 4

/-- The level in capitals. -/
def name : Level → String
  | trace => "TRACE"
  | debug => "DEBUG"
  | info => "INFO"
  | warn => "WARN"
  | error => "ERROR"

end Level

/-- Something that is reported: a program in memory, a word that is about to be executed, a tone
that the sound timer has queued or dropped, the beginning of a session and its cancellation, a fault
that is passed over or halts the machine, and cycles taken back. -/
inductive Event where
  | loaded (size : Nat)
  | executing (word : Word) (state : Snapshot) (instruction : Instruction)
  | toneQueued
  | toneDropped
  | running (clockHz timerHz : Nat)
  | stopping
  | skipping (fault : Fault)
  | halting (fault : Fault)
  | rewound (cycles : Nat)

namespace Event

/-- How important an event is. -/
def level : Event → Level
  | executing .. => .trace
  | loaded _ | toneQueued | toneDropped | rewound _ => .debug
  | running .. | stopping => .info
  | skipping _ => .warn
  | halting _ => .error

/-- The sentence that reports an event. -/
def text : Event → String
  | loaded size => s!"loaded {size} byte rom"
  | executing word state instruction =>
    s!"{Hex.padded 4 word.toNat} {state.dump} {instruction.text}"
  | toneQueued => "sound timer expired"
  | toneDropped => "sound timer expired but a tone is still pending"
  | running clockHz timerHz => s!"running at {clockHz}Hz with timers at {timerHz}Hz"
  | stopping => "received shutdown signal, stopping"
  | skipping fault => s!"{fault.message}, skipping"
  | halting fault => s!"{fault.message}, halting"
  | rewound cycles => s!"rewound {cycles} cycles"

end Event

/-- The events of the level `threshold` or a higher one, the oldest first. -/
structure Journal where
  threshold : Level := .trace
  events : Array Event := #[]

namespace Journal

/-- Adds an event, if its level is kept. -/
def add (j : Journal) (e : Event) : Journal :=
  if j.threshold.rank ≤ e.level.rank then { j with events := j.events.push e } else j

/-- Adds an event, if there is one. -/
def add? (j : Journal) (e : Option Event) : Journal := e.elim j j.add

/-- The level and the sentence of each event. -/
def lines (j : Journal) : List (Level × String) := j.events.toList.map fun e => (e.level, e.text)

end Journal

end ChipEight
