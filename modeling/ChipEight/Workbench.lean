import ChipEight.Machine.Cycle

/-!
# The workbench

A machine with its journal, and what is done to it many times in a row: cycles, which pass over
unknown words and stop at any other fault, ticks, and rewinding.
-/

namespace ChipEight

/-- A machine and the journal of what it does. -/
structure Workbench where
  machine : Machine
  journal : Journal

namespace Workbench

/-- Adds an event to the journal. -/
def report (b : Workbench) (e : Event) : Workbench := { b with journal := b.journal.add e }

/-- Puts a program into memory and reports it. -/
def load (b : Workbench) (rom : List UInt8) : Except Fault Workbench := do
  let machine ← b.machine.load rom
  return { b with machine }.report (.loaded rom.length)

/-- A machine with a program, and a journal that keeps events from `threshold` on. The settings are
checked before the program. -/
def withRom (rom : List UInt8) (settings : Settings) (source : RandomSource) (threshold : Level) :
    Except Fault Workbench := do
  let machine ← Machine.create settings source
  load ⟨machine, { threshold }⟩ rom

/-- Runs a cycle and reports it. -/
def cycle (b : Workbench) : Workbench × Except Fault Cycle :=
  let (machine, result) := b.machine.cycle
  (⟨machine, b.journal.add? b.machine.cycleEvent?⟩, result)

/-- Ticks once and reports it. -/
def tick (b : Workbench) : Workbench :=
  ⟨b.machine.tick, b.journal.add? b.machine.tickEvent?⟩

/-- Runs `n` cycles, each of them only if the work has not been cancelled. The answer is `drawn` or
whether one of them touched the picture; a fault that halts the machine ends the batch. -/
def cycles (b : Workbench) (cancelled drawn : Bool) : Nat → Workbench × Except Fault Bool
  | 0 => (b, .ok drawn)
  | n + 1 =>
    if cancelled then (b, .ok drawn)
    else match b.cycle with
      | (b, .ok .redraw) => b.cycles cancelled true n
      | (b, .ok .poll) => b.cycles cancelled drawn n
      | (b, .error fault) =>
        if fault.isRecoverable then (b.report (.skipping fault)).cycles cancelled drawn n
        else (b.report (.halting fault), .error fault)

/-- Whether a tick would change anything. -/
def timersRun (b : Workbench) : Bool := b.machine.state.delay ≠ 0 || b.machine.state.sound ≠ 0

/-- Ticks `n` times; once both timers are at zero the rest of the ticks change nothing. -/
def ticks (b : Workbench) : Nat → Workbench
  | 0 => b
  | n + 1 => if b.timersRun then b.tick.ticks n else b

/-- Goes back `n` cycles, or as far as the past reaches. The answer is `done` and the number of
cycles taken back. -/
def reverse (b : Workbench) (done : Nat) : Nat → Workbench × Nat
  | 0 => (b, done)
  | n + 1 =>
    match b.machine.reverse with
    | (machine, true) => reverse { b with machine } (done + 1) n
    | (_, false) => (b, done)

/-- Goes back `n` cycles and reports it if any were taken back. -/
def rewind (b : Workbench) (n : Nat) : Workbench × Bool :=
  let (b, done) := b.reverse 0 n
  if done = 0 then (b, false) else (b.report (.rewound done), true)

end Workbench

end ChipEight
