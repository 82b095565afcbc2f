import ChipEight.Fault

/-!
# Settings of a machine

The two rates, how keys are read, the seed of the random bytes and the depth of the rewind history.
`Settings.check` refuses a rate that is zero or above one per nanosecond, the clock rate first.
-/

namespace ChipEight

/-- The fastest rate: time is counted in whole nanoseconds. -/
def maxRateHz : Nat := 1000000000

/-- How a machine is to run: cycles and ticks per second, whether a key that an instruction has seen
held is released by it, where the random bytes start, and how many past snapshots are kept. A
machine without a seed picks its own. -/
structure Settings where
  clockHz : Nat := 60
  timerHz : Nat := 60
  clearKeysOnRead : Bool := false
  seed : Option UInt64 := none
  history : Nat := 256
  deriving DecidableEq

namespace Settings

/-- A rate that periods of whole nanoseconds can serve. -/
def IsRate (hz : Nat) : Prop := 0 < hz ∧ hz ≤ maxRateHz

instance (hz : Nat) : Decidable (IsRate hz) := inferInstanceAs (Decidable (_ ∧ _))

/-- Refuses a rate that is no rate, under the name it goes by. -/
def checkRate (name : String) (hz : Nat) : Except Fault Unit :=
  if IsRate hz then .ok ()
  else .error (.invalidConfig s!"{name} rate must be between 1Hz and {maxRateHz}Hz, got {hz}Hz")

/-- Refuses settings with a bad rate; of two bad rates the clock's is reported. -/
def check (s : Settings) : Except Fault Unit := do
  checkRate "clock" s.clockHz
  checkRate "timer" s.timerHz

theorem check_eq_ok_iff {s : Settings} :
    s.check = .ok () ↔ IsRate s.clockHz ∧ IsRate s.timerHz := by
  by_cases hc : IsRate s.clockHz <;> by_cases ht : IsRate s.timerHz <;>
    simp [check, checkRate, hc, ht, bind, Except.bind]

end Settings

end ChipEight
