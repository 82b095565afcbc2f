import ChipEight.Settings

/-!
# Pacing

Time is counted in whole nanoseconds. A `Meter` turns time into units of work at a rate: time is
added to its debt, and whole periods are taken out of the debt again. One second of work is the most
that is handed out at once; what is owed beyond it is forgotten. `Pacing` runs two meters, one for
cycles and one for ticks, on the time between two looks at the clock.
-/

namespace ChipEight

/-- Nanoseconds in a second. -/
def nanosPerSecond : Nat := 1000000000

/-- A rate in units of work per second, and the nanoseconds that have not been turned into work
yet. -/
structure Meter where
  hz : Nat
  debt : Nat := 0
  deriving DecidableEq

namespace Meter

/-- Nanoseconds that one unit of work takes. -/
def period (m : Meter) : Nat := nanosPerSecond / max m.hz 1

/-- Time passes. -/
def owe (m : Meter) (elapsed : Nat) : Meter := { m with debt := m.debt + elapsed }

/-- The units of work that are handed out for the debt. -/
def due (m : Meter) : Nat := min (m.debt / m.period) m.hz

/-- The meter after they have been handed out. -/
def settle (m : Meter) : Meter :=
  { m with debt := if m.hz ≤ m.debt / m.period then 0 else m.debt % m.period }

/-- Time until a whole period is owed. -/
def idle (m : Meter) : Nat := m.period - m.debt

theorem period_pos {m : Meter} (h : Settings.IsRate m.hz) : 0 < m.period := by
  obtain ⟨h0, h1⟩ := h
  exact Nat.div_pos (by rw [Nat.max_eq_left h0]; exact h1) (by omega)

theorem debt_settle_lt {m : Meter} (h : Settings.IsRate m.hz) : m.settle.debt < m.period := by
  have hp := period_pos h
  unfold settle
  split
  · exact hp
  · exact Nat.mod_lt _ hp

/-- Below the cap, what is handed out and what is still owed add up to what was owed. -/
theorem due_mul_period_add_debt (m : Meter) (h : m.debt / m.period < m.hz) :
    m.due * m.period + m.settle.debt = m.debt := by
  have hs : m.settle.debt = m.debt % m.period := by
    simp [settle, Nat.not_le.mpr h]
  rw [due, Nat.min_eq_left (Nat.le_of_lt h), hs, Nat.mul_comm]
  exact Nat.div_add_mod m.debt m.period

theorem due_of_cap (m : Meter) (h : m.hz ≤ m.debt / m.period) :
    m.due = m.hz ∧ m.settle.debt = 0 := by
  refine ⟨Nat.min_eq_right h, ?_⟩
  simp [settle, h]

end Meter

/-- The cycles to run and the ticks to make that are handed out at a look at the clock. -/
structure Due where
  cycles : Nat
  ticks : Nat
  deriving DecidableEq

/-- The meters of the cycles and of the ticks, and what the clock showed last. -/
structure Pacing where
  cycles : Meter
  ticks : Meter
  last : Nat
  deriving DecidableEq

namespace Pacing

/-- Pacing that starts when the clock shows `now`, with nothing owed. -/
def start (clockHz timerHz now : Nat) : Pacing := ⟨{ hz := clockHz }, { hz := timerHz }, now⟩

/-- Looks at the clock, which may have been turned back: time between the two looks, taken `speed`
times, is owed by both meters. -/
def look (p : Pacing) (now speed : Nat) : Pacing :=
  let elapsed := (now - p.last) * speed
  ⟨p.cycles.owe elapsed, p.ticks.owe elapsed, now⟩

/-- The work that both meters hand out. -/
def due (p : Pacing) : Due := ⟨p.cycles.due, p.ticks.due⟩

/-- The pacing after it has been handed out. -/
def settle (p : Pacing) : Pacing := { p with cycles := p.cycles.settle, ticks := p.ticks.settle }

/-- Looks at the clock and hands out the work that has come due. -/
def advance (p : Pacing) (now speed : Nat) : Pacing × Due :=
  let p := p.look now speed
  (p.settle, p.due)

/-- Time until more work comes due. -/
def idle (p : Pacing) : Nat := min p.cycles.idle p.ticks.idle

end Pacing

end ChipEight
