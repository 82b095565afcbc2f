import ChipEight.Proofs.FastForward
import Mathlib.Algebra.Order.Field.Basic
import Mathlib.Algebra.Order.Field.Rat
import Mathlib.Tactic.FieldSimp
import Mathlib.Tactic.Linarith
import Mathlib.Tactic.Positivity
import Mathlib.Tactic.Ring

/-!
# How far pacing drifts from its rate

A period is a whole number of nanoseconds, so it is short by a fraction of one at a rate that does
not divide a second, and the units come a little early. What this adds up to is `Pacing.drift`, the
units handed out less what the rate promises for the time that has passed. On a clock that is not
turned back, at normal speed and below the cap, it is known exactly (`drift_eq`): it is never a unit
behind, and it comes to a unit ahead only in the long run, but there at every such rate
(`drift_exact`).
-/

namespace ChipEight

theorem whole_periods_sub_rate {second hz : ℕ} (hhz : 0 < hz) (hle : hz ≤ second) (time : ℕ) :
    ((time / (second / hz) : ℕ) : ℚ) - time * hz / second =
      time * (second % hz : ℕ) / (second * (second / hz : ℕ)) -
        (time % (second / hz) : ℕ) / (second / hz : ℕ) := by
  have hperiod : 0 < second / hz := Nat.div_pos hle hhz
  have hsecond : ((second : ℕ) : ℚ) = hz * (second / hz : ℕ) + (second % hz : ℕ) := by
    exact_mod_cast (Nat.div_add_mod second hz).symm
  have htime : ((time : ℕ) : ℚ) =
      (second / hz : ℕ) * (time / (second / hz) : ℕ) + (time % (second / hz) : ℕ) := by
    exact_mod_cast (Nat.div_add_mod time (second / hz)).symm
  have hperiod' : ((second / hz : ℕ) : ℚ) ≠ 0 := Nat.cast_ne_zero.mpr (by omega)
  have hsecond' : ((second : ℕ) : ℚ) ≠ 0 := Nat.cast_ne_zero.mpr (by omega)
  generalize ((second / hz : ℕ) : ℚ) = P at *
  field_simp
  rw [hsecond, htime]
  ring

namespace Look

/-- Looks at a clock that is not turned back, while time runs at normal speed. -/
def Steady (last : Nat) : List Look → Prop
  | [] => True
  | l :: looks => l.speed = 1 ∧ last ≤ l.now ∧ Steady l.now looks

variable {last : Nat} {looks : List Look}

theorem Steady.le_latest (h : Steady last looks) : last ≤ latest last looks := by
  induction looks generalizing last with
  | nil => exact Nat.le_refl last
  | cons l looks ih =>
    obtain ⟨-, hle, hrest⟩ := h
    rw [latest_cons]
    exact Nat.le_trans hle (ih hrest)

theorem Steady.sum_spans (h : Steady last looks) :
    (spans last looks).sum = latest last looks - last := by
  induction looks generalizing last with
  | nil => exact (Nat.sub_self last).symm
  | cons l looks ih =>
    obtain ⟨hspeed, hle, hrest⟩ := h
    have hlatest := hrest.le_latest
    rw [spans, List.sum_cons, ih hrest, hspeed, latest_cons, Nat.one_mul]
    omega

/-- Looks that come at equal intervals. -/
def regular (interval : Nat) : Nat → Nat → List Look
  | _, 0 => []
  | last, n + 1 => ⟨last + interval, 1⟩ :: regular interval (last + interval) n

theorem steady_regular (interval last n : Nat) : Steady last (regular interval last n) := by
  induction n generalizing last with
  | zero => trivial
  | succ n ih => exact ⟨rfl, Nat.le_add_right .., ih _⟩

theorem latest_regular (interval last n : Nat) :
    latest last (regular interval last n) = last + n * interval := by
  induction n generalizing last with
  | zero => exact (congrArg (last + ·) (Nat.zero_mul interval)).symm
  | succ n ih =>
    rw [regular, latest_cons, ih, Nat.succ_mul, ← Nat.add_assoc]
    exact Nat.add_right_comm last interval (n * interval)

theorem spans_regular (interval last n : Nat) :
    spans last (regular interval last n) = .replicate n interval := by
  induction n generalizing last with
  | zero => rfl
  | succ n ih => rw [regular, spans, ih, Nat.one_mul, Nat.add_sub_cancel_left, List.replicate_succ]

end Look

namespace Meter

variable {m : Meter}

theorem handed_replicate_period (h : 1 < m.hz) (hp : 0 < m.period) (hd : m.debt = 0) (n : Nat) :
    m.handed (.replicate n m.period) = .replicate n 1 := by
  have howed : (m.owe m.period).debt / (m.owe m.period).period = 1 := by
    show (m.debt + m.period) / m.period = 1
    rw [hd, Nat.zero_add, Nat.div_self hp]
  have hdue : (m.owe m.period).due = 1 := by
    rw [due, howed]
    exact Nat.min_eq_left (Nat.le_of_lt h)
  have hsettled : (m.owe m.period).settle = m := by
    have hmod : (m.owe m.period).debt % (m.owe m.period).period = m.debt := by
      show (m.debt + m.period) % m.period = m.debt
      rw [hd, Nat.zero_add, Nat.mod_self]
    have hcap : ¬(m.owe m.period).hz ≤ 1 := Nat.not_le.mpr h
    rw [settle, howed, if_neg hcap, hmod]
    rfl
  induction n with
  | zero => rfl
  | succ n ih => rw [List.replicate_succ, handed, hdue, hsettled, ih, List.replicate_succ]

end Meter

namespace Pacing

/-- How many units of a clock the looks hand out more than its rate promises for the time they
take. -/
def drift (p : Pacing) (c : Clock) (looks : List Look) : ℚ :=
  ((p.handed looks).map (·.units c)).sum -
    (Look.latest p.last looks - p.last : ℕ) * (p.meter c).hz / nanosPerSecond

variable {s : Settings} {c : Clock} {looks : List Look}

/-- Below the cap the drift is what the truncated periods add up to, less the part of a period that
is still owed. -/
theorem drift_eq (hs : s.check = .ok ()) {t₀ : Nat} (hlooks : Look.Steady t₀ looks)
    (hcap : ∀ due ∈ (start s.clockHz s.timerHz t₀).handed looks, due.units c ≠ s.rate c) :
    let time := Look.latest t₀ looks - t₀
    let period := nanosPerSecond / s.rate c
    (start s.clockHz s.timerHz t₀).drift c looks =
      time * (nanosPerSecond % s.rate c : ℕ) / (nanosPerSecond * period) -
        (time % period : ℕ) / period := by
  intro time period
  have hstart := meter_start s t₀ c
  have hrate := s.isRate_rate hs c
  have hhz : ((start s.clockHz s.timerHz t₀).meter c).hz = s.rate c := by rw [hstart]
  have hdebt : ((start s.clockHz s.timerHz t₀).meter c).debt = 0 := by rw [hstart]
  have hunits := (handed_exact (hhz ▸ hrate) hdebt looks (by rwa [hhz])).1
  have hperiod := Meter.period_of_rate hs hhz
  have hspans : (Look.spans t₀ looks).sum = time := hlooks.sum_spans
  have hlast : (start s.clockHz s.timerHz t₀).last = t₀ := rfl
  rw [hlast, hspans, hperiod] at hunits
  rw [drift, hunits, hhz, hlast]
  exact whole_periods_sub_rate hrate.1 hrate.2 time

/-- At a rate that does not divide a second, looks once a period get ahead of it in the long run. -/
theorem exists_drift_ge_one (hs : s.check = .ok ()) (hrate : ¬s.rate c ∣ nanosPerSecond) (t₀ : Nat) :
    ∃ looks, Look.Steady t₀ looks ∧
      (∀ due ∈ (start s.clockHz s.timerHz t₀).handed looks, due.units c ≠ s.rate c) ∧
      1 ≤ (start s.clockHz s.timerHz t₀).drift c looks := by
  obtain ⟨hpos, hmax⟩ := s.isRate_rate hs c
  have hone : 1 < s.rate c := by
    have hne : s.rate c ≠ 1 := fun h => hrate (h ▸ Nat.one_dvd _)
    omega
  have hstart := meter_start s t₀ c
  have hperiod : (Meter.mk (s.rate c) 0).period = nanosPerSecond / s.rate c :=
    Meter.period_of_rate hs rfl
  have hperiod_pos : 0 < nanosPerSecond / s.rate c := Nat.div_pos hmax hpos
  -- one look a period, and as many as a second has nanoseconds: by then every nanosecond that a
  -- second leaves over has become a whole period
  let looks := Look.regular (nanosPerSecond / s.rate c) t₀ nanosPerSecond
  have hsteady : Look.Steady t₀ looks := Look.steady_regular ..
  have hunits : ((start s.clockHz s.timerHz t₀).handed looks).map (·.units c) =
      .replicate nanosPerSecond 1 := by
    have hspans : Look.spans (start s.clockHz s.timerHz t₀).last looks =
        .replicate nanosPerSecond (Meter.mk (s.rate c) 0).period := by
      rw [hperiod]
      exact Look.spans_regular ..
    rw [(meter_after _ looks c).2, hstart, hspans]
    exact Meter.handed_replicate_period hone (hperiod ▸ hperiod_pos) rfl _
  have hcap : ∀ due ∈ (start s.clockHz s.timerHz t₀).handed looks, due.units c ≠ s.rate c := by
    intro due hdue
    have hmem := List.mem_map_of_mem (f := (·.units c)) hdue
    rw [hunits] at hmem
    rw [List.eq_of_mem_replicate hmem]
    omega
  have htime : Look.latest t₀ looks - t₀ = nanosPerSecond * (nanosPerSecond / s.rate c) := by
    rw [Look.latest_regular]
    omega
  have hsurplus : 1 ≤ nanosPerSecond % s.rate c :=
    Nat.pos_of_ne_zero fun h => hrate (Nat.dvd_of_mod_eq_zero h)
  refine ⟨looks, hsteady, hcap, ?_⟩
  have hperiod' : ((nanosPerSecond / s.rate c : ℕ) : ℚ) ≠ 0 := Nat.cast_ne_zero.mpr (by omega)
  have hsecond : ((nanosPerSecond : ℕ) : ℚ) ≠ 0 := Nat.cast_ne_zero.mpr (by decide)
  rw [drift_eq hs hsteady hcap, htime, Nat.mul_mod_left, Nat.cast_zero, zero_div, sub_zero,
    Nat.cast_mul, mul_div_cancel_left₀ _ (mul_ne_zero hsecond hperiod')]
  exact_mod_cast hsurplus

/-- **Pacing keeps to its rate as far as whole nanoseconds allow.** For settings that are accepted
and each of the two clocks, let looks at normal speed at a clock that is not turned back all stay
below the cap. The units that they hand out are never one short of the rate times the time that has
passed, and they are less than one ahead of it as long as the rest of a second that whole periods
leave over, counted once a period, has not added up to a period more than is owed. At a rate that
divides a second nothing is left over; at any other the units get one ahead in the long run. -/
theorem drift_exact (hs : s.check = .ok ()) (t₀ : Nat) (c : Clock) :
    let p := start s.clockHz s.timerHz t₀
    let period := nanosPerSecond / s.rate c
    let surplus := nanosPerSecond % s.rate c
    (∀ looks, Look.Steady t₀ looks → (∀ due ∈ p.handed looks, due.units c ≠ s.rate c) →
      let time := Look.latest t₀ looks - t₀
      p.drift c looks = time * surplus / (nanosPerSecond * period) - (time % period : ℕ) / period ∧
      -1 < p.drift c looks ∧
      (|p.drift c looks| < 1 ↔ time * surplus < nanosPerSecond * (period + time % period)) ∧
      (s.rate c ∣ nanosPerSecond → |p.drift c looks| < 1)) ∧
    (¬s.rate c ∣ nanosPerSecond → ∃ looks, Look.Steady t₀ looks ∧
      (∀ due ∈ p.handed looks, due.units c ≠ s.rate c) ∧ 1 ≤ p.drift c looks) := by
  intro p period surplus
  obtain ⟨hpos, hmax⟩ := s.isRate_rate hs c
  have hperiod : 0 < period := Nat.div_pos hmax hpos
  have hperiod' : (0 : ℚ) < period := Nat.cast_pos.mpr hperiod
  have hsecond : (0 : ℚ) < nanosPerSecond := Nat.cast_pos.mpr (by decide)
  refine ⟨fun looks hlooks hcap => ?_, fun hrate => exists_drift_ge_one hs hrate t₀⟩
  intro time
  have hdrift : p.drift c looks = time * surplus / (nanosPerSecond * period) -
    (time % period : ℕ) / period := drift_eq hs hlooks hcap
  have howed : ((time % period : ℕ) : ℚ) / period < 1 := by
    rw [div_lt_one hperiod', Nat.cast_lt]
    exact Nat.mod_lt _ hperiod
  have hahead : (0 : ℚ) ≤ time * surplus / (nanosPerSecond * period) := by positivity
  have hbehind : -1 < p.drift c looks := by
    rw [hdrift]
    linarith
  have hiff : |p.drift c looks| < 1 ↔
      time * surplus < nanosPerSecond * (period + time % period) := by
    have hscaled : (1 + ((time % period : ℕ) : ℚ) / period) * (nanosPerSecond * period) =
        nanosPerSecond * (period + (time % period : ℕ)) := by
      field_simp
    rw [abs_lt, and_iff_right hbehind, hdrift, sub_lt_iff_lt_add, div_lt_iff₀ (by positivity),
      hscaled]
    exact_mod_cast Iff.rfl
  refine ⟨hdrift, hbehind, hiff, fun hdvd => hiff.mpr ?_⟩
  have hsurplus : surplus = 0 := Nat.mod_eq_zero_of_dvd hdvd
  rw [hsurplus, Nat.mul_zero]
  have : 0 < nanosPerSecond := by decide
  positivity

/-- Half a second at sixty ticks a second: the ticks are less than one away from thirty, but looks
that go on for longer get one ahead. -/
theorem drift_exact_at_sixty :
    let p := start 60 60 0
    |p.drift .ticks [⟨500000000, 1⟩]| < 1 ∧
      ∃ looks, Look.Steady 0 looks ∧ (∀ due ∈ p.handed looks, due.units .ticks ≠ 60) ∧
        1 ≤ p.drift .ticks looks := by
  obtain ⟨hlaw, huneven⟩ := drift_exact (s := {}) rfl 0 .ticks
  obtain ⟨-, -, hiff, -⟩ := hlaw [⟨500000000, 1⟩] ⟨rfl, by decide, trivial⟩ (by decide)
  exact ⟨hiff.mpr (by decide), huneven (by decide)⟩

/-- At 600000000 cycles a second a period is one nanosecond and not one and two thirds: five
nanoseconds bring five cycles where the rate promises three. -/
theorem drift_two_in_five_nanoseconds :
    let s : Settings := { clockHz := 600000000 }
    let p := start s.clockHz s.timerHz 0
    let looks := [⟨5, 1⟩]
    s.check = .ok () ∧ Look.Steady 0 looks ∧
      (∀ due ∈ p.handed looks, due.units .cycles ≠ s.rate .cycles) ∧
      p.drift .cycles looks = 2 ∧ ¬|p.drift .cycles looks| < 1 := by
  intro s p looks
  have hunits : ((p.handed looks).map (·.units .cycles)).sum = 5 := by decide
  have hdrift : p.drift .cycles looks = 2 := by
    have htime : Look.latest p.last looks - p.last = 5 := rfl
    have hrate : (p.meter .cycles).hz = 600000000 := rfl
    rw [drift, hunits, htime, hrate, nanosPerSecond]
    norm_num
  refine ⟨rfl, ⟨rfl, by decide, trivial⟩, by decide, hdrift, ?_⟩
  rw [hdrift]
  norm_num

end Pacing

end ChipEight
