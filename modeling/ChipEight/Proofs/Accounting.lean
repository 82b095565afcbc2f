import ChipEight.Pacing
import ChipEight.Proofs.Pixels
import Mathlib.Algebra.Ring.Nat

/-!
# What the pacing hands out

A meter below its cap loses no time: what it has handed out and what it still owes add up to the
time that it was given (`handed_conserves`), and less than a period is owed. So its totals are the
quotient and the remainder of that time by the period, however the time was cut into looks at the
clock. A look that hands out a whole second of work forgets the rest, and the count starts again.
The two meters of a `Pacing` do not know of each other.

`Pacing.strictAdvance` is a look at the clock on numbers of fixed width. Only the sums of time can
be too large for it: the quotient that is cut to 32 bits is below the cap, and no more is taken from
the time that is owed than is there.
-/

namespace ChipEight

/-- One of the two things that are paced. -/
inductive Clock where
  | cycles
  | ticks
  deriving DecidableEq

def Settings.rate (s : Settings) : Clock → Nat
  | .cycles => s.clockHz
  | .ticks => s.timerHz

theorem Settings.isRate_rate {s : Settings} (h : s.check = .ok ()) (c : Clock) :
    IsRate (s.rate c) := by
  obtain ⟨hclock, htimer⟩ := check_eq_ok_iff.mp h
  cases c with
  | cycles => exact hclock
  | ticks => exact htimer

def Due.units (d : Due) : Clock → Nat
  | .cycles => d.cycles
  | .ticks => d.ticks

/-- A look at the clock: what it shows, and how many times faster time runs. -/
structure Look where
  now : Nat
  speed : Nat
  deriving DecidableEq

namespace Look

/-- The time that each look adds to what is owed, where `last` is what the clock showed before. -/
def spans (last : Nat) : List Look → List Nat
  | [] => []
  | l :: looks => l.speed * (l.now - last) :: spans l.now looks

/-- What the clock showed last. -/
def latest (last : Nat) (looks : List Look) : Nat := (looks.getLast?.map Look.now).getD last

theorem latest_cons (last : Nat) (l : Look) (looks : List Look) :
    latest last (l :: looks) = latest l.now looks := by
  cases h : looks.getLast? <;> simp [latest, List.getLast?_cons, h]

end Look

namespace Meter

variable {m : Meter} {spans : List Nat}

/-- The meter after some spans of time have been added, one by one, and their work handed out. -/
def after (m : Meter) (spans : List Nat) : Meter :=
  spans.foldl (fun m span => (m.owe span).settle) m

/-- The units that are handed out for each span. -/
def handed (m : Meter) : List Nat → List Nat
  | [] => []
  | span :: spans => (m.owe span).due :: (m.owe span).settle.handed spans

theorem hz_after (m : Meter) (spans : List Nat) : (m.after spans).hz = m.hz := by
  induction spans generalizing m with
  | nil => rfl
  | cons span spans ih => exact ih (m.owe span).settle

theorem debt_after_lt (h : Settings.IsRate m.hz) (hd : m.debt < m.period) (spans : List Nat) :
    (m.after spans).debt < m.period := by
  induction spans generalizing m with
  | nil => exact hd
  | cons span spans ih => exact ih h (debt_settle_lt (m := m.owe span) h)

theorem due_le (m : Meter) : m.due ≤ m.hz := Nat.min_le_right ..

theorem due_eq_hz_iff (m : Meter) : m.due = m.hz ↔ m.hz ≤ m.debt / m.period := by
  unfold due
  omega

theorem handed_conserves (h : ∀ units ∈ m.handed spans, units ≠ m.hz) :
    (m.handed spans).sum * m.period + (m.after spans).debt = m.debt + spans.sum := by
  induction spans generalizing m with
  | nil => simp [handed, after]
  | cons span spans ih =>
    have hfirst : (m.owe span).due ≠ m.hz := h _ List.mem_cons_self
    have hrest := ih (m := (m.owe span).settle) fun units hu => h units (List.mem_cons_of_mem _ hu)
    have hcap : (m.owe span).debt / (m.owe span).period < (m.owe span).hz := by
      rw [← Nat.not_le, ← due_eq_hz_iff]
      exact hfirst
    have hstep := due_mul_period_add_debt (m.owe span) hcap
    have hperiod : (m.owe span).settle.period = m.period := rfl
    have hperiod' : (m.owe span).period = m.period := rfl
    have howed : (m.owe span).debt = m.debt + span := rfl
    rw [hperiod] at hrest
    rw [hperiod', howed] at hstep
    show ((m.owe span).due + ((m.owe span).settle.handed spans).sum) * m.period +
      ((m.owe span).settle.after spans).debt = m.debt + (span + spans.sum)
    rw [Nat.add_mul]
    omega

/-- Below the cap, the totals are the quotient and the remainder of the time. -/
theorem handed_eq_div (hz : Settings.IsRate m.hz) (hd : m.debt = 0)
    (h : ∀ units ∈ m.handed spans, units ≠ m.hz) :
    (m.handed spans).sum = spans.sum / m.period ∧ (m.after spans).debt = spans.sum % m.period := by
  have hp := period_pos hz
  have hlt : (m.after spans).debt < m.period := debt_after_lt hz (by omega) spans
  have hsum := handed_conserves h
  rw [hd, Nat.zero_add, Nat.mul_comm, Nat.add_comm] at hsum
  obtain ⟨hdiv, hmod⟩ := (Nat.div_mod_unique hp).mpr ⟨hsum, hlt⟩
  exact ⟨hdiv.symm, hmod.symm⟩

end Meter

namespace Pacing

variable {p : Pacing} {looks : List Look}

def meter (p : Pacing) : Clock → Meter
  | .cycles => p.cycles
  | .ticks => p.ticks

theorem meter_start (s : Settings) (now : Nat) (c : Clock) :
    (start s.clockHz s.timerHz now).meter c = { hz := s.rate c } := by
  cases c <;> rfl

/-- The pacing after some looks at the clock. -/
def after (p : Pacing) (looks : List Look) : Pacing :=
  looks.foldl (fun p l => (p.advance l.now l.speed).1) p

/-- The work that is handed out at each look. -/
def handed (p : Pacing) : List Look → List Due
  | [] => []
  | l :: looks => (p.advance l.now l.speed).2 :: (p.advance l.now l.speed).1.handed looks

theorem last_after (p : Pacing) (looks : List Look) :
    (p.after looks).last = Look.latest p.last looks := by
  induction looks generalizing p with
  | nil => rfl
  | cons l looks ih =>
    rw [Look.latest_cons]
    exact ih (p.advance l.now l.speed).1

theorem meter_advance (p : Pacing) (l : Look) (c : Clock) :
    ((p.advance l.now l.speed).1.meter c) = ((p.meter c).owe (l.speed * (l.now - p.last))).settle ∧
    (p.advance l.now l.speed).2.units c = ((p.meter c).owe (l.speed * (l.now - p.last))).due := by
  rw [Nat.mul_comm]
  cases c <;> exact ⟨rfl, rfl⟩

theorem meter_after (p : Pacing) (looks : List Look) (c : Clock) :
    (p.after looks).meter c = (p.meter c).after (Look.spans p.last looks) ∧
    (p.handed looks).map (·.units c) = (p.meter c).handed (Look.spans p.last looks) := by
  induction looks generalizing p with
  | nil => exact ⟨rfl, rfl⟩
  | cons l looks ih =>
    obtain ⟨hmeter, hunits⟩ := p.meter_advance l c
    obtain ⟨ihm, ihu⟩ := ih (p.advance l.now l.speed).1
    rw [hmeter] at ihm ihu
    refine ⟨ihm, ?_⟩
    rw [handed, List.map_cons, hunits, ihu]
    rfl

end Pacing

/-! ### Fixed width -/

/-- A span of time has fewer nanoseconds than this: seconds are counted in 64 bits. -/
def durationLimit : Nat := 2 ^ 64 * nanosPerSecond

/-- A quotient, if the divisor is not zero. -/
def quotient? (a b : Nat) : Option Nat := if b = 0 then none else some (a / b)

theorem quotient?_of_pos {a b : Nat} (h : 0 < b) : quotient? a b = some (a / b) :=
  if_neg (Nat.ne_of_gt h)

namespace Meter

variable {m : Meter}

/-- Time passes, if it can be counted together with what is owed. -/
def strictOwe (m : Meter) (elapsed : Nat) : Option Meter := do
  return { m with debt := ← fits? durationLimit (m.debt + elapsed) }

/-- Hands out work. Below the cap the quotient is cut to 32 bits. -/
def strictTake (m : Meter) : Option (Meter × Nat) := do
  let whole ← quotient? m.debt m.period
  if m.hz ≤ whole then return ({ m with debt := 0 }, m.hz)
  let units := whole % UInt32.size
  let spent ← fits? durationLimit (m.period * units)
  let debt ← minus? m.debt spent
  return ({ m with debt }, units)

theorem strictOwe_eq {elapsed : Nat} (h : m.debt + elapsed < durationLimit) :
    m.strictOwe elapsed = some (m.owe elapsed) := by
  rw [strictOwe, fits?_of_lt h]
  rfl

theorem strictTake_eq (h : Settings.IsRate m.hz) (hd : m.debt < durationLimit) :
    m.strictTake = some (m.settle, m.due) := by
  have hp := period_pos h
  have hcount := Nat.div_add_mod m.debt m.period
  rw [strictTake, quotient?_of_pos hp]
  show (if m.hz ≤ m.debt / m.period then _ else _ : Option (Meter × Nat)) = _
  split
  · next hcap => rw [settle, due, if_pos hcap, Nat.min_eq_right hcap]; rfl
  · next hcap =>
    have hsmall : m.debt / m.period % UInt32.size = m.debt / m.period := by
      apply Nat.mod_eq_of_lt
      have hmax : m.hz ≤ 1000000000 := h.2
      have hsize : UInt32.size = 4294967296 := rfl
      omega
    have hmod : m.debt - m.period * (m.debt / m.period) = m.debt % m.period := by omega
    rw [hsmall, fits?_of_lt (by omega), settle, due, if_neg hcap,
      Nat.min_eq_left (Nat.le_of_not_le hcap), ← hmod]
    show (minus? m.debt (m.period * (m.debt / m.period))).bind _ = _
    rw [minus?_of_le (by omega)]
    rfl

end Meter

namespace Pacing

/-- A look at the clock, if the time that it adds to what is owed can be counted. -/
def strictAdvance (p : Pacing) (l : Look) : Option (Pacing × Due) := do
  let elapsed ← fits? durationLimit (l.speed * (l.now - p.last))
  let cycles ← p.cycles.strictOwe elapsed
  let ticks ← p.ticks.strictOwe elapsed
  let (cycles, cycleUnits) ← cycles.strictTake
  let (ticks, tickUnits) ← ticks.strictTake
  return (⟨cycles, ticks, l.now⟩, ⟨cycleUnits, tickUnits⟩)

def strictHanded (p : Pacing) : List Look → Option (Pacing × List Due)
  | [] => some (p, [])
  | l :: looks => do
    let (p, due) ← p.strictAdvance l
    let (p, dues) ← p.strictHanded looks
    return (p, due :: dues)

/-- Whether the time that the looks add to what is owed can be counted at each of them. -/
def CanCount (p : Pacing) : List Look → Prop
  | [] => True
  | l :: looks => (∀ c, (p.meter c).debt + l.speed * (l.now - p.last) < durationLimit) ∧
      (p.advance l.now l.speed).1.CanCount looks

variable {p : Pacing} {l : Look} {looks : List Look}

theorem strictAdvance_eq (h : ∀ c, Settings.IsRate (p.meter c).hz)
    (hl : ∀ c, (p.meter c).debt + l.speed * (l.now - p.last) < durationLimit) :
    p.strictAdvance l = some (p.advance l.now l.speed) := by
  have hcycles : p.cycles.debt + l.speed * (l.now - p.last) < durationLimit := hl .cycles
  have hticks : p.ticks.debt + l.speed * (l.now - p.last) < durationLimit := hl .ticks
  have helapsed : l.speed * (l.now - p.last) < durationLimit := by omega
  have hrate : Settings.IsRate (p.cycles.owe (l.speed * (l.now - p.last))).hz := h .cycles
  have hrate' : Settings.IsRate (p.ticks.owe (l.speed * (l.now - p.last))).hz := h .ticks
  rw [advance, look, Nat.mul_comm]
  simp only [strictAdvance, fits?_of_lt helapsed, Meter.strictOwe_eq hcycles,
    Meter.strictOwe_eq hticks, Meter.strictTake_eq hrate hcycles, Meter.strictTake_eq hrate' hticks,
    Option.bind_eq_bind, Option.bind_some]
  rfl

/-- If all sums of time can be counted, nothing else goes wrong. -/
theorem strictHanded_eq (h : ∀ c, Settings.IsRate (p.meter c).hz) (hl : p.CanCount looks) :
    p.strictHanded looks = some (p.after looks, p.handed looks) := by
  induction looks generalizing p with
  | nil => rfl
  | cons l looks ih =>
    obtain ⟨hfirst, hrest⟩ := hl
    have hrate : ∀ c, Settings.IsRate ((p.advance l.now l.speed).1.meter c).hz := by
      intro c
      rw [(p.meter_advance l c).1]
      exact h c
    rw [strictHanded, strictAdvance_eq h hfirst]
    show ((p.advance l.now l.speed).1.strictHanded looks).bind _ = _
    rw [ih hrate hrest]
    rfl

end Pacing

/-! ### The law -/

namespace Pacing

variable {p : Pacing} {c : Clock}

theorem after_append (p : Pacing) (looks looks' : List Look) :
    p.after (looks ++ looks') = (p.after looks).after looks' := List.foldl_append

theorem handed_append (p : Pacing) (looks looks' : List Look) :
    p.handed (looks ++ looks') = p.handed looks ++ (p.after looks).handed looks' := by
  induction looks generalizing p with
  | nil => rfl
  | cons l looks ih => exact congrArg _ (ih (p.advance l.now l.speed).1)

theorem advance_exact (h : Settings.IsRate (p.meter c).hz) (l : Look) :
    let due := (p.advance l.now l.speed).2
    let debt := ((p.advance l.now l.speed).1.meter c).debt
    debt < (p.meter c).period ∧ due.units c ≤ (p.meter c).hz ∧
      (due.units c = (p.meter c).hz ↔
        (p.meter c).hz ≤ ((p.meter c).debt + l.speed * (l.now - p.last)) / (p.meter c).period) ∧
      (due.units c = (p.meter c).hz → debt = 0) := by
  intro due debt
  obtain ⟨hmeter, hunits⟩ := p.meter_advance l c
  let m := (p.meter c).owe (l.speed * (l.now - p.last))
  have hdue : due.units c = m.due := hunits
  have hdebt : debt = m.settle.debt := congrArg Meter.debt hmeter
  rw [hdue, hdebt]
  refine ⟨Meter.debt_settle_lt (m := m) h, m.due_le, m.due_eq_hz_iff, fun hcap => ?_⟩
  exact (Meter.due_of_cap m (m.due_eq_hz_iff.mp hcap)).2

theorem handed_exact (h : Settings.IsRate (p.meter c).hz) (hd : (p.meter c).debt = 0)
    (looks : List Look) (hu : ∀ due ∈ p.handed looks, due.units c ≠ (p.meter c).hz) :
    let credited := (Look.spans p.last looks).sum
    ((p.handed looks).map (·.units c)).sum = credited / (p.meter c).period ∧
      ((p.after looks).meter c).debt = credited % (p.meter c).period := by
  obtain ⟨hmeter, hunits⟩ := p.meter_after looks c
  rw [hmeter, hunits]
  refine Meter.handed_eq_div h hd fun units hunit => ?_
  rw [← hunits] at hunit
  obtain ⟨due, hdue, rfl⟩ := List.mem_map.mp hunit
  exact hu due hdue

theorem hz_after (p : Pacing) (looks : List Look) (c : Clock) :
    ((p.after looks).meter c).hz = (p.meter c).hz := by
  rw [(p.meter_after looks c).1, Meter.hz_after]

theorem debt_after_of_cap (h : Settings.IsRate (p.meter c).hz) {looks : List Look}
    (hcap : (p.handed looks).getLast?.map (·.units c) = some (p.meter c).hz) :
    ((p.after looks).meter c).debt = 0 := by
  rcases List.eq_nil_or_concat looks with rfl | ⟨before, l, rfl⟩
  · cases hcap
  · rw [List.concat_eq_append, handed_append, handed, handed, List.getLast?_concat,
      Option.map_some, ← hz_after p before c] at hcap
    rw [List.concat_eq_append, after_append]
    rw [← hz_after p before c] at h
    exact (advance_exact h l).2.2.2 (Option.some.inj hcap)

/-- **Pacing is exact and does not depend on how time is looked at.** For settings that are accepted
and each of the two clocks: the period is not zero, and as long as the sums of time can be counted
nothing goes wrong on numbers of fixed width. Behind every look less than a period is owed, and it
hands out a second of work at most; if it does, nothing is owed. From the start and from every such
look on, up to the next one, all that is handed out and what is still owed are the quotient and the
remainder of the time that has been credited since by the period. -/
theorem accounting_exact {s : Settings} (hs : s.check = .ok ()) (t₀ : Nat) (c : Clock) :
    let hz := s.rate c
    let P := nanosPerSecond / hz
    let p := start s.clockHz s.timerHz t₀
    0 < P ∧
    (∀ looks, p.CanCount looks → p.strictHanded looks = some (p.after looks, p.handed looks)) ∧
    (∀ before l,
      let owed := ((p.after before).meter c).debt + l.speed * (l.now - Look.latest t₀ before)
      let due := ((p.after before).advance l.now l.speed).2
      let debt := ((p.after (before ++ [l])).meter c).debt
      debt < P ∧ due.units c ≤ hz ∧ (due.units c = hz ↔ hz ≤ owed / P) ∧
        (due.units c = hz → debt = 0)) ∧
    (∀ before counted,
      (before = [] ∨ (p.handed before).getLast?.map (·.units c) = some hz) →
      (∀ due ∈ (p.after before).handed counted, due.units c ≠ hz) →
      let credited := (Look.spans (Look.latest t₀ before) counted).sum
      (((p.after before).handed counted).map (·.units c)).sum = credited / P ∧
        ((p.after (before ++ counted)).meter c).debt = credited % P) ∧
    (∀ looks looks',
      (∀ due ∈ p.handed looks, due.units c ≠ hz) → (∀ due ∈ p.handed looks', due.units c ≠ hz) →
      (Look.spans t₀ looks).sum = (Look.spans t₀ looks').sum →
      ((p.handed looks).map (·.units c)).sum = ((p.handed looks').map (·.units c)).sum) := by
  intro hz P p
  have hstart : p.meter c = { hz } := meter_start s t₀ c
  have hrates : ∀ c, Settings.IsRate (p.meter c).hz := by
    intro c
    rw [meter_start]
    exact s.isRate_rate hs c
  have hhz : ∀ looks, ((p.after looks).meter c).hz = hz := by
    intro looks
    rw [hz_after, hstart]
  have hrate : ∀ looks, Settings.IsRate ((p.after looks).meter c).hz := by
    intro looks
    rw [hz_after]
    exact hrates c
  have hperiod : ∀ looks, ((p.after looks).meter c).period = P := by
    intro looks
    rw [Meter.period, Nat.max_eq_left (hrate looks).1, hhz]
  have hlaw : ∀ before counted,
      (before = [] ∨ (p.handed before).getLast?.map (·.units c) = some hz) →
      (∀ due ∈ (p.after before).handed counted, due.units c ≠ hz) →
      (((p.after before).handed counted).map (·.units c)).sum =
          (Look.spans (Look.latest t₀ before) counted).sum / P ∧
        ((p.after (before ++ counted)).meter c).debt =
          (Look.spans (Look.latest t₀ before) counted).sum % P := by
    intro before counted hbefore hcounted
    have hdebt : ((p.after before).meter c).debt = 0 := by
      rcases hbefore with rfl | hcap
      · show (p.meter c).debt = 0
        rw [hstart]
      · refine debt_after_of_cap (hrates c) ?_
        rw [hstart]
        exact hcap
    have hexact := handed_exact (hrate before) hdebt counted (by rwa [hhz])
    rw [hperiod, last_after, ← after_append] at hexact
    exact hexact
  refine ⟨hperiod [] ▸ Meter.period_pos (hrate []), fun looks hl => strictHanded_eq hrates hl, ?_,
    hlaw, ?_⟩
  · intro before l
    have hexact := advance_exact (hrate before) l
    rw [hperiod, hhz, last_after] at hexact
    rw [after_append]
    exact hexact
  · intro looks looks' hu hu' hsame
    have hlooks := (hlaw [] looks (.inl rfl) hu).1
    have hlooks' := (hlaw [] looks' (.inl rfl) hu').1
    exact hlooks.trans ((congrArg (· / P) hsame).trans hlooks'.symm)

/-- At three cycles a second, 0.8 seconds that are credited in three looks come to two cycles; the
second look finds the clock turned back. -/
theorem accounting_exact_three_looks :
    let p := start 3 60 0
    let looks := [⟨100000000, 1⟩, ⟨50000000, 1⟩, ⟨400000000, 2⟩]
    ((p.handed looks).map (·.units .cycles)).sum = 2 ∧
      ((p.after looks).meter .cycles).debt = 133333334 := by
  intro p looks
  have hs : ({ clockHz := 3 } : Settings).check = .ok () := rfl
  obtain ⟨_, _, _, hlaw, _⟩ := accounting_exact hs 0 .cycles
  obtain ⟨hsum, hdebt⟩ := hlaw [] looks (.inl rfl) (by decide)
  exact ⟨hsum.trans (by decide), hdebt.trans (by decide)⟩

end Pacing

end ChipEight
