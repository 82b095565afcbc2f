import ChipEight.Proofs.FastForward

/-!
# The idle time is the time to the next unit of work

A meter that owes less than a period hands a unit out once the rest of the period has passed, and
none before (`due_owe_pos_iff`). Every look at the clock leaves less than a period owed, whatever
the clock showed and however fast time ran, also where the cap made it forget something (`Ready`).
So the shorter of the two rests is the time until a look has something to hand out (`idle_exact`).
-/

namespace ChipEight

namespace Meter

variable {m : Meter}

theorem due_owe_pos_iff (h : Settings.IsRate m.hz) (hd : m.debt < m.period) (d : Nat) :
    0 < (m.owe d).due ↔ m.idle ≤ d := by
  have hhz : 0 < m.hz := h.1
  have hp : 0 < m.period := period_pos h
  rw [due_owe, Nat.lt_min, and_iff_left hhz, Nat.div_pos_iff, and_iff_right hp, idle]
  omega

theorem due_owe_le_one {d : Nat} (hd : m.debt < m.period) (h : d ≤ m.idle) :
    (m.owe d).due ≤ 1 := by
  have hle : m.debt + d ≤ m.period * 1 := by
    rw [idle] at h
    omega
  rw [due_owe]
  exact Nat.le_trans (Nat.min_le_left ..) (Nat.div_le_of_le_mul hle)

theorem period_le (m : Meter) : m.period ≤ nanosPerSecond := Nat.div_le_self ..

end Meter

namespace Pacing

/-- What every look at the clock leaves behind: two meters that owe less than a period each. -/
structure Ready (p : Pacing) : Prop where
  rate : ∀ c, Settings.IsRate (p.meter c).hz
  debt : ∀ c, (p.meter c).debt < (p.meter c).period

variable {p : Pacing}

theorem Ready.start {s : Settings} (hs : s.check = .ok ()) (t₀ : Nat) :
    (start s.clockHz s.timerHz t₀).Ready := by
  have hrate : ∀ c, Settings.IsRate ((Pacing.start s.clockHz s.timerHz t₀).meter c).hz := by
    intro c
    rw [meter_start]
    exact s.isRate_rate hs c
  refine ⟨hrate, fun c => ?_⟩
  have hp := Meter.period_pos (hrate c)
  rw [meter_start] at hp ⊢
  exact hp

theorem Ready.after (h : p.Ready) (looks : List Look) : (p.after looks).Ready := by
  refine ⟨fun c => ?_, fun c => ?_⟩
  · rw [hz_after]
    exact h.rate c
  · have hlt := Meter.debt_after_lt (h.rate c) (h.debt c) (Look.spans p.last looks)
    have hperiod : ((p.after looks).meter c).period = (p.meter c).period := by
      rw [Meter.period, hz_after, ← Meter.period]
    rw [hperiod, (p.meter_after looks c).1]
    exact hlt

theorem Ready.idle_pos (h : p.Ready) : 0 < p.idle := by
  obtain ⟨c, hc⟩ := p.exists_idle_eq
  rw [hc]
  exact Nat.sub_pos_of_lt (h.debt c)

theorem units_advance (p : Pacing) (d : Nat) (c : Clock) :
    (p.advance (p.last + d) 1).2.units c = ((p.meter c).owe d).due := by
  have hspan : 1 * (p.last + d - p.last) = d := by omega
  rw [(p.meter_advance ⟨p.last + d, 1⟩ c).2, hspan]

theorem Ready.units_pos_iff (h : p.Ready) (d : Nat) (c : Clock) :
    0 < (p.advance (p.last + d) 1).2.units c ↔ (p.meter c).idle ≤ d := by
  rw [units_advance]
  exact Meter.due_owe_pos_iff (h.rate c) (h.debt c) d

theorem Ready.units_le_one (h : p.Ready) {d : Nat} (hd : d ≤ p.idle) (c : Clock) :
    (p.advance (p.last + d) 1).2.units c ≤ 1 := by
  rw [units_advance]
  exact Meter.due_owe_le_one (h.debt c) (Nat.le_trans hd (p.idle_le c))

/-- A look hands something out if and only if the idle time has passed. -/
theorem Ready.exists_units_pos_iff (h : p.Ready) (d : Nat) :
    (∃ c, 0 < (p.advance (p.last + d) 1).2.units c) ↔ p.idle ≤ d := by
  simp only [h.units_pos_iff]
  constructor
  · rintro ⟨c, hc⟩
    exact Nat.le_trans (p.idle_le c) hc
  · intro hle
    obtain ⟨c, hc⟩ := p.exists_idle_eq
    exact ⟨c, hc ▸ hle⟩

theorem Ready.strictAdvance_eq (h : p.Ready) {d : Nat} (hd : d ≤ p.idle) :
    p.strictAdvance ⟨p.last + d, 1⟩ = some (p.advance (p.last + d) 1) := by
  refine Pacing.strictAdvance_eq h.rate fun c => ?_
  have hperiod := (p.meter c).period_le
  have hidle := Nat.le_trans hd (p.idle_le c)
  have hdebt := h.debt c
  have hlimit : nanosPerSecond < durationLimit := by decide
  rw [Meter.idle] at hidle
  show (p.meter c).debt + 1 * (p.last + d - p.last) < durationLimit
  omega

/-- **The idle time is exactly the time to the next unit of work.** For settings that are accepted
and behind any looks at the clock, whatever it showed and however fast time ran, the idle time is
not zero. A look that comes sooner, counted from the latest one, hands out nothing, and one that
comes when the idle time has passed hands out a cycle or a tick, and no more than one of each.
Nothing is too large to be counted meanwhile. -/
theorem idle_exact {s : Settings} (hs : s.check = .ok ()) (t₀ : Nat) (looks : List Look) :
    let p := (start s.clockHz s.timerHz t₀).after looks
    let woken := (p.advance (p.last + p.idle) 1).2
    p.last = Look.latest t₀ looks ∧ 0 < p.idle ∧
    (∀ d < p.idle, (p.advance (p.last + d) 1).2 = ⟨0, 0⟩) ∧
    (1 ≤ woken.cycles ∨ 1 ≤ woken.ticks) ∧ woken.cycles ≤ 1 ∧ woken.ticks ≤ 1 ∧
    ∀ d ≤ p.idle, p.strictAdvance ⟨p.last + d, 1⟩ = some (p.advance (p.last + d) 1) := by
  intro p woken
  have hp : p.Ready := (Ready.start hs t₀).after looks
  refine ⟨last_after _ looks, hp.idle_pos, fun d hd => ?_, ?_,
    hp.units_le_one (Nat.le_refl _) .cycles, hp.units_le_one (Nat.le_refl _) .ticks,
    fun d hd => hp.strictAdvance_eq hd⟩
  · have hnone : ∀ c, (p.advance (p.last + d) 1).2.units c = 0 := by
      intro c
      by_contra hpos
      have hidle := (hp.exists_units_pos_iff d).mp ⟨c, Nat.pos_of_ne_zero hpos⟩
      omega
    have hdue : (p.advance (p.last + d) 1).2 =
        ⟨(p.advance (p.last + d) 1).2.units .cycles, (p.advance (p.last + d) 1).2.units .ticks⟩ := rfl
    rw [hdue, hnone, hnone]
  · obtain ⟨c, hc⟩ := (hp.exists_units_pos_iff p.idle).mpr (Nat.le_refl _)
    cases c with
    | cycles => exact .inl hc
    | ticks => exact .inr hc

/-- At three cycles a second, after a look at eight times the speed and one that finds the clock
turned back: nothing comes due in 16666633 nanoseconds, and something one later. -/
theorem idle_exact_turned_back :
    let p := (start 3 60 0).after [⟨100000000, 8⟩, ⟨50000000, 1⟩]
    p.last = 50000000 ∧ p.idle = 16666634 ∧ (p.advance 66666633 1).2 = ⟨0, 0⟩ ∧
      (1 ≤ (p.advance 66666634 1).2.cycles ∨ 1 ≤ (p.advance 66666634 1).2.ticks) := by
  intro p
  have hs : ({ clockHz := 3 } : Settings).check = .ok () := rfl
  obtain ⟨hlast, -, hsooner, hwoken, -⟩ :=
    idle_exact hs 0 [⟨100000000, 8⟩, ⟨50000000, 1⟩]
  have hidle : p.idle = 16666634 := by decide
  exact ⟨hlast, hidle, hsooner 16666633 (by decide), hwoken⟩

end Pacing

end ChipEight
