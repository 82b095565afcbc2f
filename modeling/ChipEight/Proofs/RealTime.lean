import ChipEight.ByteStream.Seeded
import ChipEight.Proofs.Accounting
import ChipEight.Proofs.Course

/-!
# Undisturbed sessions keep real time

While only the rests of a session take time and nobody fast-forwards or rewinds, each rest ends just
when the next unit of work comes due, so no look at the clock finds more than one unit of either
kind. Then the cap never forgets anything, also at one unit a second, where every unit reaches it
(`Meter.keeps_time`), and the work that has been done is the quotient of the time by the period.
-/

namespace ChipEight

variable {σ : Type}

namespace Meter

variable {m : Meter}

theorem due_owe (m : Meter) (elapsed : Nat) :
    (m.owe elapsed).due = min ((m.debt + elapsed) / m.period) m.hz := rfl

theorem due_of_le_cap (h : m.debt ≤ m.hz * m.period) :
    m.due = m.debt / m.period ∧ m.settle.debt = m.debt % m.period := by
  have hle : m.debt / m.period ≤ m.hz := Nat.div_le_of_le_mul (Nat.mul_comm .. ▸ h)
  refine ⟨Nat.min_eq_left hle, ?_⟩
  unfold settle
  split
  · next hcap =>
    -- the cap is reached with no remainder
    have hq : m.debt / m.period = m.hz := Nat.le_antisymm hle hcap
    have hdiv := Nat.div_add_mod m.debt m.period
    rw [hq, Nat.mul_comm] at hdiv
    show 0 = m.debt % m.period
    omega
  · rfl

theorem keeps_pace (hp : 0 < m.period) {time more : Nat} (hd : m.debt = time % m.period)
    (hcap : m.debt + more ≤ m.hz * m.period) :
    (time + more) / m.period = time / m.period + (m.owe more).due ∧
    (m.owe more).settle.debt = (time + more) % m.period := by
  obtain ⟨hdue, hdebt⟩ := due_of_le_cap (m := m.owe more) hcap
  have howed : (m.owe more).debt = time % m.period + more := by
    rw [← hd]
    rfl
  have hperiod : (m.owe more).period = m.period := rfl
  have htime : time + more = time % m.period + more + m.period * (time / m.period) := by
    have := Nat.div_add_mod time m.period
    omega
  rw [hdue, hdebt, howed, hperiod, htime, Nat.add_mul_div_left _ _ hp, Nat.add_mul_mod_self_left]
  exact ⟨Nat.add_comm .., rfl⟩

/-- A meter that owes the remainder of `last`, with at most the rest of a period added, hands out
the units that have come due since, one at most, and owes the remainder again. -/
theorem keeps_time (h : Settings.IsRate m.hz) {last now : Nat} (hd : m.debt = last % m.period)
    (hle : last ≤ now) (hidle : now - last ≤ m.idle) :
    now / m.period = last / m.period + (m.owe (now - last)).due ∧
    (m.owe (now - last)).settle.debt = now % m.period ∧
    (m.owe (now - last)).due ≤ 1 ∧
    (now - last = m.idle → (m.owe (now - last)).due = 1) := by
  have hp := period_pos h
  have hlt : m.debt < m.period := hd ▸ Nat.mod_lt _ hp
  have howed : m.debt + (now - last) ≤ m.period := by
    rw [idle] at hidle
    omega
  have hcap : m.debt + (now - last) ≤ m.hz * m.period :=
    Nat.le_trans howed (Nat.le_mul_of_pos_left _ h.1)
  obtain ⟨hdiv, hmod⟩ := keeps_pace hp hd hcap
  rw [Nat.add_sub_cancel' hle] at hdiv hmod
  refine ⟨hdiv, hmod, ?_, fun hrest => ?_⟩
  · have hone : (m.debt + (now - last)) / m.period ≤ 1 :=
      Nat.div_le_of_le_mul (Nat.mul_one _ ▸ howed)
    exact Nat.le_trans (Nat.min_le_left ..) hone
  · have hfull : m.debt + (now - last) = m.period := by
      rw [hrest, idle]
      omega
    rw [due_owe, hfull, Nat.div_self hp, Nat.min_eq_left h.1]

theorem period_of_rate {s : Settings} {c : Clock} (hs : s.check = .ok ()) (h : m.hz = s.rate c) :
    m.period = nanosPerSecond / s.rate c := by
  rw [period, h, Nat.max_eq_left (s.isRate_rate hs c).1]

end Meter

/-- The operations that a clock paces. -/
def Clock.paces : Clock → Operation → Bool
  | .cycles, .cycle => true
  | .ticks, .tick => true
  | _, _ => false

namespace Clock

/-- How many of some operations a clock paces. -/
def count (c : Clock) (ops : List Operation) : Nat := ops.countP c.paces

theorem count_append (c : Clock) (ops ops' : List Operation) :
    c.count (ops ++ ops') = c.count ops + c.count ops' := List.countP_append

theorem count_due (c : Clock) (d : Due) :
    c.count (.replicate d.cycles .cycle ++ .replicate d.ticks .tick) = d.units c := by
  rw [count, List.countP_append, List.countP_replicate, List.countP_replicate]
  cases c with
  | cycles => exact Nat.add_zero _
  | ticks => exact Nat.zero_add _

theorem count_operations (c : Clock) (w : World σ) (f : Frontend σ) :
    c.count (w.operations f) = c.count (w.labour f) := by
  have hkeys : c.count [.setKeys (w.pollReply f).keys] = 0 := by cases c <;> rfl
  have htone : c.count (if w.plays f then [.receiveTone] else []) = 0 := by
    cases w.plays f <;> cases c <;> rfl
  rw [World.operations, ← List.singleton_append, count_append, count_append, hkeys, htone,
    Nat.zero_add, Nat.add_zero]

end Clock

namespace World

variable {f : Frontend σ} {w : World σ}

/-- Between two worlds no time has passed, and a session that was cancelled still is. -/
structure SameTime (w v : World σ) : Prop where
  pacing : v.session.pacing = w.session.pacing
  now : v.session.now = w.session.now
  cancelled : v.session.cancelled = false → w.session.cancelled = false

theorem SameTime.trans {u v : World σ} (h : w.SameTime v) (h' : v.SameTime u) : w.SameTime u where
  pacing := h'.pacing.trans h.pacing
  now := h'.now.trans h.now
  cancelled hu := h.cancelled (h'.cancelled hu)

theorem SameTime.refl (w : World σ) : w.SameTime w := ⟨rfl, rfl, id⟩

theorem sameTime_afterCall {α : Type} (w : World σ) (r : Reply σ α) : w.SameTime (w.afterCall r) :=
  ⟨rfl, rfl, fun h => (Bool.or_eq_false_iff.mp (w.session.cancelled_heed _ ▸ h)).1⟩

theorem sameTime_silenced (w : World σ) : w.SameTime w.silenced := by
  unfold silenced
  split
  · exact ⟨rfl, rfl, id⟩
  · exact .refl w

theorem sameTime_pictured (w : World σ) (f : Frontend σ) (drawn : Bool) :
    w.SameTime (w.pictured f drawn) := by
  cases drawn with
  | false => exact .refl w
  | true => exact sameTime_afterCall ..

theorem sameTime_sounded (w : World σ) (f : Frontend σ) : w.SameTime (w.sounded f) := by
  unfold sounded
  split
  · exact (sameTime_silenced w).trans (sameTime_afterCall ..)
  · exact .refl w

theorem labour_of_forward {c : Control} (hc : (w.pollReply f).result = .ok c)
    (hq : c.quit = false) (hr : c.rewind = false) (hl : (w.polled f).session.cancelled = false)
    (hh : (w.steps f).any Step.halts = false) :
    let due := ((w.polled f).handOut c).2
    w.labour f = .replicate due.cycles .cycle ++ .replicate due.ticks .tick := by
  have hlabour := labour_of_goesOn hc hq hh
  simp only [hr, hl, Bool.false_eq_true, if_false] at hlabour
  exact hlabour

end World

namespace Turn

/-- The turn takes no time before its rest, and the user asks for nothing but perhaps to quit. -/
def Undisturbed (f : Frontend σ) (w : World σ) : Prop :=
  (w.pollReply f).elapsed = 0 ∧
    ∀ c, (w.pollReply f).result = .ok c → c.fastForward = false ∧ c.rewind = false

variable {f : Frontend σ} {w w' : World σ}

theorem now_polled (h : (w.pollReply f).elapsed = 0) :
    (w.polled f).session.now = w.session.now := by
  show w.session.now + (w.pollReply f).elapsed = w.session.now
  rw [h, Nat.add_zero]

theorem once_of_forward {fast : Bool} (helapsed : (w.pollReply f).elapsed = 0)
    (hasks : ∀ c, (w.pollReply f).result = .ok c → c.fastForward = fast ∧ c.rewind = false)
    (hrun : (once f).run w = .ok () w') (hc : w'.session.cancelled = false) :
    let p := w.session.pacing.advance w.session.now (if fast then fastForwardSpeed else 1)
    w'.session.pacing = p.1 ∧ w'.session.now = w.session.now + p.1.idle ∧
      ∀ c : Clock, c.count (w.operations f) = p.2.units c := by
  have hends := once_ends f w
  rw [hrun] at hends
  cases hends with
  | quits =>
    rw [Session.cancelled_cancel] at hc
    cases hc
  | @rests c w₁ hl hh =>
    intro p
    obtain ⟨hforward, hrewind⟩ := hasks c hl.asked
    obtain ⟨hpacing, hnow, hcancelled⟩ :=
      (w₁.sameTime_pictured f ((w.steps f).any Step.touches)).trans (World.sameTime_sounded _ f)
    have hstays : w₁.session.cancelled = false := hcancelled hc
    rw [hl.session] at hpacing hnow hstays
    have hpolled := now_polled helapsed
    have hout : (w.polled f).handOut c = p := by
      unfold World.handOut
      rw [hforward, hpolled]
      rfl
    rw [hout] at hpacing
    refine ⟨hpacing, ?_, fun clock => ?_⟩
    · show _ + _ = _
      rw [hnow, hpacing]
      exact congrArg (· + p.1.idle) hpolled
    · rw [clock.count_operations, World.labour_of_forward hl.asked hl.stays hrewind hstays hh, hout]
      exact clock.count_due _

theorem once_of_undisturbed (h : Undisturbed f w) (hrun : (once f).run w = .ok () w')
    (hc : w'.session.cancelled = false) :
    let p := w.session.pacing.advance w.session.now 1
    w'.session.pacing = p.1 ∧ w'.session.now = w.session.now + p.1.idle ∧
      ∀ c : Clock, c.count (w.operations f) = p.2.units c :=
  once_of_forward h.1 h.2 hrun hc

end Turn

theorem Turn.undisturbed_silent (w : World σ) : Undisturbed .silent w := by
  refine ⟨rfl, fun c hc => ?_⟩
  cases hc
  exact ⟨rfl, rfl⟩

/-- How a session stands that has kept real time, with some operations done. Its clock shows when
the next unit of work comes due, or zero if it has not begun. -/
structure Session.OnTime (s : Session) (settings : Settings) (done : List Operation) : Prop where
  rate : ∀ c, (s.pacing.meter c).hz = settings.rate c
  debt : ∀ c, (s.pacing.meter c).debt = s.pacing.last % (s.pacing.meter c).period
  count : ∀ c, c.count done = s.pacing.last / (s.pacing.meter c).period
  last_le : s.pacing.last ≤ s.now
  soon : s.now - s.pacing.last ≤ s.pacing.idle

namespace Pacing

theorem idle_le (p : Pacing) (c : Clock) : p.idle ≤ (p.meter c).idle := by
  cases c with
  | cycles => exact Nat.min_le_left ..
  | ticks => exact Nat.min_le_right ..

theorem exists_idle_eq (p : Pacing) : ∃ c, p.idle = (p.meter c).idle := by
  rcases Nat.le_total p.cycles.idle p.ticks.idle with h | h
  · exact ⟨.cycles, Nat.min_eq_left h⟩
  · exact ⟨.ticks, Nat.min_eq_right h⟩

end Pacing

namespace Session.OnTime

variable {s : Session} {settings : Settings} {done : List Operation}

theorem start {m : Machine} : (Session.start m).OnTime m.settings [] where
  rate c := by cases c <;> rfl
  debt c := by
    cases c <;> exact (Nat.zero_mod _).symm
  count c := (Nat.zero_div _).symm
  last_le := Nat.le_refl 0
  soon := Nat.zero_le _

theorem advance (h : s.OnTime settings done) (hs : settings.check = .ok ()) :
    let p := s.pacing.advance s.now 1
    (∀ c, (p.1.meter c).hz = settings.rate c ∧
      (p.1.meter c).debt = s.now % (p.1.meter c).period ∧
      s.now / (p.1.meter c).period = c.count done + p.2.units c ∧ p.2.units c ≤ 1) ∧
    (s.now - s.pacing.last = s.pacing.idle → ∃ c, p.2.units c = 1) ∧ 0 < p.1.idle := by
  intro p
  have hmeter : ∀ c, p.1.meter c = ((s.pacing.meter c).owe (s.now - s.pacing.last)).settle ∧
      p.2.units c = ((s.pacing.meter c).owe (s.now - s.pacing.last)).due := by
    intro c
    have := s.pacing.meter_advance ⟨s.now, 1⟩ c
    rwa [Nat.one_mul] at this
  have hrate : ∀ c, Settings.IsRate (s.pacing.meter c).hz := by
    intro c
    rw [h.rate c]
    exact settings.isRate_rate hs c
  have hkeeps := fun c => Meter.keeps_time (hrate c) (h.debt c) h.last_le
    (Nat.le_trans h.soon (s.pacing.idle_le c))
  refine ⟨fun c => ?_, fun hdue => ?_, ?_⟩
  · obtain ⟨hdiv, hmod, hone, _⟩ := hkeeps c
    rw [(hmeter c).1, (hmeter c).2, h.count c]
    exact ⟨h.rate c, hmod, hdiv, hone⟩
  · obtain ⟨c, hc⟩ := s.pacing.exists_idle_eq
    refine ⟨c, ?_⟩
    rw [(hmeter c).2]
    exact (hkeeps c).2.2.2 (hdue.trans hc)
  · obtain ⟨c, hc⟩ := p.1.exists_idle_eq
    have hlt := Meter.debt_settle_lt (m := (s.pacing.meter c).owe (s.now - s.pacing.last)) (hrate c)
    rw [hc, (hmeter c).1, Meter.idle]
    exact Nat.sub_pos_of_lt hlt

end Session.OnTime

namespace Turn

variable {f : Frontend σ} {w w' : World σ} {settings : Settings} {done : List Operation}

/-- An undisturbed turn keeps time. -/
theorem onTime_step (h : w.session.OnTime settings done) (hs : settings.check = .ok ())
    (hu : Undisturbed f w) (hrun : (once f).run w = .ok () w')
    (hc : w'.session.cancelled = false) :
    w'.session.OnTime settings (done ++ w.operations f) ∧ w'.session.pacing.last = w.session.now ∧
    w'.session.now = w.session.now + w'.session.pacing.idle ∧ 0 < w'.session.pacing.idle ∧
    (∀ c : Clock, c.count (w.operations f) ≤ 1) ∧
    (w.session.now - w.session.pacing.last = w.session.pacing.idle →
      ∃ c : Clock, c.count (w.operations f) = 1) := by
  obtain ⟨hpacing, hnow, hcount⟩ := once_of_undisturbed hu hrun hc
  obtain ⟨hclocks, hone, hidle⟩ := h.advance hs
  have hlast : w'.session.pacing.last = w.session.now := by rw [hpacing]; rfl
  rw [← hpacing] at hclocks hidle hnow
  refine ⟨⟨?_, ?_, ?_, ?_, ?_⟩, hlast, hnow, hidle, ?_, ?_⟩
  · exact fun c => (hclocks c).1
  · intro c
    rw [hlast]
    exact (hclocks c).2.1
  · intro c
    rw [Clock.count_append, hcount, hlast]
    exact (hclocks c).2.2.1.symm
  · omega
  · omega
  · intro c
    rw [hcount]
    exact (hclocks c).2.2.2
  · intro hdue
    obtain ⟨c, hc⟩ := hone hdue
    exact ⟨c, (hcount c).trans hc⟩

theorem not_cancelled_of_upTo {n : Nat} (h : (upTo f n).run w = .ok false w') :
    w.session.cancelled = false := by
  cases hc : w.session.cancelled with
  | false => rfl
  | true =>
    rw [upTo_of_cancelled f n hc] at h
    cases h

theorem eq_of_upTo_zero (h : (upTo f 0).run w = .ok false w') : w = w' := by
  have h' : EStateM.Result.ok w.session.cancelled w = .ok false w' := h
  injection h'

/-- What every turn that rests keeps, a run keeps that comes to no end; the number of turns and what
has been done may occur in it. -/
theorem upTo_rests_induction {P : World σ → Prop} {J : Nat → List Operation → World σ → Prop}
    (step : ∀ k done w w', P w → J k done w → (once f).run w = .ok () w' →
      w'.session.cancelled = false → J (k + 1) (done ++ w.operations f) w')
    {n k : Nat} (hall : Every P f n w) (h : J k done w) (hrun : (upTo f n).run w = .ok false w') :
    J (k + n) (done ++ operations f n w) w' := by
  induction n generalizing w k done with
  | zero =>
    obtain rfl := eq_of_upTo_zero hrun
    rw [operations, List.append_nil]
    exact h
  | succ n ih =>
    have hc := not_cancelled_of_upTo hrun
    obtain ⟨hfirst, hrest⟩ := hall hc
    rw [run_upTo_succ, hc, if_neg Bool.false_ne_true] at hrun
    cases hr : (once f).run w with
    | error fault w₁ =>
      rw [hr] at hrun
      cases hrun
    | ok u w₁ =>
      rw [hr] at hrun
      have hnext := step k done w w₁ hfirst h hr (not_cancelled_of_upTo hrun)
      rw [operations_of_ok hc hr, ← List.append_assoc, Nat.add_comm n, ← Nat.add_assoc]
      exact ih (hrest w₁ hr) hnext hrun

theorem onTime_upTo {n : Nat} (h : w.session.OnTime settings done) (hs : settings.check = .ok ())
    (hu : Every (Undisturbed f) f n w) (hrun : (upTo f n).run w = .ok false w') :
    w'.session.OnTime settings (done ++ operations f n w) ∧
    (n = 0 ∨ w'.session.now - w'.session.pacing.last = w'.session.pacing.idle) := by
  have hkept := upTo_rests_induction (k := 0) (P := Undisturbed f)
    (J := fun k done w => w.session.OnTime settings done ∧
      (k = 0 ∨ w.session.now - w.session.pacing.last = w.session.pacing.idle))
    (fun k done w w' hw hJ hturn hc => by
      obtain ⟨hnext, hlast, hnow, _⟩ := onTime_step hJ.1 hs hw hturn hc
      exact ⟨hnext, .inr (by omega)⟩) hu ⟨h, .inl rfl⟩ hrun
  rwa [Nat.zero_add] at hkept

/-- **Undisturbed pacing loses nothing and never spins.** In a session of a machine whose settings
are accepted, let each of `n` turns and one more be undisturbed and reach its rest, in which time
passes as asked for. The machine behind the turns is the run of what they do. When the last of them
rests, what has been done since the start is the time it read divided by the period, of cycles and
of ticks. Each turn but the first does one of the two, none does more than one of each, and the rest
is not empty. -/
theorem undisturbed_pacing {m : Machine} (hs : m.settings.check = .ok ()) {w₀ w w' : World σ}
    (h₀ : w₀.session = .start m) {n : Nat} (hu : Every (Undisturbed f) f n w₀)
    (hrun : (upTo f n).run w₀ = .ok false w) (hu' : Undisturbed f w)
    (hturn : (once f).run w = .ok () w') (hc : w'.session.cancelled = false) :
    let t := (w.polled f).session.now
    let before := operations f n w₀
    let last := w.operations f
    w.session.machine = w₀.session.machine.run before ∧
    w'.session.machine = w.session.machine.run last ∧
    (∀ c : Clock, c.count (before ++ last) = t / (nanosPerSecond / m.settings.rate c)) ∧
    (0 < n → ∃ c : Clock, c.count last = 1) ∧
    (∀ c : Clock, c.count last ≤ 1) ∧
    0 < w'.session.pacing.idle ∧ w'.session.now = t + w'.session.pacing.idle := by
  intro t before last
  have ht : t = w.session.now := now_polled hu'.1
  have hstart : w₀.session.OnTime m.settings [] := h₀ ▸ .start
  obtain ⟨hontime, hsoon⟩ := onTime_upTo hstart hs hu hrun
  obtain ⟨hend, hlast, hnow, hidle, hle, hone⟩ := onTime_step hontime hs hu' hturn hc
  rw [ht]
  refine ⟨World.after_of_ok hrun ▸ machine_upTo f n w₀,
    World.after_of_ok hturn ▸ w.machine_once f, fun c => ?_, fun hn => hone ?_, hle, hidle,
    hnow⟩
  · rw [← hlast, ← Meter.period_of_rate hs (hend.rate c)]
    exact hend.count c
  · rcases hsoon with rfl | hsoon
    · exact absurd hn (Nat.lt_irrefl 0)
    · exact hsoon

/-- At three cycles and two ticks a second the third turn reads half a second, and makes the first
tick after one cycle. The delay timer, which was at eight, is at seven behind it. -/
theorem undisturbed_pacing_third_turn :
    let m := (Machine.fresh { clockHz := 3, timerHz := 2 } (.cipher default)).run
      [.load [0x60, 0x08, 0xF0, 0x15, 0x71, 0x01], .cycle, .cycle]
    let w₀ : World Unit := { session := .start m, device := () }
    ∃ w w', (upTo .silent 2).run w₀ = .ok false w ∧ (once .silent).run w = .ok () w' ∧
      w.session.now = 500000000 ∧
      w.session.machine = w₀.session.machine.run (operations .silent 2 w₀) ∧
      w'.session.machine = w.session.machine.run (w.operations .silent) ∧
      (∀ c : Clock, c.count (operations .silent 2 w₀ ++ w.operations .silent) = 1) ∧
      w'.session.machine.state.register 1 = 1 ∧ w'.session.machine.state.delay = 7 ∧
      0 < w'.session.pacing.idle := by
  intro m w₀
  have hsettings : m.settings = { clockHz := 3, timerHz := 2 } := Machine.settings_run ..
  have hs : m.settings.check = .ok () := by rw [hsettings]; rfl
  have h₀ : w₀.session = .start m := rfl
  obtain ⟨w, w', hw, hw', hc, hnow, hbehind⟩ := exists_of_rests (f := .silent) (n := 2) (w := w₀)
    (p := fun w => w.session.now == 500000000)
    (q := fun w' => w'.session.machine.state.register 1 == 1 &&
      w'.session.machine.state.delay == 7) (by decide +kernel)
  simp only [Bool.and_eq_true, beq_iff_eq] at hnow hbehind
  obtain ⟨hregister, hdelay⟩ := hbehind
  obtain ⟨hbefore, hlast, hcount, _, _, hidle, _⟩ := undisturbed_pacing hs h₀
    (every_of_forall undisturbed_silent 2 w₀) hw (undisturbed_silent w) hw' hc
  have ht : (w.polled .silent).session.now = 500000000 := hnow
  rw [ht, hsettings] at hcount
  refine ⟨w, w', hw, hw', hnow, hbefore, hlast, fun c => (hcount c).trans ?_, hregister, hdelay,
    hidle⟩
  cases c <;> decide

end Turn

end ChipEight
