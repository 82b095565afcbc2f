import ChipEight.ByteStream.Seeded
import ChipEight.Frontend.Script
import ChipEight.Proofs.RealTime

/-!
# Fast-forward keeps its pace at rates that are not too low

While the user fast-forwards, the time between two looks at the clock counts several times, but a
rest is as long as ever: until the next unit of work comes due at normal speed. A rest is one period
at most, so up to `fastForwardSpeed` units come due at once, and a meter with a lower rate is at its
cap then, as if the session had stalled, and forgets the rest (`hurried_forgets`). It keeps its pace
if its rate is not that low, or if the other clock wakes the session often enough
(`Settings.KeepsUp`).
-/

namespace ChipEight

variable {σ : Type}

def Clock.other : Clock → Clock
  | .cycles => .ticks
  | .ticks => .cycles

def Settings.period (s : Settings) (c : Clock) : Nat := nanosPerSecond / s.rate c

/-- No rest is so long that the cap of a clock is passed behind it. -/
def Settings.KeepsUp (s : Settings) : Prop :=
  ∀ c : Clock, fastForwardSpeed ≤ s.rate c ∨
    fastForwardSpeed * s.period c.other ≤ (s.rate c - 1) * s.period c

theorem Pacing.le_cap {p : Pacing} {s : Settings} (hs : s.check = .ok ()) (hk : s.KeepsUp)
    (hrate : ∀ c, (p.meter c).hz = s.rate c)
    (hdebt : ∀ c, (p.meter c).debt < (p.meter c).period) {rest : Nat} (hrest : rest ≤ p.idle)
    (c : Clock) :
    (p.meter c).debt + fastForwardSpeed * rest ≤ (p.meter c).hz * (p.meter c).period := by
  have hperiod : ∀ c, (p.meter c).period = s.period c :=
    fun c => Meter.period_of_rate hs (hrate c)
  have hown : rest + (p.meter c).debt ≤ (p.meter c).period := by
    have hidle := Nat.le_trans hrest (p.idle_le c)
    have hlt := hdebt c
    rw [Meter.idle] at hidle
    omega
  have hother : rest ≤ (p.meter c.other).period :=
    Nat.le_trans hrest (Nat.le_trans (p.idle_le c.other) (Nat.sub_le ..))
  rw [hrate]
  rw [hperiod] at hown hother ⊢
  rcases hk c with hfast | hwoken
  · have hmul := Nat.mul_le_mul_right (s.period c) hfast
    rw [fastForwardSpeed] at hmul ⊢
    omega
  · have hmul := Nat.mul_le_mul_left fastForwardSpeed hother
    have hlt := hdebt c
    rw [hperiod] at hlt
    have hpos := (s.isRate_rate hs c).1
    have hsplit : s.rate c * s.period c = (s.rate c - 1) * s.period c + s.period c := by
      rw [← Nat.succ_mul, Nat.succ_eq_add_one, Nat.sub_add_cancel hpos]
    omega

/-- How a session stands that has kept the pace of a user who fast-forwards, with some operations
done. -/
structure Session.OnFastTime (s : Session) (settings : Settings) (done : List Operation) : Prop where
  rate : ∀ c, (s.pacing.meter c).hz = settings.rate c
  debt : ∀ c, (s.pacing.meter c).debt =
    fastForwardSpeed * s.pacing.last % (s.pacing.meter c).period
  count : ∀ c, c.count done = fastForwardSpeed * s.pacing.last / (s.pacing.meter c).period
  last_le : s.pacing.last ≤ s.now
  soon : s.now - s.pacing.last ≤ s.pacing.idle

namespace Session.OnFastTime

variable {s : Session} {settings : Settings} {done : List Operation}

theorem start {m : Machine} : (Session.start m).OnFastTime m.settings [] where
  rate c := by cases c <;> rfl
  debt c := by
    cases c <;> exact (Nat.zero_mod _).symm
  count c := (Nat.zero_div _).symm
  last_le := Nat.le_refl 0
  soon := Nat.zero_le _

theorem advance (h : s.OnFastTime settings done) (hs : settings.check = .ok ())
    (hk : settings.KeepsUp) (c : Clock) :
    let p := s.pacing.advance s.now fastForwardSpeed
    (p.1.meter c).hz = settings.rate c ∧
    (p.1.meter c).debt = fastForwardSpeed * s.now % (p.1.meter c).period ∧
    fastForwardSpeed * s.now / (p.1.meter c).period = c.count done + p.2.units c := by
  intro p
  obtain ⟨hmeter, hunits⟩ := s.pacing.meter_advance ⟨s.now, fastForwardSpeed⟩ c
  have hpos : ∀ c, 0 < (s.pacing.meter c).period := by
    intro c
    apply Meter.period_pos
    rw [h.rate c]
    exact settings.isRate_rate hs c
  have hcap := Pacing.le_cap hs hk h.rate (fun c => h.debt c ▸ Nat.mod_lt _ (hpos c)) h.soon c
  have htime : fastForwardSpeed * s.now =
      fastForwardSpeed * s.pacing.last + fastForwardSpeed * (s.now - s.pacing.last) := by
    rw [← Nat.mul_add, Nat.add_sub_cancel' h.last_le]
  obtain ⟨hdiv, hmod⟩ := Meter.keeps_pace (hpos c) (h.debt c) hcap
  rw [← htime] at hdiv hmod
  rw [hmeter, hunits, h.count c]
  exact ⟨h.rate c, hmod, hdiv⟩

end Session.OnFastTime

namespace Turn

/-- The turn takes no time before its rest, and the user fast-forwards and does not rewind. -/
def Hurried (f : Frontend σ) (w : World σ) : Prop :=
  (w.pollReply f).elapsed = 0 ∧
    ∀ c, (w.pollReply f).result = .ok c → c.fastForward = true ∧ c.rewind = false

variable {f : Frontend σ} {w w' : World σ} {settings : Settings} {done : List Operation}

theorem onFastTime_step (h : w.session.OnFastTime settings done) (hs : settings.check = .ok ())
    (hk : settings.KeepsUp) (hu : Hurried f w) (hrun : (once f).run w = .ok () w')
    (hc : w'.session.cancelled = false) :
    w'.session.OnFastTime settings (done ++ w.operations f) ∧
      w'.session.pacing.last = w.session.now := by
  obtain ⟨hpacing, hnow, hcount⟩ := once_of_forward hu.1 hu.2 hrun hc
  have hlast : w'.session.pacing.last = w.session.now := by rw [hpacing]; rfl
  have hclocks := h.advance hs hk
  rw [if_pos rfl] at hpacing hnow hcount
  simp only [← hpacing] at hclocks hnow
  refine ⟨⟨fun c => (hclocks c).1, ?_, ?_, ?_, ?_⟩, hlast⟩
  · intro c
    rw [hlast]
    exact (hclocks c).2.1
  · intro c
    rw [Clock.count_append, hcount, hlast]
    exact (hclocks c).2.2.symm
  · omega
  · omega

theorem onFastTime_upTo {n : Nat} (h : w.session.OnFastTime settings done)
    (hs : settings.check = .ok ()) (hk : settings.KeepsUp) (hu : Every (Hurried f) f n w)
    (hrun : (upTo f n).run w = .ok false w') :
    w'.session.OnFastTime settings (done ++ operations f n w) :=
  upTo_rests_induction (k := 0) (P := Hurried f)
    (J := fun _ done w => w.session.OnFastTime settings done)
    (fun _ _ _ _ hw hJ hturn hc => (onFastTime_step hJ hs hk hw hturn hc).1) hu h hrun

/-- **Fast-forward keeps its pace where the rates allow it.** In a session of a machine whose
settings are accepted and keep up, let each of `n` turns and one more be hurried and reach its rest.
The machine behind the turns is the run of what they do. When the last of them rests, what has been
done since the start is `fastForwardSpeed` times the time it read divided by the period, of cycles
and of ticks. -/
theorem hurried_pacing {m : Machine} (hs : m.settings.check = .ok ()) (hk : m.settings.KeepsUp)
    {w₀ w w' : World σ} (h₀ : w₀.session = .start m) {n : Nat} (hu : Every (Hurried f) f n w₀)
    (hrun : (upTo f n).run w₀ = .ok false w) (hu' : Hurried f w)
    (hturn : (once f).run w = .ok () w') (hc : w'.session.cancelled = false) :
    let t := (w.polled f).session.now
    let before := operations f n w₀
    let last := w.operations f
    w.session.machine = w₀.session.machine.run before ∧
    w'.session.machine = w.session.machine.run last ∧
    ∀ c : Clock, c.count (before ++ last) =
      fastForwardSpeed * t / (nanosPerSecond / m.settings.rate c) := by
  intro t before last
  refine ⟨World.after_of_ok hrun ▸ machine_upTo f n w₀,
    World.after_of_ok hturn ▸ w.machine_once f, fun c => ?_⟩
  have ht : t = w.session.now := now_polled hu'.1
  have hstart : w₀.session.OnFastTime m.settings [] := h₀ ▸ .start
  obtain ⟨hend, hlast⟩ := onFastTime_step (onFastTime_upTo hstart hs hk hu hrun) hs hk hu' hturn hc
  rw [ht, ← hlast, ← Meter.period_of_rate hs (hend.rate c)]
  exact hend.count c

end Turn

/-- A frontend that shows nothing and plays nothing, and whose user fast-forwards. -/
def Frontend.hasty : Frontend σ :=
  { silent with poll _ keys device := { device, keys, result := .ok { fastForward := true } } }

namespace Turn

variable {f : Frontend σ} {w w' : World σ}

theorem hurried_hasty (w : World σ) : Hurried .hasty w := by
  refine ⟨rfl, fun c hc => ?_⟩
  cases hc
  exact ⟨rfl, rfl⟩

/-- At two cycles a second the ticks wake the session in time: the fifth turn makes the first cycle.
The delay timer, which was at forty, is at eight behind it. -/
theorem hurried_pacing_woken_by_ticks :
    let m := (Machine.fresh { clockHz := 2 } (.cipher default)).run
      [.load [0x60, 0x28, 0xF0, 0x15, 0x71, 0x01], .cycle, .cycle]
    let w₀ : World Unit := { session := .start m, device := () }
    ∃ w w', (upTo .hasty 4).run w₀ = .ok false w ∧ (once .hasty).run w = .ok () w' ∧
      w.session.now = 66666664 ∧
      w.session.machine = w₀.session.machine.run (operations .hasty 4 w₀) ∧
      w'.session.machine = w.session.machine.run (w.operations .hasty) ∧
      Clock.cycles.count (operations .hasty 4 w₀ ++ w.operations .hasty) = 1 ∧
      Clock.ticks.count (operations .hasty 4 w₀ ++ w.operations .hasty) = 32 ∧
      w'.session.machine.state.register 1 = 1 ∧ w'.session.machine.state.delay = 8 := by
  intro m w₀
  have hsettings : m.settings = { clockHz := 2 } := Machine.settings_run ..
  have hs : m.settings.check = .ok () := by rw [hsettings]; rfl
  have hk : m.settings.KeepsUp := by
    rw [hsettings]
    intro c
    cases c
    · exact .inr (by decide)
    · exact .inl (by decide)
  have h₀ : w₀.session = .start m := rfl
  obtain ⟨w, w', hw, hw', hc, hnow, hbehind⟩ := exists_of_rests (f := .hasty) (n := 4) (w := w₀)
    (p := fun w => w.session.now == 66666664)
    (q := fun w' => w'.session.machine.state.register 1 == 1 &&
      w'.session.machine.state.delay == 8) (by decide +kernel)
  simp only [Bool.and_eq_true, beq_iff_eq] at hnow hbehind
  obtain ⟨hregister, hdelay⟩ := hbehind
  obtain ⟨hbefore, hlast, hcount⟩ := hurried_pacing hs hk h₀ (every_of_forall hurried_hasty 4 w₀)
    hw (hurried_hasty w) hw' hc
  have ht : (w.polled .hasty).session.now = 66666664 := hnow
  rw [ht, hsettings] at hcount
  refine ⟨w, w', hw, hw', hnow, hbefore, hlast, ?_, ?_, hregister, hdelay⟩
  · exact (hcount .cycles).trans (by decide)
  · exact (hcount .ticks).trans (by decide)

theorem hurried_first {m : Machine} (h₀ : w.session = .start m) (hu : Hurried f w)
    (hrun : (once f).run w = .ok () w') (hc : w'.session.cancelled = false) :
    (∀ c, w'.session.pacing.meter c = { hz := m.settings.rate c }) ∧ w'.session.pacing.last = 0 ∧
      w'.session.now = w'.session.pacing.idle ∧ ∀ c : Clock, c.count (w.operations f) = 0 := by
  obtain ⟨hpacing, hnow, hcount⟩ := once_of_forward hu.1 hu.2 hrun hc
  rw [h₀, if_pos rfl] at hpacing hnow hcount
  rw [← hpacing] at hnow
  have hlook := (Session.start m).pacing.meter_advance ⟨0, fastForwardSpeed⟩
  have hstart : ∀ c, (Session.start m).pacing.meter c = { hz := m.settings.rate c } :=
    fun c => Pacing.meter_start m.settings 0 c
  have hidle : ∀ c, (({ hz := m.settings.rate c } : Meter).owe 0).due = 0 ∧
      (({ hz := m.settings.rate c } : Meter).owe 0).settle.debt = 0 := by
    intro c
    obtain ⟨hdue, hdebt⟩ := Meter.due_of_le_cap (m := ({ hz := m.settings.rate c } : Meter).owe 0)
      (Nat.zero_le _)
    exact ⟨hdue.trans (Nat.zero_div _), hdebt.trans (Nat.zero_mod _)⟩
  refine ⟨fun c => ?_, ?_, hnow.trans (Nat.zero_add _), fun c => ?_⟩
  · rw [hpacing]
    refine (hlook c).1.trans ?_
    rw [hstart]
    exact congrArg (Meter.mk (m.settings.rate c)) (hidle c).2
  · rw [hpacing]
    rfl
  · rw [hcount]
    refine (hlook c).2.trans ?_
    rw [hstart]
    exact (hidle c).1

/-- At two rates that are too low the second turn of a hurried session already forgets work: of
`fastForwardSpeed` units that come due a clock hands out its rate. -/
theorem hurried_forgets {m : Machine} (hs : m.settings.check = .ok ())
    (hslow : ∀ c, m.settings.rate c < fastForwardSpeed) {w₀ : World σ}
    (h₀ : w₀.session = .start m) (hu : Hurried f w₀) (hrun : (once f).run w₀ = .ok () w)
    (hc : w.session.cancelled = false) (hu' : Hurried f w) (hturn : (once f).run w = .ok () w')
    (hc' : w'.session.cancelled = false) :
    ∃ c : Clock, c.count (w₀.operations f ++ w.operations f) = m.settings.rate c ∧
      fastForwardSpeed * w.session.now / (nanosPerSecond / m.settings.rate c) =
        fastForwardSpeed := by
  obtain ⟨hmeter, hlast, hnow, hnone⟩ := hurried_first h₀ hu hrun hc
  obtain ⟨_, _, hcount⟩ := once_of_forward hu'.1 hu'.2 hturn hc'
  obtain ⟨c, hidle⟩ := w.session.pacing.exists_idle_eq
  have hrate := m.settings.isRate_rate hs c
  have hpos : 0 < nanosPerSecond / m.settings.rate c := Nat.div_pos hrate.2 hrate.1
  have hhz : (w.session.pacing.meter c).hz = m.settings.rate c := by rw [hmeter]
  have hdebt : (w.session.pacing.meter c).debt = 0 := by rw [hmeter]
  have hperiod := Meter.period_of_rate hs hhz
  have hrest : w.session.now = nanosPerSecond / m.settings.rate c := by
    rw [hnow, hidle, Meter.idle, hperiod, hdebt, Nat.sub_zero]
  have hunits := (w.session.pacing.meter_advance ⟨w.session.now, fastForwardSpeed⟩ c).2
  simp only [Meter.due_owe, hdebt, hperiod, hhz, hlast, hrest, Nat.zero_add, Nat.sub_zero,
    Nat.mul_div_cancel _ hpos] at hunits
  refine ⟨c, ?_, ?_⟩
  · rw [Clock.count_append, hnone, hcount, Nat.zero_add, if_pos rfl, hrest, hunits]
    exact Nat.min_eq_right (Nat.le_of_lt (hslow c))
  · rw [hrest, Nat.mul_div_cancel _ hpos]

/-- At one cycle and one tick a second the second turn reads one second, when eight cycles and eight
ticks have come due, and has made one of each: a register that each cycle counts up is at one, and
the delay timer, which was at eight, is at seven. -/
theorem hurried_pacing_fails_at_one :
    let program := [0x60, 0x08, 0xF0, 0x15] ++ (List.replicate 8 [0x71, 0x01]).flatten
    let m := (Machine.fresh { clockHz := 1, timerHz := 1 } (.cipher default)).run
      [.load program, .cycle, .cycle]
    let w₀ : World Unit := { session := .start m, device := () }
    m.settings.check = .ok () ∧ Every (Hurried .hasty) .hasty 1 w₀ ∧
    ∃ w w', (upTo .hasty 1).run w₀ = .ok false w ∧ Hurried .hasty w ∧
      (once .hasty).run w = .ok () w' ∧ w'.session.cancelled = false ∧
      w.session.machine = w₀.session.machine.run (operations .hasty 1 w₀) ∧
      w'.session.machine = w.session.machine.run (w.operations .hasty) ∧
      (∀ c : Clock, fastForwardSpeed * (w.polled .hasty).session.now /
          (nanosPerSecond / m.settings.rate c) = 8 ∧
        c.count (operations .hasty 1 w₀ ++ w.operations .hasty) = 1) ∧
      w'.session.machine.state.register 1 = 1 ∧ w'.session.machine.state.delay = 7 := by
  intro program m w₀
  have hsettings : m.settings = { clockHz := 1, timerHz := 1 } := Machine.settings_run ..
  have hs : m.settings.check = .ok () := by rw [hsettings]; rfl
  refine ⟨hs, every_of_forall hurried_hasty 1 w₀, ?_⟩
  obtain ⟨w, w', hw, hw', hc, hbefore, hbehind⟩ := exists_of_rests (f := .hasty) (n := 1) (w := w₀)
    (p := fun w => w.session.now == 1000000000 &&
      Clock.cycles.count (operations .hasty 1 w₀ ++ w.operations .hasty) == 1 &&
      Clock.ticks.count (operations .hasty 1 w₀ ++ w.operations .hasty) == 1)
    (q := fun w' => w'.session.machine.state.register 1 == 1 &&
      w'.session.machine.state.delay == 7) (by decide +kernel)
  simp only [Bool.and_eq_true, beq_iff_eq] at hbefore hbehind
  obtain ⟨⟨hnow, hcycles⟩, hticks⟩ := hbefore
  obtain ⟨hregister, hdelay⟩ := hbehind
  have ht : (w.polled .hasty).session.now = 1000000000 := hnow
  refine ⟨w, w', hw, hurried_hasty w, hw', hc, World.after_of_ok hw ▸ machine_upTo .hasty 1 w₀,
    World.after_of_ok hw' ▸ w.machine_once .hasty, fun c => ?_, hregister, hdelay⟩
  rw [ht, hsettings]
  cases c with
  | cycles => exact ⟨by decide, hcycles⟩
  | ticks => exact ⟨by decide, hticks⟩

end Turn

end ChipEight
