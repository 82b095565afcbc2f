import ChipEight.Proofs.Headless

/-!
# What a headless run computes does not depend on the rates

Between the cycles of a run in front of a plain frontend there are ticks, at places that depend on
the rates. A program that does not read the delay timer cannot see them (`cycle_congr`), so every
such run makes the cycles of one and the same machine `r`, one a turn at most. A run that ends with
a fault tells after how many cycles `r` fails (`failsAfter_of_upTo`), and a run at other rates has
either come to that fault or has not made these cycles yet (`upTo_of_failsAfter`). Its clock decides
between the two: each turn takes time, and the cycles keep up with it (`exists_upTo_of_failsAfter`).
-/

namespace ChipEight

namespace Machine

variable {m m' : Machine} {fault : Fault}

/-- The pictures that the next cycles ask to be shown. -/
def nextPictures (m : Machine) : Nat → List Screen
  | 0 => []
  | k + 1 => m.nextPicture ++ m.cycle.1.nextPictures k

/-- After `k` cycles that go on there is one that ends with the fault, and none of them reads the
delay timer. -/
def FailsAfter (fault : Fault) (m : Machine) : Nat → Prop
  | 0 => Step.readsDelay ⟨m, .cycle⟩ = false ∧ m.cycle.2 = .error fault ∧
      fault.isRecoverable = false
  | k + 1 => Step.readsDelay ⟨m, .cycle⟩ = false ∧ Step.halts ⟨m, .cycle⟩ = false ∧
      m.cycle.1.FailsAfter fault k

theorem FailsAfter.readsNoDelay {k : Nat} (h : m.FailsAfter fault k) :
    Step.readsDelay ⟨m, .cycle⟩ = false := by
  cases k <;> exact h.1

theorem cycle_congr (he : m.timeless = m'.timeless) (h : Step.readsDelay ⟨m', .cycle⟩ = false) :
    m.cycle.2 = m'.cycle.2 ∧ m.cycle.1.timeless = m'.cycle.1.timeless := by
  obtain ⟨hanswer, hmachine⟩ := perform_congr he (readsDelay_congr he .cycle ▸ h)
  injection hanswer with hanswer
  exact ⟨hanswer, hmachine⟩

theorem halts_congr (he : m.timeless = m'.timeless) (h : Step.readsDelay ⟨m', .cycle⟩ = false) :
    Step.halts ⟨m, .cycle⟩ = Step.halts ⟨m', .cycle⟩ := by
  simp only [Step.halts, (cycle_congr he h).1]

theorem nextPicture_congr (he : m.timeless = m'.timeless)
    (h : Step.readsDelay ⟨m', .cycle⟩ = false) : m.nextPicture = m'.nextPicture := by
  obtain ⟨hanswer, hmachine⟩ := cycle_congr he h
  have hscreen : m.cycle.1.state.screen = m'.cycle.1.state.screen :=
    congrArg (fun m => m.state.screen) hmachine
  simp only [nextPicture, hanswer, hscreen]

end Machine

namespace Turn

open World

variable {σ : Type} {f : Frontend σ} {I : Recorded σ → Prop} {w w' : World (Recorded σ)}
  {settings : Settings} {done : List Operation} {r : Machine} {fault : Fault} {k n : Nat}

/-- How a run of `n` turns ends that has made `k` cycles of the machine `r` and then one that halts
it. -/
structure Finishes (I : Recorded σ → Prop) (f : Frontend σ) (r : Machine) (k n : Nat)
    (w w' : World (Recorded σ)) : Prop where
  device : I w'.device
  machine : w'.session.machine.timeless = (r.run (.replicate k .cycle)).timeless
  pictures : w'.device.pictures = w.device.pictures ++ r.nextPictures k
  cycles : Clock.cycles.count (operations f.recorded n w) = k + 1

namespace Finishes

variable {w₁ : World (Recorded σ)}

theorem of_waits (hc : w.session.cancelled = false) (hturn : (once f.recorded).run w = .ok () w₁)
    (hcount : Clock.cycles.count (w.operations f.recorded) = 0)
    (hpictures : w₁.device.pictures = w.device.pictures) (h : Finishes I f r k n w₁ w') :
    Finishes I f r k (n + 1) w w' where
  device := h.device
  machine := h.machine
  pictures := hpictures ▸ h.pictures
  cycles := by
    rw [operations_of_ok hc hturn, Clock.count_append, hcount, Nat.zero_add]
    exact h.cycles

theorem of_goesOn (hc : w.session.cancelled = false) (hturn : (once f.recorded).run w = .ok () w₁)
    (hcount : Clock.cycles.count (w.operations f.recorded) = 1)
    (hpictures : w₁.device.pictures = w.device.pictures ++ r.nextPicture)
    (h : Finishes I f r.cycle.1 k n w₁ w') : Finishes I f r (k + 1) (n + 1) w w' where
  device := h.device
  machine := h.machine
  pictures := by
    rw [h.pictures, hpictures, List.append_assoc]
    rfl
  cycles := by
    rw [operations_of_ok hc hturn, Clock.count_append, hcount, h.cycles]
    exact Nat.add_comm ..

theorem of_halts (hc : w.session.cancelled = false)
    (hturn : (once f.recorded).run w = .error fault w')
    (hcount : Clock.cycles.count (w.operations f.recorded) = 1) (hdevice : I w'.device)
    (hmachine : w'.session.machine.timeless = r.timeless)
    (hpictures : w'.device.pictures = w.device.pictures) (n : Nat) :
    Finishes I f r 0 (n + 1) w w' where
  device := hdevice
  machine := hmachine
  pictures := hpictures.trans (List.append_nil _).symm
  cycles := by rw [operations_of_error hc hturn, hcount]

end Finishes

/-- A run that ends with a fault has come to it by cycles of `r`. -/
theorem failsAfter_of_upTo (hf : f.recorded.Plain I) (hs : settings.check = .ok ())
    (h : w.Runs I settings done) (hr : w.session.machine.timeless = r.timeless)
    (hrun : (upTo f.recorded n).run w = .error fault w')
    (hreads : ∀ s ∈ w.session.machine.steps (operations f.recorded n w), s.readsDelay = false) :
    ∃ k, r.FailsAfter fault k ∧ Finishes I f r k n w w' := by
  induction n generalizing w r done with
  | zero => cases hrun
  | succ n ih =>
    rw [run_upTo_succ, h.going, if_neg Bool.false_ne_true] at hrun
    have hsingle := single hf h hs
    generalize hturn : (once f.recorded).run w = result at hsingle hrun
    cases hsingle with
    | waits hcount hmachine hpictures =>
      -- the cycle that the turn waits for is still the next one of `r`
      rw [steps_operations_of_ok h.going hturn] at hreads
      obtain ⟨k, hk, hfin⟩ := ih (runs_of_once hf h hs hturn).1 (hmachine.trans hr) hrun
        fun s hmem => hreads s (List.mem_append_right _ hmem)
      exact ⟨k, hk, .of_waits h.going hturn hcount hpictures hfin⟩
    | goesOn hcount hmem hgoes hmachine hpictures =>
      rw [steps_operations_of_ok h.going hturn] at hreads
      have hfirst := Machine.readsDelay_congr hr .cycle ▸ hreads _ (List.mem_append_left _ hmem)
      obtain ⟨k, hk, hfin⟩ := ih (runs_of_once hf h hs hturn).1
        (hmachine.trans (Machine.cycle_congr hr hfirst).2) hrun
        fun s hmem => hreads s (List.mem_append_right _ hmem)
      rw [Machine.halts_congr hr hfirst] at hgoes
      rw [Machine.nextPicture_congr hr hfirst] at hpictures
      exact ⟨k + 1, ⟨hfirst, hgoes, hk⟩, .of_goesOn h.going hturn hcount hpictures hfin⟩
    | halts hcount hmem hcycle hfault hdevice hmachine hpictures =>
      cases hrun
      rw [operations_of_error h.going hturn] at hreads
      have hfirst := Machine.readsDelay_congr hr .cycle ▸ hreads _ hmem
      have hfails := (Machine.cycle_congr hr hfirst).1
      rw [hcycle] at hfails
      exact ⟨0, ⟨hfirst, hfails.symm, hfault⟩,
        .of_halts h.going hturn hcount hdevice (hmachine.trans hr) hpictures n⟩

theorem upTo_of_failsAfter (hf : f.recorded.Plain I) (hs : settings.check = .ok ())
    (h : w.Runs I settings done) (hr : w.session.machine.timeless = r.timeless)
    (hk : r.FailsAfter fault k) (n : Nat) :
    (∃ w', (upTo f.recorded n).run w = .error fault w' ∧ Finishes I f r k n w w') ∨
    ∃ w' done', (upTo f.recorded n).run w = .ok false w' ∧ w'.Runs I settings done' ∧
      w.session.now + n ≤ w'.session.now ∧
      Clock.cycles.count done' ≤ Clock.cycles.count done + k := by
  induction n generalizing w r done k with
  | zero =>
    refine .inr ⟨w, done, ?_, h, Nat.le_refl _, Nat.le_add_right ..⟩
    show EStateM.Result.ok w.session.cancelled w = .ok false w
    rw [h.going]
  | succ n ih =>
    rw [run_upTo_succ, h.going, if_neg Bool.false_ne_true]
    have hfirst := hk.readsNoDelay
    have hsingle := single hf h hs
    generalize hturn : (once f.recorded).run w = result at hsingle
    cases hsingle with
    | waits hcount hmachine hpictures =>
      obtain ⟨hruns, hlater⟩ := runs_of_once hf h hs hturn
      rcases ih hruns (hmachine.trans hr) hk with
        ⟨w', hrun, hfin⟩ | ⟨w', done', hrun, hruns', hnow, hle⟩
      · exact .inl ⟨w', hrun, .of_waits h.going hturn hcount hpictures hfin⟩
      · rw [Clock.count_append, hcount] at hle
        exact .inr ⟨w', done', hrun, hruns', by omega, hle⟩
    | goesOn hcount hmem hgoes hmachine hpictures =>
      obtain ⟨hruns, hlater⟩ := runs_of_once hf h hs hturn
      rw [Machine.halts_congr hr hfirst] at hgoes
      rw [Machine.nextPicture_congr hr hfirst] at hpictures
      cases k with
      | zero =>
        -- the next cycle is the one that fails
        obtain ⟨_, hfails, hfault⟩ := hk
        simp [Step.halts, hfails, hfault] at hgoes
      | succ k =>
        rcases ih hruns (hmachine.trans (Machine.cycle_congr hr hfirst).2) hk.2.2 with
          ⟨w', hrun, hfin⟩ | ⟨w', done', hrun, hruns', hnow, hle⟩
        · exact .inl ⟨w', hrun, .of_goesOn h.going hturn hcount hpictures hfin⟩
        · rw [Clock.count_append, hcount] at hle
          exact .inr ⟨w', done', hrun, hruns', by omega, by omega⟩
    | halts hcount hmem hcycle hfault hdevice hmachine hpictures =>
      have hfails := (Machine.cycle_congr hr hfirst).1
      rw [hcycle] at hfails
      cases k with
      | zero =>
        cases hfails.trans hk.2.1
        exact .inl ⟨_, rfl,
          .of_halts h.going hturn hcount hdevice (hmachine.trans hr) hpictures n⟩
      | succ k =>
        -- the next cycle goes on
        have hgoes := hk.2.1
        simp [Step.halts, ← hfails, hfault] at hgoes

/-- Each turn takes time, and the cycles keep up with it, so a run can be made long enough. -/
theorem exists_upTo_of_failsAfter (hf : f.recorded.Plain I) (hs : settings.check = .ok ())
    (h : w.Runs I settings []) (hr : w.session.machine.timeless = r.timeless)
    (hk : r.FailsAfter fault k) :
    ∃ n w', (upTo f.recorded n).run w = .error fault w' ∧ Finishes I f r k n w w' := by
  let period := Meter.period { hz := settings.rate .cycles }
  have hpos : 0 < period := Meter.period_pos (settings.isRate_rate hs .cycles)
  rcases upTo_of_failsAfter hf hs h hr hk ((k + 2) * period) with
    hfin | ⟨w', done, _, hruns, hnow, hcount⟩
  · exact ⟨_, hfin⟩
  · -- so long a run would have made too many cycles
    exfalso
    have hperiod : (w'.session.pacing.meter .cycles).period = period := by
      rw [Meter.period, hruns.onTime.rate .cycles]
      rfl
    have hidle : w'.session.pacing.idle ≤ period :=
      Nat.le_trans (Pacing.idle_le _ .cycles) (hperiod ▸ Nat.sub_le ..)
    have hsoon := hruns.onTime.soon
    have hmany : (k + 1) * period ≤ w'.session.pacing.last := by
      rw [Nat.add_mul] at hnow ⊢
      omega
    rw [hruns.onTime.count .cycles, hperiod] at hcount
    have hle := (Nat.le_div_iff_mul_le hpos).mpr hmany
    have hnone : Clock.cycles.count [] = 0 := rfl
    omega

theorem run_untilCancelled_eq_error_iff {f : Frontend σ} {w w' : World σ} :
    (untilCancelled f n).run w = .error fault w' ↔
      (upTo f n).run (w.after announce) = .error fault w' := by
  rw [run_untilCancelled]
  cases (upTo f n).run (w.after announce) with
  | error fault₁ w₁ => rfl
  | ok cancelled w₁ =>
    constructor <;> intro h
    · cases cancelled <;> cases h
    · cases h

end Turn

theorem Machine.load_eq_ok_iff {m m' : Machine} {rom : List UInt8} :
    m.load rom = .ok m' ↔ rom.length ≤ maxRomSize ∧ m' = m.perform (.load rom) := by
  simp only [perform, load, Snapshot.loadRom, Memory.loadRom]
  by_cases hrom : rom.length ≤ maxRomSize
  · rw [if_pos hrom]
    exact ⟨fun h => ⟨hrom, (Except.ok.inj h).symm⟩, fun h => congrArg Except.ok h.2.symm⟩
  · rw [if_neg hrom]
    constructor <;> intro h
    · cases h
    · exact absurd h.1 hrom

namespace Workbench

variable {rom : List UInt8} {settings settings' : Settings} {source : RandomSource}
  {threshold : Level} {b b' : Workbench}

/-- A program on a new machine. -/
def loaded (rom : List UInt8) (settings : Settings) (source : RandomSource) (threshold : Level) :
    Workbench :=
  report ⟨(Machine.fresh settings source).perform (.load rom), { threshold }⟩ (.loaded rom.length)

theorem withRom_eq_ok_iff : withRom rom settings source threshold = .ok b ↔
    settings.check = .ok () ∧ rom.length ≤ maxRomSize ∧
      b = loaded rom settings source threshold := by
  rw [withRom]
  cases hm : Machine.create settings source with
  | error fault =>
    refine ⟨nofun, fun h => ?_⟩
    rw [Machine.create_eq_ok_iff.mpr ⟨h.1, rfl⟩] at hm
    cases hm
  | ok m =>
    obtain ⟨hcheck, rfl⟩ := Machine.create_eq_ok_iff.mp hm
    show load _ rom = .ok b ↔ _
    rw [load]
    cases hload : (Machine.fresh settings source).load rom with
    | error fault =>
      refine ⟨nofun, fun h => ?_⟩
      rw [Machine.load_eq_ok_iff.mpr ⟨h.2.1, rfl⟩] at hload
      cases hload
    | ok m =>
      obtain ⟨hrom, rfl⟩ := Machine.load_eq_ok_iff.mp hload
      exact ⟨fun h => ⟨hcheck, hrom, (Except.ok.inj h).symm⟩,
        fun h => congrArg Except.ok h.2.2.symm⟩

theorem settings_withRom (h : withRom rom settings source threshold = .ok b) :
    b.machine.settings = settings := by
  obtain ⟨_, _, rfl⟩ := withRom_eq_ok_iff.mp h
  exact Machine.settings_perform ..

theorem timeless_withRom (hsettings : settings.timeless = settings'.timeless)
    (h : withRom rom settings source threshold = .ok b)
    (h' : withRom rom settings' source threshold = .ok b') :
    b.machine.timeless = b'.machine.timeless := by
  obtain ⟨_, _, rfl⟩ := withRom_eq_ok_iff.mp h
  obtain ⟨_, _, rfl⟩ := withRom_eq_ok_iff.mp h'
  have hseed : settings.seed = settings'.seed := (congrArg Settings.seed hsettings :)
  have hfresh : (Machine.fresh settings source).timeless =
      (Machine.fresh settings' source).timeless := by
    refine Machine.timeless_ext hsettings rfl rfl rfl ?_
    simp only [Machine.fresh, hseed]
  exact (Machine.perform_congr (o := .load rom) hfresh rfl).2

end Workbench

namespace World

variable {sink : Sink}

theorem runs_announced (b : Workbench) (hsink : sink.TakesAll) :
    Runs (Sink.Holds sink.muted) b.machine.settings []
      ((World.new b.machine b.journal sink).after Turn.announce) where
  device := .start hsink
  going := rfl
  onTime := Session.OnTime.start

end World

open Turn in
/-- **What a headless run computes does not depend on the rates.** Let a program be loaded twice,
for rates of its own each time, and let the first run on a terminal, whose sink takes every text,
end with a fault without a cycle that reads the delay timer. Then the second ends too, if it is
given enough turns: with the same fault, with a machine that is the run of as many cycles and is the
same but for the timers, with the same pictures, and with the same text but for the bells. -/
theorem rates_unseen {rom : List UInt8} {settings : Settings} {clockHz timerHz : Nat}
    {source : RandomSource} {threshold : Level} {b b' : Workbench}
    (hb : Workbench.withRom rom settings source threshold = .ok b)
    (hb' : Workbench.withRom rom { settings with clockHz, timerHz } source threshold = .ok b')
    {sink : Sink} (hsink : sink.TakesAll) {n : Nat} {fault : Fault} {w : World (Recorded Sink)}
    (hrun : (untilCancelled Terminal.frontend.recorded n).run
      (.new b.machine b.journal sink) = .error fault w)
    (hreads : ∀ s ∈ (Session.start b.machine).machine.steps (operations Terminal.frontend.recorded n
      ((World.new b.machine b.journal sink).after announce)), s.readsDelay = false) :
    ∃ n' w', (untilCancelled Terminal.frontend.recorded n').run
        (.new b'.machine b'.journal sink) = .error fault w' ∧
      (let ops := operations Terminal.frontend.recorded n
        ((World.new b.machine b.journal sink).after announce)
      let ops' := operations Terminal.frontend.recorded n'
        ((World.new b'.machine b'.journal sink).after announce)
      w.session.machine = (Session.start b.machine).machine.run ops ∧
      w'.session.machine = (Session.start b'.machine).machine.run ops' ∧
      Clock.cycles.count ops' = Clock.cycles.count ops) ∧
      w'.session.machine.timeless = w.session.machine.timeless ∧
      w'.device.pictures = w.device.pictures ∧ w'.device.device.muted = w.device.device.muted := by
  have hplain := Terminal.plain sink.muted
  have hcheck : b.machine.settings.check = .ok () :=
    Workbench.settings_withRom hb ▸ (Workbench.withRom_eq_ok_iff.mp hb).1
  have hcheck' : b'.machine.settings.check = .ok () :=
    Workbench.settings_withRom hb' ▸ (Workbench.withRom_eq_ok_iff.mp hb').1
  have hsettings :
      ({ settings with clockHz, timerHz } : Settings).timeless = settings.timeless := rfl
  have hsame := Workbench.timeless_withRom hsettings hb' hb
  rw [run_untilCancelled_eq_error_iff] at hrun
  obtain ⟨k, hk, hfin⟩ := failsAfter_of_upTo hplain hcheck (World.runs_announced b hsink)
    b.machine.timeless_takeReceiver hrun hreads
  obtain ⟨n', w', hrun', hfin'⟩ := exists_upTo_of_failsAfter hplain hcheck'
    (World.runs_announced b' hsink) (b'.machine.timeless_takeReceiver.trans hsame) hk
  have hpictures : w'.device.pictures = w.device.pictures := by
    rw [hfin.pictures, hfin'.pictures]
    rfl
  refine ⟨n', w', run_untilCancelled_eq_error_iff.mpr hrun', ⟨World.after_of_error hrun ▸
      machine_upTo .., World.after_of_error hrun' ▸ machine_upTo ..,
      hfin'.cycles.trans hfin.cycles.symm⟩, hfin'.machine.trans hfin.machine.symm, hpictures, ?_⟩
  rw [hfin.device.muted, hfin'.device.muted, hpictures]

/-- A tone of one tick, a sprite and a return from nowhere. -/
def toneAndSprite : List UInt8 := [0x60, 0x01, 0xF0, 0x18, 0xD0, 0x05, 0x00, 0xEE]

open Turn in
/-- At 60 ticks a second the tone ends before the program does, at one a second it does not. -/
theorem rates_unseen_bell_in_one :
    let b := Workbench.loaded toneAndSprite {} (.cipher default) .info
    let b' :=
      Workbench.loaded toneAndSprite { clockHz := 1000, timerHz := 1 } (.cipher default) .info
    ∃ n' w w',
      (untilCancelled Terminal.frontend.recorded 5).run (.new b.machine b.journal {}) =
        .error (.stackUnderflow 0x206) w ∧
      (untilCancelled Terminal.frontend.recorded n').run (.new b'.machine b'.journal {}) =
        .error (.stackUnderflow 0x206) w' ∧
      w.device.tones = 1 ∧ w.device.pictures.length = 1 ∧
      w'.device.device.muted = w.device.device.muted := by
  intro b b'
  have hb : Workbench.withRom toneAndSprite {} (.cipher default) .info = .ok b :=
    Workbench.withRom_eq_ok_iff.mpr ⟨rfl, by decide, rfl⟩
  have hb' : Workbench.withRom toneAndSprite { clockHz := 1000, timerHz := 1 } (.cipher default)
      .info = .ok b' := Workbench.withRom_eq_ok_iff.mpr ⟨rfl, by decide, rfl⟩
  have hends : failsWith (untilCancelled Terminal.frontend.recorded 5) (.stackUnderflow 0x206)
      (fun w => w.device.tones == 1 && w.device.pictures.length == 1)
      (.new b.machine b.journal {}) = true := by
    decide +kernel
  have hreads : ∀ s ∈ (Session.start b.machine).machine.steps
      (operations Terminal.frontend.recorded 5 ((World.new b.machine b.journal {}).after announce)),
      s.readsDelay = false := by
    decide +kernel
  obtain ⟨w, hrun, hcalls⟩ := exists_of_failsWith hends
  rw [Bool.and_eq_true, beq_iff_eq, beq_iff_eq] at hcalls
  obtain ⟨htones, hpictures⟩ := hcalls
  obtain ⟨n', w', hrun', _, _, _, hmuted⟩ := rates_unseen hb hb' ⟨rfl, rfl⟩ hrun hreads
  exact ⟨n', w, w', hrun, hrun', htones, hpictures, hmuted⟩

end ChipEight
