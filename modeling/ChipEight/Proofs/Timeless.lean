import ChipEight.ByteStream.Seeded
import ChipEight.Proofs.Batches

/-!
# Programs see the timers through one instruction only

`Machine.timeless` forgets what time alone moves: both timers, also those of the snapshots in the
past, the tones, and the rates. A tick cannot be seen behind it. All other operations go without the
timers as they go with them, unless a cycle reads the delay timer (`timeless_perform`); so two runs
that agree but for their ticks cannot be told apart (`agree_filter`).

The one place where a timer could leak is the past. Whether a cycle is recorded is decided by a
comparison of states, timers included; but an instruction that sets a timer also goes on, so the
timers never decide it (`unchanged_timeless_iff`).
-/

namespace ChipEight

/-! ### Snapshots and instructions without timers -/

namespace Snapshot

def timeless (s : Snapshot) : Snapshot := { s with delay := 0, sound := 0 }

theorem eq_of_timeless_eq {s s' : Snapshot} (h : s.timeless = s'.timeless)
    (hdelay : s.delay = s'.delay) (hsound : s.sound = s'.sound) : s = s' := by
  have hs : s = { s.timeless with delay := s.delay, sound := s.sound } := rfl
  rw [hs, h, hdelay, hsound]
  rfl

theorem push_timeless (s : Snapshot) (addr : UInt16) :
    s.timeless.push addr = (s.push addr).map timeless := by
  have hsp : s.timeless.sp = s.sp := rfl
  unfold push
  by_cases h : s.sp.toNat < stackDepth
  · simp only [hsp, h, dif_pos]
    rfl
  · simp only [hsp, h, dif_neg, not_false_eq_true]
    rfl

theorem pop_timeless (s : Snapshot) :
    s.timeless.pop = s.pop.map fun r => (r.1, r.2.timeless) := by
  have hsp : s.timeless.sp = s.sp := rfl
  unfold pop
  by_cases h : 0 < s.sp.toNat ∧ s.sp.toNat ≤ stackDepth
  · simp only [hsp, h]
    rfl
  · simp only [hsp, h, dif_neg, not_false_eq_true]
    rfl

theorem readIndexed_timeless (s : Snapshot) (len : Nat) :
    s.timeless.readIndexed len = s.readIndexed len := rfl

theorem writeIndexed_timeless (s : Snapshot) (bytes : List UInt8) :
    s.timeless.writeIndexed bytes = (s.writeIndexed bytes).map timeless := by
  unfold writeIndexed
  have h : s.timeless.memory.writeBlock s.timeless.index.toNat bytes =
      s.memory.writeBlock s.index.toNat bytes := rfl
  rw [h]
  cases s.memory.writeBlock s.index.toNat bytes <;> rfl

end Snapshot

namespace Context

def timeless (c : Context) : Context := c.withState c.state.timeless

theorem combine_timeless (c : Context) (op : Alu) (x y : Register) :
    c.timeless.combine op x y = (c.combine op x y).timeless := by
  have hx : c.timeless.state.register x = c.state.register x := rfl
  have hy : c.timeless.state.register y = c.state.register y := rfl
  unfold combine
  rw [hx, hy]
  obtain ⟨result, _ | flag⟩ := op.apply (c.state.register x) (c.state.register y) <;> rfl

theorem awaitKey_timeless (c : Context) (consume : Bool) (x : Register) :
    c.timeless.awaitKey consume x = (c.awaitKey consume x).timeless := by
  have hkeys : c.timeless.keys = c.keys := rfl
  unfold awaitKey
  rw [hkeys]
  cases c.keys.lowest? <;> rfl

end Context

namespace Instruction

variable {consume : Bool} {c c' : Context} {i : Instruction}

/-- What an instruction does, but for the timers, does not depend on the timers, unless it is the
one that reads the delay timer. -/
theorem execute_timeless (hi : ∀ x, i ≠ readDelay x) :
    (i.execute consume c.timeless).map Context.timeless =
      (i.execute consume c).map Context.timeless := by
  rw [execute_eq, execute_eq]
  cases i with
  | readDelay x => exact absurd rfl (hi x)
  | ret =>
    have h : c.timeless.state.pop = _ := c.state.pop_timeless
    simp only [effect, h]
    cases c.state.pop <;> rfl
  | call addr =>
    have h : c.timeless.state.push c.timeless.state.pc = _ := c.state.push_timeless c.state.pc
    simp only [effect, h]
    cases c.state.push c.state.pc <;> rfl
  | draw x y n =>
    have h : c.timeless.state.readIndexed n = _ := c.state.readIndexed_timeless n
    simp only [effect, h]
    cases c.state.readIndexed n <;> rfl
  | fetch x =>
    have h : c.timeless.state.readIndexed (x + 1) = _ := c.state.readIndexed_timeless (x + 1)
    simp only [effect, h]
    cases c.state.readIndexed (x + 1) <;> rfl
  | decimal x =>
    have h : c.timeless.state.writeIndexed (decimalDigits (c.timeless.state.register x)) = _ :=
      c.state.writeIndexed_timeless (decimalDigits (c.state.register x))
    simp only [effect, h]
    cases c.state.writeIndexed (decimalDigits (c.state.register x)) <;> rfl
  | store x =>
    have h : c.timeless.state.writeIndexed (c.timeless.state.v.toList.take (x + 1)) = _ :=
      c.state.writeIndexed_timeless (c.state.v.toList.take (x + 1))
    simp only [effect, h]
    cases c.state.writeIndexed (c.state.v.toList.take (x + 1)) <;> rfl
  | alu op x y =>
    simp only [effect, Context.combine_timeless]
    rfl
  | waitKey x =>
    simp only [effect, Context.awaitKey_timeless]
    rfl
  | _ => rfl

theorem timers_of_execute (h : i.execute consume c = .ok c') (hpc : c'.state.pc = c.state.pc) :
    c'.state.delay = c.state.delay ∧ c'.state.sound = c.state.sound := by
  have hnext : c.state.pc + 2 ≠ c.state.pc := by simp
  constructor
  · by_contra hne
    obtain ⟨x, rfl⟩ := (execute_footprint h).delay hne
    cases h
    exact hnext hpc
  · by_contra hne
    obtain ⟨x, rfl⟩ := (execute_footprint h).sound hne
    cases h
    exact hnext hpc

end Instruction

/-! ### Machines without timers -/

def Settings.timeless (s : Settings) : Settings := { s with clockHz := 0, timerHz := 0 }

namespace Machine

/-- All of a machine but the timers, now and in the past, the tones and the rates. -/
def timeless (m : Machine) : Machine where
  settings := m.settings.timeless
  state := m.state.timeless
  history := m.history.map Snapshot.timeless
  keys := m.keys
  random := m.random
  mailbox := {}
  receiverTaken := false

variable {m m' : Machine}

theorem timeless_ext (hsettings : m.settings.timeless = m'.settings.timeless)
    (hstate : m.state.timeless = m'.state.timeless)
    (hhistory : m.history.map Snapshot.timeless = m'.history.map Snapshot.timeless)
    (hkeys : m.keys = m'.keys) (hrandom : m.random = m'.random) : m.timeless = m'.timeless := by
  unfold timeless
  rw [hsettings, hstate, hhistory, hkeys, hrandom]

@[simp] theorem timeless_timeless (m : Machine) : m.timeless.timeless = m.timeless := by
  refine timeless_ext rfl rfl ?_ rfl rfl
  simp only [timeless, List.map_map]
  rfl

theorem timeless_remembered (m : Machine) :
    m.remembered.map Snapshot.timeless = m.timeless.remembered := by
  simp only [remembered, List.map_take]
  rfl

theorem timeless_passOver (m : Machine) : m.timeless.passOver.timeless = m.passOver.timeless := by
  refine timeless_ext rfl rfl ?_ rfl rfl
  show m.timeless.remembered.map _ = m.remembered.map _
  rw [timeless_remembered, timeless_remembered, timeless_timeless]

theorem unchanged_timeless_iff {i : Instruction} {c : Context} (h : m.outcome i = .ok c) :
    { m.state.timeless with drawn := c.state.timeless.drawn } = c.state.timeless ↔
      { m.state with drawn := c.state.drawn } = c.state := by
  constructor
  · intro he
    have hpc : c.state.pc = m.state.pc := (congrArg Snapshot.pc he).symm
    obtain ⟨hdelay, hsound⟩ := Instruction.timers_of_execute h hpc
    exact Snapshot.eq_of_timeless_eq he hdelay.symm hsound.symm
  · intro he
    exact congrArg Snapshot.timeless he

theorem timeless_commit {i : Instruction} {c : Context} (h : m.outcome i = .ok c) :
    (m.commit c).timeless = (m.timeless.commit c.timeless).timeless := by
  refine timeless_ext rfl rfl ?_ rfl rfl
  by_cases hsame : { m.state with drawn := c.state.drawn } = c.state
  · have hpast : (m.commit c).history = m.history := if_pos hsame
    have hpast' : (m.timeless.commit c.timeless).history = m.timeless.history :=
      if_pos ((unchanged_timeless_iff h).mpr hsame)
    rw [hpast, hpast']
    exact (congrArg history m.timeless_timeless).symm
  · have hpast : (m.commit c).history = m.remembered := if_neg hsame
    have hpast' : (m.timeless.commit c.timeless).history = m.timeless.remembered :=
      if_neg (mt (unchanged_timeless_iff h).mp hsame)
    rw [hpast, hpast', timeless_remembered, timeless_remembered, timeless_timeless]

theorem timeless_tick (m : Machine) : m.tick.timeless = m.timeless := rfl

theorem timeless_reverse (m : Machine) :
    m.timeless.reverse.2 = m.reverse.2 ∧ m.timeless.reverse.1.timeless = m.reverse.1.timeless := by
  cases hp : m.history with
  | nil =>
    have hp' : m.timeless.history = [] := congrArg (List.map Snapshot.timeless) hp
    rw [reverse_of_nil hp, reverse_of_nil hp']
    exact ⟨rfl, m.timeless_timeless⟩
  | cons s past =>
    have hp' : m.timeless.history = s.timeless :: past.map Snapshot.timeless :=
      congrArg (List.map Snapshot.timeless) hp
    rw [reverse_of_cons hp, reverse_of_cons hp']
    refine ⟨rfl, timeless_ext rfl rfl ?_ rfl rfl⟩
    simp only [List.map_map]
    rfl

end Machine

/-! ### Operations without timers -/

def Operation.isTick : Operation → Bool
  | .tick => true
  | _ => false

theorem Operation.eq_tick_of_isTick {o : Operation} (h : o.isTick = true) : o = .tick := by
  cases o with
  | tick => rfl
  | _ => cases h

/-- What an operation answers, if it is a cycle or a reversal. -/
inductive Answer where
  | cycle (result : Except Fault Cycle)
  | reversal (done : Bool)
  | nothing

namespace Step

/-- A cycle on a word of some kind. -/
def finds (p : Word → Bool) : Step → Bool
  | ⟨m, .cycle⟩ => m.fetch.toOption.any p
  | _ => false

/-- A cycle on a word that reads the delay timer. -/
def readsDelay : Step → Bool := finds fun word => word.family = 0xF && word.kk = 0x07

def answer : Step → Answer
  | ⟨m, .cycle⟩ => .cycle m.cycle.2
  | ⟨m, .reverse⟩ => .reversal m.reverse.2
  | _ => .nothing

theorem finds_timeless (p : Word → Bool) (m : Machine) (o : Operation) :
    finds p ⟨m.timeless, o⟩ = finds p ⟨m, o⟩ := by
  cases o <;> rfl

end Step

namespace Machine

variable {m m' : Machine} {o : Operation}

theorem finds_of_instruction? {p : Word → Bool} {i : Instruction} (h : m.instruction? = some i) :
    Step.finds p ⟨m, .cycle⟩ = p i.encode := by
  obtain ⟨w, hw, hd⟩ := instruction?_eq_some_iff.mp h
  obtain rfl := Instruction.decode?_eq_some_iff.mp hd
  simp [Step.finds, hw, Except.toOption]

theorem ne_readDelay {i : Instruction} (h : Step.readsDelay ⟨m, .cycle⟩ = false)
    (hi : m.instruction? = some i) (x : Register) : i ≠ .readDelay x := by
  rintro rfl
  rw [Step.readsDelay, finds_of_instruction? hi] at h
  simp [Instruction.encode, Word.family_ofByte, Word.kk_ofByte] at h

theorem timeless_cycle (h : Step.readsDelay ⟨m, .cycle⟩ = false) :
    m.timeless.cycle.2 = m.cycle.2 ∧ m.timeless.cycle.1.timeless = m.cycle.1.timeless := by
  have hout : ∀ i, m.instruction? = some i →
      (m.timeless.outcome i).map Context.timeless = (m.outcome i).map Context.timeless :=
    fun i hi => Instruction.execute_timeless (c := m.context) (ne_readDelay h hi)
  rcases m.cycle_cases with ⟨hpc, hc⟩ | ⟨w, hw, hd, hc⟩ | ⟨i, f, hi, he, hc⟩ | ⟨i, c, hi, he, hc⟩
  · have hc' : m.timeless.cycle = _ := cycle_of_gt (m := m.timeless) hpc
    rw [hc, hc']
    exact ⟨rfl, m.timeless_timeless⟩
  · have hc' : m.timeless.cycle = _ := cycle_of_unknown (m := m.timeless) hw hd
    rw [hc, hc']
    exact ⟨rfl, m.timeless_passOver⟩
  · have houti := hout i hi
    rw [he] at houti
    cases he' : m.timeless.outcome i with
    | ok c' => rw [he'] at houti; cases houti
    | error f' =>
      rw [he'] at houti
      cases houti
      have hc' : m.timeless.cycle = _ := cycle_of_error (m := m.timeless) hi he'
      rw [hc, hc']
      exact ⟨rfl, m.timeless_timeless⟩
  · have houti := hout i hi
    rw [he] at houti
    cases he' : m.timeless.outcome i with
    | error f' => rw [he'] at houti; cases houti
    | ok c' =>
      rw [he'] at houti
      have hcontext : c'.timeless = c.timeless := Except.ok.inj houti
      have hc' : m.timeless.cycle = _ := cycle_of_ok (m := m.timeless) hi he'
      rw [hc, hc']
      refine ⟨rfl, ?_⟩
      rw [timeless_commit he, timeless_commit he', timeless_timeless, hcontext]

theorem timeless_perform (h : Step.readsDelay ⟨m, o⟩ = false) :
    Step.answer ⟨m.timeless, o⟩ = Step.answer ⟨m, o⟩ ∧
      (m.timeless.perform o).timeless = (m.perform o).timeless := by
  cases o with
  | cycle =>
    obtain ⟨hanswer, hmachine⟩ := timeless_cycle h
    exact ⟨congrArg Answer.cycle hanswer, hmachine⟩
  | reverse =>
    obtain ⟨hanswer, hmachine⟩ := m.timeless_reverse
    exact ⟨congrArg Answer.reversal hanswer, hmachine⟩
  | load rom =>
    refine ⟨rfl, ?_⟩
    have hrom : m.timeless.state.memory.loadRom rom = m.state.memory.loadRom rom := rfl
    simp only [perform, load, Snapshot.loadRom, hrom]
    cases m.state.memory.loadRom rom with
    | error f => exact m.timeless_timeless
    | ok memory => exact timeless_ext rfl rfl (congrArg history m.timeless_timeless) rfl rfl
  | _ => exact ⟨rfl, timeless_ext rfl rfl (congrArg history m.timeless_timeless) rfl rfl⟩

variable {ops ops' : List Operation}

theorem readsDelay_congr (he : m.timeless = m'.timeless) (o : Operation) :
    Step.readsDelay ⟨m, o⟩ = Step.readsDelay ⟨m', o⟩ := by
  rw [Step.readsDelay, ← Step.finds_timeless, he, Step.finds_timeless]

theorem perform_congr (he : m.timeless = m'.timeless) (h : Step.readsDelay ⟨m, o⟩ = false) :
    Step.answer ⟨m, o⟩ = Step.answer ⟨m', o⟩ ∧
      (m.perform o).timeless = (m'.perform o).timeless := by
  obtain ⟨hanswer, hmachine⟩ := timeless_perform h
  obtain ⟨hanswer', hmachine'⟩ := timeless_perform (readsDelay_congr he o ▸ h)
  rw [← hanswer, ← hmachine, he]
  exact ⟨hanswer', hmachine'⟩

/-! ### Runs without ticks -/

/-- What can be seen of a run without a clock: of every operation but the ticks its answer, and the
machine behind it without the timers. -/
def transcript (m : Machine) (ops : List Operation) : List (Operation × Answer × Machine) :=
  ((m.steps ops).filter fun s => !s.operation.isTick).map fun s =>
    (s.operation, s.answer, (s.machine.perform s.operation).timeless)

theorem transcript_tick (m : Machine) (ops : List Operation) :
    m.transcript (.tick :: ops) = m.tick.transcript ops := rfl

theorem transcript_cons (ho : o.isTick = false) :
    m.transcript (o :: ops) =
      (o, Step.answer ⟨m, o⟩, (m.perform o).timeless) :: (m.perform o).transcript ops := by
  simp [transcript, steps, ho]

theorem any_readsDelay_filter (he : m.timeless = m'.timeless) (ops : List Operation) :
    (m.steps ops).any Step.readsDelay =
      (m'.steps (ops.filter fun o => !o.isTick)).any Step.readsDelay := by
  induction ops generalizing m m' with
  | nil => rfl
  | cons o ops ih =>
    cases ho : o.isTick with
    | true =>
      obtain rfl := Operation.eq_tick_of_isTick ho
      exact ih (m.timeless_tick.trans he)
    | false =>
      rw [List.filter_cons_of_pos (by simp [ho]), steps, steps, List.any_cons, List.any_cons,
        readsDelay_congr he]
      cases hr : Step.readsDelay ⟨m', o⟩ with
      | true => rfl
      | false => exact ih (perform_congr he (readsDelay_congr he o ▸ hr)).2

/-- A run that does not read the delay timer goes as it goes without its ticks. -/
theorem agree_filter (he : m.timeless = m'.timeless)
    (h : (m.steps ops).any Step.readsDelay = false) :
    m.transcript ops = m'.transcript (ops.filter fun o => !o.isTick) ∧
      (m.run ops).timeless = (m'.run (ops.filter fun o => !o.isTick)).timeless := by
  induction ops generalizing m m' with
  | nil => exact ⟨rfl, he⟩
  | cons o ops ih =>
    rw [steps, List.any_cons, Bool.or_eq_false_iff] at h
    obtain ⟨hfirst, hrest⟩ := h
    cases ho : o.isTick with
    | true =>
      obtain rfl := Operation.eq_tick_of_isTick ho
      rw [transcript_tick]
      exact ih (m.timeless_tick.trans he) hrest
    | false =>
      obtain ⟨hanswer, hmachine⟩ := perform_congr he hfirst
      obtain ⟨htranscript, hrun⟩ := ih hmachine hrest
      rw [List.filter_cons_of_pos (by simp [ho]), transcript_cons ho, transcript_cons ho, hanswer,
        hmachine, htranscript]
      exact ⟨rfl, hrun⟩

/-- **The timers are seen through one instruction only.** Let two machines be built alike, from a
seed under which both have the same random words, and let two runs of them be the same but for their
ticks. If the first never reads the delay timer, then the two cannot be told apart: their cycles and
reversals answer the same, and behind every operation the two machines are the same but for the
timers. -/
theorem ticks_unseen {settings : Settings} {seeded : UInt64 → Nat → UInt32}
    {unseeded unseeded' : Nat → UInt32} (hseed : settings.seed.isSome = true)
    (hm : create settings ⟨seeded, unseeded⟩ = .ok m)
    (hm' : create settings ⟨seeded, unseeded'⟩ = .ok m')
    (hops : (ops.filter fun o => !o.isTick) = ops'.filter fun o => !o.isTick)
    (h : ∀ s ∈ m.steps ops, s.readsDelay = false) : m.transcript ops = m'.transcript ops' := by
  have he : m.timeless = m'.timeless := by
    obtain ⟨_, rfl⟩ := create_eq_ok_iff.mp hm
    obtain ⟨_, rfl⟩ := create_eq_ok_iff.mp hm'
    obtain ⟨seed, hs⟩ := Option.isSome_iff_exists.mp hseed
    simp only [fresh, RandomSource.bytes, hs, Option.elim_some]
  have hany : (m.steps ops).any Step.readsDelay = false :=
    List.any_eq_false.mpr fun s hs => Bool.eq_false_iff.mp (h s hs)
  have hany' : (m'.steps ops').any Step.readsDelay = false := by
    rw [any_readsDelay_filter rfl, ← hops, ← any_readsDelay_filter he]
    exact hany
  rw [(agree_filter he hany).1, (agree_filter rfl hany').1, hops]

/-- A program sets both timers and is taken back one cycle. A tick before that cycle comes back with
the snapshot and a tick behind it does not, and yet the two runs look the same. -/
theorem ticks_unseen_taken_back :
    let m := fresh { seed := some 8 } (.cipher default)
    let program : Operation := .load [0x60, 0x02, 0xF0, 0x15, 0xF0, 0x18, 0x12, 0x06]
    let ops := [program, .cycle, .cycle, .cycle, .tick, .tick, .reverse]
    let ops' := [program, .tick, .cycle, .cycle, .tick, .cycle, .reverse]
    m.transcript ops = m.transcript ops' ∧
      (m.run ops).state.delay = 2 ∧ (m.run ops').state.delay = 1 := by
  intro m program ops ops'
  have hm : create { seed := some 8 } (.cipher default) = .ok m := create_eq_ok_iff.mpr ⟨rfl, rfl⟩
  refine ⟨ticks_unseen rfl hm hm rfl ?_, ?_, ?_⟩
  all_goals decide +kernel

end Machine

end ChipEight
