import ChipEight.ByteStream.Seeded
import ChipEight.Proofs.Timeless
import Mathlib.Data.List.Induction

/-!
# The timers in closed form

What a timer shows depends on two numbers that can be read off the steps of a run: the value that
was loaded last, and the ticks since. `timer_perform` says what one operation does to a timer, both
timers alike, and `timer_run` is the closed form. The sound timer runs out at the tick that makes
the two numbers equal, so a load runs it out once at most, and only if it is not zero
(`expiries_of_load`, `expiries_le`).

Reversals are left out: they bring back timers that were loaded and ticked in another course of
events.
-/

namespace ChipEight

inductive Timer where
  | delay | sound
  deriving DecidableEq

def Snapshot.timer (s : Snapshot) : Timer → UInt8
  | .delay => s.delay
  | .sound => s.sound

namespace Instruction

/-- The value that an instruction loads into a timer. -/
def loads? (s : Snapshot) : Timer → Instruction → Option UInt8
  | .delay, setDelay x | .sound, setSound x => some (s.register x)
  | _, _ => none

variable {consume : Bool} {c c' : Context} {i : Instruction}

theorem loads?_of_error {f : Fault} (h : i.execute consume c = .error f) (s : Snapshot)
    (t : Timer) : i.loads? s t = none := by
  cases i with
  | setDelay x | setSound x => cases h
  | _ => cases t <;> rfl

theorem timer_of_execute (h : i.execute consume c = .ok c') (t : Timer) :
    c'.state.timer t = (i.loads? c.state t).getD (c.state.timer t) := by
  have hfoot := execute_footprint h
  have hdelay : (∀ x, i ≠ setDelay x) → c'.state.delay = c.state.delay := by
    intro hi
    by_contra hne
    obtain ⟨x, hx⟩ := hfoot.delay hne
    exact hi x hx
  have hsound : (∀ x, i ≠ setSound x) → c'.state.sound = c.state.sound := by
    intro hi
    by_contra hne
    obtain ⟨x, hx⟩ := hfoot.sound hne
    exact hi x hx
  cases i with
  | setDelay x | setSound x => cases h; cases t <;> rfl
  | _ =>
    cases t
    · exact hdelay fun x => by simp
    · exact hsound fun x => by simp

end Instruction

namespace Step

/-- The value that a step loads into a timer. -/
def loads? (t : Timer) : Step → Option UInt8
  | ⟨m, .cycle⟩ => m.instruction?.bind fun i => i.loads? m.state t
  | _ => none

/-- A cycle that loads something other than zero into the sound timer. -/
def loadsTone (s : Step) : Bool := (s.loads? .sound).any (· ≠ 0)

/-- The value that was loaded last, in steps of which the latest comes first. -/
def lastLoad (t : Timer) (past : List Step) : Nat :=
  ((past.findSome? (loads? t)).map UInt8.toNat).getD 0

def ticksSince (t : Timer) (past : List Step) : Nat :=
  (past.takeWhile fun s => (s.loads? t).isNone).countP fun s => s.operation.isTick

variable {s : Step} {past : List Step} {t : Timer}

theorem lastLoad_cons : lastLoad t (s :: past) =
    ((s.loads? t).map UInt8.toNat).getD (lastLoad t past) := by
  unfold lastLoad
  cases h : s.loads? t <;> simp [h]

theorem ticksSince_cons : ticksSince t (s :: past) =
    if (s.loads? t).isNone then ticksSince t past + s.operation.isTick.toNat else 0 := by
  unfold ticksSince
  cases h : s.loads? t with
  | some v => simp [h]
  | none => cases ho : s.operation.isTick <;> simp [h, ho]

theorem expires_eq (m : Machine) (o : Operation) :
    Step.expires ⟨m, o⟩ = (o.isTick && (m.state.timer .sound).toNat = 1) := by
  have hone : m.state.sound = 1 ↔ m.state.sound.toNat = 1 := UInt8.toNat_inj.symm
  cases o with
  | tick => exact decide_eq_decide.mpr hone
  | _ => rfl

end Step

namespace Machine

variable {m new : Machine} {o : Operation} {ops : List Operation} {t : Timer}

/-- The steps of a run, the latest first. -/
def past (m : Machine) (ops : List Operation) : List Step := (m.steps ops).reverse

theorem past_concat (m : Machine) (ops : List Operation) (o : Operation) :
    m.past (ops ++ [o]) = ⟨m.run ops, o⟩ :: m.past ops := by
  rw [past, steps_append, List.reverse_append]
  rfl

theorem timer_cycle (m : Machine) (t : Timer) :
    m.cycle.1.state.timer t = (Step.loads? t ⟨m, .cycle⟩).getD (m.state.timer t) := by
  have hloads : Step.loads? t ⟨m, .cycle⟩ = m.instruction?.bind fun i => i.loads? m.state t := rfl
  rcases m.cycle_carries_out with ⟨i, c, hi, he, hc⟩ | ⟨hfails, hc⟩
  · rw [hc, hloads, hi, Option.bind_some]
    exact Instruction.timer_of_execute he t
  · have hnone : Step.loads? t ⟨m, .cycle⟩ = none := by
      rw [hloads, Option.bind_eq_none_iff]
      intro i hi
      obtain ⟨f, he⟩ := hfails i hi
      exact Instruction.loads?_of_error he m.state t
    rw [hnone]
    rcases hc with hc | hc <;> rw [hc] <;> cases t <;> rfl

theorem toNat_timer_tick (s : Snapshot) (t : Timer) :
    (s.tick.timer t).toNat = (s.timer t).toNat - 1 := by
  have hdown : ∀ b : UInt8, (if b = 0 then 0 else b - 1).toNat = b.toNat - 1 := by
    intro b
    by_cases hb : b = 0
    · simp [hb]
    · have hpos : 0 < b.toNat := Nat.pos_of_ne_zero fun h => hb (UInt8.toNat_inj.mp h)
      rw [if_neg hb, toNat_sub_one hpos]
  cases t
  · exact hdown s.delay
  · exact hdown s.sound

theorem timer_perform (ho : o ≠ .reverse) (t : Timer) : ((m.perform o).state.timer t).toNat =
    ((Step.loads? t ⟨m, o⟩).map UInt8.toNat).getD ((m.state.timer t).toNat - o.isTick.toNat) := by
  cases o with
  | reverse => exact absurd rfl ho
  | cycle =>
    show (m.cycle.1.state.timer t).toNat = _
    rw [timer_cycle]
    cases Step.loads? t ⟨m, .cycle⟩ <;> rfl
  | tick => exact toNat_timer_tick m.state t
  | load rom =>
    obtain ⟨memory, hm⟩ := m.exists_perform_load rom
    rw [hm]
    cases t <;> rfl
  | _ => rfl

/-- The closed form of a timer that starts at zero. -/
theorem timer_run (h0 : (m.state.timer t).toNat = 0) (hops : Operation.reverse ∉ ops) :
    ((m.run ops).state.timer t).toNat =
      Step.lastLoad t (m.past ops) - Step.ticksSince t (m.past ops) := by
  induction ops using List.reverseRecOn with
  | nil => rw [run_nil, h0]; rfl
  | append_singleton ops o ih =>
    have ho : o ≠ .reverse := fun he => hops (by simp [he])
    have htimer := ih fun hmem => hops (List.mem_append_left _ hmem)
    rw [run_append, run_cons, run_nil, timer_perform ho, past_concat, Step.lastLoad_cons,
      Step.ticksSince_cons, htimer]
    cases Step.loads? t ⟨m.run ops, o⟩ with
    | some v => rfl
    | none =>
      simp only [Option.map_none, Option.getD_none, Option.isNone_none, if_true]
      omega

theorem expiries_of_load (hops : Operation.reverse ∉ ops)
    (hkeep : ∀ s ∈ m.steps ops, s.loads? .sound = none) :
    (m.steps ops).countP Step.expires =
      if 1 ≤ (m.state.timer .sound).toNat ∧
        (m.state.timer .sound).toNat ≤ ops.countP Operation.isTick then 1 else 0 := by
  induction ops generalizing m with
  | nil =>
    have hnone : ¬(1 ≤ (m.state.timer .sound).toNat ∧ (m.state.timer .sound).toNat ≤ 0) := by omega
    exact (if_neg hnone).symm
  | cons o ops ih =>
    obtain ⟨hfirst, hrest⟩ := List.forall_mem_cons.mp hkeep
    have ho : o ≠ .reverse := fun he => hops (he ▸ List.mem_cons_self)
    have htimer := timer_perform (m := m) ho .sound
    rw [hfirst, Option.map_none, Option.getD_none] at htimer
    rw [steps, List.countP_cons, ih (fun hmem => hops (List.mem_cons_of_mem _ hmem)) hrest, htimer,
      List.countP_cons, Step.expires_eq]
    generalize (m.state.timer .sound).toNat = n
    cases o.isTick with
    | false => simp
    | true =>
      simp only [Bool.true_and, Bool.toNat_true, decide_eq_true_eq, if_true]
      split <;> split <;> split <;> omega

/-- The loads that the sound timer has not used up: one, or none if it is at zero. -/
def armed (m : Machine) : Nat := min 1 (m.state.timer .sound).toNat

/-- An expiry uses up a load, and a load that is overwritten is lost. -/
theorem armed_perform_le (ho : o ≠ .reverse) :
    (Step.expires ⟨m, o⟩).toNat + (m.perform o).armed ≤
      (Step.loadsTone ⟨m, o⟩).toNat + m.armed := by
  rw [armed, armed, timer_perform ho, Step.expires_eq, Step.loadsTone]
  generalize (m.state.timer .sound).toNat = n
  cases hload : Step.loads? .sound ⟨m, o⟩ with
  | some v =>
    have hcycle : o.isTick = false := by
      cases o with
      | tick => cases hload
      | _ => rfl
    rw [hcycle, Bool.false_and, Bool.toNat_false, Option.map_some, Option.getD_some,
      Option.any_some]
    by_cases hv : v = 0
    · simp [hv]
    · have htone : decide (v ≠ 0) = true := decide_eq_true hv
      rw [htone, Bool.toNat_true]
      omega
  | none =>
    rw [Option.map_none, Option.getD_none, Option.any_none, Bool.toNat_false]
    cases o.isTick with
    | false =>
      rw [Bool.false_and, Bool.toNat_false]
      omega
    | true =>
      rw [Bool.true_and, Bool.toNat_true]
      by_cases hn : n = 1
      · simp [hn]
      · rw [decide_eq_false hn, Bool.toNat_false]
        omega

theorem expiries_le (m : Machine) (hops : Operation.reverse ∉ ops) :
    (m.steps ops).countP Step.expires ≤ (m.steps ops).countP Step.loadsTone + m.armed := by
  induction ops generalizing m with
  | nil => exact Nat.zero_le _
  | cons o ops ih =>
    have ho : o ≠ .reverse := fun he => hops (he ▸ List.mem_cons_self)
    have hfirst := armed_perform_le (m := m) ho
    have hrest := ih (m.perform o) fun hmem => hops (List.mem_cons_of_mem _ hmem)
    rw [steps, countP_cons_toNat, countP_cons_toNat]
    omega

theorem soundExpires_iff : m.state.soundExpires = true ↔ (m.state.timer .sound).toNat = 1 := by
  rw [Snapshot.soundExpires, decide_eq_true_eq]
  exact UInt8.toNat_inj.symm

/-- **The timers count down.** As long as nothing is taken back, a timer shows the value that was
loaded last less the ticks since, and zero from then on. The sound timer runs out at just that tick
behind a load which makes the ticks as many as the value. So behind a load that is not overwritten
it runs out once if the value is not zero and the ticks are enough, and else not at all; and over
the whole run it runs out no more often than something other than zero is loaded. -/
theorem timers_count_down {settings : Settings} {source : RandomSource}
    (h : create settings source = .ok new) (ops : List Operation)
    (hops : Operation.reverse ∉ ops) :
    let past := new.past ops
    let m := new.run ops
    (∀ t, (m.state.timer t).toNat = Step.lastLoad t past - Step.ticksSince t past) ∧
    (m.state.soundExpires = true ↔
      1 ≤ Step.lastLoad .sound past ∧
        Step.ticksSince .sound past + 1 = Step.lastLoad .sound past) ∧
    (∀ before during, ops = before ++ .cycle :: during →
      ∀ value, Step.loads? .sound ⟨new.run before, .cycle⟩ = some value →
        let loaded := (new.run before).cycle.1
        (∀ s ∈ loaded.steps during, s.loads? .sound = none) →
          (loaded.steps during).countP Step.expires =
            if 1 ≤ value.toNat ∧ value.toNat ≤ during.countP Operation.isTick then 1 else 0) ∧
    (new.steps ops).countP Step.expires ≤ (new.steps ops).countP Step.loadsTone := by
  intro past m
  obtain ⟨_, rfl⟩ := create_eq_ok_iff.mp h
  have hzero : ∀ t, ((fresh settings source).state.timer t).toNat = 0 := by
    intro t
    cases t <;> rfl
  have htimer : ∀ t, (m.state.timer t).toNat = Step.lastLoad t past - Step.ticksSince t past :=
    fun t => timer_run (hzero t) hops
  refine ⟨htimer, ?_, ?_, ?_⟩
  · rw [soundExpires_iff, htimer]
    omega
  · intro before during hsplit value hvalue loaded hkeep
    have hno : Operation.reverse ∉ during := fun hmem => hops (by simp [hsplit, hmem])
    have hloaded : loaded.state.timer .sound = value := by
      show (Machine.cycle _).1.state.timer .sound = value
      rw [timer_cycle, hvalue, Option.getD_some]
    rw [expiries_of_load hno hkeep, hloaded]
  · have hle := expiries_le (fresh settings source) hops
    rw [armed, hzero] at hle
    exact hle

/-- A program loads two into the sound timer, ticks once, and loads two again: the timer runs out at
the third tick of all, the second behind the second load. -/
theorem timers_count_down_reloaded :
    let new := fresh {} (.cipher default)
    let ops := [.load [0x60, 0x02, 0xF0, 0x18, 0xF0, 0x18, 0xF0, 0x15], .cycle, .cycle, .tick,
      .cycle, .tick, .cycle]
    (new.run ops).state.soundExpires = true ∧ ((new.run ops).state.timer .delay).toNat = 2 ∧
      (new.steps (ops ++ [.tick])).countP Step.expires ≤ 2 ∧
      (new.steps (ops ++ [.tick])).countP Step.expires = 1 := by
  intro new ops
  have hcreate : create {} (.cipher default) = .ok new := create_eq_ok_iff.mpr ⟨rfl, rfl⟩
  obtain ⟨htimer, hexpires, -, -⟩ := timers_count_down hcreate ops (by simp [ops])
  obtain ⟨-, -, -, hle⟩ := timers_count_down hcreate (ops ++ [.tick]) (by simp [ops])
  refine ⟨hexpires.mpr (by decide +kernel), (htimer .delay).trans (by decide +kernel),
    Nat.le_trans hle (by decide +kernel), by decide +kernel⟩

end Machine

end ChipEight
