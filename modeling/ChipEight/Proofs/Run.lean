import ChipEight.Machine.Cycle
import ChipEight.Proofs.Effects
import Mathlib.Control.Monad.Basic

/-!
# Runs of a machine

A run is a list of operations, done to a machine one after the other; the machines that some run
makes of a new one are the `Reachable` ones. `Machine.cycle_cases` says once how a cycle can go, and
the other operations are so simple that a case split over `Operation` opens them.
-/

namespace ChipEight

/-- What can be done to a machine, and to the receiving end of its mailbox. -/
inductive Operation where
  | cycle
  | reverse
  | tick
  | press (key : Nat)
  | release (key : Nat)
  | setKeys (keys : Keypad)
  | load (rom : List UInt8)
  | takeReceiver
  | dropReceiver
  | receiveTone

namespace Machine

/-- A machine on which nothing has been done yet. -/
def fresh (settings : Settings) (source : RandomSource) : Machine where
  settings := settings
  state := .initial
  history := []
  keys := .released
  random := source.bytes settings.seed
  mailbox := {}
  receiverTaken := false

theorem create_eq_ok_iff {settings : Settings} {source : RandomSource} {m : Machine} :
    create settings source = .ok m ↔ settings.check = .ok () ∧ m = fresh settings source := by
  unfold create
  cases settings.check with
  | error f => exact ⟨nofun, fun h => nomatch h.1⟩
  | ok u =>
    constructor
    · intro h
      cases h
      exact ⟨rfl, rfl⟩
    · rintro ⟨-, rfl⟩
      rfl

/-- The machine after an operation; a program that is refused changes nothing. -/
def perform (m : Machine) : Operation → Machine
  | .cycle => m.cycle.1
  | .reverse => m.reverse.1
  | .tick => m.tick
  | .press key => m.press key
  | .release key => m.release key
  | .setKeys keys => m.setKeys keys
  | .load rom =>
    match m.load rom with
    | .ok m => m
    | .error _ => m
  | .takeReceiver => m.takeReceiver.1
  | .dropReceiver => m.dropReceiver
  | .receiveTone => m.receiveTone.1

/-- The machine after a list of operations. -/
def run (m : Machine) (ops : List Operation) : Machine := ops.foldl perform m

@[simp] theorem run_nil (m : Machine) : m.run [] = m := rfl

@[simp] theorem run_cons (m : Machine) (o : Operation) (ops : List Operation) :
    m.run (o :: ops) = (m.perform o).run ops := rfl

theorem run_append (m : Machine) (ops ops' : List Operation) :
    m.run (ops ++ ops') = (m.run ops).run ops' := List.foldl_append

theorem run_induction {P : Machine → Prop} {ops : List Operation}
    (step : ∀ m, ∀ o ∈ ops, P m → P (m.perform o)) {m : Machine} (h : P m) : P (m.run ops) := by
  induction ops generalizing m with
  | nil => exact h
  | cons o ops ih =>
    exact ih (fun m o ho => step m o (List.mem_cons_of_mem _ ho))
      (step m o List.mem_cons_self h)

/-- The machines that operations make of a new one. -/
inductive Reachable : Machine → Prop
  | create {settings : Settings} {source : RandomSource} {m : Machine} :
      Machine.create settings source = .ok m → Reachable m
  | perform {m : Machine} (o : Operation) : Reachable m → Reachable (m.perform o)

theorem Reachable.run {m : Machine} (h : Reachable m) (ops : List Operation) :
    Reachable (m.run ops) :=
  run_induction (fun _ o _ => .perform o) h

theorem exists_perform_load (m : Machine) (rom : List UInt8) :
    ∃ memory, m.perform (.load rom) = { m with state := { m.state with memory } } := by
  simp only [perform, load, Snapshot.loadRom]
  cases m.state.memory.loadRom rom with
  | error f => exact ⟨m.state.memory, rfl⟩
  | ok memory => exact ⟨memory, rfl⟩

/-- An operation is a cycle or a reversal, or it leaves all alone but memory, the timers, the keys
and the mailbox with its receiving end. -/
theorem perform_cases (m : Machine) (o : Operation) : o = .cycle ∨ o = .reverse ∨
    ∃ memory delay sound keys mailbox receiverTaken, m.perform o = { m with
      state := { m.state with memory, delay, sound }
      keys, mailbox, receiverTaken } := by
  cases o with
  | cycle => exact .inl rfl
  | reverse => exact .inr (.inl rfl)
  | load rom =>
    obtain ⟨memory, h⟩ := m.exists_perform_load rom
    exact .inr (.inr ⟨memory, _, _, _, _, _, h⟩)
  | _ => exact .inr (.inr ⟨_, _, _, _, _, _, rfl⟩)

theorem settings_perform (m : Machine) (o : Operation) :
    (m.perform o).settings = m.settings := by
  rcases m.perform_cases o with rfl | rfl | ⟨_, _, _, _, _, _, h⟩
  · simp only [perform, cycle]
    split
    · rfl
    · split
      · rfl
      · split <;> rfl
  · simp only [perform, reverse]
    split <;> rfl
  · rw [h]

theorem settings_run (m : Machine) (ops : List Operation) : (m.run ops).settings = m.settings :=
  run_induction (P := fun m' => m'.settings = m.settings)
    (fun m' o _ h => (settings_perform m' o).trans h) rfl

/-! ### Cycles -/

/-- The instruction that the next cycle carries out, if there is one at the counter. -/
def instruction? (m : Machine) : Option Instruction := m.fetch.toOption.bind Instruction.decode?

theorem fetch_eq_ok_iff {m : Machine} :
    (∃ w, m.fetch = .ok w) ↔ m.state.pc.toNat ≤ 0xFFE := by
  by_cases h : m.state.pc.toNat + 1 < memorySize
  · have h0 : m.state.pc.toNat < memorySize := by omega
    simp only [fetch, Memory.readWord, Memory.readByte, h, h0, dif_pos, bind, Except.bind, pure,
      Except.pure]
    simp [memorySize] at h ⊢
    omega
  · by_cases h0 : m.state.pc.toNat < memorySize <;>
      simp [fetch, Memory.readWord, Memory.readByte, h, h0, bind, Except.bind] <;>
      simp [memorySize] at h <;> omega

theorem fetch_of_gt {m : Machine} (h : 0xFFE < m.state.pc.toNat) :
    m.fetch = .error (.memoryOutOfBounds m.state.pc.toNat) := by
  have hw : ¬∃ w, m.fetch = .ok w := by rw [fetch_eq_ok_iff]; omega
  unfold fetch at hw ⊢
  cases hr : m.state.memory.readWord m.state.pc.toNat with
  | ok w => simp [hr] at hw
  | error f => rfl

theorem pc_le_of_fetch {m : Machine} {w : Word} (h : m.fetch = .ok w) : m.state.pc.toNat ≤ 0xFFE :=
  fetch_eq_ok_iff.mp ⟨w, h⟩

theorem instruction?_eq_some_iff {m : Machine} {i : Instruction} :
    m.instruction? = some i ↔ ∃ w, m.fetch = .ok w ∧ Instruction.decode? w = some i := by
  cases h : m.fetch <;> simp [instruction?, h, Except.toOption]

theorem pc_le_of_instruction? {m : Machine} {i : Instruction} (h : m.instruction? = some i) :
    m.state.pc.toNat ≤ 0xFFE := by
  obtain ⟨w, hw, _⟩ := instruction?_eq_some_iff.mp h
  exact pc_le_of_fetch hw

/-- How the instruction of the next cycle goes, on what it works on. -/
abbrev outcome (m : Machine) (i : Instruction) : Except Fault Context :=
  i.execute m.settings.clearKeysOnRead m.context

theorem cycle_of_gt {m : Machine} (h : 0xFFE < m.state.pc.toNat) :
    m.cycle = (m, .error (.memoryOutOfBounds m.state.pc.toNat)) := by
  rw [cycle, fetch_of_gt h]

theorem cycle_of_unknown {m : Machine} {w : Word} (hw : m.fetch = .ok w)
    (hd : Instruction.decode? w = none) : m.cycle = (m.passOver, .error (.unknownOpcode w)) := by
  simp only [cycle, hw, hd]

theorem cycle_of_error {m : Machine} {i : Instruction} {f : Fault}
    (hi : m.instruction? = some i) (h : m.outcome i = .error f) : m.cycle = (m, .error f) := by
  obtain ⟨w, hw, hd⟩ := instruction?_eq_some_iff.mp hi
  -- the instruction has changed neither keys nor random bytes, so nothing is left to be put back
  simp only [cycle, hw, hd, Instruction.run_inPlace_eq_error_iff.mpr ⟨h, rfl⟩]
  rfl

theorem cycle_of_ok {m : Machine} {i : Instruction} {c : Context}
    (hi : m.instruction? = some i) (h : m.outcome i = .ok c) :
    m.cycle = (m.commit c, .ok (if i.redraws then .redraw else .poll)) := by
  obtain ⟨w, hw, hd⟩ := instruction?_eq_some_iff.mp hi
  simp only [cycle, hw, hd, Instruction.run_inPlace_eq_ok_iff.mpr h]

/-- A cycle finds no word, or finds one that stands for no instruction, or an instruction that
fails, or one that is carried out. -/
theorem cycle_cases (m : Machine) :
    (0xFFE < m.state.pc.toNat ∧ m.cycle = (m, .error (.memoryOutOfBounds m.state.pc.toNat))) ∨
    (∃ w, m.fetch = .ok w ∧ Instruction.decode? w = none ∧
      m.cycle = (m.passOver, .error (.unknownOpcode w))) ∨
    (∃ i f, m.instruction? = some i ∧ m.outcome i = .error f ∧ m.cycle = (m, .error f)) ∨
    (∃ i c, m.instruction? = some i ∧ m.outcome i = .ok c ∧
      m.cycle = (m.commit c, .ok (if i.redraws then .redraw else .poll))) := by
  by_cases hpc : 0xFFE < m.state.pc.toNat
  · exact .inl ⟨hpc, cycle_of_gt hpc⟩
  obtain ⟨w, hw⟩ := fetch_eq_ok_iff.mpr (Nat.le_of_not_lt hpc)
  cases hd : Instruction.decode? w with
  | none => exact .inr (.inl ⟨w, hw, hd, cycle_of_unknown hw hd⟩)
  | some i =>
    have hi : m.instruction? = some i := instruction?_eq_some_iff.mpr ⟨w, hw, hd⟩
    cases h : m.outcome i with
    | error f => exact .inr (.inr (.inl ⟨i, f, hi, h, cycle_of_error hi h⟩))
    | ok c => exact .inr (.inr (.inr ⟨i, c, hi, h, cycle_of_ok hi h⟩))

theorem eq_of_cycle_halted {m m' : Machine} {fault : Fault} (h : m.cycle = (m', .error fault))
    (hf : fault.isRecoverable = false) : m' = m := by
  rcases m.cycle_cases with ⟨_, hc⟩ | ⟨w, _, _, hc⟩ | ⟨i, f, _, _, hc⟩ | ⟨i, c, _, _, hc⟩
  · cases hc.symm.trans h
    rfl
  · cases hc.symm.trans h
    cases hf
  · cases hc.symm.trans h
    rfl
  · cases hc.symm.trans h

theorem exists_of_cycle_eq_ok {m : Machine} {r : Cycle} (h : m.cycle.2 = .ok r) :
    ∃ i c, m.instruction? = some i ∧ m.outcome i = .ok c ∧ m.cycle.1 = m.commit c ∧
      r = if i.redraws then .redraw else .poll := by
  rcases m.cycle_cases with ⟨_, hc⟩ | ⟨w, _, _, hc⟩ | ⟨i, f, _, _, hc⟩ | ⟨i, c, hi, he, hc⟩
  · cases (congrArg Prod.snd hc).symm.trans h
  · cases (congrArg Prod.snd hc).symm.trans h
  · cases (congrArg Prod.snd hc).symm.trans h
  · exact ⟨i, c, hi, he, congrArg Prod.fst hc, Except.ok.inj (h.symm.trans (congrArg Prod.snd hc))⟩

theorem cycle_carries_out (m : Machine) :
    (∃ i c, m.instruction? = some i ∧ m.outcome i = .ok c ∧ m.cycle.1 = m.commit c) ∨
    ((∀ i, m.instruction? = some i → ∃ f, m.outcome i = .error f) ∧
      (m.cycle.1 = m ∨ m.cycle.1 = m.passOver)) := by
  rcases m.cycle_cases with ⟨hpc, hc⟩ | ⟨w, hw, hd, hc⟩ | ⟨i, f, hi, he, hc⟩ | ⟨i, c, hi, he, hc⟩
  · refine .inr ⟨fun i hi => ?_, .inl (congrArg Prod.fst hc)⟩
    exact absurd (pc_le_of_instruction? hi) (Nat.not_le.mpr hpc)
  · refine .inr ⟨fun i hi => ?_, .inr (congrArg Prod.fst hc)⟩
    obtain ⟨w', hw', hd'⟩ := instruction?_eq_some_iff.mp hi
    rw [hw] at hw'
    cases hw'
    rw [hd] at hd'
    cases hd'
  · refine .inr ⟨fun i' hi' => ⟨f, ?_⟩, .inl (congrArg Prod.fst hc)⟩
    rw [hi] at hi'
    cases hi'
    exact he
  · exact .inl ⟨i, c, hi, he, congrArg Prod.fst hc⟩

/-! ### What cycles and reversals leave alone -/

theorem mailbox_cycle (m : Machine) : m.cycle.1.mailbox = m.mailbox := by
  rcases m.cycle_cases with ⟨_, hc⟩ | ⟨w, _, _, hc⟩ | ⟨i, f, _, _, hc⟩ | ⟨i, c, _, _, hc⟩ <;>
    rw [hc] <;> rfl

theorem mailbox_reverse (m : Machine) : m.reverse.1.mailbox = m.mailbox := by
  unfold reverse
  split <;> rfl

theorem keys_reverse (m : Machine) : m.reverse.1.keys = m.keys := by
  unfold reverse
  split <;> rfl

end Machine

end ChipEight
