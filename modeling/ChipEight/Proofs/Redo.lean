import ChipEight.ByteStream.Seeded
import ChipEight.Proofs.Timeless

/-!
# Undo, then redo

Cycles that are recorded, take no random byte and release no key can be taken back and made again,
and nothing is lost (`redo_undone`). The machine that comes back is not quite the one that was left:
its picture counts as touched, so the first snapshot that goes into the past again differs from the
one before, and a full past has dropped its oldest snapshots. Neither can be seen: a cycle forgets
the mark on the picture before it begins (`Resembles.cycle`), a reversal sets it anyway
(`Retraces.reverse`), and the past is cut to the same length both times.
-/

namespace ChipEight

/-- A snapshot without the mark on its picture. -/
def Snapshot.unmarked (s : Snapshot) : Snapshot := { s with drawn := false }

theorem Instruction.random_of_execute {consume : Bool} {c c' : Context} {i : Instruction}
    (hi : ∀ x kk, i ≠ random x kk) (h : i.execute consume c = .ok c') : c'.random = c.random := by
  by_contra hne
  obtain ⟨⟨x, kk, he⟩, -⟩ := (execute_footprint h).random hne
  exact hi x kk he

namespace Machine

variable {m m' : Machine}

/-- The next cycle can be taken back and made again: it is recorded, takes no random byte and
releases no key. -/
structure Repeats (m : Machine) : Prop where
  records : m.records = true
  takesNoByte : Step.finds (fun word => word.family = 0xC) ⟨m, .cycle⟩ = false
  keepsKeys : m.cycle.1.keys = m.keys

instance (m : Machine) : Decidable m.Repeats :=
  decidable_of_iff (_ ∧ _ ∧ _) ⟨fun h => ⟨h.1, h.2.1, h.2.2⟩, fun h => ⟨h.1, h.2, h.3⟩⟩

theorem random_cycle (h : Step.finds (fun word => word.family = 0xC) ⟨m, .cycle⟩ = false) :
    m.cycle.1.random = m.random := by
  rcases m.cycle_cases with ⟨_, hc⟩ | ⟨w, _, _, hc⟩ | ⟨i, f, _, _, hc⟩ | ⟨i, c, hi, he, hc⟩
  · rw [hc]
  · rw [hc]; rfl
  · rw [hc]
  · rw [hc]
    refine Instruction.random_of_execute (c := m.context) ?_ he
    rintro x kk rfl
    rw [finds_of_instruction? hi] at h
    simp [Instruction.encode, Word.family_ofByte] at h

theorem records_eq (m : Machine) :
    m.records = match m.cycle.2 with
      | .ok _ => decide (m.cycle.1.state.unmarked ≠ m.state.unmarked)
      | .error (.unknownOpcode _) => true
      | .error _ => false := by
  unfold records
  obtain ⟨m₁, r⟩ := m.cycle
  cases r with
  | ok c => rfl
  | error f => cases f <;> rfl

/-! ### Machines that differ in the marks -/

/-- A cycle cannot tell the two machines apart. -/
structure Resembles (m m' : Machine) : Prop where
  settings : m'.settings = m.settings
  state : m'.state.unmarked = m.state.unmarked
  keys : m'.keys = m.keys
  random : m'.random = m.random

namespace Resembles

theorem refl (m : Machine) : Resembles m m := ⟨rfl, rfl, rfl, rfl⟩

theorem context (h : Resembles m m') : m'.context = m.context := by
  have hstate : m'.untouched = m.untouched := h.state
  unfold Machine.context
  rw [hstate, h.keys, h.random]

theorem fetch (h : Resembles m m') : m'.fetch = m.fetch := by
  have hmemory : m'.state.memory = m.state.memory := (congrArg Snapshot.memory h.state :)
  have hpc : m'.state.pc = m.state.pc := (congrArg Snapshot.pc h.state :)
  unfold Machine.fetch
  rw [hmemory, hpc]

theorem instruction? (h : Resembles m m') : m'.instruction? = m.instruction? := by
  unfold Machine.instruction?
  rw [h.fetch]

theorem outcome (h : Resembles m m') (i : Instruction) : m'.outcome i = m.outcome i := by
  unfold Machine.outcome
  rw [h.settings, h.context]

theorem cycle (h : Resembles m m') (hm : m.records = true) :
    m'.cycle.2 = m.cycle.2 ∧ m'.cycle.1.state = m.cycle.1.state ∧
      Resembles m.cycle.1 m'.cycle.1 := by
  rcases m.cycle_cases with ⟨_, hc⟩ | ⟨w, hw, hd, hc⟩ | ⟨i, f, hi, he, hc⟩ | ⟨i, c, hi, he, hc⟩
  · rw [records_eq_false (congrArg Prod.snd hc) rfl] at hm
    cases hm
  · have hc' := cycle_of_unknown (h.fetch.trans hw) hd
    have hstate : m'.passOver.state = m.passOver.state := congrArg Snapshot.next h.state
    rw [hc, hc']
    exact ⟨rfl, hstate, h.settings, congrArg Snapshot.unmarked hstate, h.keys, h.random⟩
  · rw [records_eq_false (congrArg Prod.snd hc) (isRecoverable_of_outcome he)] at hm
    cases hm
  · have hc' := cycle_of_ok (h.instruction?.trans hi) ((h.outcome i).trans he)
    rw [hc, hc']
    exact ⟨rfl, rfl, h.settings, rfl, rfl, rfl⟩

end Resembles

/-! ### Cycles made again -/

theorem forall_steps_cycle {P : Machine → Prop} {n : Nat} :
    (∀ s ∈ m.steps (.replicate (n + 1) .cycle), P s.machine) ↔
      P m ∧ ∀ s ∈ m.cycle.1.steps (.replicate n .cycle), P s.machine := by
  rw [List.replicate_succ, steps, List.forall_mem_cons]
  rfl

theorem recordedStarts_cycle (h : m.records = true) (ops : List Operation) :
    m.recordedStarts (.cycle :: ops) = m.cycle.1.recordedStarts ops ++ [m.state] := by
  simp only [recordedStarts, recordedStart?, h, if_true]
  rfl

theorem length_recordedStarts {n : Nat}
    (h : ∀ s ∈ m.steps (.replicate n .cycle), s.machine.records = true) :
    (m.recordedStarts (.replicate n .cycle)).length = n := by
  induction n generalizing m with
  | zero => rfl
  | succ n ih =>
    obtain ⟨hfirst, hrest⟩ := forall_steps_cycle (P := fun m => m.records = true).mp h
    rw [List.replicate_succ, recordedStarts_cycle hfirst, List.length_append, ih hrest]
    rfl

theorem Resembles.cycles {n : Nat} (h : Resembles m m')
    (hm : ∀ s ∈ m.steps (.replicate n .cycle), s.machine.records = true) :
    Resembles (m.run (.replicate n .cycle)) (m'.run (.replicate n .cycle)) ∧
    (0 < n → (m'.run (.replicate n .cycle)).state = (m.run (.replicate n .cycle)).state) ∧
    (m'.steps (.replicate n .cycle)).map Step.answer =
      (m.steps (.replicate n .cycle)).map Step.answer ∧
    (∀ s ∈ m'.steps (.replicate n .cycle), s.machine.records = true) ∧
    (m'.recordedStarts (.replicate n .cycle)).map Snapshot.unmarked =
      (m.recordedStarts (.replicate n .cycle)).map Snapshot.unmarked := by
  induction n generalizing m m' with
  | zero => exact ⟨h, nofun, rfl, List.forall_mem_nil _, rfl⟩
  | succ n ih =>
    obtain ⟨hfirst, hrest⟩ := forall_steps_cycle (P := fun m => m.records = true).mp hm
    obtain ⟨hanswer, hstate, hnext⟩ := h.cycle hfirst
    have hfirst' : m'.records = true := by
      rw [records_eq, hanswer, hstate, h.state, ← records_eq]
      exact hfirst
    obtain ⟨hend, hstates, hanswers, hrest', hstarts⟩ := ih hnext hrest
    refine ⟨hend, fun _ => ?_, ?_, ?_, ?_⟩
    · rcases Nat.eq_zero_or_pos n with rfl | hn
      · exact hstate
      · exact hstates hn
    · exact congrArg₂ List.cons (congrArg Answer.cycle hanswer) hanswers
    · exact forall_steps_cycle (P := fun m => m.records = true).mpr ⟨hfirst', hrest'⟩
    · rw [List.replicate_succ, recordedStarts_cycle hfirst, recordedStarts_cycle hfirst',
        List.map_append, List.map_append, hstarts]
      exact congrArg _ (congrArg (fun s => [s]) h.state)

/-! ### Reversals made again -/

/-- A reversal cannot tell the two machines apart. -/
structure Retraces (m m' : Machine) : Prop where
  state : m'.state = m.state
  past : m'.history.map Snapshot.unmarked = m.history.map Snapshot.unmarked

theorem Retraces.reverse (h : Retraces m m') :
    m'.reverse.2 = m.reverse.2 ∧ Retraces m.reverse.1 m'.reverse.1 := by
  have hpast := h.past
  cases hp : m.history with
  | nil =>
    rw [hp, List.map_nil, List.map_eq_nil_iff] at hpast
    rw [reverse_of_nil hp, reverse_of_nil hpast]
    exact ⟨rfl, h⟩
  | cons s past =>
    rw [hp, List.map_cons, List.map_eq_cons_iff] at hpast
    obtain ⟨s', past', hp', hs, hrest⟩ := hpast
    rw [reverse_of_cons hp, reverse_of_cons hp']
    refine ⟨rfl, ?_, hrest⟩
    exact congrArg (fun s : Snapshot => { s with drawn := true }) hs

theorem Retraces.reverses (h : Retraces m m') (k : Nat) :
    Retraces (m.run (.replicate k .reverse)) (m'.run (.replicate k .reverse)) := by
  induction k generalizing m m' with
  | zero => exact h
  | succ k ih => exact ih h.reverse.2

/-! ### There and back -/

/-- Going back as far as the machine has run leads to where it came from, with as much of the past
as there was room for. -/
theorem undone {n : Nat} (hn : n ≤ m.settings.history)
    (hlen : m.history.length ≤ m.settings.history)
    (h : ∀ s ∈ m.steps (.replicate n .cycle), s.machine.Repeats) :
    let after := m.run (.replicate n .cycle)
    let back := after.run (.replicate n .reverse)
    (∀ s ∈ after.steps (.replicate n .reverse), s.answer = .reversal true) ∧
      Resembles m back ∧ back.history = m.history.take (m.settings.history - n) := by
  induction n generalizing m with
  | zero => exact ⟨List.forall_mem_nil _, .refl m, (List.take_of_length_le hlen).symm⟩
  | succ n ih =>
    intro after back
    obtain ⟨hfirst, hrest⟩ := forall_steps_cycle.mp h
    have hset : m.cycle.1.settings = m.settings := settings_perform m .cycle
    have hpast : m.cycle.1.history = m.remembered := by rw [history_cycle, hfirst.records]; rfl
    obtain ⟨hanswers, hresembles, hback⟩ := ih (m := m.cycle.1) (by rw [hset]; omega)
      (by rw [hset, hpast]; exact List.length_take_le ..) hrest
    have hafter : after = m.cycle.1.run (.replicate n .cycle) := rfl
    rw [← hafter] at hanswers hresembles hback
    have hroom : m.settings.history - n = m.settings.history - (n + 1) + 1 := by omega
    rw [hset, hpast, remembered, List.take_take, Nat.min_eq_left (Nat.sub_le ..), hroom,
      List.take_succ_cons] at hback
    -- what the last reversal brings back is the snapshot that the first cycle recorded
    have hreverse := reverse_of_cons hback
    have hlast : back = (after.run (.replicate n .reverse)).reverse.1 := by
      show after.run (.replicate (n + 1) .reverse) = _
      rw [List.replicate_succ', run_append]
      rfl
    refine ⟨?_, ?_, ?_⟩
    · rw [List.replicate_succ', steps_append]
      intro s hs
      rcases List.mem_append.mp hs with hs | hs
      · exact hanswers s hs
      · obtain rfl := List.mem_singleton.mp hs
        exact congrArg Answer.reversal (congrArg Prod.snd hreverse)
    · rw [hlast, hreverse]
      exact ⟨hresembles.settings.trans hset, rfl, hresembles.keys.trans hfirst.keepsKeys,
        hresembles.random.trans (random_cycle hfirst.takesNoByte)⟩
    · rw [hlast, hreverse]

theorem history_cycles (hlen : m.history.length ≤ m.settings.history) (n : Nat) :
    (m.run (.replicate n .cycle)).history =
      (m.recordedStarts (.replicate n .cycle) ++ m.history).take m.settings.history := by
  have hno : Operation.reverse ∉ List.replicate n .cycle := by
    intro h
    cases List.eq_of_mem_replicate h
  rw [← undoStack_of_no_reverse hno]
  exact history_eq_take hno (List.take_of_length_le hlen).symm

theorem take_append_take {α : Type} {l : List α} {n k : Nat} (h : l.length = k) (l' : List α) :
    (l ++ l'.take (n - k)).take n = (l ++ l').take n := by
  rw [List.take_append, List.take_append, h, List.take_take, Nat.min_self]

/-- **Undo, then redo, is the identity.** In a reachable machine let the next `n` cycles be no more
than the past can hold, and let each of them be recorded, take no random byte and release no key.
Then `n` reversals bring a snapshot back each, and `n` cycles behind them answer as the first ones
did and end in the same state, with the same keys, the same random bytes and as long a past; and
however many reversals follow, they go the same way as they would have gone without. -/
theorem redo_undone (hm : Reachable m) {n : Nat} (hn : n ≤ m.settings.history)
    (h : ∀ s ∈ m.steps (.replicate n .cycle), s.machine.Repeats) :
    let after := m.run (.replicate n .cycle)
    let back := after.run (.replicate n .reverse)
    let redone := back.run (.replicate n .cycle)
    (∀ s ∈ after.steps (.replicate n .reverse), s.answer = .reversal true) ∧
    (back.steps (.replicate n .cycle)).map Step.answer =
      (m.steps (.replicate n .cycle)).map Step.answer ∧
    redone.state = after.state ∧ redone.keys = after.keys ∧ redone.random = after.random ∧
    redone.history.length = after.history.length ∧
    ∀ k,
      let further := after.run (.replicate k .reverse)
      let further' := redone.run (.replicate k .reverse)
      further'.reverse.2 = further.reverse.2 ∧
        further'.reverse.1.state = further.reverse.1.state := by
  intro after back redone
  have hlen := hm.bounded.length_le
  obtain ⟨hundo, hback, hpast⟩ := undone hn hlen h
  have hrecords : ∀ s ∈ m.steps (.replicate n .cycle), s.machine.records = true :=
    fun s hs => (h s hs).records
  obtain ⟨hredone, hstates, hanswers, _, hstarts⟩ := hback.cycles hrecords
  have hstate : redone.state = after.state := by
    rcases Nat.eq_zero_or_pos n with rfl | hpos
    · rfl
    · exact hstates hpos
  have hagain : redone.history.map Snapshot.unmarked = after.history.map Snapshot.unmarked := by
    have hroom : back.history.length ≤ back.settings.history := by
      rw [hpast, hback.settings]
      exact Nat.le_trans (List.length_take_le ..) (Nat.sub_le ..)
    have hcount := (List.length_map (f := Snapshot.unmarked)).trans (length_recordedStarts hrecords)
    rw [history_cycles hroom, history_cycles hlen, hpast, hback.settings, List.map_take,
      List.map_take, List.map_append, List.map_append, hstarts, List.map_take,
      take_append_take hcount]
  have hlength := congrArg List.length hagain
  rw [List.length_map, List.length_map] at hlength
  refine ⟨hundo, hanswers, hstate, hredone.keys, hredone.random, hlength, fun k => ?_⟩
  obtain ⟨hdone, hfurther⟩ := (Retraces.reverses ⟨hstate, hagain⟩ k).reverse
  exact ⟨hdone, hfurther.state⟩

/-- There is room for two snapshots; the next word draws, and the one behind it stands for no
instruction. -/
def drawThenUnknown : Machine :=
  (fresh { history := 2 } (.cipher default)).run
    [.load [0x6A, 0x05, 0x00, 0xE0, 0x01, 0x23], .cycle]

/-- The past is full before the two cycles, and the mark on the oldest snapshot in it is another one
when they are made again. -/
theorem redo_undone_past_filled :
    let after := drawThenUnknown.run (.replicate 2 .cycle)
    let redone := (after.run (.replicate 2 .reverse)).run (.replicate 2 .cycle)
    redone.state = after.state ∧ redone.history.length = after.history.length ∧
      after.history.map Snapshot.drawn = [true, false] ∧
      redone.history.map Snapshot.drawn = [true, true] := by
  have hm : Reachable drawThenUnknown :=
    .run (.create (create_eq_ok_iff.mpr ⟨rfl, rfl⟩))
      [.load [0x6A, 0x05, 0x00, 0xE0, 0x01, 0x23], .cycle]
  have hroom : 2 ≤ drawThenUnknown.settings.history := by
    rw [drawThenUnknown, settings_run]
    exact Nat.le_refl 2
  have hrepeats : ∀ s ∈ drawThenUnknown.steps (.replicate 2 .cycle), s.machine.Repeats := by
    decide +kernel
  have hredone := redo_undone hm hroom hrepeats
  refine ⟨hredone.2.2.1, hredone.2.2.2.2.2.1, ?_⟩
  decide +kernel

end Machine

end ChipEight
