import ChipEight.ByteStream.Seeded
import ChipEight.Proofs.Faults

/-!
# Rewinding is an exact and bounded undo

Beside a run we keep an undo stack of unbounded length: a recorded cycle puts the snapshot it
started from on it, and each cycle that is taken back takes one off. The past of the machine is the
top of this stack, cut to the length that the settings allow (`reverse_exact`): what is cut off is
lost for good, but what is taken back is always the right snapshot, whatever ticks, keys and
programs came in between.
-/

namespace ChipEight

namespace Machine

/-- Whether the next cycle is recorded: it passes over a word, or it changes the state in more than
whether the picture was touched. -/
def records (m : Machine) : Bool :=
  match m.cycle with
  | (m', .ok _) => { m'.state with drawn := false } ≠ { m.state with drawn := false }
  | (_, .error (.unknownOpcode _)) => true
  | (_, .error _) => false

/-- The undo stack behind an operation. -/
def undoAfter (m : Machine) (undo : List Snapshot) : Operation → List Snapshot
  | .cycle => if m.records then m.state :: undo else undo
  | .reverse => if m.reverse.2 then undo.tail else undo
  | _ => undo

/-- The undo stack behind a run. -/
def undoStack (m : Machine) (undo : List Snapshot) : List Operation → List Snapshot
  | [] => undo
  | o :: ops => (m.perform o).undoStack (m.undoAfter undo o) ops

/-- The snapshot that an operation starts from, if it is a recorded cycle. -/
def recordedStart? (m : Machine) : Operation → Option Snapshot
  | .cycle => if m.records then some m.state else none
  | _ => none

/-- The snapshots that the recorded cycles of a run start from, the latest first. -/
def recordedStarts (m : Machine) : List Operation → List Snapshot
  | [] => []
  | o :: ops => (m.perform o).recordedStarts ops ++ (m.recordedStart? o).toList

/-! ### What the past becomes -/

theorem with_drawn_eq_iff {s s' : Snapshot} :
    { s with drawn := s'.drawn } = s' ↔
      { s' with drawn := false } = { s with drawn := false } := by
  obtain ⟨⟩ := s
  obtain ⟨⟩ := s'
  simp only [Snapshot.mk.injEq, and_true]
  exact ⟨fun h => by simp_all, fun h => by simp_all⟩

theorem records_eq_false {m : Machine} {f : Fault} (h : m.cycle.2 = .error f)
    (hf : f.isRecoverable = false) : m.records = false := by
  have hc : m.cycle = (m.cycle.1, .error f) := Prod.ext rfl h
  rw [records, hc]
  cases f with
  | unknownOpcode w => cases hf
  | _ => rfl

theorem history_cycle (m : Machine) :
    m.cycle.1.history = if m.records then m.remembered else m.history := by
  rcases m.cycle_cases with ⟨_, hc⟩ | ⟨w, _, _, hc⟩ | ⟨i, f, _, he, hc⟩ | ⟨i, c, _, _, hc⟩
  · have hr : m.records = false := records_eq_false (congrArg Prod.snd hc) rfl
    rw [hc, hr]
    rfl
  · have hr : m.records = true := by simp only [records, hc]
    rw [hc, hr]
    rfl
  · have hr : m.records = false :=
      records_eq_false (congrArg Prod.snd hc) (isRecoverable_of_outcome he)
    rw [hc, hr]
    rfl
  · have hr : m.records = decide ({ m.state with drawn := c.state.drawn } ≠ c.state) := by
      simp only [records, hc]
      exact decide_eq_decide.mpr (not_congr with_drawn_eq_iff.symm)
    rw [hc, hr]
    by_cases h : { m.state with drawn := c.state.drawn } = c.state
    · simp [commit, h]
    · simp [commit, h]

theorem history_perform {m : Machine} {o : Operation} (hc : o ≠ .cycle) (hr : o ≠ .reverse) :
    (m.perform o).history = m.history := by
  rcases m.perform_cases o with rfl | rfl | ⟨_, _, _, _, _, _, h⟩
  · exact absurd rfl hc
  · exact absurd rfl hr
  · rw [h]

theorem remembered_prefix {m : Machine} {undo : List Snapshot} (h : m.history <+: undo) :
    m.remembered <+: m.state :: undo :=
  (List.take_prefix _ _).trans (List.cons_prefix_cons.mpr ⟨rfl, h⟩)

theorem history_reverse (m : Machine) : m.reverse.1.history = m.history.tail := by
  unfold reverse
  split
  · next h => rw [h]; rfl
  · next s past h => rw [h]; rfl

theorem reverse_eq_true_iff {m : Machine} : m.reverse.2 = true ↔ m.history ≠ [] := by
  unfold reverse
  split
  · next h => simp [h]
  · next s past h => simp [h]

theorem reverse_of_cons {m : Machine} {s : Snapshot} {past : List Snapshot}
    (h : m.history = s :: past) :
    m.reverse = ({ m with state := { s with drawn := true }, history := past }, true) := by
  simp only [reverse, h]

theorem reverse_of_nil {m : Machine} (h : m.history = []) : m.reverse = (m, false) := by
  simp only [reverse, h]

/-! ### One step and whole runs -/

theorem history_prefix_step {m : Machine} {undo : List Snapshot} (h : m.history <+: undo)
    (o : Operation) : (m.perform o).history <+: m.undoAfter undo o := by
  cases o with
  | cycle =>
    simp only [perform, undoAfter, history_cycle]
    split
    · exact remembered_prefix h
    · exact h
  | reverse =>
    simp only [perform, undoAfter, history_reverse]
    cases hp : m.history with
    | nil => exact List.nil_prefix
    | cons s past =>
      rw [hp] at h
      obtain ⟨rest, rfl⟩ := h
      rw [if_pos (reverse_eq_true_iff.mpr (by simp [hp]))]
      exact List.prefix_append past rest
  | load rom =>
    rw [history_perform (by simp) (by simp)]
    exact h
  | _ => exact h

/-- The past is always a beginning of the undo stack. -/
theorem history_prefix_undoStack {m : Machine} {undo : List Snapshot} (h : m.history <+: undo)
    (ops : List Operation) : (m.run ops).history <+: m.undoStack undo ops := by
  induction ops generalizing m undo with
  | nil => exact h
  | cons o ops ih => exact ih (history_prefix_step h o)

theorem undoAfter_of_ne_reverse {m : Machine} {undo : List Snapshot} {o : Operation}
    (ho : o ≠ .reverse) : m.undoAfter undo o = (m.recordedStart? o).toList ++ undo := by
  cases o with
  | reverse => exact absurd rfl ho
  | cycle => simp only [undoAfter, recordedStart?]; split <;> rfl
  | _ => rfl

theorem undoStack_of_no_reverse {m : Machine} {undo : List Snapshot} {ops : List Operation}
    (hops : Operation.reverse ∉ ops) : m.undoStack undo ops = m.recordedStarts ops ++ undo := by
  induction ops generalizing m undo with
  | nil => rfl
  | cons o ops ih =>
    have ho : o ≠ .reverse := fun he => hops (he ▸ List.mem_cons_self)
    rw [undoStack, recordedStarts, ih fun h => hops (List.mem_cons_of_mem _ h),
      undoAfter_of_ne_reverse ho, List.append_assoc]

theorem take_cons_take {α : Type} (a : α) (l : List α) (n : Nat) :
    (a :: l.take n).take n = (a :: l).take n := by
  cases n with
  | zero => rfl
  | succ n => simp [List.take_take]

theorem history_eq_take_step {m : Machine} {undo : List Snapshot} {o : Operation}
    (ho : o ≠ .reverse) (h : m.history = undo.take m.settings.history) :
    (m.perform o).history = (m.undoAfter undo o).take m.settings.history := by
  cases o with
  | reverse => exact absurd rfl ho
  | cycle =>
    simp only [perform, undoAfter, history_cycle]
    split
    · rw [remembered, h, take_cons_take]
    · exact h
  | load rom =>
    rw [history_perform (by simp) (by simp)]
    exact h
  | _ => exact h

/-- Without rewinding the past is all of the undo stack that there is room for. -/
theorem history_eq_take {m : Machine} {undo : List Snapshot} {ops : List Operation}
    (hops : Operation.reverse ∉ ops) (h : m.history = undo.take m.settings.history) :
    (m.run ops).history = (m.undoStack undo ops).take m.settings.history := by
  induction ops generalizing m undo with
  | nil => exact h
  | cons o ops ih =>
    have ho : o ≠ .reverse := fun he => hops (he ▸ List.mem_cons_self)
    have hs := settings_perform m o
    have hstep := history_eq_take_step ho h
    rw [← hs] at hstep
    have htake := ih (fun h => hops (List.mem_cons_of_mem _ h)) hstep
    rw [hs] at htake
    exact htake

/-! ### Going back several cycles -/

theorem history_reverses (m : Machine) (k : Nat) :
    (m.run (.replicate k .reverse)).history = m.history.drop k := by
  induction k with
  | zero => rfl
  | succ k ih =>
    rw [List.replicate_succ', run_append, run_cons, run_nil, perform, history_reverse, ih,
      List.tail_drop]

theorem reverse_reverses_iff (m : Machine) (k : Nat) :
    (m.run (.replicate k .reverse)).reverse.2 = true ↔ k < m.history.length := by
  rw [reverse_eq_true_iff, history_reverses, Ne, List.drop_eq_nil_iff]
  omega

theorem state_reverses (m : Machine) {k : Nat} (hk : k < m.history.length) :
    (m.run (.replicate (k + 1) .reverse)).state = { m.history[k] with drawn := true } := by
  rw [List.replicate_succ', run_append, run_cons, run_nil, perform,
    reverse_of_cons ((history_reverses m k).trans (List.drop_eq_getElem_cons hk))]

/-- **Rewinding is an exact and bounded undo**, for every new machine and every run of it. -/
theorem reverse_exact {settings : Settings} {source : RandomSource} {new : Machine}
    (h : create settings source = .ok new) (ops : List Operation) :
    let m := new.run ops
    let undo := new.undoStack [] ops
    let starts := new.recordedStarts ops
    m.history <+: undo ∧ m.history.length ≤ settings.history ∧
    (m.reverse.2 = true ↔ m.history ≠ []) ∧
    (m.reverse.2 = true → ∃ s rest, undo = s :: rest ∧
      m.reverse.1 = { m with state := { s with drawn := true }, history := m.history.tail }) ∧
    (m.reverse.2 = false → m.reverse.1 = m) ∧
    (Operation.reverse ∉ ops → ∀ k,
      ((m.run (.replicate k .reverse)).reverse.2 = true ↔
        k < min starts.length settings.history) ∧
      ∀ hk : k < starts.length, k < settings.history →
        (m.run (.replicate (k + 1) .reverse)).state = { starts[k] with drawn := true }) := by
  intro m undo starts
  obtain ⟨_, hnew⟩ := create_eq_ok_iff.mp h
  have hset : m.settings = settings := (settings_run new ops).trans (by rw [hnew, fresh])
  have hpast : new.history = [] := by rw [hnew, fresh]
  have hpre : m.history <+: undo :=
    history_prefix_undoStack (hpast ▸ List.nil_prefix) ops
  refine ⟨hpre, hset ▸ (Reachable.run (.create h) ops).bounded.length_le,
    reverse_eq_true_iff, fun htrue => ?_, fun hfalse => ?_, fun hops k => ?_⟩
  · cases hp : m.history with
    | nil => exact absurd hp (reverse_eq_true_iff.mp htrue)
    | cons s past =>
      rw [hp] at hpre
      obtain ⟨rest, hrest⟩ := hpre
      exact ⟨s, past ++ rest, hrest.symm, by rw [reverse_of_cons hp, List.tail_cons]⟩
  · cases hp : m.history with
    | nil => rw [reverse_of_nil hp]
    | cons s past => rw [reverse_of_cons hp] at hfalse; cases hfalse
  · -- a run without reversals leaves what it has recorded, cut to the length of the past
    have htake : m.history = starts.take settings.history := by
      have hnil : new.history = [].take new.settings.history := by rw [hpast, List.take_nil]
      have hfull := history_eq_take hops hnil
      rw [undoStack_of_no_reverse hops, List.append_nil] at hfull
      rw [← hset, settings_run new ops]
      exact hfull
    have hlen : m.history.length = min starts.length settings.history := by
      rw [htake, List.length_take, Nat.min_comm]
    refine ⟨?_, fun hk hroom => ?_⟩
    · rw [reverse_reverses_iff, hlen]
    · have hk' : k < m.history.length := by omega
      rw [state_reverses m hk']
      simp only [htake, List.getElem_take]

/-- With room for one snapshot, only one of two recorded cycles can be taken back. -/
theorem reverse_exact_one_kept :
    ¬(((fresh { history := 1 } (.cipher default)).run
      [.load [0x6A, 0x05, 0x7A, 0x01], .cycle, .tick, .cycle]).run
        (.replicate 1 .reverse)).reverse.2 = true := by
  intro h
  have hroom := (((reverse_exact (create_eq_ok_iff.mpr ⟨rfl, rfl⟩)
    [.load [0x6A, 0x05, 0x7A, 0x01], .cycle, .tick, .cycle]).2.2.2.2.2 (by simp) 1).1).mp h
  exact absurd hroom (by decide +kernel)

end Machine

end ChipEight
