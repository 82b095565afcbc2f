import ChipEight.Instruction.Encode
import ChipEight.Proofs.Footprint
import ChipEight.Proofs.Rewind
import ChipEight.Workbench

/-!
# Batches

What the workbench does to its machine many times in a row is a run of the machine: cycles up to one
that halts it (`batch`), reversals up to one that finds no past (`retreat`), and ticks. `steps`
lists the operations of a run with the machine that each is done to, so that what happens in a run
can be counted: which cycles draw, which reversals bring a snapshot back, which ticks run the sound
timer out.
-/

namespace ChipEight

/-- An operation and the machine that it is done to. -/
structure Step where
  machine : Machine
  operation : Operation

namespace Step

/-- A cycle that ends with a fault that halts the machine. -/
def halts : Step → Bool
  | ⟨m, .cycle⟩ => match m.cycle.2 with
    | .error fault => !fault.isRecoverable
    | .ok _ => false
  | _ => false

/-- A cycle on the word that clears the screen or on one that draws. -/
def draws : Step → Bool
  | ⟨m, .cycle⟩ => match m.fetch with
    | .ok word => word = 0x00E0 || word.family = 0xD
    | .error _ => false
  | _ => false

/-- A reversal that brings a snapshot back. -/
def restores : Step → Bool
  | ⟨m, .reverse⟩ => !m.history.isEmpty
  | _ => false

/-- A tick that takes the sound timer from one to zero. -/
def expires : Step → Bool
  | ⟨m, .tick⟩ => m.state.sound = 1
  | _ => false

/-- A step after which the picture has to be shown. -/
def touches (s : Step) : Bool := s.draws || s.restores

variable {s : Step}

theorem halts_of_ne (h : s.operation ≠ .cycle) : s.halts = false := by
  obtain ⟨m, o⟩ := s
  cases o with
  | cycle => exact absurd rfl h
  | _ => rfl

theorem draws_of_ne (h : s.operation ≠ .cycle) : s.draws = false := by
  obtain ⟨m, o⟩ := s
  cases o with
  | cycle => exact absurd rfl h
  | _ => rfl

theorem restores_of_ne (h : s.operation ≠ .reverse) : s.restores = false := by
  obtain ⟨m, o⟩ := s
  cases o with
  | reverse => exact absurd rfl h
  | _ => rfl

theorem expires_of_ne (h : s.operation ≠ .tick) : s.expires = false := by
  obtain ⟨m, o⟩ := s
  cases o with
  | tick => exact absurd rfl h
  | _ => rfl

theorem touches_of_ne_reverse (h : s.operation ≠ .reverse) : s.touches = s.draws := by
  rw [touches, restores_of_ne h, Bool.or_false]

theorem touches_of_ne_cycle (h : s.operation ≠ .cycle) : s.touches = s.restores := by
  rw [touches, draws_of_ne h, Bool.false_or]

end Step

namespace Machine

def steps (m : Machine) : List Operation → List Step
  | [] => []
  | o :: ops => ⟨m, o⟩ :: (m.perform o).steps ops

/-- Up to `n` cycles; one that halts the machine is the last. -/
def batch (m : Machine) : Nat → List Operation
  | 0 => []
  | n + 1 => .cycle :: if Step.halts ⟨m, .cycle⟩ then [] else m.cycle.1.batch n

/-- Up to `n` reversals; one that finds no past is the last. -/
def retreat (m : Machine) : Nat → List Operation
  | 0 => []
  | n + 1 => .reverse :: if Step.restores ⟨m, .reverse⟩ then m.reverse.1.retreat n else []

variable {m : Machine}

theorem steps_append (m : Machine) (ops ops' : List Operation) :
    m.steps (ops ++ ops') = m.steps ops ++ (m.run ops).steps ops' := by
  induction ops generalizing m with
  | nil => rfl
  | cons o ops ih => simp only [List.cons_append, steps, ih, run_cons]

theorem map_operation_steps (m : Machine) (ops : List Operation) :
    (m.steps ops).map Step.operation = ops := by
  induction ops generalizing m with
  | nil => rfl
  | cons o ops ih => exact congrArg _ (ih (m.perform o))

theorem operation_mem_of_mem_steps {ops : List Operation} {s : Step} (h : s ∈ m.steps ops) :
    s.operation ∈ ops := by
  have hmem := List.mem_map_of_mem (f := Step.operation) h
  rwa [map_operation_steps] at hmem

theorem countP_cons_toNat (p : Step → Bool) (s : Step) (l : List Step) :
    (s :: l).countP p = (p s).toNat + l.countP p := by
  rw [List.countP_cons, Nat.add_comm]
  cases p s <;> rfl

theorem any_congr {p q : Step → Bool} {l : List Step} (h : ∀ s ∈ l, p s = q s) :
    l.any p = l.any q := by
  induction l with
  | nil => rfl
  | cons s l ih =>
    rw [List.any_cons, List.any_cons, h s List.mem_cons_self,
      ih fun s hs => h s (List.mem_cons_of_mem _ hs)]

theorem any_of_no_cycle {p : Step → Bool} (hp : ∀ s : Step, s.operation ≠ .cycle → p s = false)
    {ops : List Operation} (h : .cycle ∉ ops) : (m.steps ops).any p = false := by
  rw [List.any_eq_false]
  intro s hs
  have hne : s.operation ≠ .cycle := fun he => h (he ▸ operation_mem_of_mem_steps hs)
  rw [hp s hne]
  exact Bool.false_ne_true

theorem any_halts_of_no_cycle {ops : List Operation} (h : .cycle ∉ ops) :
    (m.steps ops).any Step.halts = false := any_of_no_cycle (fun _ => Step.halts_of_ne) h

theorem any_draws_of_no_cycle {ops : List Operation} (h : .cycle ∉ ops) :
    (m.steps ops).any Step.draws = false := any_of_no_cycle (fun _ => Step.draws_of_ne) h

theorem any_touches_of_no_cycle {ops : List Operation} (h : .cycle ∉ ops) :
    (m.steps ops).any Step.touches = (m.steps ops).any Step.restores :=
  any_congr fun _ hs => Step.touches_of_ne_cycle fun he => h (he ▸ operation_mem_of_mem_steps hs)

theorem any_touches_of_no_reverse {ops : List Operation} (h : .reverse ∉ ops) :
    (m.steps ops).any Step.touches = (m.steps ops).any Step.draws :=
  any_congr fun _ hs => Step.touches_of_ne_reverse fun he => h (he ▸ operation_mem_of_mem_steps hs)

theorem cycle_notMem_replicate_tick (n : Nat) : Operation.cycle ∉ List.replicate n .tick := by
  intro h
  cases List.eq_of_mem_replicate h

theorem eq_cycle_of_mem_batch {n : Nat} {o : Operation} (h : o ∈ m.batch n) : o = .cycle := by
  induction n generalizing m with
  | zero => cases h
  | succ n ih =>
    rcases List.mem_cons.mp h with rfl | h
    · rfl
    · split at h
      · cases h
      · exact ih h

theorem eq_reverse_of_mem_retreat {n : Nat} {o : Operation} (h : o ∈ m.retreat n) :
    o = .reverse := by
  induction n generalizing m with
  | zero => cases h
  | succ n ih =>
    rcases List.mem_cons.mp h with rfl | h
    · rfl
    · split at h
      · exact ih h
      · cases h

theorem batch_eq_replicate {n : Nat} (h : (m.steps (m.batch n)).any Step.halts = false) :
    m.batch n = .replicate n .cycle := by
  induction n generalizing m with
  | zero => rfl
  | succ n ih =>
    rw [batch, steps, List.any_cons, Bool.or_eq_false_iff] at h
    obtain ⟨h0, hrest⟩ := h
    rw [h0] at hrest
    rw [batch, h0, List.replicate_succ]
    exact congrArg _ (ih hrest)

end Machine

/-! ### Drawing -/

namespace Instruction

theorem redraws_iff {w : Word} {i : Instruction} (h : decode? w = some i) :
    i.redraws = true ↔ w = 0x00E0 ∨ w.family = 0xD := by
  obtain rfl := decode?_eq_some_iff.mp h
  constructor
  · intro hr
    cases i with
    | clear => exact .inl rfl
    | draw x y n => exact .inr (Word.family_ofRegisters ..)
    | _ => cases hr
  · rintro (hw | hf)
    · rw [hw] at h
      cases h
      rfl
    · cases i with
      | draw x y n => rfl
      | clear | ret => exact absurd hf (by decide)
      | jump a | call a | loadIndex a | jumpOffset a =>
        rw [encode, Word.family_ofAddress] at hf
        exact absurd hf (by decide)
      | skipEqual x o | skipUnequal x o | load x o =>
        cases o with
        | byte kk =>
          rw [encode, Word.family_ofByte] at hf
          exact absurd hf (by decide)
        | register y =>
          rw [encode, Word.family_ofRegisters] at hf
          exact absurd hf (by decide)
      | alu op x y =>
        rw [encode, Word.family_ofRegisters] at hf
        exact absurd hf (by decide)
      | _ =>
        rw [encode, Word.family_ofByte] at hf
        exact absurd hf (by decide)

theorem decode?_isSome_of_drawing {w : Word} (h : w = 0x00E0 ∨ w.family = 0xD) :
    (decode? w).isSome = true := by
  rcases h with rfl | h
  · rfl
  · simp only [decode?, h]
    rfl

theorem screen_of_execute {consume : Bool} {c c' : Context} {i : Instruction}
    (hi : i.redraws = false) (h : i.execute consume c = .ok c') :
    c'.state.screen = c.state.screen := by
  refine Screen.ext_pixel fun py px => ?_
  by_contra hne
  obtain rfl | ⟨x, y, n, rfl, -⟩ := (execute_footprint h).screen py px hne
  · cases hi
  · cases hi

end Instruction

namespace Machine

variable {m : Machine}

theorem draws_eq_true_iff :
    Step.draws ⟨m, .cycle⟩ = true ↔ ∃ w, m.fetch = .ok w ∧ (w = 0x00E0 ∨ w.family = 0xD) := by
  cases h : m.fetch <;> simp [Step.draws, h]

theorem draws_iff_redraws {i : Instruction} (hi : m.instruction? = some i) :
    Step.draws ⟨m, .cycle⟩ = true ↔ i.redraws = true := by
  obtain ⟨w, hw, hd⟩ := instruction?_eq_some_iff.mp hi
  rw [draws_eq_true_iff, Instruction.redraws_iff hd]
  simp [hw]

theorem cycle_of_not_halts (h : Step.halts ⟨m, .cycle⟩ = false) :
    (Step.draws ⟨m, .cycle⟩ = true ∧ m.cycle.2 = .ok .redraw) ∨
    (Step.draws ⟨m, .cycle⟩ = false ∧ m.cycle.1.state.screen = m.state.screen ∧
      (m.cycle.2 = .ok .poll ∨ ∃ w, m.cycle.2 = .error (.unknownOpcode w))) := by
  rcases m.cycle_cases with ⟨_, hc⟩ | ⟨w, hw, hd, hc⟩ | ⟨i, f, _, he, hc⟩ | ⟨i, c, hi, he, hc⟩
  · simp [Step.halts, hc, Fault.isRecoverable] at h
  · refine .inr ⟨?_, by rw [hc]; rfl, .inr ⟨w, by rw [hc]⟩⟩
    -- a word that stands for no instruction does not draw
    rw [← Bool.not_eq_true, draws_eq_true_iff]
    rintro ⟨w', hw', hdraw⟩
    rw [hw] at hw'
    cases hw'
    have hs := Instruction.decode?_isSome_of_drawing hdraw
    rw [hd] at hs
    cases hs
  · simp [Step.halts, hc, isRecoverable_of_outcome he] at h
  · have hdraws := draws_iff_redraws hi
    cases hr : i.redraws with
    | true => exact .inl ⟨hdraws.mpr hr, by rw [hc, hr]; rfl⟩
    | false =>
      refine .inr ⟨?_, ?_, .inl (by rw [hc, hr]; rfl)⟩
      · rw [← Bool.not_eq_true, hdraws, hr]
        exact Bool.false_ne_true
      · rw [hc]
        exact Instruction.screen_of_execute hr he

theorem cycle_of_halts (h : Step.halts ⟨m, .cycle⟩ = true) :
    ∃ fault, m.cycle = (m, .error fault) ∧ fault.isRecoverable = false := by
  simp only [Step.halts] at h
  cases hr : m.cycle.2 with
  | ok c => simp [hr] at h
  | error fault =>
    have hf : fault.isRecoverable = false := by simpa [hr] using h
    have hc : m.cycle = (m.cycle.1, .error fault) := Prod.ext rfl hr
    exact ⟨fault, by rw [hc, eq_of_cycle_halted hc hf], hf⟩

/-- Only drawing and going back change the picture; a cycle that halts the machine draws nothing,
whatever its word. -/
theorem screen_run {ops : List Operation}
    (h : ∀ s ∈ m.steps ops, (s.draws = true → s.halts = true) ∧ s.restores = false) :
    (m.run ops).state.screen = m.state.screen := by
  induction ops generalizing m with
  | nil => rfl
  | cons o ops ih =>
    have ho := h ⟨m, o⟩ List.mem_cons_self
    rw [run_cons, ih fun s hs => h s (List.mem_cons_of_mem _ hs)]
    rcases m.perform_cases o with rfl | rfl | ⟨_, _, _, _, _, _, hm⟩
    · cases hh : Step.halts ⟨m, .cycle⟩ with
      | true =>
        obtain ⟨fault, hc, _⟩ := cycle_of_halts hh
        rw [perform, hc]
      | false =>
        rcases cycle_of_not_halts hh with ⟨hd, _⟩ | ⟨_, hs, _⟩
        · rw [ho.1 hd] at hh
          cases hh
        · exact hs
    · have hp : m.history = [] := by simpa [Step.restores] using ho.2
      rw [perform, reverse_of_nil hp]
    · rw [hm]

end Machine

namespace Workbench

theorem cycles_eq (b : Workbench) (cancelled drawn : Bool) (n : Nat) :
    b.cycles cancelled drawn n = b.cycles false drawn (if cancelled then 0 else n) := by
  cases cancelled with
  | false => rfl
  | true => cases n <;> rfl

theorem cycles_spec (b : Workbench) (drawn : Bool) (n : Nat) :
    (b.cycles false drawn n).1.machine = b.machine.run (b.machine.batch n) ∧
    (((b.machine.steps (b.machine.batch n)).any Step.halts = false ∧
      (b.cycles false drawn n).2 =
        .ok (drawn || (b.machine.steps (b.machine.batch n)).any Step.draws)) ∨
    ((b.machine.steps (b.machine.batch n)).any Step.halts = true ∧
      ∃ fault, (b.cycles false drawn n).2 = .error fault)) := by
  induction n generalizing b drawn with
  | zero => exact ⟨rfl, .inl ⟨rfl, by simp [cycles, Machine.batch, Machine.steps]⟩⟩
  | succ n ih =>
    simp only [Machine.batch, Machine.steps, List.any_cons, Machine.run_cons, Machine.perform]
    cases hh : Step.halts ⟨b.machine, .cycle⟩ with
    | true =>
      obtain ⟨fault, hc, hf⟩ := Machine.cycle_of_halts hh
      simp [cycles, cycle, hc, hf, report]
    | false =>
      have hcycle : b.cycle = (⟨b.machine.cycle.1, b.journal.add? b.machine.cycleEvent?⟩,
          b.machine.cycle.2) := rfl
      simp only [Bool.false_eq_true, if_false, Bool.false_or]
      rcases Machine.cycle_of_not_halts hh with ⟨hd, hr⟩ | ⟨hd, _, hr | ⟨w, hr⟩⟩
      · simp only [cycles, hcycle, hr, hd, Bool.true_or, Bool.or_true]
        exact ih ⟨b.machine.cycle.1, _⟩ true
      · simp only [cycles, hcycle, hr, hd, Bool.false_or]
        exact ih ⟨b.machine.cycle.1, _⟩ drawn
      · simp only [cycles, hcycle, hr, hd, Bool.false_or, Fault.isRecoverable, if_true]
        exact ih (report ⟨b.machine.cycle.1, _⟩ _) drawn

theorem reverse_spec (b : Workbench) (done n : Nat) :
    (b.reverse done n).1.machine = b.machine.run (b.machine.retreat n) ∧
    (b.reverse done n).2 =
      done + (b.machine.steps (b.machine.retreat n)).countP Step.restores := by
  induction n generalizing b done with
  | zero => exact ⟨rfl, rfl⟩
  | succ n ih =>
    simp only [Machine.retreat, Machine.steps, Machine.run_cons, Machine.perform]
    cases hp : b.machine.history with
    | nil => simp [reverse, Machine.reverse_of_nil hp, Step.restores, hp, Machine.steps]
    | cons s past =>
      have hr := Machine.reverse_of_cons hp
      obtain ⟨hm, hn⟩ := ih { b with machine := b.machine.reverse.1 } (done + 1)
      have hs : Step.restores ⟨b.machine, .reverse⟩ = true := by simp [Step.restores, hp]
      have hb : b.reverse done (n + 1) =
          reverse { b with machine := b.machine.reverse.1 } (done + 1) n := by
        rw [reverse, hr]
      rw [hb, hm, hn, hs, if_pos rfl, List.countP_cons_of_pos hs, Nat.add_assoc, Nat.add_comm 1]
      exact ⟨rfl, rfl⟩

theorem rewind_spec (b : Workbench) (n : Nat) :
    (b.rewind n).1.machine = b.machine.run (b.machine.retreat n) ∧
    (b.rewind n).2 = (b.machine.steps (b.machine.retreat n)).any Step.restores := by
  obtain ⟨hm, hn⟩ := b.reverse_spec 0 n
  rw [Nat.zero_add] at hn
  unfold rewind
  simp only
  split
  · next h0 =>
    rw [hn, List.countP_eq_zero] at h0
    exact ⟨hm, by simpa using h0⟩
  · next h0 =>
    rw [hn, List.countP_eq_zero] at h0
    exact ⟨hm, by simpa using h0⟩

/-- A tick changes nothing while both timers are at zero, so the rest of the ticks may be left
out. -/
theorem ticks_machine (b : Workbench) (n : Nat) :
    (b.ticks n).machine = b.machine.run (.replicate n .tick) := by
  induction n generalizing b with
  | zero => rfl
  | succ n ih =>
    rw [List.replicate_succ, Machine.run_cons, ticks]
    split
    · exact ih b.tick
    · next h =>
      have hrest : b.machine.perform .tick = b.machine := by
        obtain ⟨hd, hs⟩ : b.machine.state.delay = 0 ∧ b.machine.state.sound = 0 := by
          simpa [timersRun] using h
        show b.machine.tick = b.machine
        simp only [Machine.tick, Snapshot.tick, Snapshot.soundExpires, hd, hs]
        obtain ⟨⟨settings, state, history, keys, random, mailbox, taken⟩, journal⟩ := b
        obtain ⟨pc, sp, index, v, delay, sound, stack, memory, screen, drawn⟩ := state
        simp only at hd hs
        subst hd hs
        rfl
      rw [hrest, ← ih b]
      cases n with
      | zero => rfl
      | succ n => rw [ticks, if_neg h]

end Workbench

end ChipEight
