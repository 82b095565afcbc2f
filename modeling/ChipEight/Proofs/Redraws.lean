import ChipEight.ByteStream.Seeded
import ChipEight.Proofs.Batches

/-!
# When the picture has to be shown

A cycle answers by the instruction whether the picture has to be shown, and the snapshot keeps a
mark of its own that the small steps of the instruction leave. The two agree (`drawn_cycle`), and no
operation changes the picture behind the back of the mark (`getD_frame?_perform`). So one who looks
at the picture only when the mark is set has seen, at the end of every run, what is on the screen
(`watch_run`).
-/

namespace ChipEight

namespace Instruction

theorem drawn_of_execute {consume : Bool} {c c' : Context} {i : Instruction}
    (h : i.execute consume c = .ok c') : c'.state.drawn = (i.redraws || c.state.drawn) := by
  cases i with
  | ret => obtain ⟨_, rfl⟩ := execute_ret h; rfl
  | call addr => obtain ⟨_, rfl⟩ := execute_call h; rfl
  | draw x y n => obtain ⟨_, _, rfl⟩ := execute_draw h; rfl
  | decimal x => obtain ⟨_, _, rfl⟩ := execute_decimal h; rfl
  | store x => obtain ⟨_, _, rfl⟩ := execute_store h; rfl
  | fetch x =>
    obtain ⟨bytes, _, rfl⟩ := execute_fetch h
    obtain ⟨v, hv⟩ := c.state.exists_setLeading_eq bytes
    rw [hv]
    rfl
  | alu op x y =>
    rw [execute_eq] at h
    cases h
    unfold Context.combine
    obtain ⟨result, flag⟩ := op.apply (c.state.register x) (c.state.register y)
    cases flag <;> rfl
  | waitKey x =>
    rw [execute_eq] at h
    cases h
    unfold Context.awaitKey
    split <;> rfl
  | _ =>
    rw [execute_eq] at h
    cases h
    rfl

end Instruction

namespace Machine

/-- What is seen by one who has seen `seen` before a run and takes the picture behind each operation
that leaves it to be shown. -/
def watch (m : Machine) (seen : Screen) : List Operation → Screen
  | [] => seen
  | o :: ops => (m.perform o).watch ((m.perform o).frame?.getD seen) ops

variable {m : Machine}

theorem frame?_eq_some_iff {s : Screen} :
    m.frame? = some s ↔ m.state.drawn = true ∧ s = m.state.screen := by
  rw [frame?, Option.ite_none_right_eq_some, Option.some_inj, eq_comm (a := s)]

theorem getD_frame? {seen : Screen} (h : m.state.screen = seen ∨ m.state.drawn = true) :
    m.frame?.getD seen = m.state.screen := by
  unfold frame?
  split
  · rfl
  · next hd => exact (h.resolve_right hd).symm

/-! ### Cycles -/

theorem drawn_outcome {i : Instruction} {c : Context} (h : m.outcome i = .ok c) :
    c.state.drawn = i.redraws :=
  (Instruction.drawn_of_execute h).trans (Bool.or_false _)

theorem drawn_cycle {r : Cycle} (h : m.cycle.2 = .ok r) :
    r = .redraw ↔ m.cycle.1.state.drawn = true := by
  obtain ⟨i, c, _, he, hc, rfl⟩ := exists_of_cycle_eq_ok h
  have hd : m.cycle.1.state.drawn = i.redraws := by
    rw [hc]
    exact drawn_outcome he
  rw [hd]
  cases i.redraws <;> decide

theorem redraw_iff_draws {r : Cycle} (h : m.cycle.2 = .ok r) :
    r = .redraw ↔ Step.draws ⟨m, .cycle⟩ = true := by
  obtain ⟨i, c, hi, _, _, rfl⟩ := exists_of_cycle_eq_ok h
  rw [draws_iff_redraws hi]
  cases i.redraws <;> decide

theorem state_of_unknownOpcode {w : Word} (h : m.cycle.2 = .error (.unknownOpcode w)) :
    m.cycle.1.state = m.untouched.next := by
  rcases m.cycle_cases with ⟨_, hc⟩ | ⟨_, _, _, hc⟩ | ⟨i, f, _, he, hc⟩ | ⟨i, c, _, _, hc⟩
  · cases (congrArg Prod.snd hc).symm.trans h
  · rw [hc]
    rfl
  · cases (congrArg Prod.snd hc).symm.trans h
    cases isRecoverable_of_outcome he
  · cases (congrArg Prod.snd hc).symm.trans h

theorem screen_cycle (m : Machine) :
    m.cycle.1.state.screen = m.state.screen ∨ m.cycle.1.state.drawn = true := by
  rcases m.cycle_carries_out with ⟨i, c, _, he, hc⟩ | ⟨_, hc | hc⟩
  · rw [hc]
    show c.state.screen = m.state.screen ∨ c.state.drawn = true
    rw [drawn_outcome he]
    cases hi : i.redraws with
    | true => exact .inr rfl
    | false => exact .inl (Instruction.screen_of_execute hi he)
  · exact .inl (by rw [hc])
  · exact .inl (by rw [hc]; rfl)

/-! ### Operations and runs -/

theorem screen_perform (m : Machine) (o : Operation) :
    (m.perform o).state.screen = m.state.screen ∨ (m.perform o).state.drawn = true := by
  rcases m.perform_cases o with rfl | rfl | ⟨_, _, _, _, _, _, hm⟩
  · exact m.screen_cycle
  · cases hp : m.history with
    | nil => exact .inl (by rw [perform, reverse_of_nil hp])
    | cons s past => exact .inr (by rw [perform, reverse_of_cons hp])
  · exact .inl (by rw [hm])

/-- One who has seen the picture before an operation has seen the one behind it. -/
theorem getD_frame?_perform (m : Machine) (o : Operation) :
    (m.perform o).frame?.getD m.state.screen = (m.perform o).state.screen :=
  getD_frame? (m.screen_perform o)

theorem watch_run (m : Machine) (ops : List Operation) :
    m.watch m.state.screen ops = (m.run ops).state.screen := by
  induction ops generalizing m with
  | nil => rfl
  | cons o ops ih => rw [watch, getD_frame?_perform, ih, run_cons]

/-- **The picture is marked exactly when it has to be shown.** An operation that changes a cell
leaves the mark. A cycle that carries an instruction out asks for the screen just when it leaves the
mark, and that is just when its word is one that clears or draws, whether a cell changes or not. A
cycle that passes over a word leaves no mark, one that halts the machine leaves mark and picture as
they were, and a reversal that comes to something leaves the mark. Only a marked picture is given
out, so one who takes every picture that is given out in a run has seen what is on the screen at its
end. -/
theorem redraw_signal_exact (m : Machine) :
    (∀ (o : Operation) (py : Fin screenHeight) (px : Fin screenWidth),
      (m.perform o).state.screen.pixel py px ≠ m.state.screen.pixel py px →
      (m.perform o).state.drawn = true) ∧
    (∀ r, m.cycle.2 = .ok r →
      (r = .redraw ↔ m.cycle.1.state.drawn = true) ∧
      (m.cycle.1.state.drawn = true ↔
        ∃ w, m.fetch = .ok w ∧ (w = 0x00E0 ∨ w.family = 0xD))) ∧
    (∀ w, m.cycle.2 = .error (.unknownOpcode w) →
      m.cycle.1.state.drawn = false ∧ m.cycle.1.state.screen = m.state.screen) ∧
    (∀ f, m.cycle.2 = .error f → f.isRecoverable = false →
      m.cycle.1.state.drawn = m.state.drawn ∧ m.cycle.1.state.screen = m.state.screen) ∧
    (m.reverse.2 = true → m.reverse.1.state.drawn = true) ∧
    (∀ s, m.frame? = some s ↔ m.state.drawn = true ∧ s = m.state.screen) ∧
    ∀ ops, m.watch m.state.screen ops = (m.run ops).state.screen := by
  refine ⟨fun o py px hne => ?_, fun r hr => ⟨drawn_cycle hr, ?_⟩, fun w hw => ?_,
    fun f hf hhalt => ?_, fun hback => ?_, fun s => frame?_eq_some_iff, m.watch_run⟩
  · refine (m.screen_perform o).resolve_left fun hsame => hne ?_
    rw [hsame]
  · rw [← drawn_cycle hr, redraw_iff_draws hr, draws_eq_true_iff]
  · rw [state_of_unknownOpcode hw]
    exact ⟨rfl, rfl⟩
  · have hsame : m.cycle.1 = m := eq_of_cycle_halted (Prod.ext rfl hf) hhalt
    rw [hsame]
    exact ⟨rfl, rfl⟩
  · obtain ⟨s, past, hp⟩ := List.exists_cons_of_ne_nil (reverse_eq_true_iff.mp hback)
    rw [reverse_of_cons hp]

/-- Clearing a blank screen leaves the mark, the unknown word behind it wipes the mark off, and
going back over that word leaves the mark again. -/
theorem redraw_signal_exact_on_blank :
    let m := (fresh {} (.cipher default)).run [.load [0x00, 0xE0, 0x01, 0x23]]
    m.cycle.1.state.screen = m.state.screen ∧ m.cycle.1.state.drawn = true ∧
    m.cycle.1.cycle.1.state.drawn = false ∧ m.cycle.1.cycle.1.reverse.1.state.drawn = true := by
  intro m
  obtain ⟨-, hcycle, -⟩ := redraw_signal_exact m
  obtain ⟨-, -, hpast, -⟩ := redraw_signal_exact m.cycle.1
  obtain ⟨-, -, -, -, hback, -⟩ := redraw_signal_exact m.cycle.1.cycle.1
  refine ⟨by decide +kernel, ?_, ?_, hback (by decide +kernel)⟩
  · exact (hcycle .redraw (by decide +kernel)).2.mpr ⟨0x00E0, by decide +kernel, .inl rfl⟩
  · exact (hpast 0x0123 (by decide +kernel)).1

end Machine

end ChipEight
