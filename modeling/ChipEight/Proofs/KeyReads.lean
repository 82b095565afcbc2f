import ChipEight.ByteStream.Seeded
import ChipEight.Proofs.Batches

/-!
# A key press is consumed once

`Instruction.seenKey?` is the key that an instruction finds down: the one that a register names, or
the lowest one. All that a cycle does to the keypad is to release that key, if keys are consumed by
reading (`keys_cycle`). Nothing but the key operations of a frontend turns a key from up to down
(`get_perform_of_up`), and a reversal leaves the keypad alone, so a key that was consumed stays up
however the run goes on.
-/

namespace ChipEight

namespace Instruction

def seenKey? (c : Context) : Instruction → Option Key
  | skipKey x | skipNoKey x => if c.keys.get (c.namedKey x) then some (c.namedKey x) else none
  | waitKey _ => c.keys.lowest?
  | _ => none

variable {consume : Bool} {c c' : Context} {i : Instruction}

theorem get_of_seenKey? {k : Key} (h : i.seenKey? c = some k) : c.keys.get k = true := by
  cases i with
  | skipKey x | skipNoKey x =>
    simp only [seenKey?] at h
    split at h
    · next hdown => cases h; exact hdown
    · cases h
  | waitKey x => exact (Keypad.lowest?_eq_some_iff.mp h).1
  | _ => cases h

theorem seenKey?_of_error {f : Fault} (h : i.execute consume c = .error f) :
    i.seenKey? c = none := by
  rw [execute_eq] at h
  cases i with
  | skipKey x | skipNoKey x | waitKey x => cases h
  | _ => rfl

theorem keys_skipOnKey (x : Register) (held : Bool) : (c.skipOnKey consume x held).keys =
    (if c.keys.get (c.namedKey x) then some (c.namedKey x) else none).elim c.keys
      (c.keys.afterRead consume) := by
  rw [Context.skipOnKey_eq]
  cases c.keys.get (c.namedKey x) <;> rfl

theorem keys_of_execute (h : i.execute consume c = .ok c') :
    c'.keys = (i.seenKey? c).elim c.keys (c.keys.afterRead consume) := by
  cases i with
  | ret => obtain ⟨_, rfl⟩ := execute_ret h; rfl
  | call addr => obtain ⟨_, rfl⟩ := execute_call h; rfl
  | draw x y n => obtain ⟨_, _, rfl⟩ := execute_draw h; rfl
  | fetch x => obtain ⟨_, _, rfl⟩ := execute_fetch h; rfl
  | decimal x => obtain ⟨_, _, rfl⟩ := execute_decimal h; rfl
  | store x => obtain ⟨_, _, rfl⟩ := execute_store h; rfl
  | skipKey x =>
    rw [execute_eq] at h
    cases h
    exact keys_skipOnKey x true
  | skipNoKey x =>
    rw [execute_eq] at h
    cases h
    exact keys_skipOnKey x false
  | waitKey x =>
    rw [execute_eq] at h
    cases h
    simp only [seenKey?, Context.awaitKey]
    cases c.keys.lowest? <;> rfl
  | _ =>
    rw [execute_eq] at h
    cases h
    rfl

theorem execute_consume (i : Instruction) (c : Context) (consume consume' : Bool) :
    (i.execute consume c).map (fun c' => { c' with keys := c.keys }) =
      (i.execute consume' c).map fun c' => { c' with keys := c.keys } := by
  rw [execute_eq, execute_eq]
  cases i with
  | waitKey x =>
    simp only [effect, Context.awaitKey]
    cases c.keys.lowest? <;> rfl
  | _ => rfl

end Instruction

namespace Machine

variable {m : Machine} {k : Key}

/-- The key that the next cycle finds down. -/
def seenKey? (m : Machine) : Option Key := m.instruction?.bind fun i => i.seenKey? m.context

theorem get_of_seenKey? (h : m.seenKey? = some k) : m.keys.get k = true := by
  obtain ⟨i, _, hi⟩ := Option.bind_eq_some_iff.mp h
  exact Instruction.get_of_seenKey? hi

theorem keys_cycle (m : Machine) :
    m.cycle.1.keys = m.seenKey?.elim m.keys (m.keys.afterRead m.settings.clearKeysOnRead) := by
  rcases m.cycle_carries_out with ⟨i, c, hi, he, hc⟩ | ⟨hfails, hc⟩
  · have hsome : m.seenKey? = i.seenKey? m.context := by simp [seenKey?, hi]
    rw [hc, hsome]
    exact Instruction.keys_of_execute he
  · have hnone : m.seenKey? = none := by
      refine Option.bind_eq_none_iff.mpr fun i hi => ?_
      obtain ⟨f, he⟩ := hfails i hi
      exact Instruction.seenKey?_of_error he
    rw [hnone]
    rcases hc with hc | hc <;> rw [hc] <;> rfl

theorem get_keys_cycle (m : Machine) (k : Key) : m.cycle.1.keys.get k =
    (m.keys.get k && !(m.settings.clearKeysOnRead && m.seenKey? = some k)) := by
  rw [keys_cycle]
  cases hs : m.seenKey? with
  | none => simp
  | some key =>
    cases m.settings.clearKeysOnRead with
    | false => simp [Keypad.afterRead]
    | true =>
      have hread : (m.keys.release key).get k = (m.keys.get k && decide (k ≠ key)) :=
        m.keys.getElem_release key k
      simp [Keypad.afterRead, hread, eq_comm]

end Machine

/-- An operation with which a frontend sets keys. -/
def Operation.setsKeys : Operation → Bool
  | .press _ | .release _ | .setKeys _ => true
  | _ => false

namespace Step

/-- A cycle on an instruction that finds the key down: one that asks for the key by the low digit of
a register, or one that waits and takes the lowest key. -/
def consumes (k : Key) : Step → Bool
  | ⟨m, .cycle⟩ => m.seenKey? = some k
  | _ => false

/-- A key operation of the frontend that turns the key from up to down. -/
def presses (k : Key) : Step → Bool
  | ⟨m, .press key⟩ => key = k.val && !m.keys.get k
  | ⟨m, .setKeys keys⟩ => keys.get k && !m.keys.get k
  | _ => false

end Step

namespace Machine

variable {m : Machine} {k : Key} {o : Operation} {ops : List Operation}

theorem consumes_iff : Step.consumes k ⟨m, .cycle⟩ = true ↔ m.keys.get k = true ∧ ∃ x,
    ((m.instruction? = some (.skipKey x) ∨ m.instruction? = some (.skipNoKey x)) ∧
      (m.state.register x).toNat % 16 = k) ∨
    (m.instruction? = some (.waitKey x) ∧ ∀ j < k, m.keys.get j = false) := by
  constructor
  · intro h
    have hs : m.seenKey? = some k := by simpa [Step.consumes] using h
    refine ⟨get_of_seenKey? hs, ?_⟩
    obtain ⟨i, hi, hk⟩ := Option.bind_eq_some_iff.mp hs
    cases i with
    | skipKey x =>
      obtain ⟨_, hkey⟩ := Option.ite_none_right_eq_some.mp hk
      exact ⟨x, .inl ⟨.inl hi, congrArg Fin.val (Option.some.inj hkey)⟩⟩
    | skipNoKey x =>
      obtain ⟨_, hkey⟩ := Option.ite_none_right_eq_some.mp hk
      exact ⟨x, .inl ⟨.inr hi, congrArg Fin.val (Option.some.inj hkey)⟩⟩
    | waitKey x => exact ⟨x, .inr ⟨hi, (Keypad.lowest?_eq_some_iff.mp hk).2⟩⟩
    | _ => cases hk
  · rintro ⟨hdown, x, ⟨hi, hkey⟩ | ⟨hi, hlow⟩⟩
    · have hnamed : m.context.namedKey x = k := Fin.ext hkey
      have hseen : (if m.context.keys.get (m.context.namedKey x) then
          some (m.context.namedKey x) else none) = some k := by
        rw [hnamed]
        exact if_pos hdown
      rcases hi with hi | hi <;> simp [Step.consumes, seenKey?, hi, Instruction.seenKey?, hseen]
    · have hlowest : m.context.keys.lowest? = some k := Keypad.lowest?_eq_some_iff.mpr ⟨hdown, hlow⟩
      simp [Step.consumes, seenKey?, hi, Instruction.seenKey?, hlowest]

theorem get_perform_of_up (hs : Step.presses k ⟨m, o⟩ = false) (hup : m.keys.get k = false) :
    (m.perform o).keys.get k = false := by
  cases o with
  | cycle =>
    show m.cycle.1.keys.get k = false
    rw [get_keys_cycle, hup, Bool.false_and]
  | reverse =>
    show m.reverse.1.keys.get k = false
    rw [keys_reverse, hup]
  | press key =>
    have hne : key ≠ k.val := by simpa [Step.presses, hup] using hs
    show (m.keys.setIfInBounds key true)[k.val] = false
    rw [Vector.getElem_setIfInBounds_ne _ hne]
    exact hup
  | release key =>
    show (m.keys.setIfInBounds key false)[k.val] = false
    rw [Vector.getElem_setIfInBounds]
    split
    · rfl
    · exact hup
  | setKeys keys =>
    show keys.get k = false
    simpa [Step.presses, hup] using hs
  | load rom =>
    obtain ⟨memory, hm⟩ := m.exists_perform_load rom
    rw [hm]
    exact hup
  | _ => exact hup

theorem up_of_consumes (hflag : m.settings.clearKeysOnRead = true)
    (h : Step.consumes k ⟨m, o⟩ = true) : (m.perform o).keys.get k = false := by
  cases o with
  | cycle =>
    have hs : m.seenKey? = some k := by simpa [Step.consumes] using h
    show m.cycle.1.keys.get k = false
    simp [get_keys_cycle, hflag, hs]
  | _ => cases h

/-- A key that is up and is not pressed stays up, and nothing consumes it. -/
theorem up_run (hs : ∀ s ∈ m.steps ops, s.presses k = false) (hup : m.keys.get k = false) :
    (m.steps ops).countP (Step.consumes k) = 0 ∧ (m.run ops).keys.get k = false := by
  induction ops generalizing m with
  | nil => exact ⟨rfl, hup⟩
  | cons o ops ih =>
    obtain ⟨hfirst, hrest⟩ := List.forall_mem_cons.mp hs
    obtain ⟨hcount, hend⟩ := ih hrest (get_perform_of_up hfirst hup)
    have hnot : ¬Step.consumes k ⟨m, o⟩ = true := by
      intro h
      cases o with
      | cycle =>
        rw [(consumes_iff.mp h).1] at hup
        cases hup
      | _ => cases h
    refine ⟨?_, hend⟩
    rw [steps, List.countP_cons_of_neg hnot]
    exact hcount

theorem consumed_run (hflag : m.settings.clearKeysOnRead = true)
    (hs : ∀ s ∈ m.steps ops, s.presses k = false) :
    (m.steps ops).countP (Step.consumes k) ≤ 1 ∧
      (0 < (m.steps ops).countP (Step.consumes k) → (m.run ops).keys.get k = false) := by
  induction ops generalizing m with
  | nil => exact ⟨Nat.zero_le 1, nofun⟩
  | cons o ops ih =>
    obtain ⟨_, hrest⟩ := List.forall_mem_cons.mp hs
    by_cases h : Step.consumes k ⟨m, o⟩ = true
    · obtain ⟨hcount, hend⟩ := up_run hrest (up_of_consumes hflag h)
      rw [steps, List.countP_cons_of_pos h, hcount]
      exact ⟨Nat.le_refl 1, fun _ => hend⟩
    · rw [steps, List.countP_cons_of_neg h]
      exact ih (by rw [settings_perform, hflag]) hrest

theorem cycle_consume (m : Machine) (consume : Bool) :
    let m' := { m with settings := { m.settings with clearKeysOnRead := consume } }
    m'.cycle.2 = m.cycle.2 ∧
      m'.cycle.1 = { m.cycle.1 with settings := m'.settings, keys := m'.cycle.1.keys } := by
  intro m'
  have hout : ∀ i, (m'.outcome i).map (fun c => { c with keys := m.keys }) =
      (m.outcome i).map fun c => { c with keys := m.keys } :=
    fun i => Instruction.execute_consume i m.context consume m.settings.clearKeysOnRead
  rcases m.cycle_cases with ⟨hpc, hc⟩ | ⟨w, hw, hd, hc⟩ | ⟨i, f, hi, he, hc⟩ | ⟨i, c, hi, he, hc⟩
  · have hc' : m'.cycle = _ := cycle_of_gt (m := m') hpc
    rw [hc, hc']
    exact ⟨rfl, rfl⟩
  · have hc' : m'.cycle = _ := cycle_of_unknown (m := m') hw hd
    rw [hc, hc']
    exact ⟨rfl, rfl⟩
  · have houti := hout i
    rw [he] at houti
    cases he' : m'.outcome i with
    | ok c' => rw [he'] at houti; cases houti
    | error f' =>
      rw [he'] at houti
      cases houti
      have hc' : m'.cycle = _ := cycle_of_error (m := m') hi he'
      rw [hc, hc']
      exact ⟨rfl, rfl⟩
  · have houti := hout i
    rw [he] at houti
    cases he' : m'.outcome i with
    | error f' => rw [he'] at houti; cases houti
    | ok c' =>
      rw [he'] at houti
      have hcontext : { c' with keys := m.keys } = { c with keys := m.keys } :=
        Except.ok.inj houti
      have hstate : c'.state = c.state := (congrArg Context.state hcontext :)
      have hrandom : c'.random = c.random := (congrArg Context.random hcontext :)
      have hc' : m'.cycle = _ := cycle_of_ok (m := m') hi he'
      rw [hc, hc']
      refine ⟨rfl, ?_⟩
      unfold commit
      rw [hstate, hrandom]
      rfl

/-- **A key press is consumed once.** With keys that are consumed by reading, and as long as the
frontend does not press a key again, at most one cycle of a run finds it down, and behind that cycle
it is up, whatever is taken back. A cycle releases the key that it finds down and no other; the
instruction that waits finds the lowest one. Cycles, ticks and reversals press no key. If keys are
not consumed by reading, only a frontend changes the keypad, and the keypad is all in which the two
kinds of cycles differ. -/
theorem press_consumed_once (m : Machine) :
    (m.settings.clearKeysOnRead = true → ∀ (k : Key) (ops : List Operation),
      (∀ s ∈ m.steps ops, s.presses k = false) →
      (m.steps ops).countP (Step.consumes k) ≤ 1 ∧
        ((∃ s ∈ m.steps ops, s.consumes k = true) → (m.run ops).keys.get k = false)) ∧
    (m.settings.clearKeysOnRead = true → ∀ k,
      (m.keys.get k = true ∧ m.cycle.1.keys.get k = false ↔
        Step.consumes k ⟨m, .cycle⟩ = true)) ∧
    (∀ k k', m.keys.get k ≠ m.cycle.1.keys.get k → m.keys.get k' ≠ m.cycle.1.keys.get k' →
      k = k') ∧
    (∀ x k, m.instruction? = some (.waitKey x) → m.keys.get k ≠ m.cycle.1.keys.get k →
      ∀ j < k, m.keys.get j = false) ∧
    (∀ o, o = .cycle ∨ o = .tick ∨ o = .reverse → ∀ k, m.keys.get k = false →
      (m.perform o).keys.get k = false) ∧
    (m.settings.clearKeysOnRead = false → ∀ o : Operation, o.setsKeys = false →
      (m.perform o).keys = m.keys) ∧
    (∀ (i : Instruction) (c : Context),
      (i.execute true c).map (fun c' => { c' with keys := c.keys }) =
        (i.execute false c).map fun c' => { c' with keys := c.keys }) ∧
    ∀ consume,
      let m' := { m with settings := { m.settings with clearKeysOnRead := consume } }
      m'.cycle.2 = m.cycle.2 ∧
        m'.cycle.1 = { m.cycle.1 with settings := m'.settings, keys := m'.cycle.1.keys } := by
  have hseen : ∀ k, m.keys.get k ≠ m.cycle.1.keys.get k → m.seenKey? = some k := by
    intro k hne
    by_contra hk
    simp [get_keys_cycle, hk] at hne
  refine ⟨fun hflag k ops hs => ?_, fun hflag k => ?_, fun k k' hk hk' => ?_,
    fun x k hi hk => ?_, fun o ho k hup => ?_, fun hflag o ho => ?_, fun i c => ?_, m.cycle_consume⟩
  · obtain ⟨hcount, hend⟩ := consumed_run hflag hs
    exact ⟨hcount, fun h => hend (List.countP_pos_iff.mpr h)⟩
  · constructor
    · rintro ⟨hdown, hup⟩
      simpa [Step.consumes] using hseen k (by simp [hdown, hup])
    · intro h
      exact ⟨(consumes_iff.mp h).1, up_of_consumes hflag h⟩
  · exact Option.some.inj ((hseen k hk).symm.trans (hseen k' hk'))
  · have hk : m.context.keys.lowest? = some k := by
      simpa [seenKey?, hi, Instruction.seenKey?] using hseen k hk
    exact (Keypad.lowest?_eq_some_iff.mp hk).2
  · refine get_perform_of_up ?_ hup
    rcases ho with rfl | rfl | rfl <;> rfl
  · cases o with
    | cycle =>
      show m.cycle.1.keys = m.keys
      rw [keys_cycle, hflag]
      cases m.seenKey? <;> rfl
    | reverse => exact m.keys_reverse
    | load rom => obtain ⟨memory, hm⟩ := m.exists_perform_load rom; rw [hm]
    | press _ | release _ | setKeys _ => cases ho
    | _ => rfl
  · exact Instruction.execute_consume i c true false

/-- A program asks for key 3 under the name `0x13`. The question is taken back and asked again, and
then the program waits for a key: the press was consumed by the first question. -/
theorem press_consumed_once_taken_back :
    let m := (fresh { clearKeysOnRead := true } (.cipher default)).run
      [.load [0x60, 0x13, 0xE0, 0x9E, 0xF1, 0x0A], .press 3]
    let ops := [.cycle, .cycle, .reverse, .tick, .cycle, .cycle]
    (m.steps ops).countP (Step.consumes 3) ≤ 1 ∧ (m.run ops).keys.get 3 = false ∧
      (m.run [.cycle, .cycle]).state.pc = 0x206 ∧ (m.run ops).state.pc = 0x204 := by
  intro m ops
  have hflag : m.settings.clearKeysOnRead = true := by rw [settings_run]; rfl
  obtain ⟨hcount, hup⟩ := (press_consumed_once m).1 hflag 3 ops (by decide +kernel)
  exact ⟨hcount, hup (by decide +kernel), by decide +kernel, by decide +kernel⟩

end Machine

end ChipEight
