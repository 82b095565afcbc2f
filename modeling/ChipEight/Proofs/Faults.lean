import ChipEight.ByteStream.Seeded
import ChipEight.Proofs.Bounds

/-!
# Faults

`Instruction.fault?` reads off a snapshot whether an instruction is going to fail, and how: only the
counter, the stack pointer and the index register matter. So a fault that halts the machine comes
back in every later cycle, for as long as nothing but timers and keys moves
(`halted_atomic_and_absorbing`).
-/

namespace ChipEight

/-- The fault of reaching for bytes at the index register that are not all there. -/
def Snapshot.blockFault? (s : Snapshot) (len : Nat) : Option Fault :=
  if s.index.toNat + len ≤ memorySize then none
  else some (.memoryOutOfBounds (s.index.toNat + len - 1))

namespace Instruction

/-- How many bytes an instruction reads or writes at the index register, if it is one that does. -/
def span? : Instruction → Option Nat
  | draw _ _ n => some n
  | decimal _ => some 3
  | store x | fetch x => some (x + 1)
  | _ => none

/-- The fault of an instruction. -/
def fault? (s : Snapshot) : Instruction → Option Fault
  | ret =>
    if 0 < s.sp.toNat ∧ s.sp.toNat ≤ stackDepth then none else some (.stackUnderflow s.pc)
  | call _ => if s.sp.toNat < stackDepth then none else some (.stackOverflow s.pc)
  | i => i.span?.bind s.blockFault?

theorem fault?_of_span? {i : Instruction} {len : Nat} (h : i.span? = some len) (s : Snapshot) :
    i.fault? s = s.blockFault? len := by
  cases i <;> simp_all [span?, fault?]

theorem fault?_congr {s s' : Snapshot} (i : Instruction) (hpc : s'.pc = s.pc) (hsp : s'.sp = s.sp)
    (hindex : s'.index = s.index) : i.fault? s' = i.fault? s := by
  have hb : s'.blockFault? = s.blockFault? := by
    funext len
    rw [Snapshot.blockFault?, Snapshot.blockFault?, hindex]
  cases i <;> simp only [fault?, hpc, hsp, hb]

variable {consume : Bool} {c : Context} {f : Fault}

theorem readIndexed_eq_error_iff {s : Snapshot} {len : Nat} :
    s.readIndexed len = .error f ↔ s.blockFault? len = some f := by
  unfold Snapshot.readIndexed Memory.readBlock Snapshot.blockFault?
  split <;> simp

theorem writeIndexed_eq_error_iff {s : Snapshot} {bytes : List UInt8} :
    s.writeIndexed bytes = .error f ↔ s.blockFault? bytes.length = some f := by
  unfold Snapshot.writeIndexed Memory.writeBlock Snapshot.blockFault?
  split <;> simp [bind, Except.bind, pure, Except.pure]

theorem bind_pure_eq_error_iff {α β : Type} {r : Except Fault α} {g : α → β} :
    (do return g (← r) : Except Fault β) = .error f ↔ r = .error f := by
  cases r <;> simp [bind, Except.bind, pure, Except.pure]

theorem execute_eq_error_iff {i : Instruction} :
    i.execute consume c = .error f ↔ i.fault? c.state = some f := by
  cases i with
  | ret =>
    simp only [execute_eq, effect, fault?, Snapshot.pop]
    split <;> simp [bind, Except.bind, pure, Except.pure]
  | call addr =>
    simp only [execute_eq, effect, fault?, Snapshot.push]
    split <;> simp [bind, Except.bind, pure, Except.pure]
  | draw x y n =>
    simp only [execute_eq, effect, bind_pure_eq_error_iff, readIndexed_eq_error_iff]
    rfl
  | fetch x =>
    simp only [execute_eq, effect, bind_pure_eq_error_iff, readIndexed_eq_error_iff]
    rfl
  | decimal x =>
    simp only [execute_eq, effect, bind_pure_eq_error_iff, writeIndexed_eq_error_iff]
    rfl
  | store x =>
    simp only [execute_eq, effect, bind_pure_eq_error_iff, writeIndexed_eq_error_iff,
      Snapshot.length_leading]
    rfl
  | _ => simp [execute_eq, effect, fault?, span?]

theorem fault?_eq_some {s : Snapshot} {i : Instruction} (h : i.fault? s = some f) :
    (i = ret ∧ ¬(0 < s.sp.toNat ∧ s.sp.toNat ≤ stackDepth) ∧ f = .stackUnderflow s.pc) ∨
    (∃ addr, i = call addr ∧ stackDepth ≤ s.sp.toNat ∧ f = .stackOverflow s.pc) ∨
    (∃ len, i.span? = some len ∧ memorySize < s.index.toNat + len ∧
      f = .memoryOutOfBounds (s.index.toNat + len - 1)) := by
  cases hs : i.span? with
  | some len =>
    rw [fault?_of_span? hs, Snapshot.blockFault?] at h
    split at h
    · cases h
    · next hlen => cases h; exact .inr (.inr ⟨len, rfl, Nat.lt_of_not_le hlen, rfl⟩)
  | none =>
    cases i with
    | ret =>
      simp only [fault?] at h
      split at h
      · cases h
      · next hsp => cases h; exact .inl ⟨rfl, hsp, rfl⟩
    | call addr =>
      simp only [fault?] at h
      split at h
      · cases h
      · next hsp => cases h; exact .inr (.inl ⟨addr, rfl, Nat.le_of_not_lt hsp, rfl⟩)
    | _ => simp [fault?, hs] at h

end Instruction

/-- What may be done to a halted machine without a chance that it goes on: no program is loaded, and
nothing is taken back. -/
def Operation.IsRoutine : Operation → Prop
  | .cycle | .tick | .press _ | .release _ | .setKeys _ => True
  | _ => False

namespace Machine

variable {m m' : Machine} {f : Fault}

theorem outcome_eq_error_iff {i : Instruction} :
    m.outcome i = .error f ↔ i.fault? m.state = some f :=
  Instruction.execute_eq_error_iff.trans (by rw [Instruction.fault?_congr i] <;> rfl)

theorem isRecoverable_of_outcome {i : Instruction} (h : m.outcome i = .error f) :
    f.isRecoverable = false := by
  rcases Instruction.fault?_eq_some (outcome_eq_error_iff.mp h) with
    ⟨_, _, rfl⟩ | ⟨_, _, _, rfl⟩ | ⟨_, _, _, rfl⟩ <;> rfl

theorem cycle_eq_error_iff (hf : ∀ w, f ≠ .unknownOpcode w) :
    m.cycle.2 = .error f ↔
      (0xFFE < m.state.pc.toNat ∧ f = .memoryOutOfBounds m.state.pc.toNat) ∨
      ∃ i, m.instruction? = some i ∧ i.fault? m.state = some f := by
  constructor
  · intro h
    rcases m.cycle_cases with ⟨hpc, hc⟩ | ⟨w, _, _, hc⟩ | ⟨i, f', hi, he, hc⟩ | ⟨i, c, _, _, hc⟩
    · rw [hc] at h
      cases h
      exact .inl ⟨hpc, rfl⟩
    · rw [hc] at h
      cases h
      exact absurd rfl (hf w)
    · rw [hc] at h
      cases h
      exact .inr ⟨i, hi, outcome_eq_error_iff.mp he⟩
    · rw [hc] at h
      cases h
  · rintro (⟨hpc, rfl⟩ | ⟨i, hi, he⟩)
    · rw [cycle_of_gt hpc]
    · rw [cycle_of_error hi (outcome_eq_error_iff.mpr he)]

theorem cycle_stackOverflow_iff (hm : m.Bounded) {pc : UInt16} :
    m.cycle.2 = .error (.stackOverflow pc) ↔
      (∃ addr, m.instruction? = some (.call addr)) ∧ m.state.sp = 16 ∧ pc = m.state.pc := by
  have hsp := hm.state.sp_le
  rw [cycle_eq_error_iff (f := .stackOverflow pc) fun _ => nofun]
  constructor
  · rintro (⟨_, h⟩ | ⟨i, hi, h⟩)
    · cases h
    · rcases Instruction.fault?_eq_some h with ⟨_, _, h⟩ | ⟨addr, rfl, hle, h⟩ | ⟨_, _, _, h⟩
      · cases h
      · cases h
        refine ⟨⟨addr, hi⟩, UInt8.toNat_inj.mp ?_, rfl⟩
        exact Nat.le_antisymm hsp hle
      · cases h
  · rintro ⟨⟨addr, hi⟩, h16, rfl⟩
    refine .inr ⟨.call addr, hi, ?_⟩
    simp [Instruction.fault?, h16, stackDepth]

theorem cycle_stackUnderflow_iff (hm : m.Bounded) {pc : UInt16} :
    m.cycle.2 = .error (.stackUnderflow pc) ↔
      m.instruction? = some .ret ∧ m.state.sp = 0 ∧ pc = m.state.pc := by
  have hsp := hm.state.sp_le
  rw [cycle_eq_error_iff (f := .stackUnderflow pc) fun _ => nofun]
  constructor
  · rintro (⟨_, h⟩ | ⟨i, hi, h⟩)
    · cases h
    · rcases Instruction.fault?_eq_some h with ⟨rfl, hout, h⟩ | ⟨_, _, _, h⟩ | ⟨_, _, _, h⟩
      · cases h
        refine ⟨hi, UInt8.toNat_inj.mp ?_, rfl⟩
        show m.state.sp.toNat = 0
        simp only [stackDepth] at hout
        omega
      · cases h
      · cases h
  · rintro ⟨hi, h0, rfl⟩
    refine .inr ⟨.ret, hi, ?_⟩
    simp [Instruction.fault?, h0]

/-- The fault of a failed fetch names the counter; the fault of an instruction names an address past
the end of memory, where no fetch succeeds. -/
theorem cycle_memoryOutOfBounds_iff {addr : Nat} :
    m.cycle.2 = .error (.memoryOutOfBounds addr) ↔
      (0xFFE < m.state.pc.toNat ∧ addr = m.state.pc.toNat) ∨
      ∃ i len, m.instruction? = some i ∧ i.span? = some len ∧
        memorySize < m.state.index.toNat + len ∧ addr = m.state.index.toNat + len - 1 := by
  rw [cycle_eq_error_iff (f := .memoryOutOfBounds addr) fun _ => nofun]
  constructor
  · rintro (⟨hpc, h⟩ | ⟨i, hi, h⟩)
    · cases h
      exact .inl ⟨hpc, rfl⟩
    · rcases Instruction.fault?_eq_some h with ⟨_, _, h⟩ | ⟨_, _, _, h⟩ | ⟨len, hs, hlt, h⟩
      · cases h
      · cases h
      · cases h
        exact .inr ⟨i, len, hi, hs, hlt, rfl⟩
  · rintro (⟨hpc, rfl⟩ | ⟨i, len, hi, hs, hlt, rfl⟩)
    · exact .inl ⟨hpc, rfl⟩
    · refine .inr ⟨i, hi, ?_⟩
      rw [Instruction.fault?_of_span? hs, Snapshot.blockFault?, if_neg (Nat.not_le.mpr hlt)]

theorem cycle_memoryOutOfBounds_pc_iff :
    m.cycle.2 = .error (.memoryOutOfBounds m.state.pc.toNat) ↔ 0xFFE < m.state.pc.toNat := by
  rw [cycle_memoryOutOfBounds_iff]
  constructor
  · rintro (⟨hpc, _⟩ | ⟨i, len, hi, _, hlt, haddr⟩)
    · exact hpc
    · have hpc := pc_le_of_instruction? hi
      simp only [memorySize] at hlt
      omega
  · exact fun hpc => .inl ⟨hpc, rfl⟩

/-! ### Halted machines -/

/-- `m'` is `m` but for the timers, the keys and the mailbox. -/
def SameButIdle (m m' : Machine) : Prop :=
  m' = { m with
    state := { m.state with delay := m'.state.delay, sound := m'.state.sound }
    keys := m'.keys
    mailbox := m'.mailbox }

theorem SameButIdle.refl (m : Machine) : SameButIdle m m := rfl

theorem SameButIdle.instruction? (h : SameButIdle m m') : m'.instruction? = m.instruction? := by
  rw [h]
  rfl

theorem SameButIdle.cycle (h : SameButIdle m m') (hf : ∀ w, f ≠ .unknownOpcode w)
    (hm : m.cycle.2 = .error f) : m'.cycle.2 = .error f := by
  have hpc : m'.state.pc = m.state.pc := by rw [h]
  have hsp : m'.state.sp = m.state.sp := by rw [h]
  have hindex : m'.state.index = m.state.index := by rw [h]
  rw [cycle_eq_error_iff hf] at hm ⊢
  rw [h.instruction?, hpc]
  refine hm.imp_right fun ⟨i, hi, he⟩ => ⟨i, hi, ?_⟩
  rw [Instruction.fault?_congr i hpc hsp hindex]
  exact he

theorem cycle_eq_self_of_error (hf : ∀ w, f ≠ .unknownOpcode w) (h : m.cycle.2 = .error f) :
    m.cycle.1 = m := by
  refine eq_of_cycle_halted (Prod.ext rfl h) ?_
  cases f with
  | unknownOpcode w => exact absurd rfl (hf w)
  | _ => rfl

/-- A step of a halted machine: a cycle changes nothing, and the rest is timers and keys. -/
theorem SameButIdle.perform (h : SameButIdle m m') (hf : ∀ w, f ≠ .unknownOpcode w)
    (hm : m.cycle.2 = .error f) {o : Operation} (ho : o.IsRoutine) :
    SameButIdle m (m'.perform o) := by
  cases o with
  | cycle =>
    have he : m'.perform .cycle = m' := cycle_eq_self_of_error hf (h.cycle hf hm)
    rw [he]
    exact h
  | tick | press key | release key | setKeys keys =>
    rw [h]
    rfl
  | _ => exact ho.elim

theorem SameButIdle.run (hf : ∀ w, f ≠ .unknownOpcode w) (hm : m.cycle.2 = .error f)
    {ops : List Operation} (hops : ∀ o ∈ ops, o.IsRoutine) : SameButIdle m (m.run ops) :=
  run_induction (P := SameButIdle m) (fun _ o ho h => h.perform hf hm (hops o ho)) (.refl m)

/-- **Halting faults.** In every reachable machine each of them has exactly one cause: a call with
all sixteen slots in use, a return with none in use, a counter past the last word, or an instruction
that reaches past the end of memory. An instruction that fails leaves snapshot, keys and random
bytes behind as it found them, so with the snapshot put back the whole machine is as it was. As long
as only cycles, ticks and key operations follow, every cycle ends with the same fault and nothing
but the timers, the keys and the mailbox changes. -/
theorem halted_atomic_and_absorbing (h : Reachable m) :
    (∀ pc, m.cycle.2 = .error (.stackOverflow pc) ↔
      (∃ addr, m.instruction? = some (.call addr)) ∧ m.state.sp = 16 ∧ pc = m.state.pc) ∧
    (∀ pc, m.cycle.2 = .error (.stackUnderflow pc) ↔
      m.instruction? = some .ret ∧ m.state.sp = 0 ∧ pc = m.state.pc) ∧
    (m.cycle.2 = .error (.memoryOutOfBounds m.state.pc.toNat) ↔ 0xFFE < m.state.pc.toNat) ∧
    (∀ addr, m.cycle.2 = .error (.memoryOutOfBounds addr) ↔
      (0xFFE < m.state.pc.toNat ∧ addr = m.state.pc.toNat) ∨
      ∃ i len, m.instruction? = some i ∧ i.span? = some len ∧
        memorySize < m.state.index.toNat + len ∧ addr = m.state.index.toNat + len - 1) ∧
    (∀ i f left, m.instruction? = some i →
      (i.inPlace m.settings.clearKeysOnRead).run m.context = .error f left → left = m.context) ∧
    ∀ f, m.cycle.2 = .error f → (∀ w, f ≠ .unknownOpcode w) →
      ((∃ pc, f = .stackOverflow pc) ∨ (∃ pc, f = .stackUnderflow pc) ∨
        ∃ addr, f = .memoryOutOfBounds addr) ∧
      m.cycle.1 = m ∧
      ∀ ops : List Operation, (∀ o ∈ ops, o.IsRoutine) →
        (m.run ops).cycle.2 = .error f ∧
        m.run ops = { m with
          state := { m.state with
            delay := (m.run ops).state.delay
            sound := (m.run ops).state.sound }
          keys := (m.run ops).keys
          mailbox := (m.run ops).mailbox } := by
  refine ⟨fun pc => cycle_stackOverflow_iff h.bounded, fun pc => cycle_stackUnderflow_iff h.bounded,
    cycle_memoryOutOfBounds_pc_iff, fun addr => cycle_memoryOutOfBounds_iff,
    fun i f left _ hleft => (Instruction.run_inPlace_eq_error_iff.mp hleft).2, fun f hm hf => ?_⟩
  refine ⟨?_, cycle_eq_self_of_error hf hm, fun ops hops => ?_⟩
  · rcases (cycle_eq_error_iff hf).mp hm with ⟨_, rfl⟩ | ⟨i, _, he⟩
    · exact .inr (.inr ⟨_, rfl⟩)
    · rcases Instruction.fault?_eq_some he with ⟨_, _, hf⟩ | ⟨_, _, _, hf⟩ | ⟨_, _, _, hf⟩
      · exact .inr (.inl ⟨_, hf⟩)
      · exact .inl ⟨_, hf⟩
      · exact .inr (.inr ⟨_, hf⟩)
  · have hidle : SameButIdle m (m.run ops) := .run hf hm hops
    exact ⟨hidle.cycle hf hm, hidle⟩

/-- A program that returns at once: a tick and a key later it still underflows at its first word. -/
theorem halted_return_absorbing :
    (((fresh {} (.cipher default)).run [.load [0x00, 0xEE]]).run [.tick, .press 3, .cycle]).cycle.2 =
      .error (.stackUnderflow 0x200) := by
  have hm : Reachable ((fresh {} (.cipher default)).run [.load [0x00, 0xEE]]) :=
    .run (.create (create_eq_ok_iff.mpr ⟨rfl, rfl⟩)) _
  obtain ⟨-, -, -, -, -, habsorbing⟩ := halted_atomic_and_absorbing hm
  obtain ⟨-, -, hlater⟩ :=
    habsorbing (.stackUnderflow 0x200) (by decide +kernel) (fun _ => nofun)
  exact (hlater [.tick, .press 3, .cycle] (by simp [Operation.IsRoutine])).1

end Machine

end ChipEight
