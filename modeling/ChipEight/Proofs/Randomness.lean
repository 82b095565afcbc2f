import ChipEight.ByteStream.Seeded
import ChipEight.Proofs.Footprint
import ChipEight.Proofs.Redo

/-!
# Random bytes are taken in order

The random bytes lie outside of what rewinding brings back, so how far they have been read depends
on all that was ever done to a machine and not on where it stands. An operation takes the next byte
if it is a cycle on a word that asks for one, and leaves the bytes alone otherwise
(`random_perform`). So the `j`-th such cycle in the life of a machine gets byte `j`
(`random_takers`), whatever was taken back or went wrong in between.
-/

namespace ChipEight

/-- A cycle on a word that asks for a random byte. -/
def Step.takesByte : Step → Bool := finds fun word => word.family = 0xC

theorem Instruction.decode?_of_family_random {w : Word} (h : w.family = 0xC) :
    decode? w = some (random w.x w.kk) := by
  simp only [decode?, h]
  rfl

namespace Machine

variable {m : Machine} {ops : List Operation}

theorem takesByte_iff :
    Step.takesByte ⟨m, .cycle⟩ = true ↔ ∃ x kk, m.instruction? = some (.random x kk) := by
  constructor
  · intro h
    obtain ⟨w, hw, hfamily⟩ := (Option.any_eq_true _ _).mp h
    rw [decide_eq_true_eq] at hfamily
    refine ⟨w.x, w.kk, ?_⟩
    rw [instruction?, hw, Option.bind_some]
    exact Instruction.decode?_of_family_random hfamily
  · rintro ⟨x, kk, hi⟩
    rw [Step.takesByte, finds_of_instruction? hi]
    simp [Instruction.encode, Word.family_ofByte]

theorem exists_random_of_takesByte {s : Step} (h : s.takesByte = true) :
    ∃ x kk, s.machine.instruction? = some (.random x kk) := by
  obtain ⟨m, o⟩ := s
  cases o with
  | cycle => exact takesByte_iff.mp h
  | _ => cases h

theorem cycle_of_random {x : Register} {kk : UInt8} (h : m.instruction? = some (.random x kk)) :
    m.cycle = (m.commit (m.context.loadRandom x kk), .ok .poll) := cycle_of_ok h rfl

theorem register_of_random {x : Register} {kk : UInt8}
    (h : m.instruction? = some (.random x kk)) :
    m.cycle.1.state.register x = m.random.head &&& kk := by
  rw [cycle_of_random h]
  show (m.untouched.setRegister x (m.random.head &&& kk)).register x = _
  rw [Snapshot.register_setRegister, if_pos rfl]

theorem random_perform (m : Machine) (o : Operation) :
    (m.perform o).random = if Step.takesByte ⟨m, o⟩ then m.random.tail else m.random := by
  cases o with
  | cycle =>
    cases h : Step.takesByte ⟨m, .cycle⟩ with
    | true =>
      obtain ⟨x, kk, hi⟩ := takesByte_iff.mp h
      rw [perform, cycle_of_random hi]
      rfl
    | false => exact random_cycle h
  | reverse =>
    show m.reverse.1.random = m.random
    unfold reverse
    split <;> rfl
  | load rom => obtain ⟨memory, hm⟩ := m.exists_perform_load rom; rw [hm]; rfl
  | _ => rfl

theorem random_run (m : Machine) (ops : List Operation) : (m.run ops).random =
    { m.random with taken := m.random.taken + (m.steps ops).countP Step.takesByte } := by
  induction ops generalizing m with
  | nil => rfl
  | cons o ops ih =>
    rw [run_cons, ih, random_perform, steps, List.countP_cons]
    cases Step.takesByte ⟨m, o⟩ with
    | true => simp [ByteStream.tail]; omega
    | false => simp

/-- Before the `j`-th cycle that asks for a byte, `j` of them have been taken. -/
theorem random_takers (m : Machine) (ops : List Operation) {j : Nat}
    (hj : j < ((m.steps ops).filter Step.takesByte).length) :
    ((m.steps ops).filter Step.takesByte)[j].machine.random =
      { m.random with taken := m.random.taken + j } := by
  induction ops generalizing m j with
  | nil => cases hj
  | cons o ops ih =>
    have hfirst := random_perform m o
    cases ho : Step.takesByte ⟨m, o⟩ with
    | false =>
      rw [ho] at hfirst
      have htakers : (m.steps (o :: ops)).filter Step.takesByte =
          ((m.perform o).steps ops).filter Step.takesByte :=
        List.filter_cons_of_neg (by simp [ho])
      simp only [htakers] at hj ⊢
      rw [ih (m.perform o) hj, hfirst]
      rfl
    | true =>
      rw [ho] at hfirst
      have htakers : (m.steps (o :: ops)).filter Step.takesByte =
          ⟨m, o⟩ :: ((m.perform o).steps ops).filter Step.takesByte :=
        List.filter_cons_of_pos ho
      simp only [htakers] at hj ⊢
      cases j with
      | zero => rfl
      | succ j =>
        rw [List.getElem_cons_succ, ih (m.perform o) (Nat.lt_of_succ_lt_succ hj), hfirst]
        simp [ByteStream.tail]
        omega

/-- **Random bytes are taken in order and by one instruction only.** Let a machine be built with a
seed, whatever words the generator puts out under it. Of all the cycles in its life that find a word
of family C, those made again after a reversal counted anew, the `j`-th is carried out and leaves in
its register the low byte of word `j`, masked. No other operation takes a byte. -/
theorem bytes_taken_in_order {settings : Settings} {source : RandomSource} {seed : UInt64}
    {new : Machine} (hseed : settings.seed = some seed) (h : create settings source = .ok new)
    (ops : List Operation) :
    let takers := (new.steps ops).filter Step.takesByte
    (∀ (j : Nat) (hj : j < takers.length), ∃ x kk,
      takers[j].machine.instruction? = some (.random x kk) ∧
      takers[j].machine.cycle.2 = .ok .poll ∧
      takers[j].machine.cycle.1.state.register x = (source.seeded seed j).toUInt8 &&& kk) ∧
    (∀ s ∈ new.steps ops, s.takesByte = false →
      (s.machine.perform s.operation).random = s.machine.random) ∧
    (new.run ops).random.taken = takers.length := by
  intro takers
  obtain ⟨_, rfl⟩ := create_eq_ok_iff.mp h
  have hrandom : (fresh settings source).random = .lowBytes (source.seeded seed) := by
    simp only [fresh, RandomSource.bytes, hseed, Option.elim_some]
  refine ⟨fun j hj => ?_, fun s _ hs => ?_, ?_⟩
  · have htaker : takers[j].takesByte = true := (List.mem_filter.mp (List.getElem_mem hj)).2
    have hbytes : takers[j].machine.random =
        { ByteStream.lowBytes (source.seeded seed) with taken := j } := by
      rw [random_takers _ _ hj, hrandom]
      simp [ByteStream.lowBytes]
    obtain ⟨x, kk, hi⟩ := exists_random_of_takesByte htaker
    refine ⟨x, kk, hi, ?_, ?_⟩
    · rw [cycle_of_random hi]
    · rw [register_of_random hi, hbytes]
      rfl
  · rw [random_perform, hs]
    rfl
  · rw [random_run, hrandom, ← List.countP_eq_length_filter]
    exact Nat.zero_add _

/-- Four words that ask for a byte, the second with an empty mask; it is met again after a
reversal. -/
theorem bytes_taken_in_order_taken_back :
    let m := fresh { seed := some 8 } (.cipher default)
    let ops := [.load [0xC0, 0xFF, 0xC1, 0x00, 0xC2, 0x0F], .cycle, .cycle, .reverse, .tick, .cycle,
      .cycle]
    (m.run ops).random.taken = 4 ∧
      ∃ s ∈ m.steps ops, s.machine.instruction? = some (.random 2 0x0F) ∧
        s.machine.cycle.1.state.register 2 = 0x03 := by
  intro m ops
  have hcreate : create { seed := some 8 } (.cipher default) = .ok m :=
    create_eq_ok_iff.mpr ⟨rfl, rfl⟩
  obtain ⟨hbytes, -, htaken⟩ := bytes_taken_in_order rfl hcreate ops
  have hcount : ((m.steps ops).filter Step.takesByte).length = 4 := by decide +kernel
  have hword : ∀ h : 3 < ((m.steps ops).filter Step.takesByte).length,
      ((m.steps ops).filter Step.takesByte)[3].machine.instruction? = some (.random 2 0x0F) := by
    decide +kernel
  have hlast : 3 < ((m.steps ops).filter Step.takesByte).length := by rw [hcount]; decide
  obtain ⟨x, kk, hi, -, hbyte⟩ := hbytes 3 hlast
  obtain ⟨rfl, rfl⟩ : x = 2 ∧ kk = 0x0F := by simpa using hi.symm.trans (hword hlast)
  refine ⟨htaken.trans hcount, _, (List.mem_filter.mp (List.getElem_mem hlast)).1, hword hlast, ?_⟩
  rw [hbyte]
  decide +kernel

end Machine

end ChipEight
