import ChipEight.ByteStream.Seeded
import ChipEight.Instruction.Encode
import ChipEight.Proofs.Batches
import ChipEight.Proofs.Bounds

/-!
# Where the counter goes

No step of a machine moves the counter on by itself, so each instruction has to, and once.
`Instruction.target` says in plain numbers where the counter stands behind an instruction, from the
registers, the keys and the stack as the instruction found them; every instruction that is carried
out in a reachable machine leaves the counter there (`toNat_pc_cycle`). Two instructions that skip
on opposite conditions split the cases between them (`skips_of_opposite?`), and a run of
instructions that go straight on moves the counter by one word for each (`toNat_pc_run`).
-/

namespace ChipEight

namespace Snapshot

/-- The return addresses on the stack, the latest last. -/
def returns (s : Snapshot) : List UInt16 := s.stack.toList.take s.sp.toNat

theorem getLast?_returns {s : Snapshot} (h : 0 < s.sp.toNat ∧ s.sp.toNat ≤ stackDepth) :
    s.returns.getLast? = s.stack[s.sp.toNat - 1]? := by
  have hlast : s.sp.toNat - 1 < s.sp.toNat := by omega
  have hlen : s.returns.length = s.sp.toNat := by
    rw [returns, List.length_take, Vector.length_toList]
    omega
  rw [List.getLast?_eq_getElem?, hlen, returns, List.getElem?_take_of_lt hlast,
    Vector.getElem?_toList]

theorem toNat_pc_jump (s : Snapshot) {addr : Nat} (h : addr < UInt16.size) :
    (s.jump addr).pc.toNat = addr := UInt16.toNat_ofNat_of_lt h

theorem toNat_pc_skipIf {s : Snapshot} (h : s.pc.toNat ≤ 0xFFE) (skip : Bool) :
    (s.skipIf skip).pc.toNat = s.pc.toNat + if skip then 4 else 2 := by
  cases skip with
  | false => exact toNat_pc_add h (by decide)
  | true => exact toNat_pc_add h (by decide)

end Snapshot

namespace Instruction

/-- Whether an instruction skips the one behind it. -/
def skips (c : Context) : Instruction → Bool
  | skipEqual x operand => c.state.register x = c.value operand
  | skipUnequal x operand => c.state.register x ≠ c.value operand
  | skipKey x => c.keys.get (c.namedKey x) = true
  | skipNoKey x => c.keys.get (c.namedKey x) = false
  | _ => false

/-- Whether an instruction waits for a key to go down. -/
def waits (c : Context) : Instruction → Bool
  | waitKey _ => ∀ k : Key, c.keys.get k = false
  | _ => false

/-- The address that an instruction names to go on at, if it names one. -/
def destination? (c : Context) : Instruction → Option Nat
  | jump addr | call addr => some addr
  | jumpOffset addr => some (addr + (c.state.register 0).toNat)
  | ret => c.state.returns.getLast?.map fun addr => addr.toNat + 2
  | _ => none

/-- How far an instruction that names no address goes on. -/
def stride (c : Context) (i : Instruction) : Nat :=
  if i.waits c then 0 else if i.skips c then 4 else 2

/-- Where the counter stands behind an instruction that is carried out. -/
def target (c : Context) (i : Instruction) : Nat :=
  (i.destination? c).getD (c.state.pc.toNat + i.stride c)

/-- The instruction that skips on the opposite condition. -/
def opposite? : Instruction → Option Instruction
  | skipEqual x operand => some (skipUnequal x operand)
  | skipUnequal x operand => some (skipEqual x operand)
  | skipKey x => some (skipNoKey x)
  | skipNoKey x => some (skipKey x)
  | _ => none

/-- The instructions that go on to the next word, whatever they find. -/
def isStraight : Instruction → Bool
  | jump _ | call _ | jumpOffset _ | ret | waitKey _ => false
  | i => i.opposite?.isNone

variable {consume : Bool} {c c' : Context} {i j : Instruction}

theorem target_of_isStraight (h : i.isStraight = true) : i.target c = c.state.pc.toNat + 2 := by
  cases i with
  | jump addr | call addr | jumpOffset addr | ret | waitKey x => cases h
  | skipEqual x o | skipUnequal x o | skipKey x | skipNoKey x => cases h
  | _ => rfl

/-! ### Every instruction goes to its target -/

theorem target_ret {addr : UInt16} (h : c.state.returns.getLast? = some addr) :
    ret.target c = addr.toNat + 2 := by
  have hret : ret.destination? c = some (addr.toNat + 2) :=
    congrArg (Option.map fun addr : UInt16 => addr.toNat + 2) h
  rw [target, hret, Option.getD_some]

theorem waits_waitKey (c : Context) (x : Register) :
    (waitKey x).waits c = c.keys.lowest?.isNone := by
  rw [waits, Bool.eq_iff_iff, decide_eq_true_iff, Option.isNone_iff_eq_none,
    Keypad.lowest?_eq_none_iff]
  rfl

theorem toNat_pc_awaitKey (h : c.state.pc.toNat ≤ 0xFFE) (x : Register) :
    (c.awaitKey consume x).state.pc.toNat =
      c.state.pc.toNat + if c.keys.lowest?.isNone then 0 else 2 := by
  unfold Context.awaitKey
  cases c.keys.lowest? with
  | none => rfl
  | some key => exact toNat_pc_add h (by decide)

theorem toNat_pc_of_execute (hc : c.state.Bounded) (hpc : c.state.pc.toNat ≤ 0xFFE)
    (h : i.execute consume c = .ok c') : c'.state.pc.toNat = i.target c := by
  have hnext : (c.state.pc + 2).toNat = c.state.pc.toNat + 2 := toNat_pc_add hpc (by decide)
  cases i with
  | jump addr => cases h; exact Snapshot.toNat_pc_jump _ (by rw [UInt16.size]; omega)
  | call addr =>
    obtain ⟨_, rfl⟩ := execute_call h
    exact Snapshot.toNat_pc_jump c.state (by rw [UInt16.size]; omega)
  | jumpOffset addr =>
    cases h
    have := (c.state.register 0).toNat_lt
    exact Snapshot.toNat_pc_jump _ (by rw [UInt16.size]; omega)
  | ret =>
    obtain ⟨hsp, rfl⟩ := execute_ret h
    have hlt : c.state.sp.toNat - 1 < stackDepth := by omega
    have hlast := (Snapshot.getLast?_returns hsp).trans (Vector.getElem?_eq_getElem hlt)
    -- a word stands at every return address, so the counter does not wrap behind it
    exact (toNat_pc_add (hc.slot_le _ hlt) (by decide)).trans (target_ret hlast).symm
  | skipEqual x o | skipUnequal x o | skipKey x | skipNoKey x =>
    rw [execute_eq] at h
    cases h
    exact Snapshot.toNat_pc_skipIf hpc _
  | waitKey x =>
    rw [execute_eq] at h
    cases h
    rw [target, stride, waits_waitKey]
    exact toNat_pc_awaitKey hpc x
  | draw x y n => obtain ⟨_, _, rfl⟩ := execute_draw h; exact hnext
  | decimal x => obtain ⟨_, _, rfl⟩ := execute_decimal h; exact hnext
  | store x => obtain ⟨_, _, rfl⟩ := execute_store h; exact hnext
  | fetch x =>
    obtain ⟨bytes, _, rfl⟩ := execute_fetch h
    obtain ⟨v, hv⟩ := c.state.exists_setLeading_eq bytes
    rw [hv]
    exact hnext
  | alu op x y =>
    rw [execute_eq] at h
    cases h
    rw [(combine_control c op x y).2.2]
    exact hnext
  | _ => cases h; exact hnext

/-! ### Opposite conditions -/

theorem skips_of_opposite? (h : i.opposite? = some j) : j.skips c = !i.skips c := by
  cases i with
  | skipEqual x o | skipUnequal x o | skipKey x | skipNoKey x => cases h; simp [skips]
  | _ => cases h

theorem opposite?_symm (h : i.opposite? = some j) : j.opposite? = some i := by
  cases i with
  | skipEqual x o | skipUnequal x o | skipKey x | skipNoKey x => cases h; rfl
  | _ => cases h

theorem execute_of_opposite? (h : i.opposite? = some j) :
    (∃ c', i.execute consume c = .ok c') ∧ i.redraws = false ∧
      i.target c = c.state.pc.toNat + if i.skips c then 4 else 2 := by
  cases i with
  | skipEqual x o | skipUnequal x o | skipKey x | skipNoKey x =>
    exact ⟨⟨_, execute_eq ..⟩, rfl, rfl⟩
  | _ => cases h

end Instruction

/-- A cycle that does not halt the machine, on a word for no instruction or for one that goes
straight on. -/
def Step.straight : Step → Bool
  | ⟨m, .cycle⟩ => !Step.halts ⟨m, .cycle⟩ && m.instruction?.all Instruction.isStraight
  | _ => false

namespace Machine

variable {m : Machine} {i j : Instruction}

/-! ### Cycles and runs -/

theorem instruction?_of_encode (h : m.fetch = .ok i.encode) : m.instruction? = some i :=
  (instruction?_of_fetch h).trans i.decode?_encode

theorem toNat_pc_cycle (hm : m.Bounded) (hi : m.instruction? = some i) {r : Cycle}
    (hr : m.cycle.2 = .ok r) : m.cycle.1.state.pc.toNat = i.target m.context := by
  obtain ⟨i', c, hi', ho, hc, _⟩ := exists_of_cycle_eq_ok hr
  obtain rfl := Option.some.inj (hi.symm.trans hi')
  rw [hc]
  exact Instruction.toNat_pc_of_execute hm.untouched (pc_le_of_instruction? hi) ho

theorem toNat_pc_passOver {w : Word} (hw : m.fetch = .ok w) :
    m.passOver.state.pc.toNat = m.state.pc.toNat + 2 :=
  toNat_pc_add (pc_le_of_fetch hw) (by decide)

theorem toNat_pc_of_opposite? (hm : m.Bounded) (hi : m.instruction? = some i)
    (h : i.opposite? = some j) :
    m.cycle.2 = .ok .poll ∧
      m.cycle.1.state.pc.toNat = m.state.pc.toNat + if i.skips m.context then 4 else 2 := by
  obtain ⟨⟨c, ho⟩, hredraws, htarget⟩ := Instruction.execute_of_opposite? h
  have hr : m.cycle.2 = .ok .poll := by
    rw [cycle_of_ok hi ho, hredraws]
    rfl
  exact ⟨hr, (toNat_pc_cycle hm hi hr).trans htarget⟩

theorem toNat_pc_of_straight (hm : m.Bounded) (h : Step.straight ⟨m, .cycle⟩ = true) :
    m.cycle.1.state.pc.toNat = m.state.pc.toNat + 2 := by
  obtain ⟨hhalts, hall⟩ := Bool.and_eq_true_iff.mp h
  rcases m.cycle_cases with ⟨_, hc⟩ | ⟨w, hw, _, hc⟩ | ⟨i, f, _, he, hc⟩ | ⟨i, c, hi, he, hc⟩
  · simp [Step.halts, hc, Fault.isRecoverable] at hhalts
  · rw [hc]
    exact toNat_pc_passOver hw
  · simp [Step.halts, hc, isRecoverable_of_outcome he] at hhalts
  · rw [hi] at hall
    rw [toNat_pc_cycle hm hi (congrArg Prod.snd hc), Instruction.target_of_isStraight hall]
    rfl

theorem pc_perform {o : Operation} (hc : o ≠ .cycle) (hr : o ≠ .reverse) :
    (m.perform o).state.pc = m.state.pc := by
  rcases m.perform_cases o with rfl | rfl | ⟨_, _, _, _, _, _, h⟩
  · exact absurd rfl hc
  · exact absurd rfl hr
  · rw [h]

/-- While the cycles of a run go straight on, the counter moves on by one word for each. -/
theorem toNat_pc_run (hm : m.Bounded) {ops : List Operation} (hops : Operation.reverse ∉ ops)
    (h : ∀ s ∈ m.steps ops, s.operation = .cycle → s.straight = true) :
    (m.run ops).state.pc.toNat = m.state.pc.toNat + 2 * (m.steps ops).countP Step.straight := by
  induction ops generalizing m with
  | nil => rfl
  | cons o ops ih =>
    have hrest := ih (hm.perform o) (fun hmem => hops (List.mem_cons_of_mem _ hmem))
      fun s hs => h s (List.mem_cons_of_mem _ hs)
    rw [run_cons, hrest, steps]
    by_cases ho : o = .cycle
    · subst ho
      have hs : Step.straight ⟨m, .cycle⟩ = true := h _ List.mem_cons_self rfl
      rw [List.countP_cons_of_pos hs, perform, toNat_pc_of_straight hm hs]
      omega
    · have hs : ¬Step.straight ⟨m, o⟩ = true := by
        cases o with
        | cycle => exact absurd rfl ho
        | _ => exact Bool.false_ne_true
      have hne : o ≠ .reverse := fun he => hops (he ▸ List.mem_cons_self)
      rw [List.countP_cons_of_neg hs, pc_perform ho hne]

/-- **The counter goes where the instruction says**, in every machine that can come about. Behind
the word of an instruction that is carried out it stands at the target; behind any other word it
stands one word on. If two machines that differ in memory only have words at the counter that skip
on opposite conditions, both carry them out and exactly one skips, whether a key that is seen down
is released or not. In a run without rewinding whose cycles all go straight on, the counter moves on
by one word for each. -/
theorem counter_on_target (h : Reachable m) :
    (∀ (i : Instruction) r, m.fetch = .ok i.encode → m.cycle.2 = .ok r →
      m.cycle.1.state.pc.toNat = i.target m.context) ∧
    (∀ w, m.fetch = .ok w → (∀ i : Instruction, w ≠ i.encode) →
      m.cycle.1.state.pc.toNat = m.state.pc.toNat + 2) ∧
    (∀ (m' : Machine) memory, m' = { m with state := { m.state with memory } } →
      ∀ i j : Instruction, i.opposite? = some j → m.fetch = .ok i.encode → m'.fetch = .ok j.encode →
        m.cycle.2 = .ok .poll ∧ m'.cycle.2 = .ok .poll ∧
        ((m.cycle.1.state.pc.toNat = m.state.pc.toNat + 4 ∧
            m'.cycle.1.state.pc.toNat = m.state.pc.toNat + 2) ∨
          (m.cycle.1.state.pc.toNat = m.state.pc.toNat + 2 ∧
            m'.cycle.1.state.pc.toNat = m.state.pc.toNat + 4))) ∧
    ∀ ops, Operation.reverse ∉ ops →
      (∀ s ∈ m.steps ops, s.operation = .cycle → s.straight = true) →
      (m.run ops).state.pc.toNat =
        m.state.pc.toNat + 2 * (m.steps ops).countP Step.straight := by
  have hm := h.bounded
  refine ⟨fun i r hi hr => toNat_pc_cycle hm (instruction?_of_encode hi) hr, fun w hw hd => ?_,
    fun m' memory hsame i j hij hi hj => ?_, fun ops hops hs => toNat_pc_run hm hops hs⟩
  · have hnone : Instruction.decode? w = none :=
      Option.eq_none_iff_forall_ne_some.mpr fun i hi => hd i (Instruction.decode?_eq_some_iff.mp hi)
    rw [cycle_of_unknown hw hnone]
    exact toNat_pc_passOver hw
  · have hm' : m'.Bounded := by
      rw [hsame]
      exact hm.with_state (hm.state.of_control rfl rfl hm.state.pc_le) rfl rfl
    obtain ⟨hr, hpc⟩ := toNat_pc_of_opposite? hm (instruction?_of_encode hi) hij
    obtain ⟨hr', hpc'⟩ := toNat_pc_of_opposite? hm' (instruction?_of_encode hj)
      (Instruction.opposite?_symm hij)
    -- no condition reads memory, so the second is the first turned over
    have hmemory : j.skips m'.context = j.skips m.context := by
      rw [hsame]
      cases j <;> rfl
    have hstart : m'.state.pc = m.state.pc := by rw [hsame]
    refine ⟨hr, hr', ?_⟩
    rw [hpc, hpc', hstart, hmemory, Instruction.skips_of_opposite? hij]
    cases i.skips m.context with
    | true => exact .inl ⟨rfl, rfl⟩
    | false => exact .inr ⟨rfl, rfl⟩

/-- With key 0 held and keys released by reading, the word `E09E` skips and `E0A1` does not. -/
theorem counter_on_target_key_held :
    let settings : Settings := { clearKeysOnRead := true }
    let m := (fresh settings (.cipher default)).run [.load [0xE0, 0x9E], .press 0]
    let memory := ((fresh settings (.cipher default)).run [.load [0xE0, 0xA1]]).state.memory
    let m' : Machine := { m with state := { m.state with memory } }
    m.cycle.1.state.pc.toNat = 0x204 ∧ m'.cycle.1.state.pc.toNat = 0x202 := by
  intro settings m memory m'
  have hm : Reachable m := .run (.create (create_eq_ok_iff.mpr ⟨rfl, rfl⟩)) _
  have hi : m.fetch = .ok (Instruction.skipKey 0).encode := by decide +kernel
  have hj : m'.fetch = .ok (Instruction.skipNoKey 0).encode := by decide +kernel
  obtain ⟨htarget, -, hopposite, -⟩ := counter_on_target hm
  obtain ⟨hr, -, hpc⟩ := hopposite m' memory rfl _ _ rfl hi hj
  have htaken : (Instruction.skipKey 0).target m.context = 0x204 := by decide +kernel
  have hskip : m.cycle.1.state.pc.toNat = 0x204 := (htarget _ _ hi hr).trans htaken
  have hstart : m.state.pc.toNat = 0x200 := by decide +kernel
  rw [hskip, hstart] at hpc
  exact ⟨hskip, by simpa using hpc⟩

end Machine

end ChipEight
