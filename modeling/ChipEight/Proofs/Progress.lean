import ChipEight.ByteStream.Seeded
import ChipEight.Proofs.Rewind
import Mathlib.Data.List.Chain

/-!
# The past holds visible progress only

Where a machine stands is its `place`: the counter and the depth of the stack. An instruction that
leaves a machine where it stands changes nothing else either (`eq_of_place_eq`), so a cycle is
recorded just when it moves (`records_iff`), however the states are compared. Each snapshot of the
past therefore stands elsewhere than the next one (`Advances`), and taking a cycle back always
shows.

Cycles that do not move are those of an idle machine: it waits for a key or jumps on the spot, and
goes on doing so until something else happens to it (`idle_run`).
-/

namespace ChipEight

/-- Where a snapshot stands: the counter and the depth of the stack. -/
def Snapshot.place (s : Snapshot) : UInt16 × UInt8 := (s.pc, s.sp)

namespace Snapshot

theorem place_next_ne (s : Snapshot) : s.next.place ≠ s.place := by
  simp [place, next]

theorem place_skipIf_ne (s : Snapshot) (skip : Bool) : (s.skipIf skip).place ≠ s.place := by
  cases skip <;> simp [place, skipIf]

theorem jump_eq_self {s : Snapshot} {addr : Nat} (h : UInt16.ofNat addr = s.pc) :
    s.jump addr = s := by
  rw [jump, h]

end Snapshot

theorem Instruction.eq_of_place_eq {consume : Bool} {c c' : Context} {i : Instruction}
    (h : i.execute consume c = .ok c') (hplace : c'.state.place = c.state.place) : c' = c := by
  have hnext : ∀ s : Snapshot, s.place = c.state.place → s.next.place ≠ c.state.place :=
    fun s hs he => s.place_next_ne (he.trans hs.symm)
  cases i with
  | ret =>
    obtain ⟨hpos, rfl⟩ := execute_ret h
    have hsp : c.state.sp - 1 = c.state.sp := congrArg Prod.snd hplace
    have hlt := toNat_sub_one hpos.1
    rw [hsp] at hlt
    omega
  | call addr =>
    obtain ⟨_, rfl⟩ := execute_call h
    have hsp : c.state.sp + 1 = c.state.sp := congrArg Prod.snd hplace
    simp at hsp
  | jump addr | jumpOffset addr =>
    cases h
    exact congrArg c.withState (Snapshot.jump_eq_self (congrArg Prod.fst hplace))
  | skipEqual x operand | skipUnequal x operand | skipKey x | skipNoKey x =>
    rw [execute_eq] at h
    cases h
    exact absurd hplace (c.state.place_skipIf_ne _)
  | draw x y n => obtain ⟨_, _, rfl⟩ := execute_draw h; exact absurd hplace (hnext _ rfl)
  | decimal x => obtain ⟨_, _, rfl⟩ := execute_decimal h; exact absurd hplace (hnext _ rfl)
  | store x => obtain ⟨_, _, rfl⟩ := execute_store h; exact absurd hplace (hnext _ rfl)
  | fetch x =>
    obtain ⟨bytes, _, rfl⟩ := execute_fetch h
    obtain ⟨v, hv⟩ := c.state.exists_setLeading_eq bytes
    rw [hv] at hplace
    exact absurd hplace (hnext _ rfl)
  | alu op x y =>
    rw [execute_eq] at h
    cases h
    have hpc : (c.combine op x y).state.pc = c.state.pc := congrArg Prod.fst hplace
    rw [(combine_control c op x y).2.2] at hpc
    simp at hpc
  | waitKey x =>
    rw [execute_eq] at h
    cases h
    unfold Context.awaitKey at hplace ⊢
    split
    · next key hkey =>
      simp only [hkey] at hplace
      exact absurd hplace (hnext _ rfl)
    · rfl
  | _ => cases h; exact absurd hplace (hnext _ rfl)

namespace Machine

variable {m m' : Machine}

/-! ### What is recorded -/

theorem records_iff : m.records = true ↔ m.cycle.1.state.place ≠ m.state.place := by
  rcases m.cycle_cases with ⟨_, hc⟩ | ⟨w, _, _, hc⟩ | ⟨i, f, _, he, hc⟩ | ⟨i, c, _, he, hc⟩
  · rw [records_eq_false (congrArg Prod.snd hc) rfl, hc]
    exact iff_of_false Bool.false_ne_true (not_not.mpr rfl)
  · simp only [records, hc, true_iff]
    exact m.untouched.place_next_ne
  · rw [records_eq_false (congrArg Prod.snd hc) (isRecoverable_of_outcome he), hc]
    exact iff_of_false Bool.false_ne_true (not_not.mpr rfl)
  · simp only [records, hc, decide_eq_true_eq, ne_eq, not_iff_not]
    constructor
    · intro hsame
      exact (congrArg Snapshot.place hsame :)
    · intro hplace
      rw [Instruction.eq_of_place_eq he hplace]
      rfl

theorem history_cycle_of_place (m : Machine) : m.cycle.1.history =
    if m.cycle.1.state.place ≠ m.state.place then m.remembered else m.history := by
  rw [history_cycle]
  exact if_congr records_iff rfl rfl

/-! ### Idle machines -/

/-- The next cycle waits for a key while none is down, or jumps to where it stands. -/
inductive Idle (m : Machine) : Prop
  | waits (x : Register) (h : m.instruction? = some (.waitKey x))
      (hkeys : ∀ k : Key, m.keys.get k = false)
  | jumps (addr : Address) (h : m.instruction? = some (.jump addr))
      (hpc : addr.val = m.state.pc.toNat)
  | jumpsOffset (addr : Address) (h : m.instruction? = some (.jumpOffset addr))
      (hpc : addr + (m.state.register 0).toNat = m.state.pc.toNat)

/-- `m'` is `m` but for what time does to it, and for the mark on the picture. -/
def SameButTime (m m' : Machine) : Prop :=
  m' = { m with
    state := { m.state with
      delay := m'.state.delay
      sound := m'.state.sound
      drawn := m'.state.drawn }
    mailbox := m'.mailbox }

theorem Idle.of_sameButTime (h : SameButTime m m') (hm : m.Idle) : m'.Idle := by
  rw [h]
  cases hm with
  | waits x hi hkeys => exact .waits x hi hkeys
  | jumps addr hi hpc => exact .jumps addr hi hpc
  | jumpsOffset addr hi hpc => exact .jumpsOffset addr hi hpc

theorem Idle.outcome (h : m.Idle) : ∃ i, m.instruction? = some i ∧ m.outcome i = .ok m.context := by
  cases h with
  | waits x hi hkeys =>
    refine ⟨_, hi, ?_⟩
    have hnone : m.context.keys.lowest? = none := Keypad.lowest?_eq_none_iff.mpr hkeys
    simp only [Machine.outcome, Instruction.execute_eq, Instruction.effect, Context.awaitKey, hnone]
  | jumps addr hi hpc =>
    have hjump : m.untouched.jump _ = m.untouched :=
      Snapshot.jump_eq_self ((congrArg UInt16.ofNat hpc).trans UInt16.ofNat_toNat)
    exact ⟨_, hi, congrArg (fun s => Except.ok (m.context.withState s)) hjump⟩
  | jumpsOffset addr hi hpc =>
    have hjump : m.untouched.jump _ = m.untouched :=
      Snapshot.jump_eq_self ((congrArg UInt16.ofNat hpc).trans UInt16.ofNat_toNat)
    exact ⟨_, hi, congrArg (fun s => Except.ok (m.context.withState s)) hjump⟩

theorem Idle.cycle (h : m.Idle) : m.cycle.1 = { m with state := m.untouched } := by
  obtain ⟨i, hi, ho⟩ := h.outcome
  rw [cycle_of_ok hi ho]
  have hpast : (m.commit m.context).history = m.history := if_pos rfl
  show { m.commit m.context with history := (m.commit m.context).history } = _
  rw [hpast]
  rfl

theorem SameButTime.perform (h : SameButTime m m') (hm : m.Idle) {o : Operation}
    (ho : o = .cycle ∨ o = .tick) : SameButTime m (m'.perform o) := by
  rcases ho with rfl | rfl
  · have hidle := hm.of_sameButTime h
    show SameButTime m m'.cycle.1
    rw [hidle.cycle, h]
    rfl
  · rw [h]
    rfl

/-- An idle machine stays as it is for as long as only cycles and ticks follow. -/
theorem idle_run (hm : m.Idle) {ops : List Operation} (hops : ∀ o ∈ ops, o = .cycle ∨ o = .tick) :
    SameButTime m (m.run ops) :=
  run_induction (P := SameButTime m) (fun _ o ho h => h.perform hm (hops o ho)) rfl

/-! ### Neighbours in the past -/

/-- Each snapshot, from the present on, stands elsewhere than the one before it. -/
def Advances (m : Machine) : Prop :=
  (m.state :: m.history).IsChain fun s t => s.place ≠ t.place

theorem Advances.of_place (h : m.Advances) (hplace : m'.state.place = m.state.place)
    (hpast : m'.history = m.history) : m'.Advances := by
  unfold Advances at h ⊢
  rw [hpast]
  rw [List.isChain_cons] at h ⊢
  rw [hplace]
  exact h

theorem Advances.cycle (h : m.Advances) : m.cycle.1.Advances := by
  have hpast := m.history_cycle_of_place
  by_cases hplace : m.cycle.1.state.place = m.state.place
  · rw [if_neg (not_not.mpr hplace)] at hpast
    exact h.of_place hplace hpast
  · rw [if_pos hplace] at hpast
    have hall : (m.cycle.1.state :: m.state :: m.history).IsChain fun s t => s.place ≠ t.place :=
      List.isChain_cons_cons.mpr ⟨hplace, h⟩
    unfold Advances
    rw [hpast]
    exact hall.take (m.settings.history + 1)

theorem Advances.reverse (h : m.Advances) : m.reverse.1.Advances := by
  cases hpast : m.history with
  | nil => rw [reverse_of_nil hpast]; exact h
  | cons s past =>
    unfold Advances at h
    rw [hpast] at h
    rw [reverse_of_cons hpast]
    exact Advances.of_place (m := { m with state := s, history := past }) h.tail rfl rfl

theorem Advances.perform (h : m.Advances) (o : Operation) : (m.perform o).Advances := by
  rcases m.perform_cases o with rfl | rfl | ⟨_, _, _, _, _, _, hm⟩
  · exact h.cycle
  · exact h.reverse
  · rw [hm]
    exact h.of_place rfl rfl

theorem Reachable.advances (h : Reachable m) : m.Advances := by
  induction h with
  | create hc =>
    obtain ⟨_, rfl⟩ := create_eq_ok_iff.mp hc
    exact List.isChain_singleton _
  | perform o _ ih => exact ih.perform o

theorem Advances.place_reverse_ne (h : m.Advances) (htrue : m.reverse.2 = true) :
    m.reverse.1.state.place ≠ m.state.place := by
  cases hpast : m.history with
  | nil => exact absurd hpast (reverse_eq_true_iff.mp htrue)
  | cons s past =>
    unfold Advances at h
    rw [hpast, List.isChain_cons_cons] at h
    rw [reverse_of_cons hpast]
    exact h.1.symm

theorem Advances.remembered_ne (h : m.Advances) (hroom : 0 < m.settings.history) :
    m.remembered ≠ m.history := by
  obtain ⟨k, hk⟩ := Nat.exists_eq_succ_of_ne_zero hroom.ne'
  rw [remembered, hk, List.take_succ_cons]
  intro he
  unfold Advances at h
  rw [← he, List.isChain_cons_cons] at h
  exact h.1 rfl

/-- **The past holds visible progress only.** In a reachable machine a cycle goes into the past just
when it moves the counter or the depth of the stack; one that halts the machine moves neither. An
idle machine stays as it is, but for the timers and the tones, through any number of cycles and
ticks. The present and the snapshots of the past stand in different places, each from the next one,
so whatever is taken back moves the machine. -/
theorem history_is_progress (h : Reachable m) :
    (m.cycle.1.history =
      if m.cycle.1.state.place ≠ m.state.place then
        (m.state :: m.history).take m.settings.history
      else m.history) ∧
    (0 < m.settings.history →
      (m.cycle.1.history ≠ m.history ↔ m.cycle.1.state.place ≠ m.state.place)) ∧
    (∀ fault, m.cycle.2 = .error fault → fault.isRecoverable = false →
      m.cycle.1.state.place = m.state.place) ∧
    (m.Idle → ∀ ops : List Operation, (∀ o ∈ ops, o = .cycle ∨ o = .tick) →
      (m.run ops).Idle ∧
      m.run ops = { m with
        state := { m.state with
          delay := (m.run ops).state.delay
          sound := (m.run ops).state.sound
          drawn := (m.run ops).state.drawn }
        mailbox := (m.run ops).mailbox }) ∧
    ((m.state :: m.history).IsChain fun s t => s.place ≠ t.place) ∧
    (m.reverse.2 = true → m.reverse.1.state.place ≠ m.state.place) := by
  have hpast := m.history_cycle_of_place
  refine ⟨hpast, fun hroom => ?_, fun fault hfault hf => ?_, fun hm ops hops => ?_, h.advances,
    h.advances.place_reverse_ne⟩
  · rw [hpast]
    split
    · next hplace => exact iff_of_true (h.advances.remembered_ne hroom) hplace
    · next hplace => exact iff_of_false (not_not.mpr rfl) hplace
  · exact congrArg (fun m => m.state.place) (eq_of_cycle_halted (Prod.ext rfl hfault) hf)
  · have hsame := idle_run hm hops
    exact ⟨hm.of_sameButTime hsame, hsame⟩

/-- A program that jumps to `0x200` plus V0 once V0 is two: from there on it jumps on the spot. -/
def jumpingOnTheSpot : Machine :=
  (fresh {} (.cipher default)).run [.load [0x60, 0x02, 0xB2, 0x00], .cycle]

/-- However long it jumps, one cycle can be taken back. -/
theorem history_is_progress_on_the_spot :
    (jumpingOnTheSpot.run [.cycle, .tick, .cycle, .cycle]).history = jumpingOnTheSpot.history ∧
      jumpingOnTheSpot.history.length = 1 ∧
      jumpingOnTheSpot.reverse.1.state.place ≠ jumpingOnTheSpot.state.place := by
  have hm : Reachable jumpingOnTheSpot :=
    .run (.create (create_eq_ok_iff.mpr ⟨rfl, rfl⟩)) [.load [0x60, 0x02, 0xB2, 0x00], .cycle]
  have hidle : jumpingOnTheSpot.Idle :=
    .jumpsOffset 0x200 (by decide +kernel) (by decide +kernel)
  obtain ⟨-, -, -, hrest, -, hback⟩ := history_is_progress hm
  refine ⟨?_, by decide +kernel, hback (by decide +kernel)⟩
  have hsame := (hrest hidle [.cycle, .tick, .cycle, .cycle] (by simp)).2
  rw [hsame]

end Machine

end ChipEight
