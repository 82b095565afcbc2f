import ChipEight.Proofs.Control
import ChipEight.Proofs.Run

/-!
# Bounds that hold in every reachable machine

`Machine.Bounded`: at most sixteen return addresses are on the stack, every slot holds the address
of a word of memory, the counter stands at most `0x10FE` (the farthest jump), and the past is no
longer than the settings allow. The three bounds on a snapshot lean on one another: a return lands
two behind a slot, and a slot is filled with a counter at which a word has just been fetched.
-/

namespace ChipEight

/-- The bounds on the counter and the stack. -/
structure Snapshot.Bounded (s : Snapshot) : Prop where
  sp_le : s.sp.toNat ≤ 16
  pc_le : s.pc.toNat ≤ 0x10FE
  slot_le : ∀ (k : Nat) (hk : k < stackDepth), s.stack[k].toNat ≤ 0xFFE

namespace Snapshot.Bounded

variable {s s' : Snapshot}

theorem initial : Snapshot.initial.Bounded where
  sp_le := by decide
  pc_le := by decide
  slot_le k hk := by simp [Snapshot.initial]

theorem of_control (h : s.Bounded) (hsp : s'.sp = s.sp) (hstack : s'.stack = s.stack)
    (hpc : s'.pc.toNat ≤ 0x10FE) : s'.Bounded where
  sp_le := hsp ▸ h.sp_le
  pc_le := hpc
  slot_le k hk := by rw [hstack]; exact h.slot_le k hk

theorem course (h : s.Bounded) (hpc : s.pc.toNat ≤ 0xFFE) (hc : Snapshot.Course s s')
    (hsp : s'.sp = s.sp) (hstack : s'.stack = s.stack) : s'.Bounded := by
  refine h.of_control hsp hstack ?_
  rcases hc with hc | hc | hc | hc
  · rw [hc]; omega
  · rw [hc, toNat_pc_add hpc (by decide)]
    show s.pc.toNat + 2 ≤ 0x10FE
    omega
  · rw [hc, toNat_pc_add hpc (by decide)]
    show s.pc.toNat + 4 ≤ 0x10FE
    omega
  · exact hc

theorem next (h : s.Bounded) (hpc : s.pc.toNat ≤ 0xFFE) : s.next.Bounded :=
  h.course hpc (.inr (.inl rfl)) rfl rfl

theorem ret (h : s.Bounded) (h0 : 0 < s.sp.toNat) (hk : s.sp.toNat - 1 < stackDepth) :
    Bounded { s with pc := s.stack[s.sp.toNat - 1] + 2, sp := s.sp - 1 } where
  sp_le := by
    have hle := h.sp_le
    show (s.sp - 1).toNat ≤ 16
    rw [toNat_sub_one h0]
    omega
  pc_le := by
    have hslot := h.slot_le _ hk
    show (s.stack[s.sp.toNat - 1] + 2).toNat ≤ 0x10FE
    rw [toNat_pc_add hslot (by decide)]
    show s.stack[s.sp.toNat - 1].toNat + 2 ≤ 0x10FE
    omega
  slot_le := h.slot_le

theorem call (h : s.Bounded) (hpc : s.pc.toNat ≤ 0xFFE) (hk : s.sp.toNat < stackDepth)
    (addr : Address) :
    Bounded { s with
      pc := UInt16.ofNat addr
      sp := s.sp + 1
      stack := s.stack.set s.sp.toNat s.pc } where
  sp_le := by
    have hk' : s.sp.toNat < 16 := hk
    show (s.sp + 1).toNat ≤ 16
    rw [UInt8.toNat_add]
    show (s.sp.toNat + 1) % 256 ≤ 16
    omega
  pc_le := by
    show (UInt16.ofNat addr).toNat ≤ 0x10FE
    rw [UInt16.toNat_ofNat']
    omega
  slot_le k hk' := by
    show (s.stack.set s.sp.toNat s.pc)[k].toNat ≤ 0xFFE
    rw [Vector.getElem_set]
    split
    · exact hpc
    · exact h.slot_le k hk'

theorem execute {consume : Bool} {c c' : Context} {i : Instruction} (h : c.state.Bounded)
    (hpc : c.state.pc.toNat ≤ 0xFFE) (he : i.execute consume c = .ok c') : c'.state.Bounded := by
  by_cases hi : i.KeepsStack
  · obtain ⟨hsp, hstack, hc⟩ := Instruction.control_of_execute hi he
    exact h.course hpc hc hsp hstack
  cases i with
  | ret =>
    obtain ⟨⟨h0, h16⟩, rfl⟩ := Instruction.execute_ret he
    exact h.ret h0 (by omega)
  | call addr =>
    obtain ⟨hsp, rfl⟩ := Instruction.execute_call he
    exact h.call hpc hsp addr
  | _ => exact absurd trivial hi

end Snapshot.Bounded

namespace Machine

/-- The bounds on a machine, its past included. -/
structure Bounded (m : Machine) : Prop where
  state : m.state.Bounded
  past : ∀ s ∈ m.history, s.Bounded
  length_le : m.history.length ≤ m.settings.history

namespace Bounded

variable {m : Machine}

theorem with_state (h : m.Bounded) {m' : Machine} (hs : m'.state.Bounded)
    (hp : m'.history = m.history) (hset : m'.settings = m.settings) : m'.Bounded where
  state := hs
  past := by rw [hp]; exact h.past
  length_le := by rw [hp, hset]; exact h.length_le

theorem remembered (h : m.Bounded) :
    (∀ s ∈ m.remembered, s.Bounded) ∧ m.remembered.length ≤ m.settings.history := by
  refine ⟨fun s hs => ?_, List.length_take_le _ _⟩
  rcases List.mem_cons.mp (List.mem_of_mem_take hs) with rfl | hs
  · exact h.state
  · exact h.past s hs

theorem untouched (h : m.Bounded) : m.untouched.Bounded :=
  h.state.of_control rfl rfl h.state.pc_le

theorem passOver (h : m.Bounded) (hpc : m.state.pc.toNat ≤ 0xFFE) : m.passOver.Bounded where
  state := h.untouched.next hpc
  past := h.remembered.1
  length_le := h.remembered.2

theorem commit (h : m.Bounded) {c : Context} (hc : c.state.Bounded) : (m.commit c).Bounded := by
  by_cases hsame : { m.state with drawn := c.state.drawn } = c.state
  · exact h.with_state hc (if_pos hsame) rfl
  · have hp : (m.commit c).history = m.remembered := if_neg hsame
    exact ⟨hc, by rw [hp]; exact h.remembered.1, by rw [hp]; exact h.remembered.2⟩

theorem cycle (h : m.Bounded) : m.cycle.1.Bounded := by
  rcases m.cycle_cases with ⟨_, hc⟩ | ⟨w, hw, _, hc⟩ | ⟨i, f, _, _, hc⟩ | ⟨i, c, hi, he, hc⟩
  · rw [hc]; exact h
  · rw [hc]; exact h.passOver (pc_le_of_fetch hw)
  · rw [hc]; exact h
  · rw [hc]; exact h.commit (h.untouched.execute (pc_le_of_instruction? hi) he)

theorem reverse (h : m.Bounded) : m.reverse.1.Bounded := by
  unfold Machine.reverse
  split
  · exact h
  · next s past hp =>
    have hlen := h.length_le
    rw [hp, List.length_cons] at hlen
    exact {
      state := (h.past s (by simp [hp])).of_control rfl rfl (h.past s (by simp [hp])).pc_le
      past := fun t ht => h.past t (by simp [hp, ht])
      length_le := Nat.le_of_succ_le hlen }

theorem perform (h : m.Bounded) (o : Operation) : (m.perform o).Bounded := by
  rcases m.perform_cases o with rfl | rfl | ⟨_, _, _, _, _, _, hm⟩
  · exact h.cycle
  · exact h.reverse
  · rw [hm]
    exact h.with_state (h.state.of_control rfl rfl h.state.pc_le) rfl rfl

end Bounded

/-- Every machine that can come about keeps the bounds. -/
theorem Reachable.bounded {m : Machine} (h : Reachable m) : m.Bounded := by
  induction h with
  | create hc =>
    obtain ⟨_, rfl⟩ := create_eq_ok_iff.mp hc
    exact ⟨.initial, nofun, Nat.zero_le _⟩
  | perform o _ ih => exact ih.perform o

end Machine

end ChipEight
