import ChipEight.ByteStream.Seeded
import ChipEight.Proofs.Control
import ChipEight.Proofs.Run

/-!
# Calls and their returns

Popping a slot does not erase it and a later call overwrites it, so live and stale entries lie side
by side in the stack. `KeepsFrame s s'` says that the entries that were live when a call was made in
`s`, and the entry of the call itself, still stand in `s'`. Every operation but taking cycles back
keeps this while the depth is above that of the call, so the cycle that comes back to the depth of
the call is its return (`return_matches_call`).
-/

namespace ChipEight

namespace Machine

theorem cycle_stack (m : Machine) :
    (m.cycle.1.state.sp = m.state.sp ∧ m.cycle.1.state.stack = m.state.stack) ∨
    (∃ hsp : m.state.sp.toNat < stackDepth, m.cycle.1.state.sp = m.state.sp + 1 ∧
      m.cycle.1.state.stack = m.state.stack.set m.state.sp.toNat m.state.pc) ∨
    (m.instruction? = some .ret ∧ m.cycle.2 = .ok .poll ∧
      ∃ hsp : 0 < m.state.sp.toNat ∧ m.state.sp.toNat ≤ stackDepth,
        m.cycle.1.state.sp = m.state.sp - 1 ∧ m.cycle.1.state.stack = m.state.stack ∧
        m.cycle.1.state.pc = m.state.stack[m.state.sp.toNat - 1] + 2) := by
  rcases m.cycle_cases with ⟨_, hc⟩ | ⟨w, _, _, hc⟩ | ⟨i, f, _, _, hc⟩ | ⟨i, c, hi, he, hc⟩
  · rw [hc]; exact .inl ⟨rfl, rfl⟩
  · rw [hc]; exact .inl ⟨rfl, rfl⟩
  · rw [hc]; exact .inl ⟨rfl, rfl⟩
  rw [hc]
  by_cases hk : i.KeepsStack
  · obtain ⟨hsp, hstack, _⟩ := Instruction.control_of_execute hk he
    exact .inl ⟨hsp, hstack⟩
  cases i with
  | ret =>
    obtain ⟨hsp, rfl⟩ := Instruction.execute_ret he
    exact .inr (.inr ⟨hi, rfl, hsp, rfl, rfl, rfl⟩)
  | call addr =>
    obtain ⟨hsp, rfl⟩ := Instruction.execute_call he
    exact .inr (.inl ⟨hsp, rfl, rfl⟩)
  | _ => exact absurd trivial hk

end Machine

/-- The entries below the depth of `s` are the same in `s'`, and the one at that depth is the
counter of `s`. -/
structure KeepsFrame (s s' : Snapshot) (hd : s.sp.toNat < stackDepth) : Prop where
  below : ∀ (k : Nat) (hk : k < s.sp.toNat), s'.stack[k] = s.stack[k]
  top : s'.stack[s.sp.toNat] = s.pc

namespace KeepsFrame

variable {s : Snapshot} {hd : s.sp.toNat < stackDepth} {m : Machine}

theorem of_stack_eq {s' s'' : Snapshot} (h : KeepsFrame s s' hd) (he : s''.stack = s'.stack) :
    KeepsFrame s s'' hd where
  below k hk := by rw [← h.below k hk]; simp only [he]
  top := by rw [← h.top]; simp only [he]

theorem set {s' s'' : Snapshot} (h : KeepsFrame s s' hd) {k : Nat} (hk : k < stackDepth)
    {a : UInt16} (hlt : s.sp.toNat < k) (he : s''.stack = s'.stack.set k a) :
    KeepsFrame s s'' hd where
  below j hj := by
    rw [← h.below j hj]
    simp only [he]
    exact Vector.getElem_set_ne hk (by omega) (by omega)
  top := by
    rw [← h.top]
    simp only [he]
    exact Vector.getElem_set_ne hk hd (by omega)

theorem perform (h : KeepsFrame s m.state hd) (hdeep : s.sp < m.state.sp) {o : Operation}
    (ho : o ≠ .reverse) : KeepsFrame s (m.perform o).state hd := by
  rcases m.perform_cases o with rfl | rfl | ⟨_, _, _, _, _, _, hm⟩
  · rcases m.cycle_stack with ⟨_, hs⟩ | ⟨hsp, _, hs⟩ | ⟨_, _, hsp, _, hs, _⟩
    · exact h.of_stack_eq hs
    · exact h.set hsp (UInt8.lt_iff_toNat_lt.mp hdeep) hs
    · exact h.of_stack_eq hs
  · exact absurd rfl ho
  · rw [hm]
    exact h.of_stack_eq rfl

/-- The frame stands for as long as the run stays above it. -/
theorem run {ops : List Operation} (h : KeepsFrame s m.state hd)
    (hops : Operation.reverse ∉ ops)
    (hdeep : ∀ k ≤ ops.length, s.sp < (m.run (ops.take k)).state.sp) :
    KeepsFrame s (m.run ops).state hd := by
  induction ops generalizing m with
  | nil => exact h
  | cons o ops ih =>
    have ho : o ≠ .reverse := fun he => hops (he ▸ List.mem_cons_self)
    have h0 : s.sp < m.state.sp := hdeep 0 (Nat.zero_le _)
    refine ih (h.perform h0 ho) (fun hmem => hops (List.mem_cons_of_mem _ hmem)) ?_
    intro k hk
    exact hdeep (k + 1) (Nat.succ_le_succ hk)

end KeepsFrame

namespace Machine

variable {m : Machine} {addr : Address}

theorem cycle_call (hcall : m.instruction? = some (.call addr))
    (hd : m.state.sp.toNat < stackDepth) :
    m.cycle.1.state.sp = m.state.sp + 1 ∧ KeepsFrame m.state m.cycle.1.state hd := by
  have he : m.outcome (.call addr) = .ok (m.context.withState { m.untouched with
      pc := UInt16.ofNat addr
      sp := m.state.sp + 1
      stack := m.state.stack.set m.state.sp.toNat m.state.pc }) := by
    simp only [outcome, Instruction.execute_eq, Instruction.effect, Snapshot.push]
    rw [dif_pos (show m.context.state.sp.toNat < stackDepth from hd)]
    rfl
  rw [cycle_of_ok hcall he]
  refine ⟨rfl, fun k hk => ?_, ?_⟩
  · exact Vector.getElem_set_ne hd (by omega) (by omega)
  · exact Vector.getElem_set_self hd

/-- **Calls and returns match.** If a call is followed by operations of which none takes cycles
back and which all leave the stack deeper than the call found it, then a cycle that brings the depth
back carries out a return, goes on behind the call, and leaves the entries below as the call found
them. -/
theorem return_matches_call {ops : List Operation}
    (hcall : m.instruction? = some (.call addr)) (hd : m.state.sp.toNat < stackDepth)
    (hops : Operation.reverse ∉ ops)
    (hdeep : ∀ k ≤ ops.length, m.state.sp < (m.cycle.1.run (ops.take k)).state.sp)
    (hback : (m.cycle.1.run ops).cycle.1.state.sp = m.state.sp) :
    (m.cycle.1.run ops).instruction? = some .ret ∧
      (m.cycle.1.run ops).cycle.2 = .ok .poll ∧
      (m.cycle.1.run ops).cycle.1.state.pc.toNat = m.state.pc.toNat + 2 ∧
      ∀ (k : Nat) (hk : k < m.state.sp.toNat),
        (m.cycle.1.run ops).cycle.1.state.stack[k] = m.state.stack[k] := by
  have hframe := (cycle_call hcall hd).2.run hops hdeep
  have habove := UInt8.lt_iff_toNat_lt.mp (hdeep ops.length (Nat.le_refl _))
  rw [List.take_length] at habove
  generalize m.cycle.1.run ops = m' at hframe habove hback
  rcases m'.cycle_stack with ⟨hsp, _⟩ | ⟨hlt, hsp, _⟩ | ⟨hret, hok, hpos, hsp, hstack, hpc⟩
  · rw [← hback, hsp] at habove
    exact absurd habove (Nat.lt_irrefl _)
  · -- a push cannot come down to the depth of the call
    rw [← hback, hsp, UInt8.toNat_add] at habove
    simp only [stackDepth, UInt8.reduceToNat] at hlt habove
    omega
  · have hslot : m'.state.sp.toNat - 1 = m.state.sp.toNat := by
      rw [← hback, hsp, toNat_sub_one hpos.1]
    refine ⟨hret, hok, ?_, fun k hk => ?_⟩
    · have hle := pc_le_of_instruction? hcall
      simp only [hslot, hframe.top] at hpc
      rw [hpc, toNat_pc_add hle (by decide)]
      rfl
    · simp only [hstack]
      exact hframe.below k hk

/-- A machine that is about to call a routine; the routine calls another, which starts with a word
that stands for no instruction. -/
def nestedCalls : Machine :=
  (fresh {} (.cipher default)).run
    [.load [0x22, 0x04, 0x12, 0x02, 0x22, 0x08, 0x00, 0xEE, 0x01, 0x23, 0x00, 0xEE]]

theorem return_matches_nested_call :
    (nestedCalls.cycle.1.run [.cycle, .tick, .cycle, .press 5, .cycle]).cycle.1.state.pc.toNat =
      0x202 := by
  have hcall : nestedCalls.instruction? = some (.call 0x204) := by decide +kernel
  exact (return_matches_call hcall (by decide +kernel) (by simp) (by decide +kernel)
    (by decide +kernel)).2.2.1

end Machine

end ChipEight
