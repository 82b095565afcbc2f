import ChipEight.Proofs.Effects

/-!
# What an instruction does to the counter and the stack

The counter and the stack of a snapshot are its control part. Three lemmas say what becomes of it
when an instruction is carried out: a return takes the latest address and goes on behind it
(`execute_ret`), a call remembers the counter (`execute_call`), and every other instruction leaves
the stack alone and moves the counter a little way on or to an address of its own (`Course`).
-/

namespace ChipEight

theorem bind_eq_ok_iff {α β : Type} {x : Except Fault α} {f : α → Except Fault β} {b : β} :
    x >>= f = .ok b ↔ ∃ a, x = .ok a ∧ f a = .ok b := by
  cases x with
  | error fault => exact iff_of_false nofun nofun
  | ok a => exact ⟨fun h => ⟨a, rfl, h⟩, fun ⟨_, rfl, h⟩ => h⟩

theorem toNat_sub_one {sp : UInt8} (h : 0 < sp.toNat) : (sp - 1).toNat = sp.toNat - 1 := by
  have h1 : (1 : UInt8) ≤ sp := UInt8.le_iff_toNat_le.mpr h
  rw [UInt8.toNat_sub_of_le _ _ h1]
  rfl

theorem toNat_pc_add {pc d : UInt16} (hpc : pc.toNat ≤ 0xFFE) (hd : d.toNat ≤ 4) :
    (pc + d).toNat = pc.toNat + d.toNat := by
  rw [UInt16.toNat_add]
  omega

namespace Snapshot

theorem writeIndexed_eq_ok {s s' : Snapshot} {bytes : List UInt8}
    (h : s.writeIndexed bytes = .ok s') :
    ∃ memory, s.memory.writeBlock s.index.toNat bytes = .ok memory ∧
      s' = { s with memory } := by
  obtain ⟨memory, hm, hs⟩ := bind_eq_ok_iff.mp h
  cases hs
  exact ⟨memory, hm, rfl⟩

theorem exists_setLeading_eq (s : Snapshot) (bytes : List UInt8) :
    ∃ v, s.setLeading bytes = { s with v } := ⟨_, rfl⟩

theorem pc_setLeading (s : Snapshot) (bytes : List UInt8) : (s.setLeading bytes).pc = s.pc := by
  simp only [setLeading]

theorem length_leading (s : Snapshot) (x : Register) :
    (s.v.toList.take (x + 1)).length = x + 1 := by
  rw [List.length_take, Vector.length_toList]
  omega

/-- Where the counter may stand behind an instruction that is no call and no return. -/
def Course (s s' : Snapshot) : Prop :=
  s'.pc = s.pc ∨ s'.pc = s.pc + 2 ∨ s'.pc = s.pc + 4 ∨ s'.pc.toNat ≤ 0x10FE

theorem course_skipIf (s : Snapshot) (skip : Bool) : Course s (s.skipIf skip) := by
  cases skip with
  | false => exact .inr (.inl rfl)
  | true => exact .inr (.inr (.inl rfl))

end Snapshot

open Snapshot (Course)

namespace Instruction

/-- The instructions that neither call nor return. -/
def KeepsStack : Instruction → Prop
  | ret | call _ => False
  | _ => True

variable {consume : Bool} {c c' : Context}

theorem execute_ret (h : ret.execute consume c = .ok c') :
    ∃ hsp : 0 < c.state.sp.toNat ∧ c.state.sp.toNat ≤ stackDepth,
      c' = c.withState { c.state with
        pc := c.state.stack[c.state.sp.toNat - 1] + 2
        sp := c.state.sp - 1 } := by
  simp only [execute_eq, effect, Snapshot.pop] at h
  split at h
  · next hsp => cases h; exact ⟨hsp, rfl⟩
  · cases h

theorem execute_call {addr : Address} (h : (call addr).execute consume c = .ok c') :
    ∃ hsp : c.state.sp.toNat < stackDepth,
      c' = c.withState { c.state with
        pc := UInt16.ofNat addr
        sp := c.state.sp + 1
        stack := c.state.stack.set c.state.sp.toNat c.state.pc } := by
  simp only [execute_eq, effect, Snapshot.push] at h
  split at h
  · next hsp => cases h; exact ⟨hsp, rfl⟩
  · cases h

theorem execute_draw {x y : Register} {n : Fin 16} (h : (draw x y n).execute consume c = .ok c') :
    ∃ bytes, c.state.readIndexed n = .ok bytes ∧
      c' = c.withState
        (c.state.drawSprite (c.state.register x).toNat (c.state.register y).toNat bytes).next := by
  rw [execute_eq] at h
  obtain ⟨bytes, hb, hc⟩ := bind_eq_ok_iff.mp h
  cases hc
  exact ⟨bytes, hb, rfl⟩

theorem execute_fetch {x : Register} (h : (fetch x).execute consume c = .ok c') :
    ∃ bytes, c.state.readIndexed (x + 1) = .ok bytes ∧
      c' = c.withState (c.state.setLeading bytes).next := by
  rw [execute_eq] at h
  obtain ⟨bytes, hb, hc⟩ := bind_eq_ok_iff.mp h
  cases hc
  exact ⟨bytes, hb, rfl⟩

theorem execute_decimal {x : Register} (h : (decimal x).execute consume c = .ok c') :
    ∃ memory, c.state.memory.writeBlock c.state.index.toNat (decimalDigits (c.state.register x)) =
        .ok memory ∧
      c' = c.withState (Snapshot.next { c.state with memory }) := by
  rw [execute_eq] at h
  obtain ⟨s, hs, hc⟩ := bind_eq_ok_iff.mp h
  obtain ⟨memory, hm, rfl⟩ := Snapshot.writeIndexed_eq_ok hs
  cases hc
  exact ⟨memory, hm, rfl⟩

theorem execute_store {x : Register} (h : (store x).execute consume c = .ok c') :
    ∃ memory, c.state.memory.writeBlock c.state.index.toNat (c.state.v.toList.take (x + 1)) =
        .ok memory ∧
      c' = c.withState (Snapshot.next { c.state with memory }) := by
  rw [execute_eq] at h
  obtain ⟨s, hs, hc⟩ := bind_eq_ok_iff.mp h
  obtain ⟨memory, hm, rfl⟩ := Snapshot.writeIndexed_eq_ok hs
  cases hc
  exact ⟨memory, hm, rfl⟩

theorem combine_control (c : Context) (op : Alu) (x y : Register) :
    (c.combine op x y).state.sp = c.state.sp ∧ (c.combine op x y).state.stack = c.state.stack ∧
      (c.combine op x y).state.pc = c.state.pc + 2 := by
  unfold Context.combine
  obtain ⟨result, flag⟩ := op.apply (c.state.register x) (c.state.register y)
  cases flag with
  | none => exact ⟨rfl, rfl, rfl⟩
  | some flag => exact ⟨rfl, rfl, rfl⟩

/-- An instruction that neither calls nor returns leaves the stack alone and stays on course. -/
theorem control_of_execute {i : Instruction} (hi : i.KeepsStack)
    (h : i.execute consume c = .ok c') :
    c'.state.sp = c.state.sp ∧ c'.state.stack = c.state.stack ∧ Course c.state c'.state := by
  cases i with
  | ret => exact hi.elim
  | call addr => exact hi.elim
  | draw x y n => obtain ⟨bytes, -, rfl⟩ := execute_draw h; exact ⟨rfl, rfl, .inr (.inl rfl)⟩
  | decimal x => obtain ⟨memory, -, rfl⟩ := execute_decimal h; exact ⟨rfl, rfl, .inr (.inl rfl)⟩
  | store x => obtain ⟨memory, -, rfl⟩ := execute_store h; exact ⟨rfl, rfl, .inr (.inl rfl)⟩
  | fetch x =>
    obtain ⟨bytes, -, rfl⟩ := execute_fetch h
    obtain ⟨v, hv⟩ := c.state.exists_setLeading_eq bytes
    rw [hv]
    exact ⟨rfl, rfl, .inr (.inl rfl)⟩
  | jump addr =>
    cases h
    refine ⟨rfl, rfl, .inr (.inr (.inr ?_))⟩
    show (UInt16.ofNat addr).toNat ≤ 0x10FE
    rw [UInt16.toNat_ofNat']
    omega
  | jumpOffset addr =>
    cases h
    refine ⟨rfl, rfl, .inr (.inr (.inr ?_))⟩
    show (UInt16.ofNat (addr + (c.state.register 0).toNat)).toNat ≤ 0x10FE
    have := (c.state.register 0).toNat_lt
    rw [UInt16.toNat_ofNat']
    omega
  | skipEqual x operand => cases h; exact ⟨rfl, rfl, Snapshot.course_skipIf _ _⟩
  | skipUnequal x operand => cases h; exact ⟨rfl, rfl, Snapshot.course_skipIf _ _⟩
  | skipKey x | skipNoKey x =>
    rw [execute_eq] at h
    cases h
    exact ⟨rfl, rfl, Snapshot.course_skipIf _ _⟩
  | alu op x y =>
    rw [execute_eq] at h
    cases h
    obtain ⟨h1, h2, h3⟩ := combine_control c op x y
    exact ⟨h1, h2, .inr (.inl h3)⟩
  | waitKey x =>
    rw [execute_eq] at h
    cases h
    unfold Context.awaitKey
    split
    · exact ⟨rfl, rfl, .inr (.inl rfl)⟩
    · exact ⟨rfl, rfl, .inl rfl⟩
  | _ => cases h; exact ⟨rfl, rfl, .inr (.inl rfl)⟩

end Instruction

end ChipEight
