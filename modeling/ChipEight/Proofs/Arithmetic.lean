import ChipEight.Instruction.Encode
import ChipEight.Proofs.Footprint
import ChipEight.Proofs.Strict

/-!
# Arithmetic on registers

`Alu.result` and `Alu.flag?` say in plain numbers what the operations on two registers compute from
the two operands, and `Context.Computes` says where the numbers go. The operands are read before
anything is written and the flag is written last, so it does not matter which of the two registers
and the flag register are the same one (`arithmetic_exact`).
-/

namespace ChipEight

/-! ### The numbers -/

namespace Alu

/-- The result of an operation on two numbers below 256. -/
def result (op : Alu) (a b : Nat) : Nat :=
  match op with
  | .or => a ||| b
  | .and => a &&& b
  | .xor => a ^^^ b
  | .add => (a + b) % 256
  | .sub => (256 + a - b) % 256
  | .shr => b / 2
  | .subn => (256 + b - a) % 256
  | .shl => 2 * b % 256

/-- The flag that goes with the result, for the operations that have one. -/
def flag? (op : Alu) (a b : Nat) : Option Nat :=
  match op with
  | .or | .and | .xor => none
  | .add => some (if 255 < a + b then 1 else 0)
  | .sub => some (if b ≤ a then 1 else 0)
  | .shr => some (b % 2)
  | .subn => some (if a ≤ b then 1 else 0)
  | .shl => some (b / 128)

theorem toNat_apply (op : Alu) (a b : UInt8) :
    (op.apply a b).1.toNat = op.result a.toNat b.toNat := by
  have ha := a.toNat_lt
  have hb := b.toNat_lt
  cases op with
  | or => exact UInt8.toNat_or a b
  | and => exact UInt8.toNat_and a b
  | xor => exact UInt8.toNat_xor a b
  | add => exact UInt8.toNat_add a b
  | sub =>
    show (a - b).toNat = (256 + a.toNat - b.toNat) % 256
    rw [UInt8.toNat_sub]
    omega
  | subn =>
    show (b - a).toNat = (256 + b.toNat - a.toNat) % 256
    rw [UInt8.toNat_sub]
    omega
  | shr =>
    show (b >>> 1).toNat = b.toNat / 2
    rw [UInt8.toNat_shiftRight, Nat.shiftRight_eq_div_pow]
    rfl
  | shl =>
    show (b <<< 1).toNat = 2 * b.toNat % 256
    rw [UInt8.toNat_shiftLeft, Nat.shiftLeft_eq, Nat.mul_comm]
    rfl

theorem toNat_decide (p : Prop) [Decidable p] : (decide p).toNat = if p then 1 else 0 :=
  Bool.cond_decide p 1 0

theorem toNat_decide_eq_one {bit : UInt8} (h : bit.toNat < 2) :
    (decide (bit = 1)).toNat = bit.toNat := by
  rw [toNat_decide]
  simp only [← UInt8.toNat_inj, UInt8.toNat_one]
  split <;> omega

theorem flag_apply (op : Alu) (a b : UInt8) :
    (op.apply a b).2.map Bool.toNat = op.flag? a.toNat b.toNat := by
  cases op with
  | or | and | xor => rfl
  | add => exact congrArg some (toNat_decide _)
  | sub | subn =>
    simp only [apply, flag?, Option.map_some, UInt8.le_iff_toNat_le, toNat_decide]
  | shr =>
    have hbit : (b &&& 1).toNat = b.toNat % 2 := by
      rw [UInt8.toNat_and]
      exact Nat.and_one_is_mod _
    show some (decide (b &&& 1 = 1)).toNat = some (b.toNat % 2)
    rw [toNat_decide_eq_one (by omega), hbit]
  | shl =>
    have hb := b.toNat_lt
    have hbit : (b >>> 7).toNat = b.toNat / 128 := by
      rw [UInt8.toNat_shiftRight, Nat.shiftRight_eq_div_pow]
      rfl
    show some (decide (b >>> 7 = 1)).toNat = some (b.toNat / 128)
    rw [toNat_decide_eq_one (by omega), hbit]

end Alu

/-! ### Where they go -/

namespace Context

/-- `c'` is `c` behind an instruction that leaves a result in register `x`, and then perhaps a flag
in the flag register, and goes on. -/
structure Computes (c c' : Context) (x : Register) (result : Nat) (flag? : Option Nat) : Prop where
  result : x ≠ flagRegister ∨ flag? = none → (c'.state.register x).toNat = result
  flag : ∀ flag, flag? = some flag → (c'.state.register flagRegister).toNat = flag
  others : ∀ r, r ≠ x → r ≠ flagRegister ∨ flag? = none →
    c'.state.register r = c.state.register r
  counter : c'.state.pc.toNat = c.state.pc.toNat + 2
  rest : c' = c.withState { c.state with pc := c'.state.pc, v := c'.state.v }

variable {c : Context}

theorem computes_load (hpc : c.state.pc.toNat ≤ 0xFFE) (x : Register) (value : UInt8) :
    c.Computes (c.load x value) x value.toNat none where
  result _ := by
    show ((c.state.setRegister x value).register x).toNat = value.toNat
    rw [Snapshot.register_setRegister, if_pos rfl]
  flag _ h := nomatch h
  others r hr _ := by
    show (c.state.setRegister x value).register r = c.state.register r
    rw [Snapshot.register_setRegister, if_neg hr]
  counter := toNat_pc_add hpc (by decide)
  rest := rfl

theorem computes_flagged (hpc : c.state.pc.toNat ≤ 0xFFE) (x : Register) (value : UInt8)
    (flag : Bool) :
    c.Computes (c.withState ((c.state.setRegister x value).setFlag flag).next) x value.toNat
      (some flag.toNat) where
  result h := by
    have hx : x ≠ flagRegister := h.resolve_right nofun
    show (((c.state.setRegister x value).setFlag flag).register x).toNat = value.toNat
    rw [Snapshot.setFlag, Snapshot.register_setRegister, if_neg hx, Snapshot.register_setRegister,
      if_pos rfl]
  flag n hn := by
    cases hn
    show (((c.state.setRegister x value).setFlag flag).register flagRegister).toNat = flag.toNat
    rw [Snapshot.setFlag, Snapshot.register_setRegister, if_pos rfl]
    cases flag <;> rfl
  others r hr h := by
    have hflag : r ≠ flagRegister := h.resolve_right nofun
    show ((c.state.setRegister x value).setFlag flag).register r = c.state.register r
    rw [Snapshot.setFlag, Snapshot.register_setRegister, if_neg hflag,
      Snapshot.register_setRegister, if_neg hr]
  counter := toNat_pc_add hpc (by decide)
  rest := rfl

theorem computes_combine (hpc : c.state.pc.toNat ≤ 0xFFE) (op : Alu) (x y : Register) :
    c.Computes (c.combine op x y) x
      (op.result (c.state.register x).toNat (c.state.register y).toNat)
      (op.flag? (c.state.register x).toNat (c.state.register y).toNat) := by
  rw [← Alu.toNat_apply, ← Alu.flag_apply, combine]
  obtain ⟨value, _ | flag⟩ := op.apply (c.state.register x) (c.state.register y)
  · exact computes_load hpc x value
  · exact computes_flagged hpc x value flag

end Context

namespace Instruction

/-- **Arithmetic is exact, whichever registers are the same.** Where a word can be fetched, the
words of family 8 for an operation on two registers and the words of family 7, which add a byte, are
carried out with nothing out of the ordinary. The first register is left with the result of the
operation on the two contents before, and the flag register with the flag, if there is one; the flag
wins if both are the same register. Nothing else changes but the counter. -/
theorem arithmetic_exact (consume : Bool) (c : Context) (hpc : c.state.pc.toNat ≤ 0xFFE)
    (x y : Register) :
    let a := (c.state.register x).toNat
    let b := (c.state.register y).toNat
    (∀ op : Alu, decode? (.ofRegisters 0x8 x y op.digit) = some (alu op x y) ∧
      ∃ c', (alu op x y).execute consume c = .ok c' ∧
        (alu op x y).strict consume c = some (.ok c') ∧
        c.Computes c' x (op.result a b) (op.flag? a b)) ∧
    ∀ kk : UInt8, decode? (.ofByte 0x7 x kk) = some (addByte x kk) ∧
      ∃ c', (addByte x kk).execute consume c = .ok c' ∧
        (addByte x kk).strict consume c = some (.ok c') ∧
        c.Computes c' x ((a + kk.toNat) % 256) none := by
  intro a b
  refine ⟨fun op => ?_, fun kk => ?_⟩
  · have h : (alu op x y).execute consume c = .ok (c.combine op x y) := execute_eq ..
    exact ⟨decode?_encode (alu op x y), c.combine op x y, h,
      (strict_alu hpc op x y).trans (congrArg some h), Context.computes_combine hpc op x y⟩
  · have hsum : (c.state.register x + kk).toNat = (a + kk.toNat) % 256 := UInt8.toNat_add _ _
    refine ⟨decode?_encode (addByte x kk), c.load x (c.state.register x + kk), execute_eq .., ?_,
      ?_⟩
    · exact Context.advance?_eq hpc
    · rw [← hsum]
      exact Context.computes_load hpc x _

/-- With `0x90` in the flag register, the word `8FFE` shifts it into itself and leaves the bit that
was dropped, while `8FF1` leaves the result. -/
theorem arithmetic_exact_on_flag :
    let c : Context := ⟨Snapshot.initial.setRegister flagRegister 0x90, .released, .arithmetic 0 0⟩
    (∃ c', (alu .shl flagRegister flagRegister).execute false c = .ok c' ∧
      (c'.state.register flagRegister).toNat = 1) ∧
    ∃ c', (alu .or flagRegister flagRegister).execute false c = .ok c' ∧
      (c'.state.register flagRegister).toNat = 0x90 := by
  intro c
  obtain ⟨hops, -⟩ := arithmetic_exact false c (by decide +kernel) flagRegister flagRegister
  obtain ⟨-, shifted, hshl, -, hshifted⟩ := hops .shl
  obtain ⟨-, merged, hor, -, hmerged⟩ := hops .or
  have h90 : (c.state.register flagRegister).toNat = 0x90 := by decide +kernel
  refine ⟨⟨shifted, hshl, hshifted.flag 1 ?_⟩, merged, hor, ?_⟩
  · rw [h90]
    rfl
  · rw [hmerged.result (.inr rfl), h90]
    rfl

end Instruction

end ChipEight
