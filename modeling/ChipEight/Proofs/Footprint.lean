import ChipEight.Proofs.Control
import ChipEight.Proofs.Run

/-!
# The footprint of a cycle

`Instruction.Footprint` says part by part which instructions may write it, and where: which bytes,
which pixels, which slot, which registers. An instruction that is carried out keeps to its footprint
(`execute_footprint`), so a cycle does (`cycle_within_footprint`): one that fails changes nothing at
all, and one that passes over a word moves the counter on and is remembered.

The parts that an instruction does not touch are the same by definition, so each case of the proof
speaks of the others only.
-/

namespace ChipEight

/-! ### What the small steps write -/

namespace Memory

theorem mem_block_of_ne {m m' : Memory} {addr : Nat} {bytes : List UInt8}
    (h : m.writeBlock addr bytes = .ok m') {a : Nat} (ha : a < memorySize) (hne : m'[a] ≠ m[a]) :
    addr ≤ a ∧ a < addr + bytes.length := by
  unfold writeBlock at h
  split at h
  · cases h
    by_contra hout
    rw [getElem_overwrite, dif_neg hout] at hne
    exact hne rfl
  · cases h

end Memory

namespace Screen

theorem mem_rectangle_of_pixel {left top : Nat} {bytes : List UInt8} {y : Fin screenHeight}
    {x : Fin screenWidth} (h : (sprite left top bytes).pixel y x = true) :
    top ≤ y.val ∧ y.val < top + bytes.length ∧ left ≤ x.val ∧ x.val < left + 8 := by
  rw [pixel_sprite, Bool.and_eq_true, decide_eq_true_eq, Option.any_eq_true] at h
  obtain ⟨htop, byte, hbyte, hbit⟩ := h
  rw [Bool.and_eq_true, decide_eq_true_eq] at hbit
  have hrow : y.val - top < bytes.length := (List.getElem?_eq_some_iff.mp hbyte).1
  have hcolumn : x.val - left < 8 := by
    by_contra h8
    rw [BitVec.getMsbD_of_ge _ _ (Nat.le_of_not_lt h8)] at hbit
    exact Bool.false_ne_true hbit.2
  omega

end Screen

namespace Snapshot

variable {s : Snapshot} {r : Register}

@[simp] theorem register_setRegister (s : Snapshot) (x : Register) (value : UInt8) (r : Register) :
    (s.setRegister x value).register r = if r = x then value else s.register r := by
  show (s.v.set x.val value)[r.val] = if r = x then value else s.v[r.val]
  rw [Vector.getElem_set]
  by_cases h : r = x
  · rw [if_pos (congrArg Fin.val h).symm, if_pos h]
  · rw [if_neg fun he => h (Fin.ext he.symm), if_neg h]

theorem eq_of_register_setRegister_ne {x : Register} {value : UInt8}
    (h : (s.setRegister x value).register r ≠ s.register r) : r = x := by
  by_contra hr
  rw [register_setRegister, if_neg hr] at h
  exact h rfl

theorem lt_of_register_setLeading_ne {bytes : List UInt8}
    (h : (s.setLeading bytes).register r ≠ s.register r) : r.val < bytes.length := by
  by_contra hr
  refine h ?_
  show (Vector.ofFn fun k => bytes[k.val]?.getD (s.v.get k))[r.val] = s.v[r.val]
  rw [Vector.getElem_ofFn, List.getElem?_eq_none (Nat.le_of_not_lt hr)]
  rfl

end Snapshot

/-! ### Instructions -/

namespace Instruction

/-- The register that takes the result of an instruction, if one does. -/
def result? : Instruction → Option Register
  | load x _ | addByte x _ | alu _ x _ | random x _ | readDelay x | waitKey x => some x
  | _ => none

/-- What an instruction that takes `c` to `c'` may have written. -/
structure Footprint (i : Instruction) (consume : Bool) (c c' : Context) : Prop where
  memory : ∀ (a : Nat) (ha : a < memorySize), c'.state.memory[a] ≠ c.state.memory[a] →
    ∃ x, (i = decimal x ∧ c.state.index.toNat ≤ a ∧ a < c.state.index.toNat + 3) ∨
      (i = store x ∧ c.state.index.toNat ≤ a ∧ a ≤ c.state.index.toNat + x) := by
    exact fun _ _ h => absurd rfl h
  screen : ∀ py px, c'.state.screen.pixel py px ≠ c.state.screen.pixel py px →
    i = clear ∨ ∃ x y n, i = draw x y n ∧
      (c.state.register y).toNat ≤ py ∧ py < (c.state.register y).toNat + n ∧
      (c.state.register x).toNat ≤ px ∧ px < (c.state.register x).toNat + 8 := by
    exact fun _ _ h => absurd rfl h
  stack : c'.state.sp ≠ c.state.sp ∨ c'.state.stack ≠ c.state.stack →
    (∃ addr, i = call addr ∧ c'.state.sp.toNat = c.state.sp.toNat + 1 ∧
      c'.state.stack = c.state.stack.setIfInBounds c.state.sp.toNat c.state.pc) ∨
    (i = ret ∧ c'.state.sp.toNat + 1 = c.state.sp.toNat ∧ c'.state.stack = c.state.stack) := by
    exact fun h => h.elim (absurd rfl) (absurd rfl)
  delay : c'.state.delay ≠ c.state.delay → ∃ x, i = setDelay x := by
    exact fun h => absurd rfl h
  sound : c'.state.sound ≠ c.state.sound → ∃ x, i = setSound x := by
    exact fun h => absurd rfl h
  index : c'.state.index ≠ c.state.index →
    (∃ addr, i = loadIndex addr) ∨ (∃ x, i = addIndex x) ∨ ∃ x, i = glyph x := by
    exact fun h => absurd rfl h
  registers : ∀ r, c'.state.register r ≠ c.state.register r →
    i.result? = some r ∨ (∃ x, i = fetch x ∧ r ≤ x) ∨
      (r = flagRegister ∧ ((∃ x y n, i = draw x y n) ∨
        ∃ op ∈ [Alu.add, .sub, .shr, .subn, .shl], ∃ x y, i = alu op x y)) := by
    exact fun _ h => absurd rfl h
  random : c'.random ≠ c.random → (∃ x kk, i = random x kk) ∧ c'.random = c.random.tail := by
    exact fun h => absurd rfl h
  keys : ∀ k : Key, c'.keys.get k ≠ c.keys.get k →
    c.keys.get k = true ∧ c'.keys.get k = false ∧ consume = true ∧
      ∃ x, i = skipKey x ∨ i = skipNoKey x ∨ i = waitKey x := by
    exact fun _ h => absurd rfl h

variable {consume : Bool} {c c' : Context} {i : Instruction}

theorem Footprint.refl (i : Instruction) (consume : Bool) (c : Context) :
    i.Footprint consume c c := {}

theorem result?_of_load_ne {x r : Register} {value : UInt8} (hx : i.result? = some x)
    (hr : (c.load x value).state.register r ≠ c.state.register r) : i.result? = some r := by
  rw [Snapshot.eq_of_register_setRegister_ne (s := c.state) hr]
  exact hx

theorem load_footprint {x : Register} (hx : i.result? = some x) (value : UInt8) :
    i.Footprint consume c (c.load x value) where
  registers _ hr := .inl (result?_of_load_ne hx hr)

theorem released_of_ne {pad : Keypad} {key k : Key}
    (h : (pad.afterRead consume key).get k ≠ pad.get k) :
    pad.get k = true ∧ (pad.afterRead consume key).get k = false ∧ consume = true := by
  cases consume with
  | false => exact absurd rfl h
  | true =>
    have hread : (pad.afterRead true key).get k = (pad.get k && decide (k ≠ key)) :=
      pad.getElem_release key k
    rw [hread] at h ⊢
    cases hk : pad.get k with
    | false => simp [hk] at h
    | true => simpa [hk] using h

theorem combine_footprint (op : Alu) (x y : Register) :
    (alu op x y).Footprint consume c (c.combine op x y) := by
  have hflags : (op.apply (c.state.register x) (c.state.register y)).2.isSome = true →
      op ∈ [Alu.add, .sub, .shr, .subn, .shl] := by
    cases op <;> simp [Alu.apply]
  unfold Context.combine
  generalize op.apply (c.state.register x) (c.state.register y) = result at hflags ⊢
  obtain ⟨value, _ | flag⟩ := result
  · exact load_footprint rfl value
  · refine { registers := fun r hr => ?_ }
    by_cases hflag : r = flagRegister
    · exact .inr (.inr ⟨hflag, .inr ⟨op, hflags rfl, x, y, rfl⟩⟩)
    · have hload : ((c.state.setRegister x value).setFlag flag).register r =
          (c.state.setRegister x value).register r := by
        rw [Snapshot.setFlag, Snapshot.register_setRegister, if_neg hflag]
      have hne : (c.load x value).state.register r ≠ c.state.register r :=
        fun he => hr (hload.trans he)
      exact .inl (result?_of_load_ne rfl hne)

theorem keys_of_skipOnKey {x : Register} {held : Bool} {k : Key}
    (h : (c.skipOnKey consume x held).keys.get k ≠ c.keys.get k) :
    c.keys.get k = true ∧ (c.skipOnKey consume x held).keys.get k = false ∧ consume = true := by
  unfold Context.skipOnKey at h ⊢
  cases hdown : c.keys[c.namedKey x] with
  | false => simp [hdown] at h
  | true =>
    simp only [hdown, if_true] at h ⊢
    exact released_of_ne h

theorem awaitKey_footprint (x : Register) :
    (waitKey x).Footprint consume c (c.awaitKey consume x) := by
  unfold Context.awaitKey
  split
  · exact {
      registers := fun _ hr => .inl (result?_of_load_ne rfl hr)
      keys := fun k hk =>
        have ⟨hdown, hup, hconsume⟩ := released_of_ne hk
        ⟨hdown, hup, hconsume, x, .inr (.inr rfl)⟩ }
  · exact .refl _ _ _

theorem draw_footprint {x y : Register} {n : Fin 16} {bytes : List UInt8}
    (hbytes : c.state.readIndexed n = .ok bytes) :
    (draw x y n).Footprint consume c (c.withState
      (c.state.drawSprite (c.state.register x).toNat (c.state.register y).toNat bytes).next) where
  screen py px hne := by
    have hlen : bytes.length = n := Memory.length_of_readBlock hbytes
    refine .inr ⟨x, y, n, rfl, ?_⟩
    rw [← hlen]
    apply Screen.mem_rectangle_of_pixel
    by_contra hdark
    refine hne ?_
    show (c.state.screen.xor _).pixel py px = _
    rw [Screen.pixel_xor, Bool.eq_false_iff.mpr hdark, Bool.xor_false]
  registers r hr :=
    .inr (.inr ⟨Snapshot.eq_of_register_setRegister_ne hr, .inl ⟨x, y, n, rfl⟩⟩)

/-- An instruction that is carried out keeps to its footprint. -/
theorem execute_footprint (h : i.execute consume c = .ok c') : i.Footprint consume c c' := by
  cases i with
  | clear => cases h; exact { screen := fun _ _ _ => .inl rfl }
  | ret =>
    obtain ⟨hsp, rfl⟩ := execute_ret h
    refine { stack := fun _ => .inr ⟨rfl, ?_, rfl⟩ }
    show (c.state.sp - 1).toNat + 1 = c.state.sp.toNat
    rw [toNat_sub_one hsp.1]
    omega
  | call addr =>
    obtain ⟨hsp, rfl⟩ := execute_call h
    refine { stack := fun _ => .inl ⟨addr, rfl, ?_, ?_⟩ }
    · have h16 : c.state.sp.toNat < 16 := hsp
      show (c.state.sp + 1).toNat = c.state.sp.toNat + 1
      rw [UInt8.toNat_add]
      show (c.state.sp.toNat + 1) % 256 = _
      omega
    · show c.state.stack.set c.state.sp.toNat c.state.pc = _
      simp [Vector.setIfInBounds, Vector.set, Array.setIfInBounds, hsp]
  | load x _ | addByte x _ | readDelay x => cases h; exact load_footprint rfl _
  | random x kk =>
    cases h
    exact {
      registers := fun _ hr => .inl (result?_of_load_ne rfl hr)
      random := fun _ => ⟨⟨x, kk, rfl⟩, rfl⟩ }
  | alu op x y => rw [execute_eq] at h; cases h; exact combine_footprint op x y
  | draw x y n => obtain ⟨bytes, hbytes, rfl⟩ := execute_draw h; exact draw_footprint hbytes
  | skipKey x =>
    rw [execute_eq] at h
    cases h
    exact { keys := fun k hk =>
      have ⟨hdown, hup, hconsume⟩ := keys_of_skipOnKey hk
      ⟨hdown, hup, hconsume, x, .inl rfl⟩ }
  | skipNoKey x =>
    rw [execute_eq] at h
    cases h
    exact { keys := fun k hk =>
      have ⟨hdown, hup, hconsume⟩ := keys_of_skipOnKey hk
      ⟨hdown, hup, hconsume, x, .inr (.inl rfl)⟩ }
  | waitKey x => rw [execute_eq] at h; cases h; exact awaitKey_footprint x
  | setDelay x => cases h; exact { delay := fun _ => ⟨x, rfl⟩ }
  | setSound x => cases h; exact { sound := fun _ => ⟨x, rfl⟩ }
  | loadIndex addr => cases h; exact { index := fun _ => .inl ⟨addr, rfl⟩ }
  | addIndex x => cases h; exact { index := fun _ => .inr (.inl ⟨x, rfl⟩) }
  | glyph x => cases h; exact { index := fun _ => .inr (.inr ⟨x, rfl⟩) }
  | decimal x =>
    obtain ⟨memory, hmemory, rfl⟩ := execute_decimal h
    exact { memory := fun a ha hne => ⟨x, .inl ⟨rfl, Memory.mem_block_of_ne hmemory ha hne⟩⟩ }
  | store x =>
    obtain ⟨memory, hmemory, rfl⟩ := execute_store h
    refine { memory := fun a ha hne => ⟨x, .inr ⟨rfl, ?_⟩⟩ }
    have hblock := Memory.mem_block_of_ne hmemory ha hne
    rw [c.state.length_leading x] at hblock
    omega
  | fetch x =>
    obtain ⟨bytes, hbytes, rfl⟩ := execute_fetch h
    have hlen : bytes.length = x + 1 := Memory.length_of_readBlock hbytes
    have hle : ∀ r, (c.state.setLeading bytes).register r ≠ c.state.register r → r ≤ x := by
      intro r hr
      have hlt := Snapshot.lt_of_register_setLeading_ne hr
      show r.val ≤ x.val
      omega
    obtain ⟨v, hv⟩ := c.state.exists_setLeading_eq bytes
    rw [hv] at hle ⊢
    exact { registers := fun r hr => .inr (.inl ⟨x, rfl, hle r hr⟩) }
  | _ => cases h; exact {}

end Instruction

namespace Machine

variable {m : Machine}

theorem instruction?_of_fetch {w : Word} (hw : m.fetch = .ok w) :
    m.instruction? = Instruction.decode? w := by
  simp [instruction?, hw, Except.toOption]

/-- **Every cycle stays within its footprint.** With an instruction at the counter, a cycle writes
the parts that the footprint of the instruction names and no others. Without one it moves the
counter on and is remembered, if it does anything. The settings and the mailbox are out of its
reach. -/
theorem cycle_within_footprint (m : Machine) :
    let m' := m.cycle.1
    (∀ i, m.instruction? = some i →
      i.Footprint m.settings.clearKeysOnRead ⟨m.state, m.keys, m.random⟩
        ⟨m'.state, m'.keys, m'.random⟩) ∧
    (m.instruction? = none → m' = { m with
      state := { m.state with pc := m'.state.pc, drawn := m'.state.drawn }
      history := m'.history }) ∧
    m'.settings = m.settings ∧ m'.mailbox = m.mailbox ∧ m'.receiverTaken = m.receiverTaken := by
  intro m'
  rcases m.cycle_cases with ⟨hpc, hc⟩ | ⟨w, hw, hd, hc⟩ | ⟨i, f, hi, _, hc⟩ | ⟨i, c, hi, he, hc⟩
  · have hm : m' = m := congrArg Prod.fst hc
    rw [hm]
    exact ⟨fun i _ => .refl _ _ _, fun _ => rfl, rfl, rfl, rfl⟩
  · have hm : m' = m.passOver := congrArg Prod.fst hc
    have hnone : m.instruction? = none := (instruction?_of_fetch hw).trans hd
    rw [hm]
    exact ⟨fun i hi => absurd (hnone.symm.trans hi) nofun, fun _ => rfl, rfl, rfl, rfl⟩
  · have hm : m' = m := congrArg Prod.fst hc
    rw [hm]
    exact ⟨fun i _ => .refl _ _ _, fun _ => rfl, rfl, rfl, rfl⟩
  · have hm : m' = m.commit c := congrArg Prod.fst hc
    rw [hm]
    refine ⟨fun i' hi' => ?_, fun hnone => absurd (hi.symm.trans hnone) nofun, rfl, rfl, rfl⟩
    obtain rfl := Option.some.inj (hi.symm.trans hi')
    -- the mark on the picture is in no footprint, so it does not matter that it was wiped off first
    have h := Instruction.execute_footprint he
    exact ⟨h.memory, h.screen, h.stack, h.delay, h.sound, h.index, h.registers, h.random, h.keys⟩

end Machine

end ChipEight
