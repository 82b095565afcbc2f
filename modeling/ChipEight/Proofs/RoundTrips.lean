import ChipEight.Proofs.Transfers

/-!
# Bytes there and back

What is stored at the index register can be fetched again, whatever has happened to the registers,
the counter and the other bytes in the meantime; what is fetched can be stored again without a
trace; and the digits of a register can be fetched as the digits of a number
(`transfers_round_trip`). Stores and fetches count their bytes up to and including the register they
name, so both blocks are one longer than its number.
-/

namespace ChipEight

/-! ### Blocks -/

namespace Memory

variable {m m' : Memory} {addr len : Nat} {bytes : List UInt8}

theorem readBlock_of_writeBlock (h : m.writeBlock addr bytes = .ok m') :
    m'.readBlock addr bytes.length = .ok bytes := by
  obtain ⟨hend, rfl⟩ := writeBlock_eq_ok h
  rw [readBlock, dif_pos hend]
  refine congrArg Except.ok (List.ext_getElem (List.length_ofFn ..) fun k _ hk => ?_)
  have hin : addr ≤ addr + k ∧ addr + k < addr + bytes.length := by omega
  simp only [List.getElem_ofFn, getElem_overwrite, dif_pos hin, Nat.add_sub_cancel_left]

theorem writeBlock_of_readBlock (h : m.readBlock addr len = .ok bytes) :
    m.writeBlock addr bytes = .ok m := by
  have hlen : bytes.length = len := length_of_readBlock h
  unfold readBlock at h
  split at h
  · next hend =>
    rw [writeBlock, if_pos (hlen ▸ hend)]
    refine congrArg Except.ok (Vector.ext fun k hk => ?_)
    rw [getElem_overwrite]
    split
    · next hin =>
      cases h
      have hk' : addr + (k - addr) = k := Nat.add_sub_of_le hin.1
      simp only [List.getElem_ofFn, hk']
    · rfl
  · cases h

end Memory

/-! ### Digits -/

theorem decimalDigits_spec (b : UInt8) :
    ∃ hundreds tens ones, decimalDigits b = [hundreds, tens, ones] ∧
      hundreds.toNat ≤ 9 ∧ tens.toNat ≤ 9 ∧ ones.toNat ≤ 9 ∧
      100 * hundreds.toNat + 10 * tens.toNat + ones.toNat = b.toNat := by
  have hb : b.toNat < 256 := b.toNat_lt
  have hhundreds : (b / 100).toNat = b.toNat / 100 := UInt8.toNat_div b 100
  have htens : (b / 10 % 10).toNat = b.toNat / 10 % 10 := by
    rw [UInt8.toNat_mod, UInt8.toNat_div]
    rfl
  have hones : (b % 10).toNat = b.toNat % 10 := UInt8.toNat_mod b 10
  exact ⟨_, _, _, rfl, by omega, by omega, by omega, by omega⟩

/-! ### Registers -/

namespace Snapshot

theorem register_setLeading (s : Snapshot) (bytes : List UInt8) (r : Register) :
    (s.setLeading bytes).register r = bytes[r.val]?.getD (s.register r) := by
  show (Vector.ofFn fun k : Fin 16 => bytes[k.val]?.getD (s.v.get k))[r.val] = _
  rw [Vector.getElem_ofFn]
  rfl

theorem getElem?_leading (s : Snapshot) (x r : Register) :
    (s.v.toList.take (x + 1))[r.val]? = if r ≤ x then some (s.register r) else none := by
  rw [List.getElem?_take]
  refine if_congr (Nat.lt_succ_iff.trans Fin.le_def.symm) ?_ rfl
  rw [Vector.getElem?_toList]
  exact Vector.getElem?_eq_getElem r.isLt

theorem leading_eq {s : Snapshot} {x : Register} {bytes : List UInt8}
    (hlen : bytes.length = x + 1) (h : ∀ r ≤ x, bytes[r.val]? = some (s.register r)) :
    s.v.toList.take (x + 1) = bytes := by
  refine List.ext_getElem (by rw [length_leading, hlen]) fun k hk hk' => ?_
  rw [length_leading] at hk
  have hbyte := h ⟨k, by omega⟩ (Nat.le_of_lt_succ hk)
  rw [List.getElem?_eq_getElem hk'] at hbyte
  rw [List.getElem_take, Vector.getElem_toList]
  exact (Option.some.inj hbyte).symm

end Snapshot

/-! ### Words that move bytes -/

/-- The word stands for an instruction that takes `c` to `c'`, with nothing out of the ordinary. -/
def Word.Takes (w : Word) (consume : Bool) (c c' : Context) : Prop :=
  ∃ i, Instruction.decode? w = some i ∧ i.execute consume c = .ok c' ∧
    i.strict consume c = some (.ok c')

namespace Context

/-- `c'` has the index register of `c`, and its bytes in the block of `len` bytes there. -/
def KeepsBlock (c c' : Context) (len : Nat) : Prop :=
  c'.state.index = c.state.index ∧
    ∀ (a : Nat) (ha : a < memorySize), c.state.InBlock len a → c'.state.memory[a] = c.state.memory[a]

/-- `c'` has the index register of `c`, and its bytes outside the block of `len` bytes there. -/
def KeepsRest (c c' : Context) (len : Nat) : Prop :=
  c'.state.index = c.state.index ∧
    ∀ (a : Nat) (ha : a < memorySize), ¬c.state.InBlock len a →
      c'.state.memory[a] = c.state.memory[a]

theorem KeepsBlock.of_eq {c c₁ c₂ : Context} {len : Nat} (h : c₁.KeepsBlock c₂ len)
    (hindex : c₁.state.index = c.state.index) (hmemory : c₁.state.memory = c.state.memory) :
    c.KeepsBlock c₂ len := by
  simp only [KeepsBlock, Snapshot.InBlock, hindex, hmemory] at h
  exact h

end Context

namespace Instruction

variable {consume : Bool} {c c' c₂ : Context} {i : Instruction} {len : Nat} {x : Register}

theorem not_isHollow_of_span? (hlen : i.span? = some len) (hpos : 0 < len) (s : Snapshot) :
    ¬i.IsHollow s := by
  rintro ⟨x, y, rfl, -⟩
  cases hlen
  exact Nat.lt_irrefl 0 hpos

theorem takes_of_span? {w : Word} (hw : i.encode = w) (hlen : i.span? = some len) (hpos : 0 < len)
    (hpc : c.state.pc.toNat ≤ 0xFFE) (h : i.execute consume c = .ok c') : w.Takes consume c c' :=
  have hstrict := strict_of_span? hlen hpc (not_isHollow_of_span? hlen hpos c.state)
  ⟨i, hw ▸ i.decode?_encode, h, hstrict.trans (congrArg some h)⟩

theorem exists_execute_of_span? (consume : Bool) (c : Context) (hlen : i.span? = some len)
    (hend : c.state.index.toNat + len ≤ memorySize) : ∃ c', i.execute consume c = .ok c' := by
  rw [Context.exists_execute_iff, fault?_of_span? hlen]
  exact if_pos hend

theorem index_of_span? (hlen : i.span? = some len) (h : i.execute consume c = .ok c') :
    c'.state.index = c.state.index := by
  by_contra hne
  rcases (execute_footprint h).index hne with ⟨_, rfl⟩ | ⟨_, rfl⟩ | ⟨_, rfl⟩ <;> cases hlen

theorem keepsRest_of_span? (hlen : i.span? = some len) (h : i.execute consume c = .ok c') :
    c.KeepsRest c' len :=
  ⟨index_of_span? hlen h, fun _ ha hout => memory_of_not_inBlock hlen h ha hout⟩

theorem exists_execute_fetch (consume : Bool) {bytes : List UInt8}
    (hread : c.state.readIndexed (x + 1) = .ok bytes) :
    ∃ c', (fetch x).execute consume c = .ok c' ∧ c'.state.index = c.state.index ∧
      c'.state.memory = c.state.memory ∧
      ∀ r, c'.state.register r = bytes[r.val]?.getD (c.state.register r) := by
  have hexecute : (fetch x).execute consume c =
      .ok (c.withState (c.state.setLeading bytes).next) := by
    rw [execute_eq, effect, hread]
    rfl
  -- behind a `v` of its own the vector of registers is not unfolded by `rfl`
  obtain ⟨v, hv⟩ := c.state.exists_setLeading_eq bytes
  have hregister := c.state.register_setLeading bytes
  rw [hv] at hexecute hregister
  exact ⟨_, hexecute, rfl, rfl, hregister⟩

theorem readIndexed_of_writeBlock {memory : Memory} {bytes : List UInt8}
    (hm : c.state.memory.writeBlock c.state.index.toNat bytes = .ok memory)
    (hlen : bytes.length = len) (hkeep : (c.withMemory memory).KeepsBlock c₂ len) :
    c₂.state.readIndexed len = .ok bytes := by
  subst hlen
  rw [Snapshot.readIndexed, hkeep.1]
  exact (Memory.readBlock_congr hkeep.2).trans (Memory.readBlock_of_writeBlock hm)

theorem store_then_fetch (consume : Bool) (hpc : c.state.pc.toNat ≤ 0xFFE)
    (hend : c.state.index.toNat + x ≤ 0xFFF) :
    ∃ c₁, (Word.ofByte 0xF x 0x55).Takes consume c c₁ ∧ c.KeepsRest c₁ (x + 1) ∧
      ∀ c₂, c₂.state.pc.toNat ≤ 0xFFE → c₁.KeepsBlock c₂ (x + 1) →
        ∃ c₃, (Word.ofByte 0xF x 0x65).Takes consume c₂ c₃ ∧
          c₃.state.index = c₂.state.index ∧ c₃.state.memory = c₂.state.memory ∧
          ∀ r, c₃.state.register r =
            if r ≤ x then c.state.register r else c₂.state.register r := by
  have hspan : (store x).span? = some (x.val + 1) := rfl
  obtain ⟨c₁, h₁⟩ := exists_execute_of_span? consume c hspan (Nat.succ_le_succ hend)
  have hrest : c.KeepsRest c₁ (x + 1) := keepsRest_of_span? hspan h₁
  refine ⟨c₁, takes_of_span? (i := store x) rfl hspan x.val.succ_pos hpc h₁, hrest,
    fun c₂ hpc₂ hkeep => ?_⟩
  obtain ⟨memory, hm, rfl⟩ := execute_store h₁
  have hread := readIndexed_of_writeBlock hm (c.state.length_leading x) hkeep
  obtain ⟨c₃, h₃, hindex, hmemory, hregister⟩ := exists_execute_fetch consume hread
  refine ⟨c₃, takes_of_span? (i := fetch x) rfl rfl x.val.succ_pos hpc₂ h₃, hindex, hmemory,
    fun r => ?_⟩
  rw [hregister, Snapshot.getElem?_leading]
  split <;> rfl

theorem fetch_then_store (consume : Bool) (hpc : c.state.pc.toNat ≤ 0xFFE)
    (hend : c.state.index.toNat + x ≤ 0xFFF) :
    ∃ c₁, (Word.ofByte 0xF x 0x65).Takes consume c c₁ ∧
      c₁.state.index = c.state.index ∧ c₁.state.memory = c.state.memory ∧
      ∀ c₂, c₂.state.pc.toNat ≤ 0xFFE → c₁.KeepsBlock c₂ (x + 1) →
        (∀ r ≤ x, c₂.state.register r = c₁.state.register r) →
        ∃ c₃, (Word.ofByte 0xF x 0x55).Takes consume c₂ c₃ ∧
          c₃.state.index = c₂.state.index ∧ c₃.state.memory = c₂.state.memory := by
  obtain ⟨bytes, hread⟩ : ∃ bytes, c.state.readIndexed (x + 1) = .ok bytes :=
    ⟨_, dif_pos (Nat.succ_le_succ hend)⟩
  have hlen : bytes.length = x + 1 := Memory.length_of_readBlock hread
  obtain ⟨c₁, h₁, hindex, hmemory, hregister⟩ := exists_execute_fetch consume hread
  refine ⟨c₁, takes_of_span? (i := fetch x) rfl rfl x.val.succ_pos hpc h₁, hindex, hmemory,
    fun c₂ hpc₂ hkeep hsame => ?_⟩
  have hkeep' : c.KeepsBlock c₂ (x + 1) := hkeep.of_eq hindex hmemory
  have hleading : c₂.state.v.toList.take (x + 1) = bytes := by
    refine Snapshot.leading_eq hlen fun r hr => ?_
    have hlt : r.val < bytes.length := hlen ▸ Nat.lt_succ_of_le hr
    rw [hsame r hr, hregister, List.getElem?_eq_getElem hlt, Option.getD_some]
  have hm : c₂.state.memory.writeBlock c₂.state.index.toNat bytes = .ok c₂.state.memory := by
    rw [hkeep'.1]
    exact Memory.writeBlock_of_readBlock ((Memory.readBlock_congr hkeep'.2).trans hread)
  have h₃ : (store x).execute consume c₂ = .ok (c₂.withState c₂.state.next) := by
    rw [execute_eq, effect, hleading, Snapshot.writeIndexed, hm]
    rfl
  exact ⟨_, takes_of_span? (i := store x) rfl rfl x.val.succ_pos hpc₂ h₃, rfl, rfl⟩

theorem decimal_then_fetch (consume : Bool) (hpc : c.state.pc.toNat ≤ 0xFFE)
    (hend : c.state.index.toNat ≤ 0xFFD) (x : Register) :
    ∃ c₁, (Word.ofByte 0xF x 0x33).Takes consume c c₁ ∧ c.KeepsRest c₁ 3 ∧
      ∀ c₂, c₂.state.pc.toNat ≤ 0xFFE → c₁.KeepsBlock c₂ 3 →
        ∃ c₃, (Word.ofByte 0xF 2 0x65).Takes consume c₂ c₃ ∧
          c₃.state.index = c₂.state.index ∧ c₃.state.memory = c₂.state.memory ∧
          (c₃.state.register 0).toNat ≤ 9 ∧ (c₃.state.register 1).toNat ≤ 9 ∧
          (c₃.state.register 2).toNat ≤ 9 ∧
          100 * (c₃.state.register 0).toNat + 10 * (c₃.state.register 1).toNat +
            (c₃.state.register 2).toNat = (c.state.register x).toNat := by
  have hspan : (decimal x).span? = some 3 := rfl
  obtain ⟨c₁, h₁⟩ := exists_execute_of_span? consume c hspan (Nat.add_le_add_right hend 3)
  have hrest : c.KeepsRest c₁ 3 := keepsRest_of_span? hspan h₁
  refine ⟨c₁, takes_of_span? (i := decimal x) rfl hspan (by decide) hpc h₁, hrest,
    fun c₂ hpc₂ hkeep => ?_⟩
  obtain ⟨memory, hm, rfl⟩ := execute_decimal h₁
  have hread : c₂.state.readIndexed ((2 : Register) + 1) =
      .ok (decimalDigits (c.state.register x)) := readIndexed_of_writeBlock hm rfl hkeep
  obtain ⟨c₃, h₃, hindex, hmemory, hregister⟩ := exists_execute_fetch consume hread
  refine ⟨c₃, takes_of_span? (i := fetch 2) rfl rfl (by decide) hpc₂ h₃, hindex, hmemory, ?_⟩
  obtain ⟨hundreds, tens, ones, hdigits, hspec⟩ := decimalDigits_spec (c.state.register x)
  rw [hdigits] at hregister
  rw [hregister 0, hregister 1, hregister 2]
  exact hspec

/-- **Bytes survive the way to memory and back.** Let a word be at the counter. Let `x` name a
register, and let the block of the registers up to it lie in memory.

* A store leaves the index register and the bytes outside its block as they were. After anything
  that keeps the index register and the block, with a word at the counter again, a fetch gives the
  registers up to `x` what they held at the store and leaves the others and all of memory alone.
* A fetch leaves the index register and all of memory as they were. After anything that keeps the
  index register, the block and the registers up to `x`, a store changes neither the index register
  nor memory.

The digits of any register, the first three included, are fetched in the same way as the digits of
the number that the register held. -/
theorem transfers_round_trip (consume : Bool) (c : Context) (hpc : c.state.pc.toNat ≤ 0xFFE) :
    (∀ x : Register, c.state.index.toNat + x ≤ 0xFFF →
      (∃ c₁, (Word.ofByte 0xF x 0x55).Takes consume c c₁ ∧ c.KeepsRest c₁ (x + 1) ∧
        ∀ c₂, c₂.state.pc.toNat ≤ 0xFFE → c₁.KeepsBlock c₂ (x + 1) →
          ∃ c₃, (Word.ofByte 0xF x 0x65).Takes consume c₂ c₃ ∧
            c₃.state.index = c₂.state.index ∧ c₃.state.memory = c₂.state.memory ∧
            ∀ r, c₃.state.register r =
              if r ≤ x then c.state.register r else c₂.state.register r) ∧
      ∃ c₁, (Word.ofByte 0xF x 0x65).Takes consume c c₁ ∧
        c₁.state.index = c.state.index ∧ c₁.state.memory = c.state.memory ∧
        ∀ c₂, c₂.state.pc.toNat ≤ 0xFFE → c₁.KeepsBlock c₂ (x + 1) →
          (∀ r ≤ x, c₂.state.register r = c₁.state.register r) →
          ∃ c₃, (Word.ofByte 0xF x 0x55).Takes consume c₂ c₃ ∧
            c₃.state.index = c₂.state.index ∧ c₃.state.memory = c₂.state.memory) ∧
    (c.state.index.toNat ≤ 0xFFD → ∀ x : Register,
      ∃ c₁, (Word.ofByte 0xF x 0x33).Takes consume c c₁ ∧ c.KeepsRest c₁ 3 ∧
        ∀ c₂, c₂.state.pc.toNat ≤ 0xFFE → c₁.KeepsBlock c₂ 3 →
          ∃ c₃, (Word.ofByte 0xF 2 0x65).Takes consume c₂ c₃ ∧
            c₃.state.index = c₂.state.index ∧ c₃.state.memory = c₂.state.memory ∧
            (c₃.state.register 0).toNat ≤ 9 ∧ (c₃.state.register 1).toNat ≤ 9 ∧
            (c₃.state.register 2).toNat ≤ 9 ∧
            100 * (c₃.state.register 0).toNat + 10 * (c₃.state.register 1).toNat +
              (c₃.state.register 2).toNat = (c.state.register x).toNat) := by
  refine ⟨fun x hend => ⟨?_, ?_⟩, fun hend x => ?_⟩
  · exact store_then_fetch consume hpc hend
  · exact fetch_then_store consume hpc hend
  · exact decimal_then_fetch consume hpc hend x

/-- The last sixteen bytes of memory take all registers, and give them back once they are cleared;
the digits of the last register come back as the number it held. -/
theorem transfers_round_trip_at_end :
    let c : Context :=
      ⟨{ Snapshot.initial.setRegister 15 0xFE with index := 0xFF0 }, .released, .arithmetic 0 0⟩
    let cleared (c₁ : Context) : Context :=
      c₁.withState { c₁.state with pc := 0x200, v := Vector.replicate 16 0 }
    (∃ c₁ c₃, (Word.ofByte 0xF 15 0x55).Takes false c c₁ ∧
      (Word.ofByte 0xF 15 0x65).Takes false (cleared c₁) c₃ ∧
      ∀ r, c₃.state.register r = c.state.register r) ∧
    ∃ c₁ c₃, (Word.ofByte 0xF 15 0x33).Takes false c c₁ ∧
      (Word.ofByte 0xF 2 0x65).Takes false (cleared c₁) c₃ ∧
      100 * (c₃.state.register 0).toNat + 10 * (c₃.state.register 1).toNat +
        (c₃.state.register 2).toNat = 254 := by
  intro c cleared
  obtain ⟨hblock, hdigits⟩ := transfers_round_trip false c (by decide)
  constructor
  · obtain ⟨⟨c₁, h₁, -, hfetch⟩, -⟩ := hblock 15 (by decide)
    obtain ⟨c₃, h₃, -, -, hregister⟩ := hfetch (cleared c₁) (Nat.le_of_ble_eq_true rfl)
      ⟨rfl, fun _ _ _ => rfl⟩
    exact ⟨c₁, c₃, h₁, h₃, fun r => (hregister r).trans (if_pos (Nat.le_of_lt_succ r.isLt))⟩
  · obtain ⟨c₁, h₁, -, hfetch⟩ := hdigits (by decide) 15
    obtain ⟨c₃, h₃, -, -, -, -, -, hsum⟩ := hfetch (cleared c₁) (Nat.le_of_ble_eq_true rfl)
      ⟨rfl, fun _ _ _ => rfl⟩
    exact ⟨c₁, c₃, h₁, h₃, hsum.trans (by decide +kernel)⟩

end Instruction

end ChipEight
