import ChipEight.Proofs.Transfers

/-!
# Bytes, words and blocks of memory

Memory is read by the byte, by the word and by the block, and each of the three has a check of its
own for the end. They agree: a block can be read if and only if each of its bytes can, and holds
just these (`readByte_of_readBlock`), and what can be read as a word can be written as one.

`Write.inPlace` writes to a snapshot that is changed in place. The check comes before the first byte
is written, so a write that fails leaves the snapshot as it was (`Write.run_inPlace`).
-/

namespace ChipEight

namespace Memory

variable {m : Memory} {addr len : Nat} {bytes : List UInt8}

theorem readByte_of_lt (h : addr < memorySize) : m.readByte addr = .ok m[addr] := dif_pos h

/-! ### Reading -/

theorem exists_readBlock_iff : (∃ bytes, m.readBlock addr len = .ok bytes) ↔
    addr + len ≤ memorySize := by
  unfold readBlock
  split
  · next hend => exact iff_of_true ⟨_, rfl⟩ hend
  · next hend =>
    refine iff_of_false ?_ hend
    rintro ⟨bytes, h⟩
    cases h

theorem forall_readByte_iff (hpos : 0 < len) :
    (∀ k < len, ∃ b, m.readByte (addr + k) = .ok b) ↔ addr + len ≤ memorySize := by
  simp only [readByte_eq_ok_iff]
  constructor
  · intro h
    have hlast := h (len - 1) (by omega)
    omega
  · intro hend k hk
    omega

theorem readByte_of_readBlock (h : m.readBlock addr len = .ok bytes) {k : Nat}
    (hk : k < bytes.length) : m.readByte (addr + k) = .ok bytes[k] := by
  have hlen := length_of_readBlock h
  have hend := exists_readBlock_iff.mp ⟨_, h⟩
  rw [readBlock, dif_pos hend] at h
  cases h
  rw [readByte_of_lt (by omega), List.getElem_ofFn]

theorem exists_readWord_iff : (∃ w, m.readWord addr = .ok w) ↔ addr + 1 ≤ 0xFFF := by
  have hword : (∃ w, m.readWord addr = .ok w) ↔
      (∃ b, m.readByte addr = .ok b) ∧ ∃ b, m.readByte (addr + 1) = .ok b := by
    unfold readWord
    cases m.readByte addr <;> cases m.readByte (addr + 1) <;>
      simp [bind, Except.bind, pure, Except.pure]
  rw [hword, readByte_eq_ok_iff, readByte_eq_ok_iff, memorySize]
  omega

/-! ### Writing -/

theorem readByte_overwrite_of_mem {k : Nat} (hk : k < bytes.length)
    (hend : addr + k < memorySize) :
    (m.overwrite addr bytes).readByte (addr + k) = .ok bytes[k] := by
  have hin : addr ≤ addr + k ∧ addr + k < addr + bytes.length := by omega
  rw [readByte_of_lt hend, getElem_overwrite, dif_pos hin]
  simp only [Nat.add_sub_cancel_left]

theorem readByte_overwrite_of_not_mem {a : Nat} (h : ¬(addr ≤ a ∧ a < addr + bytes.length)) :
    (m.overwrite addr bytes).readByte a = m.readByte a := by
  unfold readByte
  split
  · next ha => rw [getElem_overwrite, dif_neg h]
  · rfl

theorem exists_writeBlock_iff : (∃ m', m.writeBlock addr bytes = .ok m') ↔
    addr + bytes.length ≤ memorySize := by
  unfold writeBlock
  split
  · next hend => exact iff_of_true ⟨_, rfl⟩ hend
  · next hend =>
    refine iff_of_false ?_ hend
    rintro ⟨m', h⟩
    cases h

theorem readWord_of_readByte {high low : UInt8} (hhigh : m.readByte addr = .ok high)
    (hlow : m.readByte (addr + 1) = .ok low) : m.readWord addr = .ok (.ofBytes high low) := by
  rw [readWord, hhigh, hlow]
  rfl

theorem exists_writeWord_iff {w : Word} :
    (∃ m', m.writeWord addr w = .ok m') ↔ addr + 1 ≤ 0xFFF := by
  have hend : (∃ m', m.writeWord addr w = .ok m') ↔ addr + 2 ≤ memorySize := exists_writeBlock_iff
  rw [hend, memorySize]
  omega

theorem readByte_of_writeWord {m' : Memory} {w : Word} (h : m.writeWord addr w = .ok m') :
    m'.readByte addr = .ok w.highByte ∧ m'.readByte (addr + 1) = .ok w.lowByte ∧
      ∀ a, a ≠ addr → a ≠ addr + 1 → m'.readByte a = m.readByte a := by
  obtain ⟨hend, rfl⟩ := writeBlock_eq_ok h
  simp only [List.length_cons, List.length_nil] at hend
  have hhigh : (m.overwrite addr [w.highByte, w.lowByte]).readByte addr = .ok w.highByte :=
    readByte_overwrite_of_mem (k := 0) (by simp) (by omega)
  have hlow : (m.overwrite addr [w.highByte, w.lowByte]).readByte (addr + 1) = .ok w.lowByte :=
    readByte_overwrite_of_mem (k := 1) (by simp) (by omega)
  refine ⟨hhigh, hlow, fun a hne hne' => readByte_overwrite_of_not_mem ?_⟩
  simp only [List.length_cons, List.length_nil]
  omega

theorem exists_of_writeBlock_eq_error {f : Fault} (h : m.writeBlock addr bytes = .error f) :
    ∃ a, f = .memoryOutOfBounds a ∧ 0xFFF < a := by
  unfold writeBlock at h
  split at h
  · cases h
  · next hend =>
    cases h
    rw [memorySize] at hend
    exact ⟨_, rfl, by omega⟩

end Memory

/-- A write of a byte, of a word with its high byte first, or of a block of bytes. -/
inductive Write where
  | byte (addr : Nat) (value : UInt8)
  | word (addr : Nat) (w : Word)
  | block (addr : Nat) (bytes : List UInt8)

namespace Write

/-- The memory behind a write. -/
def apply : Write → Memory → Except Fault Memory
  | byte addr value, m => m.writeByte addr value
  | word addr w, m => m.writeWord addr w
  | block addr bytes, m => m.writeBlock addr bytes

/-- Carries a write out in place. -/
def inPlace : Write → Handler Unit
  | byte addr value =>
    if addr < memorySize then
      modify fun s => { s with memory := s.memory.setIfInBounds addr value }
    else throw (.memoryOutOfBounds addr)
  | word addr w => do
    .lend addr 2
    .poke addr [w.highByte, w.lowByte]
  | block addr bytes => do
    .lend addr bytes.length
    .poke addr bytes

/-- In place or not, the memory behind a write is the same, and a fault leaves all as it was. -/
theorem run_inPlace (write : Write) (s : Snapshot) :
    write.inPlace.run s =
      ending s ((write.apply s.memory).map fun memory => { s with memory }) := by
  cases write with
  | byte addr value =>
    rw [inPlace, apply, Memory.writeByte, Memory.writeBlock]
    by_cases h : addr < memorySize
    · rw [if_pos h, if_pos (show addr + [value].length ≤ memorySize from h)]
      rfl
    · rw [if_neg h, if_neg (show ¬addr + [value].length ≤ memorySize from h)]
      rfl
  | word addr w => exact Handler.run_lend_poke s addr [w.highByte, w.lowByte]
  | block addr bytes => exact Handler.run_lend_poke s addr bytes

theorem exists_of_apply_eq_error {write : Write} {m : Memory} {f : Fault}
    (h : write.apply m = .error f) : ∃ a, f = .memoryOutOfBounds a ∧ 0xFFF < a := by
  cases write with
  | byte addr value => exact Memory.exists_of_writeBlock_eq_error h
  | word addr w => exact Memory.exists_of_writeBlock_eq_error h
  | block addr bytes => exact Memory.exists_of_writeBlock_eq_error h

/-- **The accessors of memory agree.**

* A block that is not empty can be read if and only if each of its bytes can, and holds just these.
* A word can be read if and only if it can be written, which is where its second byte is inside.
  Once written it is read as it was, its bytes are where they belong, and the others are as before.
* A write that is carried out in place changes memory alone. One that fails changes nothing, and
  names an address past the end. -/
theorem accessors_agree (s : Snapshot) (addr : Nat) :
    (∀ len, 0 < len →
      ((∃ bytes, s.memory.readBlock addr len = .ok bytes) ↔
        ∀ k < len, ∃ b, s.memory.readByte (addr + k) = .ok b) ∧
      ∀ bytes, s.memory.readBlock addr len = .ok bytes → bytes.length = len ∧
        ∀ (k : Nat) (hk : k < bytes.length), s.memory.readByte (addr + k) = .ok bytes[k]) ∧
    ((∃ w, s.memory.readWord addr = .ok w) ↔ addr + 1 ≤ 0xFFF) ∧
    (∀ w, ((∃ m', s.memory.writeWord addr w = .ok m') ↔ addr + 1 ≤ 0xFFF) ∧
      ∀ m', s.memory.writeWord addr w = .ok m' →
        m'.readWord addr = .ok w ∧ m'.readByte addr = .ok w.highByte ∧
        m'.readByte (addr + 1) = .ok w.lowByte ∧
        ∀ a, a ≠ addr → a ≠ addr + 1 → m'.readByte a = s.memory.readByte a) ∧
    ∀ write : Write,
      (∀ m', write.apply s.memory = .ok m' →
        write.inPlace.run s = .ok () { s with memory := m' }) ∧
      ∀ f, write.apply s.memory = .error f →
        write.inPlace.run s = .error f s ∧ ∃ a, f = .memoryOutOfBounds a ∧ 0xFFF < a := by
  refine ⟨fun len hpos => ⟨?_, fun bytes h => ?_⟩, Memory.exists_readWord_iff,
    fun w => ⟨Memory.exists_writeWord_iff, fun m' h => ?_⟩,
    fun write => ⟨fun m' h => ?_, fun f h => ?_⟩⟩
  · rw [Memory.exists_readBlock_iff, Memory.forall_readByte_iff hpos]
  · exact ⟨Memory.length_of_readBlock h, fun k hk => Memory.readByte_of_readBlock h hk⟩
  · obtain ⟨hhigh, hlow, hrest⟩ := Memory.readByte_of_writeWord h
    have hword := Memory.readWord_of_readByte hhigh hlow
    rw [Word.ofBytes_bytes] at hword
    exact ⟨hword, hhigh, hlow, hrest⟩
  · rw [run_inPlace, h]
    rfl
  · refine ⟨?_, exists_of_apply_eq_error h⟩
    rw [run_inPlace, h]
    rfl

/-- The last two bytes of memory hold a word; the last one alone does not. -/
theorem accessors_agree_at_end :
    let s := Snapshot.initial
    (∃ bytes, s.memory.readBlock 0xFFE 2 = .ok bytes ∧ bytes.length = 2) ∧
    (∃ m', s.memory.writeWord 0xFFE 0xABCD = .ok m' ∧ m'.readWord 0xFFE = .ok 0xABCD ∧
      m'.readByte 0xFFF = .ok 0xCD ∧ m'.readByte 0xFFD = s.memory.readByte 0xFFD ∧
      (word 0xFFE 0xABCD).inPlace.run s = .ok () { s with memory := m' }) ∧
    ∃ f a, s.memory.writeWord 0xFFF 0xABCD = .error f ∧
      (word 0xFFF 0xABCD).inPlace.run s = .error f s ∧ f = .memoryOutOfBounds a ∧ 0xFFF < a := by
  intro s
  obtain ⟨hblock, -, hword, hplace⟩ := accessors_agree s 0xFFE
  obtain ⟨-, -, hlast, -⟩ := accessors_agree s 0xFFF
  refine ⟨?_, ?_, ?_⟩
  · obtain ⟨hiff, hlength⟩ := hblock 2 (by decide)
    have hbytes (k : Nat) (hk : k < 2) : ∃ b, s.memory.readByte (0xFFE + k) = .ok b := by
      rw [Memory.readByte_eq_ok_iff, memorySize]
      omega
    obtain ⟨bytes, hread⟩ := hiff.mpr hbytes
    exact ⟨bytes, hread, (hlength bytes hread).1⟩
  · obtain ⟨m', hwrite⟩ := (hword 0xABCD).1.mpr (by decide)
    obtain ⟨hread, -, hlow, hrest⟩ := (hword 0xABCD).2 m' hwrite
    exact ⟨m', hwrite, hread, hlow, hrest 0xFFD (by decide) (by decide),
      (hplace (word 0xFFE 0xABCD)).1 m' hwrite⟩
  · cases hwrite : s.memory.writeWord 0xFFF 0xABCD with
    | ok m' => exact absurd ((hlast 0xABCD).1.mp ⟨m', hwrite⟩) (by decide)
    | error f =>
      obtain ⟨hrun, a, hf, ha⟩ := (hplace (word 0xFFF 0xABCD)).2 f hwrite
      exact ⟨f, a, rfl, hrun, hf, ha⟩

end Write

end ChipEight
