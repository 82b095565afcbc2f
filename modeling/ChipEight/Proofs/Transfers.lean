import ChipEight.ByteStream.Seeded
import ChipEight.Proofs.Sprites

/-!
# Instructions that move bytes

Four instructions read or write a block of bytes at the index register. Such an instruction fails if
and only if one of the bytes lies past the end of memory, or if there are none and the index
register points past the end (`fails_iff_past_memory`). One that is carried out has nothing to do
with any other byte: it leaves them as they are, and does the same whatever they are.

What an instruction has done before a fault would be left behind. Nothing is: the block is asked for
before the first byte of it is written.
-/

namespace ChipEight

/-! ### Blocks of memory -/

namespace Memory

variable {m m' : Memory} {addr len : Nat} {bytes : List UInt8}

theorem readBlock_congr (h : ∀ (a : Nat) (ha : a < memorySize), addr ≤ a ∧ a < addr + len →
    m'[a] = m[a]) : m'.readBlock addr len = m.readBlock addr len := by
  unfold readBlock
  split
  · next hend =>
    refine congrArg (Except.ok <| List.ofFn ·) (funext fun k => ?_)
    exact h (addr + k) (by omega) (by omega)
  · rfl

theorem getElem_overwrite_of_mem (m m' : Memory) {a : Nat} (ha : a < memorySize)
    (h : addr ≤ a ∧ a < addr + bytes.length) :
    (m'.overwrite addr bytes)[a] = (m.overwrite addr bytes)[a] := by
  rw [getElem_overwrite, getElem_overwrite, dif_pos h, dif_pos h]

theorem writeBlock_eq_ok (h : m.writeBlock addr bytes = .ok m') :
    addr + bytes.length ≤ memorySize ∧ m' = m.overwrite addr bytes := by
  unfold writeBlock at h
  split at h
  · next hend => cases h; exact ⟨hend, rfl⟩
  · cases h

end Memory

namespace Snapshot

/-- The address lies in the block of `len` bytes at the index register. -/
def InBlock (s : Snapshot) (len a : Nat) : Prop := s.index.toNat ≤ a ∧ a < s.index.toNat + len

variable {s : Snapshot} {len : Nat}

theorem not_inBlock_zero (s : Snapshot) (a : Nat) : ¬s.InBlock 0 a :=
  fun ⟨hlow, hhigh⟩ => Nat.not_lt.mpr hlow hhigh

theorem exists_blockFault?_iff :
    (∃ f, s.blockFault? len = some f) ↔
      (∃ a, s.InBlock len a ∧ 0xFFF < a) ∨ (len = 0 ∧ 0x1000 < s.index.toNat) := by
  have hexists : (∃ f, s.blockFault? len = some f) ↔ memorySize < s.index.toNat + len := by
    rw [blockFault?]
    split
    · next hle =>
      refine iff_of_false ?_ (Nat.not_lt.mpr hle)
      rintro ⟨f, hf⟩
      cases hf
    · next hlt => exact iff_of_true ⟨_, rfl⟩ (Nat.lt_of_not_le hlt)
  rw [hexists, memorySize]
  constructor
  · intro hlt
    rcases Nat.eq_zero_or_pos len with h0 | hpos
    · exact .inr ⟨h0, by omega⟩
    · exact .inl ⟨s.index.toNat + len - 1, ⟨by omega, by omega⟩, by omega⟩
  · rintro (⟨a, ⟨-, hlt⟩, hpast⟩ | ⟨h0, hpast⟩)
    · omega
    · omega

end Snapshot

/-- The context with other bytes in memory. -/
def Context.withMemory (c : Context) (memory : Memory) : Context :=
  c.withState { c.state with memory }

namespace Instruction

variable {consume : Bool} {c c' : Context} {i : Instruction} {len : Nat} {f : Fault}

/-! ### Faults -/

theorem eq_memoryOutOfBounds_of_span? (hlen : i.span? = some len)
    (h : i.execute consume c = .error f) :
    f = .memoryOutOfBounds (c.state.index.toNat + len - 1) := by
  rw [execute_eq_error_iff, fault?_of_span? hlen, Snapshot.blockFault?] at h
  split at h
  · cases h
  · exact (Option.some.inj h).symm

/-! ### Bytes out of reach -/

theorem exists_writeIndexed {bytes : List UInt8} {written : Memory} (memory : Memory)
    (h : c.state.memory.writeBlock c.state.index.toNat bytes = .ok written) :
    ∃ memory', (c.withMemory memory).state.writeIndexed bytes =
        .ok (c.withMemory memory').state ∧
      ∀ (a : Nat) (ha : a < memorySize), c.state.InBlock bytes.length a →
        memory'[a] = written[a] := by
  obtain ⟨hend, rfl⟩ := Memory.writeBlock_eq_ok h
  refine ⟨memory.overwrite c.state.index.toNat bytes, ?_,
    fun a ha hin => Memory.getElem_overwrite_of_mem _ _ ha hin⟩
  have hwrite : memory.writeBlock c.state.index.toNat bytes = .ok _ := if_pos hend
  rw [Snapshot.writeIndexed]
  exact congrArg (·.map fun memory' => (c.withMemory memory').state) hwrite

theorem memory_of_not_inBlock (hlen : i.span? = some len) (h : i.execute consume c = .ok c')
    {a : Nat} (ha : a < memorySize) (hout : ¬c.state.InBlock len a) :
    c'.state.memory[a] = c.state.memory[a] := by
  by_contra hne
  obtain ⟨x, ⟨rfl, hlow, hhigh⟩ | ⟨rfl, hlow, hhigh⟩⟩ := (execute_footprint h).memory a ha hne
  · cases hlen
    exact hout ⟨hlow, hhigh⟩
  · cases hlen
    exact hout ⟨hlow, Nat.lt_succ_of_le hhigh⟩

/-- What an instruction that moves bytes does to its block and to everything but memory depends on
no byte outside the block. -/
theorem execute_withMemory (hlen : i.span? = some len) (h : i.execute consume c = .ok c')
    {memory : Memory} (hsame : ∀ (a : Nat) (ha : a < memorySize), c.state.InBlock len a →
      memory[a] = c.state.memory[a]) :
    ∃ memory', i.execute consume (c.withMemory memory) = .ok (c'.withMemory memory') ∧
      ∀ (a : Nat) (ha : a < memorySize), c.state.InBlock len a →
        memory'[a] = c'.state.memory[a] := by
  cases i with
  | draw x y n =>
    cases hlen
    obtain ⟨bytes, hbytes, rfl⟩ := execute_draw h
    have hread : (c.withMemory memory).state.readIndexed n = .ok bytes :=
      (Memory.readBlock_congr hsame).trans hbytes
    refine ⟨memory, ?_, hsame⟩
    rw [execute_eq, effect, hread]
    rfl
  | fetch x =>
    cases hlen
    obtain ⟨bytes, hbytes, rfl⟩ := execute_fetch h
    have hread : (c.withMemory memory).state.readIndexed (x + 1) = .ok bytes :=
      (Memory.readBlock_congr hsame).trans hbytes
    obtain ⟨v, hv⟩ := c.state.exists_setLeading_eq bytes
    refine ⟨memory, ?_, ?_⟩
    · rw [execute_eq, effect, hread]
      rfl
    · rw [hv]
      exact hsame
  | decimal x =>
    cases hlen
    obtain ⟨written, hm, rfl⟩ := execute_decimal h
    obtain ⟨memory', hwrite, hin⟩ := exists_writeIndexed memory hm
    refine ⟨memory', ?_, hin⟩
    have hwrite : (c.withMemory memory).state.writeIndexed
        (decimalDigits ((c.withMemory memory).state.register x)) =
        .ok (c.withMemory memory').state := hwrite
    rw [execute_eq, effect, hwrite]
    rfl
  | store x =>
    cases hlen
    obtain ⟨written, hm, rfl⟩ := execute_store h
    obtain ⟨memory', hwrite, hin⟩ := exists_writeIndexed memory hm
    rw [c.state.length_leading x] at hin
    refine ⟨memory', ?_, hin⟩
    have hwrite : (c.withMemory memory).state.writeIndexed
        ((c.withMemory memory).state.v.toList.take (x + 1)) =
        .ok (c.withMemory memory').state := hwrite
    rw [execute_eq, effect, hwrite]
    rfl
  | _ => cases hlen

/-- **An instruction that moves bytes fails if a byte lies past the end.** Let a word be at the
counter, and let the instruction not be an empty sprite at address zero. Then it is carried out with
nothing out of the ordinary. It fails if and only if one of the bytes it has to touch lies past the
end of memory, or it has none to touch and the index register points past the end.

* The fault names the last address of the block. The instruction leaves the context behind as it
  was, and so does a cycle with the machine.
* Behind an instruction that succeeds the bytes outside the block are the old ones, and had they
  been others it would have done the same. -/
theorem fails_iff_past_memory (consume : Bool) (c : Context) (hlen : i.span? = some len)
    (hpc : c.state.pc.toNat ≤ 0xFFE) (hhollow : ¬i.IsHollow c.state) :
    i.strict consume c = some (i.execute consume c) ∧
    ((∃ f, i.execute consume c = .error f) ↔
      (∃ a, c.state.InBlock len a ∧ 0xFFF < a) ∨ (len = 0 ∧ 0x1000 < c.state.index.toNat)) ∧
    (∀ f, i.execute consume c = .error f →
      f = .memoryOutOfBounds (c.state.index.toNat + len - 1) ∧
      (i.inPlace consume).run c = .error f c ∧
      ∀ m : Machine, m.fetch = .ok i.encode → m.context = c →
        m.settings.clearKeysOnRead = consume → m.cycle = (m, .error f)) ∧
    ∀ c', i.execute consume c = .ok c' →
      (i.inPlace consume).run c = .ok () c' ∧
      (∀ (a : Nat) (ha : a < memorySize), ¬c.state.InBlock len a →
        c'.state.memory[a] = c.state.memory[a]) ∧
      ∀ memory : Memory, (∀ (a : Nat) (ha : a < memorySize), c.state.InBlock len a →
          memory[a] = c.state.memory[a]) →
        ∃ memory', i.execute consume (c.withMemory memory) = .ok (c'.withMemory memory') ∧
          ∀ (a : Nat) (ha : a < memorySize), c.state.InBlock len a →
            memory'[a] = c'.state.memory[a] := by
  refine ⟨strict_of_span? hlen hpc hhollow, ?_, fun f h => ⟨?_, ?_, ?_⟩, fun c' h => ⟨?_, ?_, ?_⟩⟩
  · rw [← Snapshot.exists_blockFault?_iff, ← fault?_of_span? hlen]
    exact exists_congr fun f => execute_eq_error_iff
  · exact eq_memoryOutOfBounds_of_span? hlen h
  · exact run_inPlace_eq_error_iff.mpr ⟨h, rfl⟩
  · rintro m hword rfl rfl
    exact m.cycle_of_error ((m.instruction?_of_fetch hword).trans i.decode?_encode) h
  · exact run_inPlace_eq_ok_iff.mpr h
  · exact fun a ha hout => memory_of_not_inBlock hlen h ha hout
  · exact fun memory hsame => execute_withMemory hlen h hsame

/-- Two registers go into the last two bytes of memory; the third has no byte to go to. -/
theorem fails_iff_past_memory_at_end :
    let c : Context := ⟨{ Snapshot.initial with index := 0xFFE }, .released, .arithmetic 0 0⟩
    (∃ c', (store 1).execute false c = .ok c' ∧ ((store 1).inPlace false).run c = .ok () c' ∧
      c'.state.memory[0] = c.state.memory[0]) ∧
    ∃ f, (store 2).execute false c = .error f ∧ f = .memoryOutOfBounds 0x1000 ∧
      ((store 2).inPlace false).run c = .error f c := by
  intro c
  have hpc : c.state.pc.toNat ≤ 0xFFE := by decide
  have hindex : c.state.index.toNat = 0xFFE := by decide
  have htwo : (store 1).span? = some 2 := rfl
  have hthree : (store 2).span? = some 3 := rfl
  obtain ⟨-, hiff, -, hok⟩ := fails_iff_past_memory false c htwo hpc nofun
  obtain ⟨-, hiff', herror, -⟩ := fails_iff_past_memory false c hthree hpc nofun
  constructor
  · cases h : (store 1).execute false c with
    | ok c' =>
      obtain ⟨hrun, hout, -⟩ := hok c' h
      have hbelow : ¬c.state.InBlock 2 0 := fun ⟨hlow, _⟩ => by omega
      exact ⟨c', rfl, hrun, hout 0 (by decide) hbelow⟩
    | error f =>
      rcases hiff.mp ⟨f, h⟩ with ⟨a, ⟨-, hlt⟩, hpast⟩ | ⟨h0, -⟩
      · omega
      · cases h0
  · obtain ⟨f, h⟩ := hiff'.mpr (.inl ⟨0x1000, ⟨by decide, by decide⟩, by decide⟩)
    exact ⟨f, h, (herror f h).1, (herror f h).2.1⟩

/-- The index register points behind the end of memory; an empty sprite is drawn there. It has no
byte, and fails nonetheless. -/
theorem empty_sprite_past_memory :
    let m := (Machine.fresh {} (.cipher default)).run
      [.load [0xAF, 0xFF, 0x60, 0x02, 0xF0, 0x1E, 0xD0, 0x10], .cycle, .cycle, .cycle]
    Machine.Reachable m ∧ m.fetch = .ok (draw 0 1 0).encode ∧ m.state.index = 0x1001 ∧
      (¬∃ a, m.state.InBlock 0 a) ∧ m.cycle.2 = .error (.memoryOutOfBounds 0x1000) := by
  intro m
  have hrun : m.fetch = .ok (draw 0 1 0).encode ∧ m.state.index = 0x1001 ∧
      m.cycle.2 = .error (.memoryOutOfBounds 0x1000) := by decide +kernel
  exact ⟨.run (.create (Machine.create_eq_ok_iff.mpr ⟨rfl, rfl⟩)) _, hrun.1, hrun.2.1,
    fun ⟨a, ha⟩ => m.state.not_inBlock_zero a ha, hrun.2.2⟩

end Instruction

end ChipEight
