import ChipEight.Instruction.Decode

/-!
# Encoding instructions

`Instruction.encode` is the word that stands for an instruction. It is the only one: decoding yields
an instruction exactly for the word that encodes it (`decode?_eq_some_iff`). Behind its family a
word holds an address, or a register and a byte, or two registers and a digit.
-/

namespace ChipEight

/-! ### The three formats of a word -/

namespace Word

/-- The word of a family with an address. -/
def ofAddress (f : Fin 16) (a : Address) : Word := UInt16.ofNat (f * 4096 + a)

/-- The word of a family with a register and a byte. -/
def ofByte (f : Fin 16) (x : Register) (kk : UInt8) : Word :=
  UInt16.ofNat (f * 4096 + x * 256 + kk.toNat)

/-- The word of a family with two registers and a digit. -/
def ofRegisters (f : Fin 16) (x y : Register) (n : Fin 16) : Word :=
  UInt16.ofNat (f * 4096 + x * 256 + y * 16 + n)

theorem toNat_ofAddress (f : Fin 16) (a : Address) : (ofAddress f a).toNat = f * 4096 + a := by
  rw [ofAddress, UInt16.toNat_ofNat']
  omega

theorem toNat_ofByte (f : Fin 16) (x : Register) (kk : UInt8) :
    (ofByte f x kk).toNat = f * 4096 + x * 256 + kk.toNat := by
  have := kk.toNat_lt
  rw [ofByte, UInt16.toNat_ofNat']
  omega

theorem toNat_ofRegisters (f : Fin 16) (x y : Register) (n : Fin 16) :
    (ofRegisters f x y n).toNat = f * 4096 + x * 256 + y * 16 + n := by
  rw [ofRegisters, UInt16.toNat_ofNat']
  omega

theorem family_ofAddress (f : Fin 16) (a : Address) : (ofAddress f a).family = f := by
  apply Fin.ext
  show (ofAddress f a).toNat / 4096 = f
  rw [toNat_ofAddress]
  omega

theorem addr_ofAddress (f : Fin 16) (a : Address) : (ofAddress f a).addr = a := by
  apply Fin.ext
  show (ofAddress f a).toNat % 4096 = a
  rw [toNat_ofAddress]
  omega

theorem family_ofByte (f : Fin 16) (x : Register) (kk : UInt8) : (ofByte f x kk).family = f := by
  have := kk.toNat_lt
  apply Fin.ext
  show (ofByte f x kk).toNat / 4096 = f
  rw [toNat_ofByte]
  omega

theorem x_ofByte (f : Fin 16) (x : Register) (kk : UInt8) : (ofByte f x kk).x = x := by
  have := kk.toNat_lt
  apply Fin.ext
  show (ofByte f x kk).toNat / 256 % 16 = x
  rw [toNat_ofByte]
  omega

theorem kk_ofByte (f : Fin 16) (x : Register) (kk : UInt8) : (ofByte f x kk).kk = kk := by
  have := kk.toNat_lt
  apply UInt8.toNat_inj.mp
  rw [toNat_kk, toNat_ofByte]
  omega

theorem family_ofRegisters (f : Fin 16) (x y : Register) (n : Fin 16) :
    (ofRegisters f x y n).family = f := by
  apply Fin.ext
  show (ofRegisters f x y n).toNat / 4096 = f
  rw [toNat_ofRegisters]
  omega

theorem x_ofRegisters (f : Fin 16) (x y : Register) (n : Fin 16) :
    (ofRegisters f x y n).x = x := by
  apply Fin.ext
  show (ofRegisters f x y n).toNat / 256 % 16 = x
  rw [toNat_ofRegisters]
  omega

theorem y_ofRegisters (f : Fin 16) (x y : Register) (n : Fin 16) :
    (ofRegisters f x y n).y = y := by
  apply Fin.ext
  show (ofRegisters f x y n).toNat / 16 % 16 = y
  rw [toNat_ofRegisters]
  omega

theorem n_ofRegisters (f : Fin 16) (x y : Register) (n : Fin 16) :
    (ofRegisters f x y n).n = n := by
  apply Fin.ext
  show (ofRegisters f x y n).toNat % 16 = n
  rw [toNat_ofRegisters]
  omega

theorem ofAddress_fields {w : Word} {f : Fin 16} (hf : w.family = f) : ofAddress f w.addr = w := by
  subst hf
  apply UInt16.toNat_inj.mp
  rw [toNat_ofAddress]
  simp only [family, addr]
  omega

theorem ofByte_fields {w : Word} {f : Fin 16} {kk : UInt8} (hf : w.family = f)
    (hk : w.kk.toNat = kk.toNat) : ofByte f w.x kk = w := by
  subst hf
  apply UInt16.toNat_inj.mp
  rw [toNat_ofByte, ← hk, toNat_kk]
  simp only [family, x]
  omega

theorem ofRegisters_fields {w : Word} {f : Fin 16} (hf : w.family = f) :
    ofRegisters f w.x w.y w.n = w := by
  subst hf
  apply UInt16.toNat_inj.mp
  rw [toNat_ofRegisters]
  simp only [family, x, y, n]
  omega

end Word

/-! ### Encoding -/

/-- The last digit of the words for an operation. -/
def Alu.digit : Alu → Fin 16
  | .or => 0x1
  | .and => 0x2
  | .xor => 0x3
  | .add => 0x4
  | .sub => 0x5
  | .shr => 0x6
  | .subn => 0x7
  | .shl => 0xE

namespace Instruction

/-- The word that stands for an instruction. -/
def encode : Instruction → Word
  | clear => 0x00E0
  | ret => 0x00EE
  | jump addr => .ofAddress 0x1 addr
  | call addr => .ofAddress 0x2 addr
  | skipEqual x (.byte kk) => .ofByte 0x3 x kk
  | skipUnequal x (.byte kk) => .ofByte 0x4 x kk
  | skipEqual x (.register y) => .ofRegisters 0x5 x y 0
  | load x (.byte kk) => .ofByte 0x6 x kk
  | addByte x kk => .ofByte 0x7 x kk
  | load x (.register y) => .ofRegisters 0x8 x y 0
  | alu op x y => .ofRegisters 0x8 x y op.digit
  | skipUnequal x (.register y) => .ofRegisters 0x9 x y 0
  | loadIndex addr => .ofAddress 0xA addr
  | jumpOffset addr => .ofAddress 0xB addr
  | random x kk => .ofByte 0xC x kk
  | draw x y n => .ofRegisters 0xD x y n
  | skipKey x => .ofByte 0xE x 0x9E
  | skipNoKey x => .ofByte 0xE x 0xA1
  | readDelay x => .ofByte 0xF x 0x07
  | waitKey x => .ofByte 0xF x 0x0A
  | setDelay x => .ofByte 0xF x 0x15
  | setSound x => .ofByte 0xF x 0x18
  | addIndex x => .ofByte 0xF x 0x1E
  | glyph x => .ofByte 0xF x 0x29
  | decimal x => .ofByte 0xF x 0x33
  | store x => .ofByte 0xF x 0x55
  | fetch x => .ofByte 0xF x 0x65

end Instruction

theorem Alu.ofDigit?_digit (op : Alu) : ofDigit? op.digit = some op := by cases op <;> rfl

theorem Alu.digit_ne_zero (op : Alu) : op.digit ≠ 0 := by cases op <;> decide

theorem Alu.digit_of_ofDigit? {n : Fin 16} {op : Alu} (h : ofDigit? n = some op) :
    op.digit = n := by
  unfold ofDigit? at h
  split at h
  case h_9 => cases h
  all_goals
    next hn => cases h; exact Fin.ext hn.symm

namespace Instruction

theorem encode_of_decode? {w : Word} {i : Instruction} (h : decode? w = some i) : i.encode = w := by
  unfold decode? at h
  split at h
  case h_1 hf =>
    split at h
    · next hw => cases h; exact hw.symm
    · split at h
      · next hw => cases h; exact hw.symm
      · cases h
  case h_6 hf | h_10 hf =>
    split at h
    · next hn =>
      cases h
      rw [encode, ← hn]
      exact Word.ofRegisters_fields (Fin.ext hf)
    · cases h
  case h_9 hf =>
    split at h
    · next hn =>
      cases h
      rw [encode, ← hn]
      exact Word.ofRegisters_fields (Fin.ext hf)
    · obtain ⟨op, hop, rfl⟩ := Option.map_eq_some_iff.mp h
      rw [encode, Alu.digit_of_ofDigit? hop]
      exact Word.ofRegisters_fields (Fin.ext hf)
  case h_14 hf => cases h; exact Word.ofRegisters_fields (Fin.ext hf)
  case h_15 hf =>
    split at h
    · next hk => cases h; exact Word.ofByte_fields (Fin.ext hf) (congrArg UInt8.toNat hk)
    · split at h
      · next hk => cases h; exact Word.ofByte_fields (Fin.ext hf) (congrArg UInt8.toNat hk)
      · cases h
  case h_16 =>
    have hf : w.family.val = 15 := by
      have hlt := w.family.isLt
      simp only [imp_false] at *
      omega
    unfold miscellaneous? at h
    split at h
    case h_10 => cases h
    all_goals
      next hk =>
        cases h
        exact Word.ofByte_fields (Fin.ext hf) hk
  case h_2 hf | h_3 hf | h_11 hf | h_12 hf => cases h; exact Word.ofAddress_fields (Fin.ext hf)
  all_goals
    next hf => cases h; exact Word.ofByte_fields (Fin.ext hf) rfl

theorem decode?_encode (i : Instruction) : decode? i.encode = some i := by
  cases i with
  | clear | ret => rfl
  | jump a | call a | loadIndex a | jumpOffset a =>
    simp only [encode, decode?, Word.family_ofAddress, Word.addr_ofAddress]
    rfl
  | skipEqual x o | skipUnequal x o | load x o =>
    cases o with
    | byte kk =>
      simp only [encode, decode?, Word.family_ofByte, Word.x_ofByte, Word.kk_ofByte]
      rfl
    | register y =>
      simp only [encode, decode?, Word.family_ofRegisters, Word.x_ofRegisters, Word.y_ofRegisters,
        Word.n_ofRegisters]
      rfl
  | alu op x y =>
    simp only [encode, decode?, Word.family_ofRegisters, Word.x_ofRegisters, Word.y_ofRegisters,
      Word.n_ofRegisters, Alu.ofDigit?_digit, Alu.digit_ne_zero, if_false]
    rfl
  | draw x y n =>
    simp only [encode, decode?, Word.family_ofRegisters, Word.x_ofRegisters, Word.y_ofRegisters,
      Word.n_ofRegisters]
    rfl
  | _ =>
    simp only [encode, decode?, miscellaneous?, Word.family_ofByte, Word.x_ofByte, Word.kk_ofByte]
    rfl

/-- A word stands for an instruction if and only if it is the one that encodes it. -/
theorem decode?_eq_some_iff {w : Word} {i : Instruction} : decode? w = some i ↔ w = i.encode :=
  ⟨fun h => (encode_of_decode? h).symm, fun h => h ▸ decode?_encode i⟩

end Instruction

end ChipEight
