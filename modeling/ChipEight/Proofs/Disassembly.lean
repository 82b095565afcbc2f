import ChipEight.Instruction.Assembly
import ChipEight.Instruction.Encode
import Mathlib.Algebra.Group.Nat.Defs

/-!
# Disassembly loses nothing

The text of an instruction can be assembled again (`assemble_text`). A text falls into its mnemonic
and its operands again because none of them holds a blank or a comma (`words_text`). An operand is
read for what it looks like: a register, a numeral by its digits, or a name. Numerals are written
with all their digits (`leftpad_digits`), so their length tells bytes from addresses, and nothing
that is a numeral is a register. The names of one letter that could be digits stand where no numeral
does.
-/

namespace ChipEight

/-! ### Numerals of fixed width -/

namespace Hex

/-- The last `width` digits of a number, most significant first. -/
def lastDigits : Nat → Nat → List (Fin 16)
  | 0, _ => []
  | width + 1, n => lastDigits width (n / 16) ++ [Fin.ofNat 16 n]

/-- The value of a digit. -/
def value? (c : Char) : Option (Fin 16) := (List.finRange 16).find? fun d => digit d = c

theorem value?_digit : ∀ d : Fin 16, value? (digit d) = some d := by decide

theorem mapM_value? (l : List (Fin 16)) : (l.map digit).mapM value? = some l := by
  induction l with
  | nil => rfl
  | cons d l ih => simp [ih, value?_digit]

theorem leftpad_concat (width : Nat) (l : List Char) (c : Char) :
    (l ++ [c]).leftpad (width + 1) '0' = l.leftpad width '0' ++ [c] := by
  rw [List.leftpad, List.leftpad, List.length_append, List.length_singleton, Nat.add_sub_add_right,
    List.append_assoc]

theorem leftpad_digits {width n : Nat} (h : n < 16 ^ (width + 1)) :
    (digits n).leftpad (width + 1) '0' = (lastDigits (width + 1) n).map digit := by
  induction width generalizing n with
  | zero =>
    have hn : n < 16 := h
    rw [digits_of_lt hn]
    simp [lastDigits, Fin.ofNat, Nat.mod_eq_of_lt hn, List.leftpad]
  | succ width ih =>
    have hdiv : n / 16 < 16 ^ (width + 1) := by
      rw [Nat.pow_succ] at h
      omega
    rw [lastDigits, List.map_append, ← ih hdiv]
    rcases Nat.lt_or_ge n 16 with hn | hn
    · -- one digit, so that all before it are filled up
      have hzero : digits (n / 16) = [] ++ ['0'] := by
        rw [Nat.div_eq_of_lt hn]
        exact digits_of_lt (by decide)
      have hdigit : digits n = [] ++ [digit (Fin.ofNat 16 n)] := by
        rw [digits_of_lt hn]
        simp only [Fin.ofNat, Nat.mod_eq_of_lt hn, List.nil_append]
      rw [hzero, hdigit, leftpad_concat, leftpad_concat]
      simp [List.leftpad, List.replicate_succ']
    · rw [digits_of_le hn, leftpad_concat]
      rfl

theorem toList_padded {width n : Nat} (h : n < 16 ^ (width + 1)) :
    (padded (width + 1) n).toList = (lastDigits (width + 1) n).map digit := by
  rw [padded, String.toList_ofList, leftpad_digits h]

/-- The byte that two digits make. -/
def byteOf (a b : Fin 16) : UInt8 := UInt8.ofNat (16 * a + b)

/-- The address that three digits make. -/
def addressOf (a b c : Fin 16) : Address := ⟨256 * a + 16 * b + c, by omega⟩

end Hex

/-! ### Reading operands -/

/-- An operand as it is read: a register, a numeral by its digits, or anything else. -/
inductive Token where
  | register (x : Register)
  | numeral (digits : List (Fin 16))
  | name (word : String)
  deriving DecidableEq

namespace Token

/-- Reads an operand. -/
def read (word : String) : Token :=
  match word.toList.mapM Hex.value? with
  | some digits => numeral digits
  | none =>
    match word.toList with
    | ['V', c] => (Hex.value? c).elim (name word) register
    | _ => name word

theorem read_registerText (x : Register) : read (registerText x) = register x := by
  have hlist : (registerText x).toList = ['V', Hex.digit x] := by
    rw [registerText, String.toList_append, Hex.toList_padded x.isLt]
    simp [Hex.lastDigits]
  have hnone : ['V', Hex.digit x].mapM Hex.value? = none := rfl
  simp only [read, hlist, hnone, Hex.value?_digit, Option.elim_some]

theorem read_padded {width n : Nat} (h : n < 16 ^ (width + 1)) :
    read (Hex.padded (width + 1) n) = numeral (Hex.lastDigits (width + 1) n) := by
  simp only [read, Hex.toList_padded h, Hex.mapM_value?]

theorem read_digit (n : Fin 16) : read (Hex.padded 1 n) = numeral [n] := by
  rw [read_padded n.isLt]
  simp [Hex.lastDigits]

theorem read_byteText (kk : UInt8) :
    ∃ a b, read (byteText kk) = numeral [a, b] ∧ Hex.byteOf a b = kk := by
  refine ⟨_, _, read_padded kk.toNat_lt, UInt8.toNat_inj.mp ?_⟩
  have := kk.toNat_lt
  rw [Hex.byteOf, UInt8.toNat_ofNat']
  show (16 * (kk.toNat / 16 % 16) + kk.toNat % 16) % 2 ^ 8 = kk.toNat
  omega

theorem read_addressText (addr : Address) :
    ∃ a b c, read (addressText addr) = numeral [a, b, c] ∧ Hex.addressOf a b c = addr := by
  refine ⟨_, _, _, read_padded addr.isLt, Fin.ext ?_⟩
  show 256 * (addr.val / 16 / 16 % 16) + 16 * (addr.val / 16 % 16) + addr.val % 16 = addr
  omega

/-- The value that an operand stands for. -/
def operand? : Token → Option Operand
  | register y => some (.register y)
  | numeral [a, b] => some (.byte (Hex.byteOf a b))
  | _ => none

theorem operand?_read (o : Operand) : operand? (read o.text) = some o := by
  cases o with
  | byte kk =>
    obtain ⟨a, b, hread, hkk⟩ := read_byteText kk
    rw [Operand.text, hread, operand?, hkk]
  | register y => rw [Operand.text, read_registerText, operand?]

end Token

/-! ### Assembling -/

/-- The operation with a mnemonic. -/
def Alu.ofMnemonic? (word : String) : Option Alu :=
  [or, and, xor, add, sub, shr, subn, shl].find? fun op => op.mnemonic = word

namespace Instruction

/-- The instruction with a mnemonic and operands. -/
def ofTokens? : String → List Token → Option Instruction
  | "CLS", [] => some clear
  | "RET", [] => some ret
  | "JP", [.numeral [a, b, c]] => some (jump (Hex.addressOf a b c))
  | "JP", [.register 0, .numeral [a, b, c]] => some (jumpOffset (Hex.addressOf a b c))
  | "CALL", [.numeral [a, b, c]] => some (call (Hex.addressOf a b c))
  | "SE", [.register x, o] => o.operand?.map (skipEqual x)
  | "SNE", [.register x, o] => o.operand?.map (skipUnequal x)
  | "RND", [.register x, .numeral [a, b]] => some (random x (Hex.byteOf a b))
  | "DRW", [.register x, .register y, .numeral [n]] => some (draw x y n)
  | "SKP", [.register x] => some (skipKey x)
  | "SKNP", [.register x] => some (skipNoKey x)
  | "LD", [.name "I", .numeral [a, b, c]] => some (loadIndex (Hex.addressOf a b c))
  | "LD", [.register x, .name "DT"] => some (readDelay x)
  | "LD", [.register x, .name "K"] => some (waitKey x)
  | "LD", [.name "DT", .register x] => some (setDelay x)
  | "LD", [.name "ST", .register x] => some (setSound x)
  | "LD", [.numeral [0xF], .register x] => some (glyph x)
  | "LD", [.numeral [0xB], .register x] => some (decimal x)
  | "LD", [.name "[I]", .register x] => some (store x)
  | "LD", [.register x, .name "[I]"] => some (fetch x)
  | "LD", [.register x, o] => o.operand?.map (load x)
  | "ADD", [.name "I", .register x] => some (addIndex x)
  | "ADD", [.register x, .numeral [a, b]] => some (addByte x (Hex.byteOf a b))
  | word, [.register x, .register y] => (Alu.ofMnemonic? word).map fun op => alu op x y
  | _, _ => none

theorem ofTokens?_read (i : Instruction) :
    ofTokens? i.mnemonic (i.operandTexts.map Token.read) = some i := by
  cases i with
  | clear | ret => rfl
  | jump addr | call addr | loadIndex addr | jumpOffset addr =>
    obtain ⟨a, b, c, hread, haddr⟩ := Token.read_addressText addr
    simp only [operandTexts, List.map, hread]
    rw [← haddr]
    rfl
  | skipEqual x o | skipUnequal x o =>
    simp only [operandTexts, List.map, Token.read_registerText]
    exact congrArg (Option.map _) (Token.operand?_read o)
  | load x o =>
    cases o with
    | byte kk =>
      obtain ⟨a, b, hread, hkk⟩ := Token.read_byteText kk
      simp only [operandTexts, List.map, Operand.text, hread, Token.read_registerText]
      rw [← hkk]
      rfl
    | register y =>
      simp only [operandTexts, List.map, Operand.text, Token.read_registerText]
      rfl
  | addByte x kk | random x kk =>
    obtain ⟨a, b, hread, hkk⟩ := Token.read_byteText kk
    simp only [operandTexts, List.map, hread, Token.read_registerText]
    rw [← hkk]
    rfl
  | alu op x y =>
    simp only [operandTexts, List.map, Token.read_registerText, mnemonic]
    cases op <;> rfl
  | draw x y n =>
    simp only [operandTexts, List.map, Token.read_registerText, Token.read_digit]
    rfl
  | _ =>
    simp only [operandTexts, List.map, Token.read_registerText]
    rfl

/-- The words of an assembly text: what stands between blanks, without commas. -/
def words (text : String) : List String :=
  ((text.toList.filter (· ≠ ',')).splitOn ' ').map String.ofList

/-- Whether a text is a word, so that it holds neither a blank nor a comma. -/
def isWord (text : String) : Bool := text.toList.all fun c => c ≠ ' ' && c ≠ ','

theorem isWord_mnemonic (i : Instruction) : isWord i.mnemonic = true := by
  cases i with
  | alu op x y =>
    cases op <;> simp only [mnemonic, Alu.mnemonic] <;> rfl
  | _ =>
    simp only [mnemonic]
    rfl

theorem isWord_padded {width n : Nat} (h : n < 16 ^ (width + 1)) :
    isWord (Hex.padded (width + 1) n) = true := by
  have hdigit : ∀ d : Fin 16, (Hex.digit d ≠ ' ' && Hex.digit d ≠ ',') = true := by decide
  rw [isWord, Hex.toList_padded h, List.all_map, List.all_eq_true]
  exact fun d _ => hdigit d

theorem isWord_registerText (x : Register) : isWord (registerText x) = true := by
  rw [isWord, registerText, String.toList_append, List.all_append, Bool.and_eq_true]
  exact ⟨rfl, isWord_padded x.isLt⟩

theorem isWord_operandTexts (i : Instruction) : ∀ word ∈ i.operandTexts, isWord word = true := by
  have hdigit (n : Fin 16) : isWord (Hex.padded 1 n) = true := isWord_padded n.isLt
  have hbyte (kk : UInt8) : isWord (byteText kk) = true := isWord_padded kk.toNat_lt
  have haddress (addr : Address) : isWord (addressText addr) = true := isWord_padded addr.isLt
  have hoperand (o : Operand) : isWord o.text = true := by
    cases o with
    | byte kk => exact hbyte kk
    | register y => exact isWord_registerText y
  have hname : ∀ name ∈ ["I", "V0", "DT", "K", "ST", "F", "B", "[I]"], isWord name = true := by
    decide
  simp only [List.forall_mem_cons] at hname
  cases i <;> simp [operandTexts, hdigit, hbyte, haddress, hoperand, hname, isWord_registerText]

theorem filter_intercalate (p : Char → Bool) (mark : List Char) (l : List (List Char)) :
    (mark.intercalate l).filter p = (mark.filter p).intercalate (l.map (List.filter p)) := by
  induction l with
  | nil => rw [List.map_nil, List.intercalate_nil, List.intercalate_nil, List.filter_nil]
  | cons a l ih =>
    cases l with
    | nil => simp only [List.map_cons, List.map_nil, List.intercalate_singleton]
    | cons b l =>
      rw [List.intercalate_cons_cons, List.filter_append, List.filter_append, ih]
      simp only [List.map_cons, List.intercalate_cons_cons]

theorem filter_text (i : Instruction) : i.text.toList.filter (· ≠ ',') =
    [' '].intercalate ((i.mnemonic :: i.operandTexts).map String.toList) := by
  have hword (word : String) (hw : isWord word = true) :
      word.toList.filter (· ≠ ',') = word.toList := by
    rw [List.filter_eq_self]
    intro c hc
    exact (Bool.and_eq_true_iff.mp (List.all_eq_true.mp hw c hc)).2
  have hmnemonic := hword _ (isWord_mnemonic i)
  have hoperands : (i.operandTexts.map String.toList).map (List.filter (· ≠ ',')) =
      i.operandTexts.map String.toList := by
    rw [List.map_map]
    exact List.map_congr_left fun word h => hword word (isWord_operandTexts i word h)
  unfold text
  cases hl : i.operandTexts with
  | nil => rw [hmnemonic, List.map_singleton, List.intercalate_singleton]
  | cons operand operands =>
    rw [hl] at hoperands
    simp only [String.toList_append, String.toList_intercalate, List.filter_append,
      filter_intercalate, hmnemonic, hoperands]
    simp only [List.map_cons, List.intercalate_cons_cons]
    rfl

theorem words_text (i : Instruction) : words i.text = i.mnemonic :: i.operandTexts := by
  have hword : ∀ word ∈ i.mnemonic :: i.operandTexts, isWord word = true :=
    List.forall_mem_cons.mpr ⟨isWord_mnemonic i, isWord_operandTexts i⟩
  have hblank : ∀ l ∈ (i.mnemonic :: i.operandTexts).map String.toList, ' ' ∉ l := by
    intro l hl hmem
    obtain ⟨word, hw, rfl⟩ := List.mem_map.mp hl
    have hne := List.all_eq_true.mp (hword word hw) ' ' hmem
    exact absurd hne (by decide)
  rw [words, filter_text, List.splitOn_intercalate ' ' hblank (List.cons_ne_nil _ _), List.map_map]
  simp

/-- The word that an assembly text stands for. -/
def assemble (text : String) : Option Word :=
  match words text with
  | [] => none
  | word :: operands => (ofTokens? word (operands.map Token.read)).map encode

theorem assemble_text (i : Instruction) : assemble i.text = some i.encode := by
  simp only [assemble, words_text, ofTokens?_read, Option.map_some]

/-- **Disassembly loses nothing.** The text of the instruction that a word stands for is assembled
to this word again, so that different words never have the same text. -/
theorem disassembly_loses_nothing :
    (∀ w i, decode? w = some i → assemble i.text = some w) ∧
    ∀ w w' i i', decode? w = some i → decode? w' = some i' → (i.text = i'.text ↔ w = w') := by
  have hassemble : ∀ w i, decode? w = some i → assemble i.text = some w := by
    intro w i hi
    rw [assemble_text, encode_of_decode? hi]
  refine ⟨hassemble, fun w w' i i' hi hi' => ⟨fun htext => ?_, fun hw => ?_⟩⟩
  · have hw := hassemble w i hi
    rw [htext, hassemble w' i' hi'] at hw
    exact (Option.some.inj hw).symm
  · rw [hw, hi'] at hi
    rw [Option.some.inj hi]

/-- A register and a byte with the same digit. -/
theorem assemble_load_four :
    decode? 0x8340 = some (load 3 (.register 4)) ∧ decode? 0x6304 = some (load 3 (.byte 4)) ∧
      assemble (load 3 (.register 4)).text = some 0x8340 ∧
      assemble (load 3 (.byte 4)).text = some 0x6304 ∧
      (load 3 (.register 4)).text ≠ (load 3 (.byte 4)).text := by
  have hregister : decode? 0x8340 = some (load 3 (.register 4)) := by decide
  have hbyte : decode? 0x6304 = some (load 3 (.byte 4)) := by decide
  obtain ⟨hassemble, htext⟩ := disassembly_loses_nothing
  refine ⟨hregister, hbyte, hassemble _ _ hregister, hassemble _ _ hbyte, ?_⟩
  exact fun h => absurd ((htext _ _ _ _ hregister hbyte).mp h) (by decide)

example : assemble "DRW V1, V2, 5" = some 0xD125 := by decide +kernel

end Instruction

end ChipEight
