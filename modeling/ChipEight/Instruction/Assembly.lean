import ChipEight.Hex
import ChipEight.Instruction.Basic

/-!
# Assembly text

`Instruction.text` writes an instruction as a mnemonic and its operands: registers as `V` and one
digit, bytes as two digits, addresses as three, all in base sixteen. `DRW V1, V2, 5` is an example.
-/

namespace ChipEight

/-- A register as assembly text. -/
def registerText (x : Register) : String := "V" ++ Hex.padded 1 x

/-- A byte as assembly text. -/
def byteText (kk : UInt8) : String := Hex.padded 2 kk.toNat

/-- An address as assembly text. -/
def addressText (addr : Address) : String := Hex.padded 3 addr

/-- An operand as assembly text. -/
def Operand.text : Operand → String
  | .byte kk => byteText kk
  | .register y => registerText y

/-- The mnemonic of an operation on two registers. -/
def Alu.mnemonic : Alu → String
  | .or => "OR"
  | .and => "AND"
  | .xor => "XOR"
  | .add => "ADD"
  | .sub => "SUB"
  | .shr => "SHR"
  | .subn => "SUBN"
  | .shl => "SHL"

namespace Instruction

/-- The mnemonic of an instruction. -/
def mnemonic : Instruction → String
  | clear => "CLS"
  | ret => "RET"
  | jump _ | jumpOffset _ => "JP"
  | call _ => "CALL"
  | skipEqual .. => "SE"
  | skipUnequal .. => "SNE"
  | load .. | loadIndex _ | readDelay _ | waitKey _ | setDelay _ | setSound _ | glyph _ | decimal _
  | store _ | fetch _ => "LD"
  | addByte .. | addIndex _ => "ADD"
  | alu op .. => op.mnemonic
  | random .. => "RND"
  | draw .. => "DRW"
  | skipKey _ => "SKP"
  | skipNoKey _ => "SKNP"

/-- The operands of an instruction, in the order in which they are written. -/
def operandTexts : Instruction → List String
  | clear | ret => []
  | jump addr | call addr => [addressText addr]
  | skipEqual x operand | skipUnequal x operand | load x operand => [registerText x, operand.text]
  | addByte x kk | random x kk => [registerText x, byteText kk]
  | alu _ x y => [registerText x, registerText y]
  | loadIndex addr => ["I", addressText addr]
  | jumpOffset addr => ["V0", addressText addr]
  | draw x y n => [registerText x, registerText y, Hex.padded 1 n]
  | skipKey x | skipNoKey x => [registerText x]
  | readDelay x => [registerText x, "DT"]
  | waitKey x => [registerText x, "K"]
  | setDelay x => ["DT", registerText x]
  | setSound x => ["ST", registerText x]
  | addIndex x => ["I", registerText x]
  | glyph x => ["F", registerText x]
  | decimal x => ["B", registerText x]
  | store x => ["[I]", registerText x]
  | fetch x => [registerText x, "[I]"]

/-- The mnemonic, and behind a blank the operands with a comma and a blank between them. -/
def text (i : Instruction) : String :=
  match i.operandTexts with
  | [] => i.mnemonic
  | operands => i.mnemonic ++ " " ++ ", ".intercalate operands

end Instruction

end ChipEight
