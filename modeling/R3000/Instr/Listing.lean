import R3000.Instr.Basic
import R3000.Text.Hex

/-!
# Instruction listings

Registers are written `r0` to `r31`, branch targets as absolute addresses, signed immediates in
decimal and logical immediates in hexadecimal.
-/

namespace R3000.Instr

def regText (r : Reg) : String :=
  "r" ++ toString r.val

def operands (name : String) (args : List String) : String :=
  name ++ " " ++ String.intercalate ", " args

def listing (i : Instr) (pc : Word) : String :=
  let name := i.op.mnemonic
  let rs := regText i.rs
  let rt := regText i.rt
  let rd := regText i.rd
  let target := Hex.address ((i.staticTarget pc).getD 0)
  let signed := toString (Word.toInt i.simm)
  match i.op with
  | .sll =>
    if i.raw = 0 then "nop" else operands name [rd, rt, toString i.shamt.val]
  | .srl | .sra => operands name [rd, rt, toString i.shamt.val]
  | .sllv | .srlv | .srav => operands name [rd, rt, rs]
  | .jr => operands name [rs]
  | .jalr => operands name [rd, rs]
  | .syscall | .brk | .rfe => name
  | .mfhi | .mflo => operands name [rd]
  | .mthi | .mtlo => operands name [rs]
  | .mult | .multu | .div | .divu => operands name [rs, rt]
  | .add | .addu | .sub | .subu | .and | .or | .xor | .nor | .slt | .sltu =>
    operands name [rd, rs, rt]
  | .bltz | .bgez | .bltzal | .bgezal | .blez | .bgtz => operands name [rs, target]
  | .beq | .bne => operands name [rs, rt, target]
  | .j | .jal => operands name [target]
  | .addi | .addiu | .slti | .sltiu => operands name [rt, rs, signed]
  | .andi | .ori | .xori => operands name [rt, rs, Hex.immediate i.imm]
  | .lui => operands name [rt, Hex.immediate i.imm]
  | .mfc0 | .mtc0 => operands name [rt, "cop0" ++ rd]
  | .lb | .lh | .lwl | .lw | .lbu | .lhu | .lwr | .sb | .sh | .swl | .sw | .swr =>
    operands name [rt, signed ++ "(" ++ rs ++ ")"]
  | .cop | .copTransfer =>
    operands (name ++ toString i.coprocessor.toNat) [Hex.address i.raw]
  | .illegal => operands name [Hex.address i.raw]

end R3000.Instr
