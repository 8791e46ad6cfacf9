import R3000.Instr.Basic

/-!
# Decoding

The primary opcode is the top six bits.  Opcode 0 dispatches on the function field, opcode 1 on
the `rt` field and opcode 16 on the `rs` field; every other opcode names its operation itself.
-/

namespace R3000

namespace Op

def ofFunction : Nat → Op
  | 0x00 => .sll
  | 0x02 => .srl
  | 0x03 => .sra
  | 0x04 => .sllv
  | 0x06 => .srlv
  | 0x07 => .srav
  | 0x08 => .jr
  | 0x09 => .jalr
  | 0x0C => .syscall
  | 0x0D => .brk
  | 0x10 => .mfhi
  | 0x11 => .mthi
  | 0x12 => .mflo
  | 0x13 => .mtlo
  | 0x18 => .mult
  | 0x19 => .multu
  | 0x1A => .div
  | 0x1B => .divu
  | 0x20 => .add
  | 0x21 => .addu
  | 0x22 => .sub
  | 0x23 => .subu
  | 0x24 => .and
  | 0x25 => .or
  | 0x26 => .xor
  | 0x27 => .nor
  | 0x2A => .slt
  | 0x2B => .sltu
  | _ => .illegal

/-- Operations of opcode 1.  Bit 0 of the field selects the test, and the field's upper four bits
are 8 in the linking forms. -/
def ofTest (field : Nat) : Op :=
  match decide (field / 2 = 8), decide (field % 2 = 1) with
  | false, false => .bltz
  | false, true => .bgez
  | true, false => .bltzal
  | true, true => .bgezal

def ofControl (selector function : Nat) : Op :=
  match selector with
  | 0x00 => .mfc0
  | 0x04 => .mtc0
  | 0x10 => if function = 0x10 then .rfe else .illegal
  | _ => .illegal

def ofOpcode : Nat → Op
  | 0x02 => .j
  | 0x03 => .jal
  | 0x04 => .beq
  | 0x05 => .bne
  | 0x06 => .blez
  | 0x07 => .bgtz
  | 0x08 => .addi
  | 0x09 => .addiu
  | 0x0A => .slti
  | 0x0B => .sltiu
  | 0x0C => .andi
  | 0x0D => .ori
  | 0x0E => .xori
  | 0x0F => .lui
  | 0x11 | 0x12 | 0x13 => .cop
  | 0x20 => .lb
  | 0x21 => .lh
  | 0x22 => .lwl
  | 0x23 => .lw
  | 0x24 => .lbu
  | 0x25 => .lhu
  | 0x26 => .lwr
  | 0x28 => .sb
  | 0x29 => .sh
  | 0x2A => .swl
  | 0x2B => .sw
  | 0x2E => .swr
  | 0x30 | 0x31 | 0x32 | 0x33 | 0x38 | 0x39 | 0x3A | 0x3B => .copTransfer
  | _ => .illegal

def ofWord (w : Word) : Op :=
  let opcode := w.toNat >>> 26
  let function := w.toNat % 64
  if opcode = 0x00 then ofFunction function
  else if opcode = 0x01 then ofTest (Reg.ofField w 16)
  else if opcode = 0x10 then ofControl (Reg.ofField w 21) function
  else ofOpcode opcode

end Op

def Instr.decode (w : Word) : Instr :=
  { raw := w, op := Op.ofWord w }

def Instr.nop : Instr :=
  Instr.decode 0

end R3000
