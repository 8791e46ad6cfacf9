import R3000.Instr.Basic

/-!
# Assembling

Statements for hand-written guest code.  Branch offsets count instructions from the delay slot,
as the hardware does; jump targets are absolute.  Register numbers below 32 and shift amounts
below 32 land in their own fields, so decoding gives the statement back.
-/

namespace R3000

/-- A statement with its operands, in the order the listing writes them; loads and stores take
register, offset, base. -/
inductive Statement
  | nop
  | sll (rd rt shamt : Word)
  | add (rd rs rt : Word)
  | addu (rd rs rt : Word)
  | subu (rd rs rt : Word)
  | or (rd rs rt : Word)
  | slt (rd rs rt : Word)
  | mult (rs rt : Word)
  | mflo (rd : Word)
  | jr (rs : Word)
  | jalr (rd rs : Word)
  | syscall
  | addi (rt rs : Word) (imm : UInt16)
  | addiu (rt rs : Word) (imm : UInt16)
  | andi (rt rs : Word) (imm : UInt16)
  | ori (rt rs : Word) (imm : UInt16)
  | lui (rt : Word) (imm : UInt16)
  | lw (rt : Word) (offset : UInt16) (base : Word)
  | lbu (rt : Word) (offset : UInt16) (base : Word)
  | sw (rt : Word) (offset : UInt16) (base : Word)
  | sh (rt : Word) (offset : UInt16) (base : Word)
  | sb (rt : Word) (offset : UInt16) (base : Word)
  | beq (rs rt : Word) (offset : UInt16)
  | bne (rs rt : Word) (offset : UInt16)
  | blez (rs : Word) (offset : UInt16)
  | bgtz (rs : Word) (offset : UInt16)
  | j (target : Word)
  | jal (target : Word)
  | mfc0 (rt rd : Word)
  | mtc0 (rt rd : Word)
  | rfe
deriving DecidableEq, Repr

namespace Statement

def register (rs rt rd shamt function : Word) : Word :=
  (rs <<< 21) ||| (rt <<< 16) ||| (rd <<< 11) ||| (shamt <<< 6) ||| function

def immediate (opcode rs rt : Word) (imm : UInt16) : Word :=
  (opcode <<< 26) ||| (rs <<< 21) ||| (rt <<< 16) ||| imm.toUInt32

def jump (opcode target : Word) : Word :=
  (opcode <<< 26) ||| ((target >>> 2) &&& 0x03FFFFFF)

def control (selector rt rd : Word) : Word :=
  ((0x10 : Word) <<< 26) ||| (selector <<< 21) ||| (rt <<< 16) ||| (rd <<< 11)

def encode : Statement → Word
  | .nop => 0
  | .sll rd rt shamt => register 0 rt rd shamt 0x00
  | .add rd rs rt => register rs rt rd 0 0x20
  | .addu rd rs rt => register rs rt rd 0 0x21
  | .subu rd rs rt => register rs rt rd 0 0x23
  | .or rd rs rt => register rs rt rd 0 0x25
  | .slt rd rs rt => register rs rt rd 0 0x2A
  | .mult rs rt => register rs rt 0 0 0x18
  | .mflo rd => register 0 0 rd 0 0x12
  | .jr rs => register rs 0 0 0 0x08
  | .jalr rd rs => register rs 0 rd 0 0x09
  | .syscall => 0x0000000C
  | .addi rt rs imm => immediate 0x08 rs rt imm
  | .addiu rt rs imm => immediate 0x09 rs rt imm
  | .andi rt rs imm => immediate 0x0C rs rt imm
  | .ori rt rs imm => immediate 0x0D rs rt imm
  | .lui rt imm => immediate 0x0F 0 rt imm
  | .lw rt offset base => immediate 0x23 base rt offset
  | .lbu rt offset base => immediate 0x24 base rt offset
  | .sw rt offset base => immediate 0x2B base rt offset
  | .sh rt offset base => immediate 0x29 base rt offset
  | .sb rt offset base => immediate 0x28 base rt offset
  | .beq rs rt offset => immediate 0x04 rs rt offset
  | .bne rs rt offset => immediate 0x05 rs rt offset
  | .blez rs offset => immediate 0x06 rs 0 offset
  | .bgtz rs offset => immediate 0x07 rs 0 offset
  | .j target => jump 0x02 target
  | .jal target => jump 0x03 target
  | .mfc0 rt rd => control 0x00 rt rd
  | .mtc0 rt rd => control 0x04 rt rd
  | .rfe => 0x42000010

/-- The statement that a name and its operands spell.  Immediates and offsets keep their low
sixteen bits. -/
def ofOperands? (name : String) (a b c : Word) : Option Statement :=
  match name with
  | "nop" => some .nop
  | "sll" => some (.sll a b c)
  | "add" => some (.add a b c)
  | "addu" => some (.addu a b c)
  | "subu" => some (.subu a b c)
  | "or" => some (.or a b c)
  | "slt" => some (.slt a b c)
  | "mult" => some (.mult a b)
  | "mflo" => some (.mflo a)
  | "jr" => some (.jr a)
  | "jalr" => some (.jalr a b)
  | "syscall" => some .syscall
  | "addi" => some (.addi a b c.toUInt16)
  | "addiu" => some (.addiu a b c.toUInt16)
  | "andi" => some (.andi a b c.toUInt16)
  | "ori" => some (.ori a b c.toUInt16)
  | "lui" => some (.lui a b.toUInt16)
  | "lw" => some (.lw a b.toUInt16 c)
  | "lbu" => some (.lbu a b.toUInt16 c)
  | "sw" => some (.sw a b.toUInt16 c)
  | "sh" => some (.sh a b.toUInt16 c)
  | "sb" => some (.sb a b.toUInt16 c)
  | "beq" => some (.beq a b c.toUInt16)
  | "bne" => some (.bne a b c.toUInt16)
  | "blez" => some (.blez a b.toUInt16)
  | "bgtz" => some (.bgtz a b.toUInt16)
  | "j" => some (.j a)
  | "jal" => some (.jal a)
  | "mfc0" => some (.mfc0 a b)
  | "mtc0" => some (.mtc0 a b)
  | "rfe" => some .rfe
  | _ => none

end Statement

end R3000
