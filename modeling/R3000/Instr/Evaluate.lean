import R3000.Instr.Basic

/-!
# Results of instructions

The arithmetic of the instruction set as functions of register values: the computable
instructions, the products and quotients that go to `hi` and `lo`, and the branch conditions.
The interpreter and the generated code share these definitions.
-/

namespace R3000

/-- The value a computable instruction produces.  There is none for any other instruction, and
none when a trapping addition or subtraction overflows. -/
def Instr.evaluate (i : Instr) (reg : Reg → Word) : Option Word :=
  let rs := reg i.rs
  let rt := reg i.rt
  match i.op with
  | .sll => some (rt <<< UInt32.ofNat i.shamt.val)
  | .srl => some (rt >>> UInt32.ofNat i.shamt.val)
  | .sra => some (Word.shiftRightSigned rt i.shamt.val)
  | .sllv => some (rt <<< (rs &&& 0x1F))
  | .srlv => some (rt >>> (rs &&& 0x1F))
  | .srav => some (Word.shiftRightSigned rt (rs &&& 0x1F).toNat)
  | .add => Word.addSigned? rs rt
  | .addu => some (rs + rt)
  | .sub => Word.subSigned? rs rt
  | .subu => some (rs - rt)
  | .and => some (rs &&& rt)
  | .or => some (rs ||| rt)
  | .xor => some (rs ^^^ rt)
  | .nor => some (~~~(rs ||| rt))
  | .slt => some (Word.ofBool (Word.toInt rs < Word.toInt rt))
  | .sltu => some (Word.ofBool (rs < rt))
  | .addi => Word.addSigned? rs i.simm
  | .addiu => some (rs + i.simm)
  | .slti => some (Word.ofBool (Word.toInt rs < Word.toInt i.simm))
  | .sltiu => some (Word.ofBool (rs < i.simm))
  | .andi => some (rs &&& i.imm)
  | .ori => some (rs ||| i.imm)
  | .xori => some (rs ^^^ i.imm)
  | .lui => some (i.imm <<< 16)
  | _ => none

/-- The two halves of a product or of a division: remainder or upper half in `hi`, quotient or
lower half in `lo`. -/
structure HiLo where
  hi : Word
  lo : Word
deriving DecidableEq, Inhabited

namespace HiLo

def multiply (signed : Bool) (a b : Word) : HiLo :=
  let product : Int :=
    if signed then Word.toInt a * Word.toInt b else (a.toNat : Int) * (b.toNat : Int)
  { hi := Word.ofInt (product / 0x100000000), lo := Word.ofInt product }

/-- Remainder and quotient, rounding toward zero.  A zero divisor leaves the dividend as the
remainder and a quotient of all ones, or of one for a negative dividend. -/
def divide (signed : Bool) (n d : Word) : HiLo :=
  if d = 0 then
    { hi := n, lo := if signed && Word.toInt n < 0 then 1 else 0xFFFFFFFF }
  else if signed then
    { hi := Word.ofInt ((Word.toInt n).tmod (Word.toInt d))
      lo := Word.ofInt ((Word.toInt n).tdiv (Word.toInt d)) }
  else
    { hi := n % d, lo := n / d }

end HiLo

/-- The condition of a branch.  Unconditional branches are always taken. -/
def Op.taken (op : Op) (rs rt : Word) : Bool :=
  match op with
  | .beq => rs == rt
  | .bne => rs != rt
  | .blez => Word.toInt rs ≤ 0
  | .bgtz => 0 < Word.toInt rs
  | .bltz | .bltzal => Word.toInt rs < 0
  | .bgez | .bgezal => 0 ≤ Word.toInt rs
  | _ => true

end R3000
