/-!
# Operations of the MIPS-I instruction set

`Op` names the operation an instruction word selects.  What the analyses need to know about an
operation is its list of traits: which register fields it reads and writes, whether it transfers
control, whether its result can be computed from known inputs.
-/

namespace R3000

inductive Op
  | sll | srl | sra | sllv | srlv | srav
  | jr | jalr | syscall | brk
  | mfhi | mthi | mflo | mtlo
  | mult | multu | div | divu
  | add | addu | sub | subu | and | or | xor | nor | slt | sltu
  | bltz | bgez | bltzal | bgezal
  | j | jal | beq | bne | blez | bgtz
  | addi | addiu | slti | sltiu | andi | ori | xori | lui
  | mfc0 | mtc0 | rfe
  /-- Any operation of coprocessors 1 to 3. -/
  | cop
  | lb | lh | lwl | lw | lbu | lhu | lwr
  | sb | sh | swl | sw | swr
  | copTransfer
  | illegal
deriving DecidableEq, Repr, Inhabited

inductive Trait
  | readsRs
  | readsRt
  | writesRd
  | writesRt
  | link
  | branch
  | conditional
  | registerTarget
  | memoryRead
  | memoryWrite
  /-- The result is a function of the source registers. -/
  | computable
  /-- Must see the whole processor state. -/
  | completeState
  | invalid
  | readsHiLo
  | writesHiLo
  | mayOverflow
  | readsControl
  | exceptionReturn
deriving DecidableEq, Repr

/-! The trait lists of the instruction classes. -/

namespace Trait

def arithmetic : List Trait := [.readsRs, .readsRt, .writesRd, .computable]

def constantShift : List Trait := [.readsRt, .writesRd, .computable]

def immediate : List Trait := [.readsRs, .writesRt, .computable]

def load : List Trait := [.readsRs, .writesRt, .memoryRead]

def store : List Trait := [.readsRs, .readsRt, .memoryWrite]

def hiLoProduct : List Trait := [.readsRs, .readsRt, .writesHiLo]

def test : List Trait := [.readsRs, .branch, .conditional]

end Trait

namespace Op

def traits : Op → List Trait
  | .sll | .srl | .sra => Trait.constantShift
  | .sllv | .srlv | .srav => Trait.arithmetic
  | .jr => [.readsRs, .branch, .registerTarget]
  | .jalr => [.readsRs, .writesRd, .link, .branch, .registerTarget]
  | .syscall | .brk => [.completeState]
  | .mfhi | .mflo => [.writesRd, .readsHiLo]
  | .mthi | .mtlo => [.readsRs, .writesHiLo]
  | .mult | .multu | .div | .divu => Trait.hiLoProduct
  | .add | .sub => Trait.arithmetic ++ [.mayOverflow]
  | .addu | .subu | .and | .or | .xor | .nor | .slt | .sltu => Trait.arithmetic
  | .bltz | .bgez | .blez | .bgtz => Trait.test
  | .bltzal | .bgezal => Trait.test ++ [.link]
  | .j => [.branch]
  | .jal => [.branch, .link]
  | .beq | .bne => Trait.test ++ [.readsRt]
  | .addi => Trait.immediate ++ [.mayOverflow]
  | .addiu | .slti | .sltiu | .andi | .ori | .xori => Trait.immediate
  | .lui => [.writesRt, .computable]
  | .mfc0 => [.writesRt, .readsControl]
  | .mtc0 => [.readsRt, .completeState]
  | .rfe => [.exceptionReturn]
  | .cop | .copTransfer => [.completeState]
  | .lb | .lh | .lw | .lbu | .lhu => Trait.load
  | .lwl | .lwr => Trait.load ++ [.readsRt]
  | .sb | .sh | .swl | .sw | .swr => Trait.store
  | .illegal => [.completeState, .invalid]

def has (op : Op) (t : Trait) : Bool :=
  op.traits.contains t

def mnemonic : Op → String
  | .sll => "sll" | .srl => "srl" | .sra => "sra"
  | .sllv => "sllv" | .srlv => "srlv" | .srav => "srav"
  | .jr => "jr" | .jalr => "jalr" | .syscall => "syscall" | .brk => "break"
  | .mfhi => "mfhi" | .mthi => "mthi" | .mflo => "mflo" | .mtlo => "mtlo"
  | .mult => "mult" | .multu => "multu" | .div => "div" | .divu => "divu"
  | .add => "add" | .addu => "addu" | .sub => "sub" | .subu => "subu"
  | .and => "and" | .or => "or" | .xor => "xor" | .nor => "nor"
  | .slt => "slt" | .sltu => "sltu"
  | .bltz => "bltz" | .bgez => "bgez" | .bltzal => "bltzal" | .bgezal => "bgezal"
  | .j => "j" | .jal => "jal" | .beq => "beq" | .bne => "bne"
  | .blez => "blez" | .bgtz => "bgtz"
  | .addi => "addi" | .addiu => "addiu" | .slti => "slti" | .sltiu => "sltiu"
  | .andi => "andi" | .ori => "ori" | .xori => "xori" | .lui => "lui"
  | .mfc0 => "mfc0" | .mtc0 => "mtc0" | .rfe => "rfe"
  | .cop => "cop"
  | .lb => "lb" | .lh => "lh" | .lwl => "lwl" | .lw => "lw"
  | .lbu => "lbu" | .lhu => "lhu" | .lwr => "lwr"
  | .sb => "sb" | .sh => "sh" | .swl => "swl" | .sw => "sw" | .swr => "swr"
  | .copTransfer => "cop"
  | .illegal => ".word"

end Op

end R3000
