import R3000.Cpu.Access
import R3000.Instr.Evaluate

/-!
# Micro-operations

What a single instruction becomes in compiled code.  The common arithmetic has operations of its
own; everything else that is computable goes through `compute`.  A load or store whose
instruction has only ever touched one storage region is compiled to access that region directly,
and faults when the guess turns out wrong.
-/

namespace R3000

structure MemoryGuess where
  /-- The only region it has touched. -/
  region : Option Region := none
  poll : Bool := false
deriving DecidableEq, Repr, Inhabited

inductive Micro
  | set (d : Reg) (value : Word)
  | add (d s t : Reg)
  | addImm (d s : Reg) (imm : Word)
  | sub (d s t : Reg)
  | and (d s t : Reg)
  | or (d s t : Reg)
  | andImm (d s : Reg) (imm : Word)
  | orImm (d s : Reg) (imm : Word)
  | shiftLeft (d t : Reg) (count : Fin 32)
  | shiftRight (d t : Reg) (count : Fin 32)
  | less (d s t : Reg)
  /-- Any other computable instruction; faults on overflow. -/
  | compute (i : Instr) (d : Reg)
  | readHi (d : Reg)
  | readLo (d : Reg)
  | writeHi (s : Reg)
  | writeLo (s : Reg)
  | multiply (signed : Bool) (s t : Reg)
  | divide (signed : Bool) (s t : Reg)
  | readControl (t : Reg) (number : Reg)
  | restoreStatus
  | loadDirect (i : Instr) (region : Region)
  | loadBus (i : Instr) (poll : Bool)
  /-- A store to the guessed region; `watch` leaves when it changed code. -/
  | storeDirect (i : Instr) (region : Region) (pc : Word) (watch : Bool)
  | storeBus (i : Instr) (pc : Word) (watch : Bool)
  | resume (pc : Word)
deriving DecidableEq, Inhabited

namespace Op

def loadsWhole (op : Op) : Bool :=
  match op with
  | .lb | .lbu | .lh | .lhu | .lw => true
  | _ => false

def storesWhole (op : Op) : Bool :=
  match op with
  | .sb | .sh | .sw => true
  | _ => false

def extend (op : Op) (raw : Word) : Word :=
  match op with
  | .lb => Word.signExtend8 raw
  | .lh => Word.signExtend16 raw
  | _ => raw

end Op

namespace Instr

/-- The interpreter has to execute the instruction: it needs the complete state, is not valid, or
is a branch without a slot of its own. -/
def needsInterpreter (i : Instr) : Bool :=
  i.isBranch || i.has .completeState || i.has .invalid

/-- A computable instruction.  Without a destination only a trap can be seen. -/
def lowerComputable (i : Instr) : Option Micro :=
  match i.dest with
  | none => if i.has .mayOverflow then some (.compute i .zero) else none
  | some d =>
    some <| match i.op with
      | .addu => .add d i.rs i.rt
      | .addiu => .addImm d i.rs i.simm
      | .subu => .sub d i.rs i.rt
      | .and => .and d i.rs i.rt
      | .or => .or d i.rs i.rt
      | .andi => .andImm d i.rs i.imm
      | .ori => .orImm d i.rs i.imm
      | .lui => .set d (i.imm <<< 16)
      | .sll => .shiftLeft d i.rt i.shamt
      | .srl => .shiftRight d i.rt i.shamt
      | .sltu => .less d i.rs i.rt
      | _ => .compute i d

def lowerLoad (i : Instr) (guess : MemoryGuess) : Micro :=
  match guess.region with
  | some region =>
    if i.op.loadsWhole then .loadDirect i region else .loadBus i guess.poll
  | none => .loadBus i guess.poll

def lowerStore (i : Instr) (pc : Word) (region : Option Region) (watch : Bool) : Micro :=
  match region with
  | some .ram => if i.op.storesWhole then .storeDirect i .ram pc watch else .storeBus i pc watch
  | some .scratch =>
    if i.op.storesWhole then .storeDirect i .scratch pc watch else .storeBus i pc watch
  | _ => .storeBus i pc watch

/-- The micro-operation of an instruction at `pc` that is not a branch; none if the instruction
has no effect.  `watch` makes a store leave when it changed code. -/
def lower (i : Instr) (pc : Word) (guess : MemoryGuess) (watch : Bool) : Option Micro :=
  if i.has .completeState || i.has .invalid then some (.resume pc)
  else if i.has .computable then i.lowerComputable
  else if i.has .memoryRead then some (i.lowerLoad guess)
  else if i.has .memoryWrite then some (i.lowerStore pc guess.region watch)
  else
    some <| match i.op with
      | .mfhi => .readHi i.rd
      | .mflo => .readLo i.rd
      | .mthi => .writeHi i.rs
      | .mtlo => .writeLo i.rs
      | .mult => .multiply true i.rs i.rt
      | .multu => .multiply false i.rs i.rt
      | .div => .divide true i.rs i.rt
      | .divu => .divide false i.rs i.rt
      | .mfc0 => .readControl i.rt i.rd
      | .rfe => .restoreStatus
      | _ => .resume pc

end Instr

end R3000
