import R3000.Instr.Op
import R3000.Memory.Width

/-!
# Decoded instructions

An instruction is its word together with the operation the word selects; the register fields and
immediates are read off the word.  `reads` and `writes` are the register sets the generators rely
on, as masks whose bit `n` stands for register `n`.
-/

namespace R3000

abbrev Reg := Fin 32

namespace Reg

def ofNumber (n : Nat) : Reg :=
  ⟨n % 32, Nat.mod_lt n (by decide)⟩

def ofField (w : Word) (shift : Nat) : Reg :=
  ofNumber (w.toNat >>> shift)

def update {α : Type} (table : Vector α 32) (r : Reg) (a : α) : Vector α 32 :=
  table.set r a r.isLt

def mask (r : Reg) : Word :=
  Word.bit r.val

def allMask : Word := 0xFFFFFFFE

def nonzero : List Reg :=
  (List.finRange 32).tail

def zero : Reg := ofNumber 0

def gp : Reg := ofNumber 28

def sp : Reg := ofNumber 29

def fp : Reg := ofNumber 30

def ra : Reg := ofNumber 31

end Reg

structure Instr where
  raw : Word
  op : Op
deriving DecidableEq, Inhabited

namespace Instr

def rs (i : Instr) : Reg := Reg.ofField i.raw 21
def rt (i : Instr) : Reg := Reg.ofField i.raw 16
def rd (i : Instr) : Reg := Reg.ofField i.raw 11

def shamt (i : Instr) : Fin 32 := Reg.ofField i.raw 6

def imm (i : Instr) : Word := i.raw &&& 0xFFFF

def simm (i : Instr) : Word := Word.signExtend16 i.raw

def has (i : Instr) (t : Trait) : Bool := i.op.has t

def isBranch (i : Instr) : Bool := i.has .branch

def isMemory (i : Instr) : Bool := i.has .memoryRead || i.has .memoryWrite

def coprocessor (i : Instr) : Word := (i.raw >>> 26) &&& 3

def accessWidth (i : Instr) : Width :=
  match i.op with
  | .lb | .lbu | .sb => .byte
  | .lh | .lhu | .sh => .half
  | _ => .word

def dest (i : Instr) : Option Reg :=
  let written : Option Reg :=
    if i.has .writesRd then some i.rd
    else if i.has .writesRt then some i.rt
    else if i.has .link then some Reg.ra
    else none
  written.filter (· ≠ 0)

def staticTarget (i : Instr) (pc : Word) : Option Word :=
  match i.op with
  | .j | .jal => some (((pc + 4) &&& 0xF0000000) ||| ((i.raw &&& 0x03FFFFFF) * 4))
  | .beq | .bne | .blez | .bgtz | .bltz | .bgez | .bltzal | .bgezal =>
    some (pc + 4 + i.simm * 4)
  | _ => none

def reads (i : Instr) : Word :=
  if i.has .completeState then Reg.allMask
  else
    let fromRs := if i.has .readsRs then i.rs.mask else 0
    let fromRt := if i.has .readsRt then i.rt.mask else 0
    (fromRs ||| fromRt) &&& Reg.allMask

/-- The registers an instruction may change.  A call changes them all, since the callee may. -/
def writes (i : Instr) : Word :=
  if i.has .completeState || i.has .link then Reg.allMask
  else match i.dest with
    | some r => r.mask
    | none => 0

end Instr

end R3000
