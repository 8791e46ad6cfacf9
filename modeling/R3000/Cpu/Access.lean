import R3000.Cpu.Exception
import R3000.Instr.Basic
import R3000.Memory.Space

/-!
# Loads and stores

What each load and store does to memory and which addresses it refuses.  The four unaligned
operations access the aligned word that contains the address and combine it with the register:
`lwr` and `swr` handle the bytes from the address up, `lwl` and `swl` those from the address down.
-/

namespace R3000

namespace Op

def alignmentFault (op : Op) (addr : Word) : Option Exception :=
  match op with
  | .lh | .lhu => if Word.any addr 1 then some (.addressLoad addr) else none
  | .lw => if Word.any addr 3 then some (.addressLoad addr) else none
  | .sh => if Word.any addr 1 then some (.addressStore addr) else none
  | .sw => if Word.any addr 3 then some (.addressStore addr) else none
  | _ => none

/-- The upper bytes of a register from the lower bytes of a word. -/
def mergeLeft (addr word current : Word) : Word :=
  match (addr &&& 3).toNat with
  | 0 => (current &&& 0x00FFFFFF) ||| (word <<< (24 : Word))
  | 1 => (current &&& 0x0000FFFF) ||| (word <<< (16 : Word))
  | 2 => (current &&& 0x000000FF) ||| (word <<< (8 : Word))
  | _ => word

/-- The lower bytes of a register from the upper bytes of a word. -/
def mergeRight (addr word current : Word) : Word :=
  match (addr &&& 3).toNat with
  | 0 => word
  | 1 => (current &&& 0xFF000000) ||| (word >>> (8 : Word))
  | 2 => (current &&& 0xFFFF0000) ||| (word >>> (16 : Word))
  | _ => (current &&& 0xFFFFFF00) ||| (word >>> (24 : Word))

/-- The lower bytes of a word from the upper bytes of a register. -/
def spillLeft (addr word value : Word) : Word :=
  match (addr &&& 3).toNat with
  | 0 => (word &&& 0xFFFFFF00) ||| (value >>> (24 : Word))
  | 1 => (word &&& 0xFFFF0000) ||| (value >>> (16 : Word))
  | 2 => (word &&& 0xFF000000) ||| (value >>> (8 : Word))
  | _ => value

/-- The upper bytes of a word from the lower bytes of a register. -/
def spillRight (addr word value : Word) : Word :=
  match (addr &&& 3).toNat with
  | 0 => value
  | 1 => (word &&& 0x000000FF) ||| (value <<< (8 : Word))
  | 2 => (word &&& 0x0000FFFF) ||| (value <<< (16 : Word))
  | _ => (word &&& 0x00FFFFFF) ||| (value <<< (24 : Word))

end Op

namespace AddressSpace

/-- The value a load gives its register, whose old contents are `current`. -/
def loadAs (m : AddressSpace) (op : Op) (addr current : Word) : Word × AddressSpace :=
  match op with
  | .lb => (m.read addr .byte).map Word.signExtend8 id
  | .lbu => m.read addr .byte
  | .lh => (m.read addr .half).map Word.signExtend16 id
  | .lhu => m.read addr .half
  | .lw => m.read addr .word
  | .lwl => (m.read (alignDown addr) .word).map (Op.mergeLeft addr · current) id
  | .lwr => (m.read (alignDown addr) .word).map (Op.mergeRight addr · current) id
  | _ => (current, m)

def storeAs (m : AddressSpace) (op : Op) (addr value : Word) : AddressSpace :=
  match op with
  | .sb => m.write addr .byte value
  | .sh => m.write addr .half value
  | .sw => m.write addr .word value
  | .swl =>
    let (word, m) := m.read (alignDown addr) .word
    m.write (alignDown addr) .word (Op.spillLeft addr word value)
  | .swr =>
    let (word, m) := m.read (alignDown addr) .word
    m.write (alignDown addr) .word (Op.spillRight addr word value)
  | _ => m

end AddressSpace

end R3000
