import R3000.Device.Interface

/-!
# Interrupt lines

Eleven request lines.  The status register latches requests, and writing it keeps only the bits
written as one; the mask register selects which requests reach the processor.
-/

namespace R3000

structure Interrupts where
  stat : Word := 0
  mask : Word := 0
deriving DecidableEq, Inhabited

namespace Interrupts

def lines : Word := 0x7FF

def vblankLine : Nat := 0

def timerLine (n : Nat) : Nat := 4 + n

def raise (d : Interrupts) (line : Nat) : Interrupts :=
  { d with stat := d.stat ||| (Word.bit line &&& lines) }

def pending (d : Interrupts) : Bool :=
  Word.any d.stat d.mask

instance : Device Interrupts where
  read d offset :=
    (if offset = 0 then d.stat else if offset = 4 then d.mask else 0, d)
  write d offset value :=
    if offset = 0 then { d with stat := d.stat &&& value }
    else if offset = 4 then { d with mask := value &&& lines }
    else d

end Interrupts

end R3000
