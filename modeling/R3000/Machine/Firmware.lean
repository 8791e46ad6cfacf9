import R3000.Instr.Assemble
import R3000.Memory.Space

/-!
# Built-in firmware

Guest code for a machine without a ROM image.  Firmware calls arrive at three vectors with the
number of the function in register 9.  Function `0x3C` of the first and function `0x3D` of the
second vector write the character in register 4 to the console; every other call returns zero.
-/

namespace R3000

namespace Firmware

/-- Write a character if the call is for this function, else return zero. -/
def putCharacter (function : UInt16) : List Statement :=
  [.addiu 8 0 function, .bne 9 8 3, .lui 8 0x1F80, .jr 31, .sb 4 0x2080 8, .jr 31, .addu 2 0 0]

def code : List (Word × List Statement) :=
  [(0x800000A0, [.j 0x80000500, .nop]),
    (0x800000B0, [.j 0x80000540, .nop]),
    (0x800000C0, [.jr 31, .addu 2 0 0]),
    (0x80000500, putCharacter 0x3C),
    (0x80000540, putCharacter 0x3D)]

end Firmware

def AddressSpace.installFirmware (m : AddressSpace) : AddressSpace :=
  Firmware.code.foldl (fun m (base, part) => m.pokeAll base (part.map Statement.encode)) m

end R3000
