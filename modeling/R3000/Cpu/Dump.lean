import R3000.Cpu.State

/-!
# Register dumps

The diagnostic text of a processor: one line of control registers and eight lines of four
general registers.
-/

namespace R3000.Cpu

def labelled (name : String) (w : Word) : String :=
  name ++ "=" ++ Hex.address w

def registerText (c : Cpu) (r : Reg) : String :=
  let number := toString r.val
  labelled ("r" ++ number ++ String.ofList (List.replicate (2 - number.length) ' ')) (c.regs.cells.get r)

def dump (c : Cpu) : String :=
  let head := String.intercalate " "
    [labelled "pc" c.pc, labelled "hi" c.regs.hi, labelled "lo" c.regs.lo,
      labelled "sr" c.control.sr, labelled "cause" c.control.cause, labelled "epc" c.control.epc]
  let row := fun k : Fin 8 =>
    String.intercalate " " ((List.finRange 4).map fun j =>
      c.registerText (Reg.ofNumber (4 * k.val + j.val)))
  String.join ((head :: (List.finRange 8).map row).map (· ++ "\n"))

end R3000.Cpu
