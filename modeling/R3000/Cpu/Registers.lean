import R3000.Instr.Evaluate

/-!
# Register files

Thirty-two general registers with `hi` and `lo`.  Register 0 reads as zero and ignores writes,
whatever its cell holds; `set` and `get` are the only way instructions reach the cells.
-/

namespace R3000

structure Registers where
  cells : Vector Word 32 := Vector.replicate 32 0
  hi : Word := 0
  lo : Word := 0
deriving DecidableEq, Inhabited

namespace Registers

def get (f : Registers) (r : Reg) : Word :=
  if r.val = 0 then 0 else f.cells.get r

def set (f : Registers) (r : Reg) (value : Word) : Registers :=
  if r.val = 0 then f else { f with cells := Reg.update f.cells r value }

/-- Read by number: zero for number 0, any other number counts modulo 32. -/
def getNumber (f : Registers) (n : Nat) : Word :=
  if n = 0 then 0 else f.cells.get (Reg.ofNumber n)

/-- Write by number: number 0 is ignored, any other counts modulo 32. -/
def setNumber (f : Registers) (n : Nat) (value : Word) : Registers :=
  if n = 0 then f else { f with cells := Reg.update f.cells (Reg.ofNumber n) value }

def setHiLo (f : Registers) (p : HiLo) : Registers :=
  { f with hi := p.hi, lo := p.lo }

def setAll (f : Registers) (values : List (Reg × Word)) : Registers :=
  values.foldl (fun f p => f.set p.1 p.2) f

def withZeroCell (f : Registers) (w : Word) : Registers :=
  { f with cells := Reg.update f.cells .zero w }

end Registers

end R3000
