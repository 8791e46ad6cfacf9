/-!
# Machine words

Registers, addresses and instruction words are 32 bits wide and their arithmetic wraps.  A word
is read as a signed number through `Word.toInt`, so the signed operations are stated on integers
and come back through `Word.ofInt`.
-/

namespace R3000

abbrev Word := UInt32

namespace Word

def toInt (w : Word) : Int :=
  if w.toNat < 0x80000000 then (w.toNat : Int) else (w.toNat : Int) - 0x100000000

def ofInt (i : Int) : Word :=
  UInt32.ofNat (i % 0x100000000).toNat

def signExtend8 (w : Word) : Word :=
  if w &&& 0x80 = 0 then w &&& 0xFF else w ||| 0xFFFFFF00

def signExtend16 (w : Word) : Word :=
  if w &&& 0x8000 = 0 then w &&& 0xFFFF else w ||| 0xFFFF0000

def addSigned? (a b : Word) : Option Word :=
  let sum := toInt a + toInt b
  if -0x80000000 ≤ sum ∧ sum < 0x80000000 then some (a + b) else none

def subSigned? (a b : Word) : Option Word :=
  let difference := toInt a - toInt b
  if -0x80000000 ≤ difference ∧ difference < 0x80000000 then some (a - b) else none

def shiftRightSigned (w : Word) (count : Nat) : Word :=
  ofInt (toInt w >>> count)

def ofBool (b : Bool) : Word :=
  if b then 1 else 0

def bit (n : Nat) : Word :=
  1 <<< UInt32.ofNat n

def any (w mask : Word) : Bool :=
  w &&& mask != 0

def bytes (w : Word) : List UInt8 :=
  [w.toUInt8, (w >>> 8).toUInt8, (w >>> 16).toUInt8, (w >>> 24).toUInt8]

def ofBytes (b0 b1 b2 b3 : UInt8) : Word :=
  b0.toUInt32 ||| (b1.toUInt32 <<< 8) ||| (b2.toUInt32 <<< 16) ||| (b3.toUInt32 <<< 24)

end Word

end R3000
