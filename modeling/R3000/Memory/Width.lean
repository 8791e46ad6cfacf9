import R3000.Word

/-!
# Access widths

A byte, halfword or word inside an aligned word.  `extract` takes the addressed part out and
`merge` puts a new value in its place, least significant byte at the lowest address.
-/

namespace R3000

inductive Width
  | byte
  | half
  | word
deriving DecidableEq, Repr, Inhabited

namespace Width

def size : Width → Nat
  | .byte => 1
  | .half => 2
  | .word => 4

/-- The width of an access of `n` bytes; every number but one and two means a word. -/
def ofSize : Nat → Width
  | 1 => .byte
  | 2 => .half
  | _ => .word

def mask : Width → Word
  | .byte => 0xFF
  | .half => 0xFFFF
  | .word => 0xFFFFFFFF

def shift (w : Width) (offset : Word) : Word :=
  match w with
  | .byte => (offset &&& 3) * 8
  | .half => (offset &&& 2) * 8
  | .word => 0

def aligned (w : Width) (addr : Word) : Bool :=
  addr.toNat % w.size == 0

def extract (w : Width) (whole offset : Word) : Word :=
  (whole >>> w.shift offset) &&& w.mask

/-- `whole` with the addressed part replaced by the low bits of `value`. -/
def merge (w : Width) (whole offset value : Word) : Word :=
  (whole &&& ~~~(w.mask <<< w.shift offset)) ||| ((value &&& w.mask) <<< w.shift offset)

end Width

abbrev Bytes := Array UInt8

end R3000
