import R3000.Word

/-!
# Hexadecimal text

Addresses are written with eight lower-case digits, immediates with as few as they need.
-/

namespace R3000.Hex

def digits (n : Nat) : String :=
  String.ofList (Nat.toDigits 16 n)

/-- At least `width` digits, padded with zeros on the left. -/
def padded (width n : Nat) : String :=
  let ds := Nat.toDigits 16 n
  String.ofList (List.replicate (width - ds.length) '0' ++ ds)

def word (w : Word) : String :=
  padded 8 w.toNat

def address (w : Word) : String :=
  "0x" ++ word w

def immediate (w : Word) : String :=
  "0x" ++ digits w.toNat

def byte (b : UInt8) : String :=
  padded 2 b.toNat

def bytes (data : List UInt8) : String :=
  String.join (data.map byte)

end R3000.Hex
