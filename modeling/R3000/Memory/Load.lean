import R3000.Memory.Space
import R3000.Text.Hex

/-!
# Loading images

A ROM image, a binary placed in RAM, and the whole contents of RAM.  Loading a binary clears the
tags of its words, replacing all of RAM clears all its tags.  What is refused is reported with the
memory as it is then.
-/

namespace R3000

inductive LoadError
  | romTooLarge (size : Nat)
  | binaryDoesNotFit (size : Nat) (addr : Word)
  | ramSizeMismatch (size : Nat)
deriving DecidableEq, Repr

def LoadError.message : LoadError → String
  | .romTooLarge size => "BIOS image too large: " ++ toString size ++ " bytes"
  | .binaryDoesNotFit size addr =>
    "Binary of " ++ toString size ++ " bytes at " ++ Hex.address addr ++ " does not fit in RAM"
  | .ramSizeMismatch size =>
    "RAM image has " ++ toString size ++ " bytes, expected " ++ toString ramSize.toNat

namespace AddressSpace

def loadBios (m : AddressSpace) (data : Bytes) : AddressSpace × Option LoadError :=
  if biosSize.toNat < data.size then (m, some (.romTooLarge data.size))
  else ({ m with bios := m.bios.storeBytes 0 data }, none)

def loadBinary (m : AddressSpace) (data : Bytes) (addr : Word) : AddressSpace × Option LoadError :=
  let p := locate addr
  if p.region = .ram ∧ p.offset.toNat + data.size ≤ ramSize.toNat then
    let ram := (m.ram.storeBytes p.offset data).clearTags p.index ((data.size + 3) / 4)
    ({ m with ram }, none)
  else (m, some (.binaryDoesNotFit data.size addr))

def ramBytes (m : AddressSpace) : Bytes :=
  m.ram.bytes

def restoreRam (m : AddressSpace) (data : Bytes) : AddressSpace × Option LoadError :=
  if data.size = ramSize.toNat then ({ m with ram := Bank.ofBytes ramWords data }, none)
  else (m, some (.ramSizeMismatch data.size))

end AddressSpace

end R3000
