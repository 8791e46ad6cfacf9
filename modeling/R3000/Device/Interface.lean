import R3000.Memory.Width

/-!
# Device registers

A device answers word accesses at byte offsets in its window; a read may change the device.
Narrower accesses go through the word that contains them: a read takes its part of that word, a
write sends the value shifted into place and zeros elsewhere.
-/

namespace R3000

class Device (δ : Type) where
  read : δ → Word → Word × δ
  write : δ → Word → Word → δ

namespace Device

variable {δ : Type} [Device δ]

def readAt (d : δ) (offset : Word) (width : Width) : Word × δ :=
  match width with
  | .word => Device.read d offset
  | _ =>
    let (whole, d) := Device.read d (offset &&& 0xFFFFFFFC)
    (width.extract whole offset, d)

def writeAt (d : δ) (offset : Word) (width : Width) (value : Word) : δ :=
  match width with
  | .word => Device.write d offset value
  | _ => Device.write d (offset &&& 0xFFFFFFFC) ((value &&& width.mask) <<< width.shift offset)

end Device

end R3000
