import R3000.Device.Interface

/-!
# Console

A byte-wide terminal.  Characters from the host wait in `input` until the guest reads the data
register; bytes the guest writes collect in `output`.  The status register always shows the
transmitter ready, and the receiver ready while input waits.
-/

namespace R3000

structure Console where
  input : List UInt8 := []
  output : Bytes := #[]
deriving Inhabited

namespace Console

def receive (d : Console) (c : UInt8) : Console :=
  { d with input := d.input ++ [c] }

def put (d : Console) (c : UInt8) : Console :=
  { d with output := d.output.push c }

def takeOutput (d : Console) : Bytes × Console :=
  (d.output, { d with output := #[] })

instance : Device Console where
  read d offset :=
    if offset = 0 then
      match d.input with
      | [] => (0, d)
      | c :: rest => (c.toUInt32, { d with input := rest })
    else if offset = 4 then (if d.input.isEmpty then 1 else 3, d)
    else (0, d)
  write d offset value :=
    if offset = 0 then d.put value.toUInt8 else d

end Console

end R3000
