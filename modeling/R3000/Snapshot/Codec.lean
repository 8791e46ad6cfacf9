import R3000.Memory.Width

/-!
# Fixed byte layouts

A codec writes values of a type as bytes and reads them back from the front of a byte string.
Numbers are little-endian, and a truth value is one byte that is zero or one.
-/

namespace R3000

structure Codec (α : Type) where
  put : α → List UInt8
  get : List UInt8 → Option (α × List UInt8)

namespace Codec

variable {α β : Type}

def word : Codec Word where
  put := Word.bytes
  get
    | b0 :: b1 :: b2 :: b3 :: rest => some (Word.ofBytes b0 b1 b2 b3, rest)
    | _ => none

def flag : Codec Bool where
  put b := [if b then 1 else 0]
  get
    | 0 :: rest => some (false, rest)
    | 1 :: rest => some (true, rest)
    | _ => none

def pair (a : Codec α) (b : Codec β) : Codec (α × β) where
  put p := a.put p.1 ++ b.put p.2
  get s := do
    let (x, s) ← a.get s
    let (y, s) ← b.get s
    return ((x, y), s)

def iso (c : Codec α) (make : α → β) (take : β → α) : Codec β where
  put y := c.put (take y)
  get s := (c.get s).map fun (x, s) => (make x, s)

def getVector (c : Codec α) : (n : Nat) → List UInt8 → Option (Vector α n × List UInt8)
  | 0, s => some (#v[], s)
  | n + 1, s => do
    let (xs, s) ← c.getVector n s
    let (x, s) ← c.get s
    return (xs.push x, s)

def vector (c : Codec α) (n : Nat) : Codec (Vector α n) where
  put v := v.toList.flatMap c.put
  get := c.getVector n

def long : Codec UInt64 :=
  (word.pair word).iso
    (fun p => p.1.toUInt64 ||| (p.2.toUInt64 <<< 32))
    (fun n => (n.toUInt32, (n >>> 32).toUInt32))

end Codec

end R3000
