import R3000.Memory.Width

/-!
# Storage banks

A bank is a fixed number of words, each with a byte of tags.  Reads outside the bank give zero
and writes outside it do nothing, so every operation is total; the address map never produces
such an index.
-/

namespace R3000

structure Bank (n : Nat) where
  words : Vector Word n
  tags : Vector UInt8 n

namespace Bank

variable {n : Nat}

def blank (n : Nat) : Bank n :=
  { words := Vector.replicate n 0, tags := Vector.replicate n 0 }

def word (b : Bank n) (i : Nat) : Word :=
  if h : i < n then b.words[i] else 0

def tag (b : Bank n) (i : Nat) : UInt8 :=
  if h : i < n then b.tags[i] else 0

def setWord (b : Bank n) (i : Nat) (w : Word) : Bank n :=
  if h : i < n then { b with words := b.words.set i w h } else b

def setTag (b : Bank n) (i : Nat) (t : UInt8) : Bank n :=
  if h : i < n then { b with tags := b.tags.set i t h } else b

def store (b : Bank n) (offset : Word) (width : Width) (value : Word) : Bank n :=
  let i := offset.toNat / 4
  b.setWord i (width.merge (b.word i) offset value)

def load (b : Bank n) (offset : Word) (width : Width) : Word :=
  width.extract (b.word (offset.toNat / 4)) offset

def storeBytes (b : Bank n) (offset : Word) (data : Bytes) : Bank n :=
  (data.foldl (fun (acc : Bank n × Word) byte =>
    (acc.1.store acc.2 .byte byte.toUInt32, acc.2 + 1)) (b, offset)).1

def clearTags (b : Bank n) (start count : Nat) : Bank n :=
  (List.range count).foldl (fun b k => b.setTag (start + k) 0) b

def bytes (b : Bank n) : Bytes :=
  b.words.toArray.foldl (fun out w => out ++ Word.bytes w) (Array.mkEmpty (4 * n))

/-- The bank whose bytes are given, with no tags.  Missing bytes count as zero. -/
def ofBytes (n : Nat) (data : Bytes) : Bank n :=
  let byte := fun i => data.getD i 0
  { words := Vector.ofFn fun i : Fin n =>
      Word.ofBytes (byte (4 * i)) (byte (4 * i + 1)) (byte (4 * i + 2)) (byte (4 * i + 3))
    tags := Vector.replicate n 0 }

end Bank

end R3000
