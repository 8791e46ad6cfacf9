import R3000.Image.Error

/-!
# Canonical prefix codes

A code is given by the length of each symbol's code word, zero for a symbol that has none.  Code
words of one length are consecutive numbers in the order of their symbols, and the numbers of a
length start after those of the shorter ones.
-/

namespace R3000

/-- A byte string read bit by bit, the least significant bit of each byte first. -/
structure BitCursor where
  data : Bytes
  pos : Nat

namespace BitCursor

def left (c : BitCursor) : Nat :=
  8 * c.data.size - c.pos

def bit (c : BitCursor) : Except GzipError (Nat × BitCursor) :=
  match c.data[c.pos / 8]? with
  | some byte => .ok (byte.toNat >>> (c.pos % 8) % 2, { c with pos := c.pos + 1 })
  | none => .error .incomplete

def bits (c : BitCursor) : Nat → Except GzipError (Nat × BitCursor)
  | 0 => .ok (0, c)
  | n + 1 => do
    let (low, c) ← c.bit
    let (high, c) ← c.bits n
    return (low + 2 * high, c)

def align (c : BitCursor) : BitCursor :=
  { c with pos := (c.pos + 7) / 8 * 8 }

def take (c : BitCursor) (n : Nat) : Except GzipError (Bytes × BitCursor) :=
  let start := c.pos / 8
  if start + n ≤ c.data.size then
    .ok (c.data.extract start (start + n), { c with pos := c.pos + 8 * n })
  else .error .incomplete

end BitCursor

structure PrefixCode where
  /-- How many code words there are of lengths 1 to 15. -/
  counts : List Nat
  symbols : Array Nat

namespace PrefixCode

def maxLength : Nat := 15

def ofLengths (lengths : List Nat) : PrefixCode :=
  let widths := (List.range maxLength).map (· + 1)
  { counts := widths.map (lengths.count ·)
    symbols := (widths.flatMap fun w => lengths.zipIdx.filterMap fun (n, symbol) =>
      if n = w then some symbol else none).toArray }

def mass (c : PrefixCode) : Nat :=
  c.counts.foldl (fun total n => 2 * total + n) 0

/-- Every long enough sequence of bits starts with one code word. -/
def complete (c : PrefixCode) : Bool :=
  c.mass == 1 <<< maxLength

/-- The code leaves no sequence of bits without a code word, or has at most one code word, of one
bit. -/
def usable (c : PrefixCode) : Bool :=
  c.complete || (c.symbols.size ≤ 1 && (c.counts.drop 1).all (· == 0))

/-- Read a code word.  `value` is what has been read, `first` the first code word of the previous
length that is not taken and `index` the number of shorter ones.  No more is read than the longest
code word has. -/
def walk (symbols : Array Nat) : List Nat → Nat → Nat → Nat → BitCursor →
    Except GzipError (Nat × BitCursor)
  | [], _, _, _, _ => .error .corrupt
  | count :: longer, value, first, index, c => do
    let (b, c) ← c.bit
    let value := 2 * value + b
    let first := 2 * first
    if value < first + count then
      match symbols[index + (value - first)]? with
      | some symbol => return (symbol, c)
      | none => throw .corrupt
    else if longer.all (· == 0) then throw .corrupt
    else walk symbols longer value (first + count) (index + count) c

def symbol (p : PrefixCode) (c : BitCursor) : Except GzipError (Nat × BitCursor) :=
  walk p.symbols p.counts 0 0 0 c

end PrefixCode

end R3000
