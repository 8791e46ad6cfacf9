import R3000.Image.Huffman

/-!
# Inflating

A compressed stream is a sequence of blocks.  A block is stored as it is, or is a sequence of
literal bytes and of copies of earlier output, coded with a fixed code or with codes that the
block describes.  The output is preceded by zeros, so that a copy may start before its first byte.
-/

namespace R3000

namespace Inflate

abbrev Progress := Except GzipError (Bytes × BitCursor)

def lengthTable : Array (Nat × Nat) :=
  #[(3, 0), (4, 0), (5, 0), (6, 0), (7, 0), (8, 0), (9, 0), (10, 0), (11, 1), (13, 1), (15, 1),
    (17, 1), (19, 2), (23, 2), (27, 2), (31, 2), (35, 3), (43, 3), (51, 3), (59, 3), (67, 4),
    (83, 4), (99, 4), (115, 4), (131, 5), (163, 5), (195, 5), (227, 5), (258, 0)]

def distanceTable : Array (Nat × Nat) :=
  #[(1, 0), (2, 0), (3, 0), (4, 0), (5, 1), (7, 1), (9, 2), (13, 2), (17, 3), (25, 3), (33, 4),
    (49, 4), (65, 5), (97, 5), (129, 6), (193, 6), (257, 7), (385, 7), (513, 8), (769, 8),
    (1025, 9), (1537, 9), (2049, 10), (3073, 10), (4097, 11), (6145, 11), (8193, 12), (12289, 12),
    (16385, 13), (24577, 13)]

def extended (table : Array (Nat × Nat)) (symbol : Nat) (c : BitCursor) :
    Except GzipError (Nat × BitCursor) := do
  match table[symbol]? with
  | none => throw .corrupt
  | some (base, extra) =>
    let (more, c) ← c.bits extra
    return (base + more, c)

def copy (distance : Nat) : Nat → Bytes → Bytes
  | 0, out => out
  | count + 1, out =>
    let byte := if distance ≤ out.size then out.getD (out.size - distance) 0 else 0
    copy distance count (out.push byte)

/-- Read coded data up to the end of the block.  Every symbol takes at least one bit, so the bits
that are left bound the number of symbols. -/
def coded (literals distances : PrefixCode) : Nat → Bytes → BitCursor → Progress
  | 0, _, _ => .error .incomplete
  | fuel + 1, out, c => do
    let (symbol, c) ← literals.symbol c
    if symbol < 256 then coded literals distances fuel (out.push (UInt8.ofNat symbol)) c
    else if symbol = 256 then return (out, c)
    else
      let (count, c) ← extended lengthTable (symbol - 257) c
      let (symbol, c) ← distances.symbol c
      let (distance, c) ← extended distanceTable symbol c
      coded literals distances fuel (copy distance count out) c

def stored (out : Bytes) (c : BitCursor) : Progress := do
  let (count, c) ← c.align.bits 16
  let (complement, c) ← c.bits 16
  if count + complement ≠ 0xFFFF then throw .corrupt
  let (data, c) ← c.take count
  return (out ++ data, c)

def fixedLiterals : PrefixCode :=
  .ofLengths (List.replicate 144 8 ++ List.replicate 112 9 ++ List.replicate 24 7 ++
    List.replicate 8 8)

def fixedDistances : PrefixCode :=
  .ofLengths (List.replicate 32 5)

/-- The order in which the lengths of the code of code lengths are given. -/
def lengthOrder : List Nat :=
  [16, 17, 18, 0, 8, 7, 9, 6, 10, 5, 11, 4, 12, 3, 13, 2, 14, 1, 15]

def triples : Nat → BitCursor → Except GzipError (List Nat × BitCursor)
  | 0, c => .ok ([], c)
  | n + 1, c => do
    let (x, c) ← c.bits 3
    let (xs, c) ← triples n c
    return (x :: xs, c)

/-- Read `total` code lengths, runs of equal ones abbreviated.  The lengths read are kept last
first. -/
def readLengths (code : PrefixCode) (total : Nat) :
    Nat → List Nat → BitCursor → Except GzipError (List Nat × BitCursor)
  | 0, _, _ => .error .incomplete
  | fuel + 1, lengths, c =>
    if total < lengths.length then .error .corrupt
    else if lengths.length = total then .ok (lengths.reverse, c)
    else do
      let (symbol, c) ← code.symbol c
      let run := fun (value base extra : Nat) (c : BitCursor) => do
        let (more, c) ← c.bits extra
        readLengths code total fuel (List.replicate (base + more) value ++ lengths) c
      match symbol with
      | 16 =>
        match lengths with
        | [] => throw .corrupt
        | last :: _ => run last 3 2 c
      | 17 => run 0 3 3 c
      | 18 => run 0 11 7 c
      | n => readLengths code total fuel (n :: lengths) c

def readCodes (c : BitCursor) : Except GzipError (PrefixCode × PrefixCode × BitCursor) := do
  let (literalCount, c) ← c.bits 5
  let (distanceCount, c) ← c.bits 5
  let (orderCount, c) ← c.bits 4
  let literalCount := literalCount + 257
  let distanceCount := distanceCount + 1
  if 286 < literalCount ∨ 30 < distanceCount then throw .corrupt
  let (sizes, c) ← triples (orderCount + 4) c
  let sizeOf := fun symbol => ((lengthOrder.zip sizes).lookup symbol).getD 0
  let code := PrefixCode.ofLengths ((List.range 19).map sizeOf)
  if !code.complete then throw .corrupt
  let total := literalCount + distanceCount
  let (lengths, c) ← readLengths code total (total + 1) [] c
  let literals := PrefixCode.ofLengths (lengths.take literalCount)
  let distances := PrefixCode.ofLengths (lengths.drop literalCount)
  if !literals.usable || !distances.usable then throw .corrupt
  return (literals, distances, c)

def block (kind : Nat) (out : Bytes) (c : BitCursor) : Progress :=
  match kind with
  | 0 => stored out c
  | 1 => coded fixedLiterals fixedDistances c.left out c
  | 2 => do
    let (literals, distances, c) ← readCodes c
    coded literals distances c.left out c
  | _ => .error .corrupt

/-- Read blocks up to the last one.  The header of a block takes three bits. -/
def blocks : Nat → Bytes → BitCursor → Progress
  | 0, _, _ => .error .incomplete
  | fuel + 1, out, c => do
    let (last, c) ← c.bit
    let (kind, c) ← c.bits 2
    let (out, c) ← block kind out c
    if last = 1 then return (out, c) else blocks fuel out c

end Inflate

def inflate (c : BitCursor) : Inflate.Progress :=
  Inflate.blocks (c.left + 1) #[] c

end R3000
