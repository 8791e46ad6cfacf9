import R3000.Image.Inflate

/-!
# Compressed images

A header with optional fields, one compressed stream, and a trailer with the checksum and the
length of the contents.  What follows the trailer is ignored, and an image that does not start
as a compressed one does is taken as it is.
-/

namespace R3000

namespace Crc

/-- The polynomial of the cyclic redundancy check, reflected. -/
def polynomial : Word := 0xEDB88320

def shift (crc : Word) : Word :=
  if crc &&& 1 = 0 then crc >>> 1 else (crc >>> 1) ^^^ polynomial

def update (crc : Word) (data : Bytes) : Word :=
  data.foldl (fun crc byte => Nat.repeat shift 8 (crc ^^^ byte.toUInt32)) crc

def checksum (data : Bytes) : Word :=
  ~~~(update 0xFFFFFFFF data)

end Crc

namespace Gzip

/-! Bits of the header's flags. -/

def headerChecksum : UInt8 := 0x02
def extraField : UInt8 := 0x04
def nameField : UInt8 := 0x08
def commentField : UInt8 := 0x10
def reservedFlags : UInt8 := 0xE0

def fieldLimit : Nat := 65535

def hasMagic (data : Bytes) : Bool :=
  data[0]? == some 0x1F && data[1]? == some 0x8B

def skipText (data : Bytes) (pos : Nat) : Except GzipError Nat :=
  let size := ((data.extract pos data.size).takeWhile (· != 0)).size
  if fieldLimit < size then .error .fieldTooLong
  else if data.size ≤ pos + size then .error .truncated
  else .ok (pos + size + 1)

def half (data : Bytes) (pos : Nat) : Except GzipError Nat :=
  match data[pos]?, data[pos + 1]? with
  | some low, some high => .ok (low.toNat + 256 * high.toNat)
  | _, _ => .error .truncated

def skipExtra (data : Bytes) (pos : Nat) : Except GzipError Nat := do
  let next := pos + 2 + (← half data pos)
  if data.size < next then throw .truncated
  return next

/-- The place after the header's checksum, which covers the header up to it. -/
def skipChecksum (data : Bytes) (pos : Nat) : Except GzipError Nat := do
  let found ← half data pos
  if found ≠ (Crc.checksum (data.extract 0 pos)).toNat % 0x10000 then throw .badChecksum
  return pos + 2

def skipHeader (data : Bytes) : Except GzipError Nat := do
  if data.size < 10 then throw .truncated
  let flags := data.getD 3 0
  if data.getD 2 0 != 8 || flags &&& reservedFlags != 0 then throw .badHeader
  let field := fun (bit : UInt8) (skip : Bytes → Nat → Except GzipError Nat) (pos : Nat) =>
    if flags &&& bit != 0 then skip data pos else .ok pos
  let pos ← field extraField skipExtra 10
  let pos ← field nameField skipText pos
  let pos ← field commentField skipText pos
  field headerChecksum skipChecksum pos

def member (data : Bytes) : Except GzipError Bytes := do
  let start ← skipHeader data
  let (out, c) ← inflate { data, pos := 8 * start }
  let trailer := data.extract (c.align.pos / 8) data.size
  if trailer.size < 8 then throw .truncated
  if ExeHeader.wordAt trailer 0 ≠ Crc.checksum out ∨
      ExeHeader.wordAt trailer 4 ≠ UInt32.ofNat out.size then throw .badChecksum
  return out

end Gzip

def unpackImage (data : Bytes) : Except ImageError Bytes :=
  if Gzip.hasMagic data then (Gzip.member data).mapError .gzip else .ok data

end R3000
