/-!
# Bytes as text

A character is one byte below 128, or a first byte and up to three further ones.  The bytes of a
character that is broken off are replaced together by one mark, and a byte that neither begins a
character nor goes on with one is replaced by a mark of its own.
-/

namespace R3000.Text

def replacement : Char := '\uFFFD'

structure ByteRange where
  first : UInt8
  last : UInt8
deriving DecidableEq, Repr

namespace ByteRange

def contains (r : ByteRange) (b : UInt8) : Bool :=
  r.first ≤ b && b ≤ r.last

def further : ByteRange := ⟨0x80, 0xBF⟩

/-- The ranges of the bytes after a first byte; none for a byte that begins no character of more
than one byte.  The second byte excludes characters that have a shorter form, surrogates, and
numbers above the last character. -/
def after (b : UInt8) : List ByteRange :=
  if b < 0xC2 then []
  else if b < 0xE0 then [further]
  else if b < 0xF0 then
    let second : ByteRange :=
      if b = 0xE0 then ⟨0xA0, 0xBF⟩ else if b = 0xED then ⟨0x80, 0x9F⟩ else further
    [second, further]
  else if b < 0xF5 then
    let second : ByteRange :=
      if b = 0xF0 then ⟨0x90, 0xBF⟩ else if b = 0xF4 then ⟨0x80, 0x8F⟩ else further
    [second, further, further]
  else []

end ByteRange

/-- The text so far and the character that is being read. -/
structure Decoder where
  text : String := ""
  value : Nat := 0
  /-- The bytes that the character still needs; none if no character is begun. -/
  needs : List ByteRange := []

namespace Decoder

def start (d : Decoder) (b : UInt8) : Decoder :=
  if b < 0x80 then { d with text := d.text.push (Char.ofNat b.toNat) }
  else
    match ByteRange.after b with
    | [] => { d with text := d.text.push replacement }
    | [r] => { d with value := b.toNat % 32, needs := [r] }
    | [r, s] => { d with value := b.toNat % 16, needs := [r, s] }
    | needs => { d with value := b.toNat % 8, needs }

def read (d : Decoder) (b : UInt8) : Decoder :=
  match d.needs with
  | [] => d.start b
  | r :: needs =>
    if r.contains b then
      let value := 64 * d.value + b.toNat % 64
      if needs.isEmpty then { d with text := d.text.push (Char.ofNat value), needs }
      else { d with value, needs }
    else { d with text := d.text.push replacement, needs := [] }.start b

def finish (d : Decoder) : String :=
  if d.needs.isEmpty then d.text else d.text.push replacement

end Decoder

def decode (bytes : Array UInt8) : String :=
  (bytes.foldl Decoder.read {}).finish

end R3000.Text
