import R3000.Memory.Width

/-!
# Program images

A header of `0x800` bytes with the entry point, the place of the text and the stack, followed by
the text.
-/

namespace R3000

structure ExeHeader where
  pc : Word
  gp : Word
  textAddr : Word
  textSize : Word
  stackBase : Word
  stackSize : Word
deriving DecidableEq, Repr

inductive ExeError
  | badMagic
  | truncated (textSize : Word) (size : Nat)
deriving DecidableEq, Repr

def ExeError.message : ExeError → String
  | .badMagic => "Not a PS-X EXE image"
  | .truncated textSize size =>
    "PS-X EXE truncated: text of " ++ toString textSize.toNat ++ " bytes, image has " ++
      toString size

namespace ExeHeader

def size : Nat := 0x800

def magic : Bytes := "PS-X EXE".toUTF8.data

def hasMagic (data : Bytes) : Bool :=
  data.extract 0 magic.size == magic

def wordAt (data : Bytes) (offset : Nat) : Word :=
  let byte := fun k => data.getD (offset + k) 0
  Word.ofBytes (byte 0) (byte 1) (byte 2) (byte 3)

def read (data : Bytes) : Except ExeError ExeHeader :=
  if data.size < size ∨ !hasMagic data then .error .badMagic
  else
    let header :=
      { pc := wordAt data 0x10
        gp := wordAt data 0x14
        textAddr := wordAt data 0x18
        textSize := wordAt data 0x1C
        stackBase := wordAt data 0x30
        stackSize := wordAt data 0x34 }
    if data.size < size + header.textSize.toNat then
      .error (.truncated header.textSize (data.size - size))
    else .ok header

def text (h : ExeHeader) (data : Bytes) : Bytes :=
  data.extract size (size + h.textSize.toNat)

def stackPointer? (h : ExeHeader) : Option Word :=
  if h.stackBase = 0 then none else some (h.stackBase + h.stackSize)

end ExeHeader

end R3000
