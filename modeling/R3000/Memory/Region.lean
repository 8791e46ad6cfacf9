import R3000.Word

/-!
# Address map

Three segments alias one physical space: addresses below `0xC0000000` lose their top three bits.
The physical space holds 2 MB of RAM repeated four times, an expansion window that reads as all
ones, a 1 KB scratchpad, the device window and 512 KB of ROM.
-/

namespace R3000

inductive Region
  | ram
  | scratch
  | bios
  | hardware
  | parallelPort
  | unknown
deriving DecidableEq, Repr, Inhabited

/-! Sizes in bytes and in words. -/

def ramSize : Word := 0x00200000
def scratchSize : Word := 0x00000400
def biosSize : Word := 0x00080000

def ramWords : Nat := 0x00080000
def scratchWords : Nat := 0x00000100
def biosWords : Nat := 0x00020000

/-- Where an address leads: a region and a byte offset in it.  Outside the storage regions the
offset is the physical address, or counts from the start of the expansion window. -/
structure Place where
  region : Region
  offset : Word
deriving DecidableEq, Repr

namespace Place

def index (p : Place) : Nat :=
  p.offset.toNat / 4

end Place

def physical (addr : Word) : Word :=
  if addr < 0xC0000000 then addr &&& 0x1FFFFFFF else addr

def locate (addr : Word) : Place :=
  let phys := physical addr
  if phys < 0x00800000 then ⟨.ram, phys % ramSize⟩
  else if 0x1F800000 ≤ phys ∧ phys < 0x1F800400 then ⟨.scratch, phys - 0x1F800000⟩
  else if 0x1F801000 ≤ phys ∧ phys < 0x1F803000 then ⟨.hardware, phys⟩
  else if 0x1FC00000 ≤ phys ∧ phys < 0x1FC80000 then ⟨.bios, phys - 0x1FC00000⟩
  else if 0x1F000000 ≤ phys ∧ phys < 0x1F800000 then ⟨.parallelPort, phys - 0x1F000000⟩
  else ⟨.unknown, phys⟩

/-- The contents at this address never change after start. -/
def isRom (addr : Word) : Bool :=
  (locate addr).region == .bios

def compilable (addr : Word) : Bool :=
  addr &&& 3 == 0 &&
    match (locate addr).region with
    | .ram | .bios | .scratch => true
    | _ => false

def alignDown (addr : Word) : Word :=
  addr &&& 0xFFFFFFFC

def resetVector : Word := 0xBFC00000

/-! ## Tags

Each storage word carries a byte of tags: what the analysis found there, and which regions the
load or store at that address has been seen to touch. -/

namespace Tag

def delaySlot : UInt8 := 0x01
def code : UInt8 := 0x02
/-- Generated code may reach this instruction with register writes outstanding. -/
def unwritten : UInt8 := 0x04
def poll : UInt8 := 0x08
def ram : UInt8 := 0x10
def scratch : UInt8 := 0x20
def bios : UInt8 := 0x40
/-- The access touched a device or anything else. -/
def hardware : UInt8 := 0x80

def regions : UInt8 := 0xF0

end Tag

namespace Region

def name : Region → String
  | .ram => "Ram"
  | .scratch => "Scratch"
  | .bios => "Bios"
  | .hardware => "Hardware"
  | .parallelPort => "ParallelPort"
  | .unknown => "Unknown"

def ofName? (name : String) : Option Region :=
  ([.ram, .scratch, .bios, .hardware, .parallelPort, .unknown] : List Region).find?
    (·.name == name)

def tag : Region → UInt8
  | .ram => Tag.ram
  | .scratch => Tag.scratch
  | .bios => Tag.bios
  | _ => Tag.hardware

/-- The one storage region that all accesses recorded in the tags went to. -/
def ofTags (tags : UInt8) : Option Region :=
  let seen := tags &&& Tag.regions
  if seen = Tag.ram then some .ram
  else if seen = Tag.scratch then some .scratch
  else if seen = Tag.bios then some .bios
  else none

end Region

end R3000
