import R3000.Device.Peripherals
import R3000.Memory.Bank
import R3000.Memory.Region

/-!
# The address space

RAM, scratchpad and ROM with their tags, the devices, and the write-enable of RAM.  Bus accesses
(`read`, `write`) see devices and protection; `peek` and `poke` reach storage only and bypass
both.

A store into a word tagged as code clears the tag and sets off the watch, which tells the owner
of generated code that some of it may be out of date.  Enabling RAM writes again sets it off too,
since the words may have been replaced behind the isolated cache.
-/

namespace R3000

/-- Counts the events after which generated code may be out of date, and whether one is still
unanswered. -/
structure CodeWatch where
  count : Nat := 0
  raised : Bool := false
deriving DecidableEq, Inhabited

namespace CodeWatch

def fire (w : CodeWatch) : CodeWatch :=
  { count := w.count + 1, raised := true }

def answer (w : CodeWatch) : CodeWatch :=
  { w with raised := false }

end CodeWatch

structure AddressSpace where
  ram : Bank ramWords
  bios : Bank biosWords
  scratch : Bank scratchWords
  devices : Peripherals
  /-- RAM accepts writes; off while the cache is isolated. -/
  ramWritable : Bool
  watch : CodeWatch

namespace AddressSpace

def empty : AddressSpace :=
  { ram := Bank.blank ramWords
    bios := Bank.blank biosWords
    scratch := Bank.blank scratchWords
    devices := {}
    ramWritable := true
    watch := {} }

/-! ## Tags -/

def tags (m : AddressSpace) (addr : Word) : UInt8 :=
  let p := locate addr
  match p.region with
  | .ram => m.ram.tag p.index
  | .bios => m.bios.tag p.index
  | .scratch => m.scratch.tag p.index
  | _ => 0

def putTags (m : AddressSpace) (addr : Word) (t : UInt8) : AddressSpace :=
  let p := locate addr
  match p.region with
  | .ram => { m with ram := m.ram.setTag p.index t }
  | .bios => { m with bios := m.bios.setTag p.index t }
  | .scratch => { m with scratch := m.scratch.setTag p.index t }
  | _ => m

def setTag (m : AddressSpace) (addr : Word) (bits : UInt8) : AddressSpace :=
  let old := m.tags addr
  if old &&& bits = bits then m else m.putTags addr (old ||| bits)

def clearTag (m : AddressSpace) (addr : Word) (bits : UInt8) : AddressSpace :=
  m.putTags addr (m.tags addr &&& ~~~bits)

/-! ## Storage behind the bus -/

def peek (m : AddressSpace) (addr : Word) : Word :=
  let p := locate (alignDown addr)
  match p.region with
  | .ram => m.ram.word p.index
  | .bios => m.bios.word p.index
  | .scratch => m.scratch.word p.index
  | _ => 0

/-- Replace the storage word at an address, ROM included, without setting off the watch. -/
def poke (m : AddressSpace) (addr value : Word) : AddressSpace :=
  let p := locate (alignDown addr)
  match p.region with
  | .ram => { m with ram := m.ram.setWord p.index value }
  | .bios => { m with bios := m.bios.setWord p.index value }
  | .scratch => { m with scratch := m.scratch.setWord p.index value }
  | _ => m

def pokeAll (m : AddressSpace) (addr : Word) (words : List Word) : AddressSpace :=
  (words.foldl (fun (acc : AddressSpace × Word) w =>
    (acc.1.poke acc.2 w, acc.2 + 4)) (m, addr)).1

/-! ## Write protection -/

def setRamWritable (m : AddressSpace) (enabled : Bool) : AddressSpace :=
  let watch := if enabled && !m.ramWritable then m.watch.fire else m.watch
  { m with ramWritable := enabled, watch }

/-! ## Direct access to a region -/

def bufferRead (m : AddressSpace) (region : Region) (offset : Word) (width : Width) :
    Option Word :=
  match region with
  | .ram => if offset < ramSize then some (m.ram.load offset width) else none
  | .bios => if offset < biosSize then some (m.bios.load offset width) else none
  | .scratch => if offset < scratchSize then some (m.scratch.load offset width) else none
  | _ => none

def writeRam (m : AddressSpace) (offset : Word) (width : Width) (value : Word) : AddressSpace :=
  if m.ramWritable then
    let i := offset.toNat / 4
    let tag := m.ram.tag i
    let m := { m with ram := m.ram.store offset width value }
    if tag &&& Tag.code = 0 then m
    else { m with ram := m.ram.setTag i (tag &&& ~~~Tag.code), watch := m.watch.fire }
  else m

def writeScratch (m : AddressSpace) (offset : Word) (width : Width) (value : Word) :
    AddressSpace :=
  let i := offset.toNat / 4
  let tag := m.scratch.tag i
  let m := { m with scratch := m.scratch.store offset width value }
  if tag &&& Tag.code = 0 then m
  else { m with scratch := m.scratch.setTag i (tag &&& ~~~Tag.code), watch := m.watch.fire }

def bufferWritable (region : Region) (offset : Word) : Bool :=
  match region with
  | .ram => offset < ramSize
  | .scratch => offset < scratchSize
  | _ => false

def bufferStore (m : AddressSpace) (region : Region) (offset : Word) (width : Width)
    (value : Word) : AddressSpace :=
  match region with
  | .ram => m.writeRam offset width value
  | .scratch => m.writeScratch offset width value
  | _ => m

/-- Write to a storage region; nothing if it cannot be written or the offset lies outside it. -/
def bufferWrite (m : AddressSpace) (region : Region) (offset : Word) (width : Width)
    (value : Word) : Option AddressSpace :=
  if bufferWritable region offset then some (m.bufferStore region offset width value) else none

/-! ## Bus access -/

/-- Read at an address.  Only a device changes by being read. -/
def read (m : AddressSpace) (addr : Word) (width : Width) : Word × AddressSpace :=
  let p := locate addr
  match p.region with
  | .ram => (m.ram.load p.offset width, m)
  | .bios => (m.bios.load p.offset width, m)
  | .scratch => (m.scratch.load p.offset width, m)
  | .hardware =>
    let (value, devices) := m.devices.read p.offset width
    (value, { m with devices })
  | .parallelPort => (width.mask, m)
  | .unknown => (0, m)

/-- Write at an address.  ROM, the expansion window and unmapped addresses ignore it. -/
def write (m : AddressSpace) (addr : Word) (width : Width) (value : Word) : AddressSpace :=
  let p := locate addr
  match p.region with
  | .ram => m.writeRam p.offset width value
  | .scratch => m.writeScratch p.offset width value
  | .hardware => { m with devices := m.devices.write p.offset width value }
  | .bios | .parallelPort | .unknown => m

def readBytes (m : AddressSpace) (addr : Word) : Nat → Bytes → Bytes × AddressSpace
  | 0, out => (out, m)
  | size + 1, out =>
    let (value, m) := m.read addr .byte
    m.readBytes (addr + 1) size (out.push value.toUInt8)

def onConsole (m : AddressSpace) (f : Console → Console) : AddressSpace :=
  { m with devices := { m.devices with console := f m.devices.console } }

def resetDevices (m : AddressSpace) : AddressSpace :=
  { m with devices := {} }

end AddressSpace

end R3000
